/-
MoVeBench/DiskAnn/VectorText.lean

Vectors from text such as `[1,2,3]` (`detectTextVectorParameters` and
`vectorParseSqliteText` of `vector.c`).

The memory of the vector is allocated for the dimension that the detector finds, and
filled by the parser.  The detector counts the commas of the whole text, and one more if
there is a digit anywhere; the parser hands what stands between the commas to `strtod`,
and ends at the first byte that is zero.

* `numbers` is what stands between the brackets, cut at the commas.  The parser writes an
  element for each of the numbers, or fewer than there are commas and one
  (`parseElems_closed`).
* The two agree on a text exactly if `DimsCounted` (`vectorParseSqliteText_safe_iff`):
  they do not on `[inf]`, which has no digit, nor where a digit or a comma hides behind a
  zero byte.
-/
import MoVeBench.DiskAnn.Params
import MoVeBench.DiskAnn.Store

namespace MoVeBench

/-! ### Characters -/

/-- `','`. -/
abbrev comma : UInt8 := 0x2c

/-- `'['`. -/
abbrev openBracket : UInt8 := 0x5b

/-- `']'`. -/
abbrev closeBracket : UInt8 := 0x5d

/-- `sqlite4Isspace`, and `isspace` of the C locale. -/
def isSpace (x : UInt8) : Bool := (0x09 ≤ x && x ≤ 0x0d) || x == 0x20

/-- `sqlite4Isdigit`. -/
def isDigit (x : UInt8) : Bool := 0x30 ≤ x && x ≤ 0x39

/-- `tolower`. -/
def toLower (x : UInt8) : UInt8 := if 0x41 ≤ x ∧ x ≤ 0x5a then x + 0x20 else x

/-- The characters of a message. -/
def textOf (s : List UInt8) : String := String.ofList (s.map fun x => Char.ofNat x.toNat)

/-- `strtod` finds a number at the beginning of `s` (`endptr` is not `s`): after blanks
and a sign, a digit, perhaps behind a decimal point, or `inf` or `nan` in any case. -/
def strtodConverts (s : List UInt8) : Bool :=
  let s := s.dropWhile isSpace
  let s := if s.headD 0 = 0x2b ∨ s.headD 0 = 0x2d then s.tail else s
  isDigit (s.headD 0) || (s.headD 0 == 0x2e && isDigit (s.tail.headD 0)) ||
    (s.take 3).map toLower == [0x69, 0x6e, 0x66] || (s.take 3).map toLower == [0x6e, 0x61, 0x6e]

/-! ### The detector -/

/-- `detectTextVectorParameters`, which reads all the bytes of the text. -/
def detectTextVectorParameters (typeHint : ℕ) (text : List UInt8) :
    Except String (VectorType × ℕ) :=
  let dims := text.count comma + if text.any isDigit then 1 else 0
  if typeHint = 0 then .ok (.float32, dims)
  else if typeHint = VectorType.float32.code then .ok (.float32, dims)
  else if typeHint = VectorType.float64.code then .ok (.float64, dims)
  else .error "unexpected vector type"

/-! ### The parser -/

/-- `MAX_FLOAT_CHAR_SZ`. -/
abbrev maxFloatCharSz : ℕ := 1024

variable {D : Type*} (strtod : List UInt8 → D)

/-- The loop of `vectorParseSqliteText`, from `pzText` on: the elements that have been
written, and where it ends.  `strtod` is the value of what it converts. -/
def parseElems (valueBuf : List UInt8) (elems : List D) :
    List UInt8 → List D × Except String (List UInt8)
  | [] => (elems, .ok [])
  | this :: pzText =>
      if isSpace this then parseElems valueBuf elems pzText
      else if this ≠ comma ∧ this ≠ closeBracket then
        -- one character more than the constant is let in
        if valueBuf.length > maxFloatCharSz then
          (elems, .error (s!"vector: float string length exceeded {maxFloatCharSz} " ++
            s!"characters: '{textOf valueBuf}'"))
        else parseElems (valueBuf ++ [this]) elems pzText
      -- empty vector case: '[]'
      else if this = closeBracket ∧ elems.length = 0 ∧ valueBuf.length = 0 then
        (elems, .ok (this :: pzText))
      else if strtodConverts valueBuf = false then
        (elems, .error (s!"vector: invalid float at position {elems.length}: " ++
          s!"'{textOf valueBuf}'"))
      else if elems.length ≥ maxVectorSz then
        (elems, .error s!"vector: max size exceeded {maxVectorSz}")
      else
        let elems := elems ++ [strtod valueBuf]
        if this = closeBracket then (elems, .ok (this :: pzText))
        else parseElems [] elems pzText

/-- `vectorParseSqliteText`: the elements that have been written, and `pVector->dims`. -/
def vectorParseSqliteText (text : List UInt8) : List D × Except String ℕ :=
  -- a C string ends at its first zero byte
  let pzText := (text.takeWhile (· ≠ 0)).dropWhile isSpace
  if pzText.headD 0 ≠ openBracket then ([], .error "vector: must start with '['")
  else
    match parseElems strtod [] [] pzText.tail with
    | (elems, .error zErrMsg) => (elems, .error zErrMsg)
    | (elems, .ok pzText) =>
        let pzText := pzText.dropWhile isSpace
        if pzText.headD 0 ≠ closeBracket then (elems, .error "vector: must end with ']'")
        else
          let pzText := pzText.tail.dropWhile isSpace
          if pzText.headD 0 ≠ 0 then
            (elems, .error "vector: non-space symbols after closing ']' are forbidden")
          else (elems, .ok elems.length)

/-! ### What stands between the brackets -/

/-- The text between the first bracket and the one that closes it, and the text behind,
of a text that begins with a bracket. -/
def bracketed (text : List UInt8) : Option (List UInt8 × List UInt8) :=
  let pzText := text.dropWhile isSpace
  let inner := pzText.tail.takeWhile fun c => c ≠ closeBracket && c ≠ 0
  let behind := pzText.tail.dropWhile fun c => c ≠ closeBracket && c ≠ 0
  if pzText.headD 0 = openBracket ∧ behind.headD 0 = closeBracket then some (inner, behind.tail)
  else none

/-- A text cut at its commas, without blanks. -/
def numbers (inner : List UInt8) : List (List UInt8) :=
  (inner.filter fun c => !isSpace c).splitOn comma

/-- `strtod` takes the token, and the buffer holds it. -/
def NumberOk (token : List UInt8) : Prop :=
  strtodConverts token = true ∧ token.length ≤ maxFloatCharSz + 1

/-- All that stands between the commas is a number, and there are not too many. -/
def NumbersOk (inner : List UInt8) : Prop :=
  (∀ token ∈ numbers inner, NumberOk token) ∧ (numbers inner).length ≤ maxVectorSz

/-- Nothing but blanks, up to the first zero byte. -/
def Blank (s : List UInt8) : Prop := ∀ c ∈ s.takeWhile (· ≠ 0), isSpace c = true

/-- The dimension that the detector finds, beyond the commas between the brackets. -/
def surplus (text behind : List UInt8) : ℕ :=
  behind.count comma + if text.any isDigit then 1 else 0

/-- The detector counts the elements.  Where all between the brackets are numbers, there
is a digit in the text or a comma behind the brackets, and not both or more of them if
the text is accepted; where there is nothing between the brackets and the text is
accepted, neither hides behind a zero byte. -/
def DimsCounted (text : List UInt8) : Prop :=
  ∀ inner behind, bracketed text = some (inner, behind) →
    (NumbersOk inner → 1 ≤ surplus text behind ∧ (Blank behind → surplus text behind = 1)) ∧
    ((∀ c ∈ inner, isSpace c = true) → Blank behind → surplus text behind = 0)

/-- What the callers of the detector rely on: no element is written behind the allocated
memory, and a vector that is parsed has the dimension of the allocation. -/
def TextSafe (text : List UInt8) : Prop :=
  ∀ typeHint type dims, detectTextVectorParameters typeHint text = .ok (type, dims) →
    (vectorParseSqliteText strtod text).1.length ≤ dims ∧
      ∀ m, (vectorParseSqliteText strtod text).2 = .ok m → m = dims

/-! ### Tokens -/

theorem ne_comma_of_isSpace {c : UInt8} (h : isSpace c = true) : c ≠ comma := by
  rintro rfl
  exact absurd h (by decide)

theorem ne_zero_of_isSpace {c : UInt8} (h : isSpace c = true) : c ≠ 0 := by
  rintro rfl
  exact absurd h (by decide)

/-- The numbers as the loop meets them, with the characters `buf` read already. -/
def tokens (buf : List UInt8) : List UInt8 → List (List UInt8)
  | [] => [buf]
  | c :: s =>
      if isSpace c then tokens buf s
      else if c = comma then buf :: tokens [] s
      else tokens (buf ++ [c]) s

/-- The loop cuts the text where `numbers` does. -/
theorem tokens_eq (inner : List UInt8) :
    ∀ buf, tokens buf inner = (numbers inner).modifyHead (buf ++ ·) := by
  induction inner with
  | nil => exact fun buf => congrArg (fun b => [b]) (List.append_nil buf).symm
  | cons c s ih =>
      intro buf
      rw [tokens]
      by_cases hspace : isSpace c = true
      · rw [if_pos hspace, ih, numbers, numbers, List.filter_cons_of_neg (by simp [hspace])]
      rw [if_neg hspace]
      have hcons : numbers (c :: s) =
          if c = comma then [] :: numbers s else (numbers s).modifyHead (List.cons c) := by
        rw [numbers, List.filter_cons_of_pos (by simp [hspace]), List.splitOn,
          List.splitOnP_cons_eq_if_modifyHead]
        simp only [beq_iff_eq]
        rfl
      rw [hcons]
      split_ifs with hcomma
      · rw [ih, List.modifyHead_cons, List.append_nil]
        show buf :: (numbers s).modifyHead id = buf :: numbers s
        rw [List.modifyHead_id, id]
      · rw [ih, List.modifyHead_modifyHead]
        congr 1
        funext token
        show buf ++ [c] ++ token = buf ++ c :: token
        rw [List.append_assoc, List.singleton_append]

theorem tokens_nil (inner : List UInt8) : tokens [] inner = numbers inner := by
  rw [tokens_eq]
  exact congrFun List.modifyHead_id _

/-- There is a token for each comma, and one more. -/
theorem tokens_length (inner : List UInt8) :
    ∀ buf, (tokens buf inner).length = inner.count comma + 1 := by
  induction inner with
  | nil => exact fun _ => rfl
  | cons c s ih =>
      intro buf
      rw [tokens]
      by_cases hspace : isSpace c = true
      · rw [if_pos hspace, ih, List.count_cons_of_ne (ne_comma_of_isSpace hspace)]
      rw [if_neg hspace]
      by_cases hcomma : c = comma
      · rw [if_pos hcomma, hcomma, List.length_cons, ih, List.count_cons_self]
      · rw [if_neg hcomma, ih, List.count_cons_of_ne hcomma]

/-- The first token begins with what is in the buffer. -/
theorem tokens_head (inner : List UInt8) :
    ∀ buf, ∃ token rest, tokens buf inner = token :: rest ∧ buf.length ≤ token.length := by
  induction inner with
  | nil => exact fun buf => ⟨buf, [], rfl, le_rfl⟩
  | cons c s ih =>
      intro buf
      rw [tokens]
      split_ifs
      · exact ih buf
      · exact ⟨buf, _, rfl, le_rfl⟩
      · obtain ⟨token, rest, htokens, hle⟩ := ih (buf ++ [c])
        rw [List.length_append] at hle
        exact ⟨token, rest, htokens, by omega⟩

/-- Blanks add nothing to the token. -/
theorem tokens_blank {inner : List UInt8} (h : ∀ c ∈ inner, isSpace c = true) (buf : List UInt8) :
    tokens buf inner = [buf] := by
  induction inner with
  | nil => rfl
  | cons c s ih =>
      rw [tokens, if_pos (h c List.mem_cons_self)]
      exact ih fun d hd => h d (List.mem_cons_of_mem _ hd)

/-- A single empty token is made of blanks only. -/
theorem blank_of_tokens {inner : List UInt8} :
    ∀ {buf}, tokens buf inner = [[]] → buf = [] ∧ ∀ c ∈ inner, isSpace c = true := by
  induction inner with
  | nil =>
      intro buf h
      exact ⟨List.singleton_inj.mp h, fun c hc => absurd hc List.not_mem_nil⟩
  | cons c s ih =>
      intro buf h
      rw [tokens] at h
      split_ifs at h with hspace hcomma
      · obtain ⟨hbuf, hs⟩ := ih h
        exact ⟨hbuf, List.forall_mem_cons.mpr ⟨hspace, hs⟩⟩
      · obtain ⟨token, rest, htokens, -⟩ := tokens_head s []
        rw [htokens] at h
        cases h
      · exact absurd (ih h).1 (List.append_ne_nil_of_right_ne_nil _ (List.cons_ne_nil _ _))

/-- An empty token is no number. -/
theorem not_numberOk_nil : ¬ NumberOk [] := fun h => absurd h.1 (by decide)

/-! ### The loop -/

section Loop

variable {c : UInt8} {s : List UInt8} (buf : List UInt8) (elems : List D)

/-- Blanks are skipped. -/
theorem parseElems_isSpace (h : isSpace c = true) :
    parseElems strtod buf elems (c :: s) = parseElems strtod buf elems s := by
  rw [parseElems, if_pos h]

/-- A character of a number goes to the buffer, if there is room. -/
theorem parseElems_char (hspace : ¬ isSpace c = true) (hcomma : c ≠ comma)
    (hclose : c ≠ closeBracket) :
    (maxFloatCharSz < buf.length ∧ ∃ zErrMsg,
        parseElems strtod buf elems (c :: s) = (elems, .error zErrMsg)) ∨
      (buf.length ≤ maxFloatCharSz ∧
        parseElems strtod buf elems (c :: s) = parseElems strtod (buf ++ [c]) elems s) := by
  rw [parseElems, if_neg hspace, if_pos ⟨hcomma, hclose⟩]
  split_ifs with hlong
  · exact .inl ⟨hlong, _, rfl⟩
  · exact .inr ⟨not_lt.mp hlong, rfl⟩

/-- At a comma the number is written, if it is one and there is room. -/
theorem parseElems_comma :
    ((strtodConverts buf = false ∨ maxVectorSz ≤ elems.length) ∧ ∃ zErrMsg,
        parseElems strtod buf elems (comma :: s) = (elems, .error zErrMsg)) ∨
      (strtodConverts buf = true ∧ elems.length < maxVectorSz ∧
        parseElems strtod buf elems (comma :: s) =
          parseElems strtod [] (elems ++ [strtod buf]) s) := by
  rw [parseElems, if_neg (by decide), if_neg (fun h => h.1 rfl),
    if_neg (fun h => absurd h.1 (by decide))]
  by_cases hconv : strtodConverts buf = false
  · rw [if_pos hconv]
    exact .inl ⟨.inl hconv, _, rfl⟩
  rw [if_neg hconv]
  by_cases hmax : elems.length ≥ maxVectorSz
  · rw [if_pos hmax]
    exact .inl ⟨.inr hmax, _, rfl⟩
  rw [if_neg hmax]
  exact .inr ⟨Bool.eq_true_of_not_eq_false hconv, not_le.mp hmax, if_neg (by decide)⟩

/-- So it is at the bracket that closes, where the loop ends. -/
theorem parseElems_close (hne : ¬ (elems = [] ∧ buf = [])) :
    ((strtodConverts buf = false ∨ maxVectorSz ≤ elems.length) ∧ ∃ zErrMsg,
        parseElems strtod buf elems (closeBracket :: s) = (elems, .error zErrMsg)) ∨
      (strtodConverts buf = true ∧ elems.length < maxVectorSz ∧
        parseElems strtod buf elems (closeBracket :: s) =
          (elems ++ [strtod buf], .ok (closeBracket :: s))) := by
  have hne' : ¬ (closeBracket = closeBracket ∧ elems.length = 0 ∧ buf.length = 0) :=
    fun ⟨_, he, hb⟩ => hne ⟨List.length_eq_zero_iff.mp he, List.length_eq_zero_iff.mp hb⟩
  rw [parseElems, if_neg (by decide), if_neg (fun h => h.2 rfl), if_neg hne']
  by_cases hconv : strtodConverts buf = false
  · rw [if_pos hconv]
    exact .inl ⟨.inl hconv, _, rfl⟩
  rw [if_neg hconv]
  by_cases hmax : elems.length ≥ maxVectorSz
  · rw [if_pos hmax]
    exact .inl ⟨.inr hmax, _, rfl⟩
  rw [if_neg hmax]
  exact .inr ⟨Bool.eq_true_of_not_eq_false hconv, not_le.mp hmax, if_pos rfl⟩

end Loop

section Runs

variable (behind : List UInt8)

/-- **All the numbers are written**, if they are numbers. -/
theorem parseElems_numbers {inner : List UInt8} (hclose : closeBracket ∉ inner) :
    ∀ (buf : List UInt8) (elems : List D), (∀ token ∈ tokens buf inner, NumberOk token) →
      elems.length + (tokens buf inner).length ≤ maxVectorSz →
      parseElems strtod buf elems (inner ++ closeBracket :: behind) =
        (elems ++ (tokens buf inner).map strtod, .ok (closeBracket :: behind)) := by
  induction inner with
  | nil =>
      intro buf elems hok hlen
      have hbuf : NumberOk buf := hok buf List.mem_cons_self
      have hmax : elems.length + 1 ≤ maxVectorSz := hlen
      rcases parseElems_close (s := behind) strtod buf elems
        (fun h => not_numberOk_nil (h.2 ▸ hbuf)) with ⟨hbad | hbad, -⟩ | ⟨-, -, hloop⟩
      · exact absurd hbuf.1 (by rw [hbad]; decide)
      · omega
      · exact hloop
  | cons c s ih =>
      intro buf elems hok hlen
      obtain ⟨hc, hs⟩ := List.ne_and_not_mem_of_not_mem_cons hclose
      rw [tokens] at hok hlen ⊢
      rw [List.cons_append]
      by_cases hspace : isSpace c = true
      · rw [if_pos hspace] at hok hlen ⊢
        rw [parseElems_isSpace strtod buf elems hspace]
        exact ih hs _ _ hok hlen
      rw [if_neg hspace] at hok hlen ⊢
      by_cases hcomma : c = comma
      · rw [if_pos hcomma] at hok hlen ⊢
        obtain ⟨hbuf, hrest⟩ := List.forall_mem_cons.mp hok
        rw [List.length_cons] at hlen
        rw [hcomma]
        rcases parseElems_comma (s := s ++ closeBracket :: behind) strtod buf elems with
          ⟨hbad | hbad, -⟩ | ⟨-, -, hloop⟩
        · exact absurd hbuf.1 (by rw [hbad]; decide)
        · omega
        · rw [hloop, ih hs _ _ hrest (by rw [List.length_append, List.length_singleton]; omega),
            List.append_assoc]
          rfl
      · rw [if_neg hcomma] at hok hlen ⊢
        obtain ⟨token, rest, htokens, hle⟩ := tokens_head s (buf ++ [c])
        have htoken := (hok token (htokens ▸ List.mem_cons_self)).2
        rw [List.length_append, List.length_singleton] at hle
        rcases parseElems_char (s := s ++ closeBracket :: behind) strtod buf elems hspace hcomma
          (Ne.symm hc) with ⟨hlong, -⟩ | ⟨-, hloop⟩
        · omega
        · rw [hloop]
          exact ih hs _ _ hok hlen

/-- **The loop fails before the last number**, if there is one that is none. -/
theorem parseElems_fails {inner : List UInt8} (hclose : closeBracket ∉ inner) :
    ∀ (buf : List UInt8) (elems : List D), buf.length ≤ maxFloatCharSz + 1 →
      ¬ (elems = [] ∧ tokens buf inner = [[]]) →
      ¬ ((∀ token ∈ tokens buf inner, NumberOk token) ∧
        elems.length + (tokens buf inner).length ≤ maxVectorSz) →
      (parseElems strtod buf elems (inner ++ closeBracket :: behind)).1.length <
          elems.length + (tokens buf inner).length ∧
        ∃ zErrMsg, (parseElems strtod buf elems (inner ++ closeBracket :: behind)).2 =
          .error zErrMsg := by
  induction inner with
  | nil =>
      intro buf elems hbuf hne hbad
      rcases parseElems_close (s := behind) strtod buf elems
        (fun h => hne ⟨h.1, by rw [h.2, tokens]⟩) with ⟨-, zErrMsg, hloop⟩ | ⟨hconv, hmax, -⟩
      · rw [List.nil_append, hloop]
        exact ⟨Nat.lt_succ_self _, _, rfl⟩
      · exact absurd ⟨List.forall_mem_singleton.mpr ⟨hconv, hbuf⟩, hmax⟩ hbad
  | cons c s ih =>
      intro buf elems hbuf hne hbad
      obtain ⟨hc, hs⟩ := List.ne_and_not_mem_of_not_mem_cons hclose
      rw [tokens] at hne hbad ⊢
      rw [List.cons_append]
      by_cases hspace : isSpace c = true
      · rw [if_pos hspace] at hne hbad ⊢
        rw [parseElems_isSpace strtod buf elems hspace]
        exact ih hs _ _ hbuf hne hbad
      rw [if_neg hspace] at hne hbad ⊢
      by_cases hcomma : c = comma
      · rw [if_pos hcomma] at hne hbad ⊢
        rw [hcomma, List.length_cons]
        rcases parseElems_comma (s := s ++ closeBracket :: behind) strtod buf elems with
          ⟨-, zErrMsg, hloop⟩ | ⟨hconv, -, hloop⟩
        · rw [hloop]
          exact ⟨Nat.lt_add_of_pos_right (Nat.succ_pos _), _, rfl⟩
        -- this one is a number, so it is a later one that is none
        rw [hloop]
        obtain ⟨hlt, herr⟩ := ih hs [] (elems ++ [strtod buf]) (Nat.zero_le _)
          (fun h => List.append_ne_nil_of_right_ne_nil _ (List.cons_ne_nil _ _) h.1)
          (fun ⟨hok, hlen⟩ => hbad ⟨List.forall_mem_cons.mpr ⟨⟨hconv, hbuf⟩, hok⟩, by
            rw [List.length_append, List.length_singleton] at hlen
            rw [List.length_cons]
            omega⟩)
        rw [List.length_append, List.length_singleton] at hlt
        exact ⟨by omega, herr⟩
      · rw [if_neg hcomma] at hne hbad ⊢
        rcases parseElems_char (s := s ++ closeBracket :: behind) strtod buf elems hspace hcomma
          (Ne.symm hc) with ⟨-, zErrMsg, hloop⟩ | ⟨hle, hloop⟩
        · rw [hloop, tokens_length]
          exact ⟨Nat.lt_add_of_pos_right (Nat.succ_pos _), _, rfl⟩
        · rw [hloop]
          refine ih hs _ _ ?_ (fun h => ?_) hbad
          · rw [List.length_append, List.length_singleton]
            omega
          · exact List.append_ne_nil_of_right_ne_nil _ (List.cons_ne_nil _ _)
              (blank_of_tokens h.2).1

/-- **Without a bracket that closes**, the loop runs to the end of the text, and writes at
the commas. -/
theorem parseElems_open {pzText : List UInt8} (hclose : closeBracket ∉ pzText) :
    ∀ (buf : List UInt8) (elems : List D),
      (parseElems strtod buf elems pzText).1.length ≤ elems.length + pzText.count comma ∧
        ∀ rest, (parseElems strtod buf elems pzText).2 = .ok rest → rest = [] := by
  induction pzText with
  | nil =>
      intro buf elems
      refine ⟨le_rfl, fun rest h => ?_⟩
      exact (Except.ok.inj h).symm
  | cons c s ih =>
      intro buf elems
      obtain ⟨hc, hs⟩ := List.ne_and_not_mem_of_not_mem_cons hclose
      have hcount : s.count comma ≤ (c :: s).count comma :=
        List.Sublist.count_le _ (List.sublist_cons_self _ _)
      by_cases hspace : isSpace c = true
      · rw [parseElems_isSpace strtod buf elems hspace]
        exact ⟨(ih hs _ _).1.trans (by omega), (ih hs _ _).2⟩
      by_cases hcomma : c = comma
      · rw [hcomma, List.count_cons_self]
        rcases parseElems_comma (s := s) strtod buf elems with ⟨-, zErrMsg, hloop⟩ | ⟨-, -, hloop⟩
        · rw [hloop]
          exact ⟨Nat.le_add_right _ _, fun _ h => (by cases h)⟩
        · rw [hloop]
          obtain ⟨hle, hrest⟩ := ih hs [] (elems ++ [strtod buf])
          rw [List.length_append, List.length_singleton] at hle
          exact ⟨by omega, hrest⟩
      · rcases parseElems_char (s := s) strtod buf elems hspace hcomma (Ne.symm hc) with
          ⟨-, zErrMsg, hloop⟩ | ⟨-, hloop⟩
        · rw [hloop]
          exact ⟨Nat.le_add_right _ _, fun _ h => (by cases h)⟩
        · rw [hloop]
          exact ⟨(ih hs _ _).1.trans (by omega), (ih hs _ _).2⟩

/-- **What the loop does up to the bracket that closes**: it writes nothing where there is
nothing, all the numbers where there are numbers, and otherwise fails. -/
theorem parseElems_closed {inner : List UInt8} (hclose : closeBracket ∉ inner) :
    ((∀ c ∈ inner, isSpace c = true) ∧
      parseElems strtod [] [] (inner ++ closeBracket :: behind) =
        ([], .ok (closeBracket :: behind))) ∨
    (NumbersOk inner ∧ parseElems strtod [] [] (inner ++ closeBracket :: behind) =
      ((numbers inner).map strtod, .ok (closeBracket :: behind))) ∨
    (¬ (∀ c ∈ inner, isSpace c = true) ∧ ¬ NumbersOk inner ∧
      (parseElems strtod [] [] (inner ++ closeBracket :: behind)).1.length ≤ inner.count comma ∧
      ∃ zErrMsg, (parseElems strtod [] [] (inner ++ closeBracket :: behind)).2 =
        .error zErrMsg) := by
  by_cases hblank : ∀ c ∈ inner, isSpace c = true
  · refine .inl ⟨hblank, ?_⟩
    clear hclose
    induction inner with
    | nil => rfl
    | cons c s ih =>
        rw [List.cons_append, parseElems_isSpace strtod _ _ (hblank c List.mem_cons_self)]
        exact ih fun d hd => hblank d (List.mem_cons_of_mem _ hd)
  by_cases hok : NumbersOk inner
  · refine .inr (.inl ⟨hok, ?_⟩)
    rw [NumbersOk, ← tokens_nil] at hok
    rw [← tokens_nil]
    exact parseElems_numbers strtod behind hclose [] [] hok.1
      (by rw [List.length_nil, Nat.zero_add]; exact hok.2)
  · have hbad : ¬ ((∀ token ∈ tokens [] inner, NumberOk token) ∧
        ([] : List D).length + (tokens [] inner).length ≤ maxVectorSz) := by
      rw [tokens_nil, List.length_nil, Nat.zero_add]
      exact hok
    obtain ⟨hlt, herr⟩ := parseElems_fails strtod behind hclose [] [] (Nat.zero_le _)
      (fun h => hblank (blank_of_tokens h.2).2) hbad
    rw [tokens_length, List.length_nil] at hlt
    exact .inr (.inr ⟨hblank, hok, by omega, herr⟩)

end Runs

/-! ### The text -/

/-- Blanks come before the end of a C string. -/
theorem dropWhile_takeWhile (s : List UInt8) :
    (s.takeWhile (· ≠ 0)).dropWhile isSpace = (s.dropWhile isSpace).takeWhile (· ≠ 0) := by
  induction s with
  | nil => rfl
  | cons c s ih =>
      by_cases hspace : isSpace c = true
      · rw [List.takeWhile_cons, if_pos (decide_eq_true (ne_zero_of_isSpace hspace)),
          List.dropWhile_cons_of_pos hspace, List.dropWhile_cons_of_pos hspace, ih]
      · rw [List.dropWhile_cons_of_neg hspace, List.takeWhile_cons]
        split_ifs
        · rw [List.dropWhile_cons_of_neg hspace]
        · rfl

theorem count_dropWhile_isSpace (s : List UInt8) :
    (s.dropWhile isSpace).count comma = s.count comma := by
  induction s with
  | nil => rfl
  | cons c s ih =>
      by_cases hspace : isSpace c = true
      · rw [List.dropWhile_cons_of_pos hspace, ih,
          List.count_cons_of_ne (ne_comma_of_isSpace hspace)]
      · rw [List.dropWhile_cons_of_neg hspace]

/-- The blanks behind the brackets go up to the end of the C string. -/
theorem blank_iff (s : List UInt8) :
    Blank s ↔ ((s.takeWhile (· ≠ 0)).dropWhile isSpace).headD 0 = 0 := by
  rw [Blank]
  constructor
  · intro h
    rw [List.dropWhile_eq_nil_iff.mpr h, List.headD_nil]
  · intro h
    rw [← List.dropWhile_eq_nil_iff]
    rcases hrest : (s.takeWhile (· ≠ 0)).dropWhile isSpace with - | ⟨c, rest⟩
    · exact hrest
    · -- what is left of a C string does not begin with a zero byte
      have hmem : c ∈ s.takeWhile (· ≠ 0) :=
        (List.dropWhile_sublist isSpace).subset (hrest ▸ List.mem_cons_self)
      rw [hrest, List.headD_cons] at h
      have hne := List.mem_takeWhile_imp (p := fun c => decide (c ≠ 0)) hmem
      exact absurd h (of_decide_eq_true hne)

theorem eq_cons_of_headD {s : List UInt8} {c : UInt8} (h : s.headD 0 = c) (hc : c ≠ 0) :
    s = c :: s.tail := by
  cases s with
  | nil => exact absurd h.symm hc
  | cons d s =>
      rw [List.headD_cons] at h
      rw [h, List.tail_cons]

/-- **A bracketed text**: the C string is the first bracket, what is between, and what is
behind up to its end. -/
theorem bracketed_spec {text inner behind : List UInt8}
    (h : bracketed text = some (inner, behind)) :
    closeBracket ∉ inner ∧ text.count comma = inner.count comma + behind.count comma ∧
      (text.takeWhile (· ≠ 0)).dropWhile isSpace =
        openBracket :: (inner ++ closeBracket :: behind.takeWhile (· ≠ 0)) := by
  rw [bracketed] at h
  split_ifs at h with hhead
  obtain ⟨hopen, hclose⟩ := hhead
  obtain ⟨t, ht⟩ : ∃ t, t = (text.dropWhile isSpace).tail := ⟨_, rfl⟩
  rw [← ht] at h hclose
  rw [Option.some.injEq, Prod.mk.injEq] at h
  obtain ⟨hinner, hbehind⟩ := h
  have htext := eq_cons_of_headD hopen (by decide)
  have hrest := eq_cons_of_headD hclose (by decide)
  have hsplit : t = inner ++ closeBracket :: behind := by
    rw [← hinner, ← hbehind, ← hrest, List.takeWhile_append_dropWhile]
  have hmem : ∀ c ∈ inner, c ≠ closeBracket ∧ c ≠ 0 := fun c hc => by
    rw [← hinner] at hc
    simpa using List.mem_takeWhile_imp hc
  rw [← ht] at htext
  refine ⟨fun hc => (hmem _ hc).1 rfl, ?_, ?_⟩
  · rw [← count_dropWhile_isSpace, htext, hsplit, List.count_cons_of_ne (by decide),
      List.count_append, List.count_cons_of_ne (by decide)]
  · rw [dropWhile_takeWhile, htext, hsplit, List.takeWhile_cons, if_pos (by decide),
      List.takeWhile_append_of_pos (fun c hc => decide_eq_true (hmem c hc).2),
      List.takeWhile_cons, if_pos (by decide)]

/-- A bracket that closes, before the end of the C string, is the one that is found. -/
theorem headD_of_closeBracket_mem {s : List UInt8} (h : closeBracket ∈ s.takeWhile (· ≠ 0)) :
    (s.dropWhile fun c => c ≠ closeBracket && c ≠ 0).headD 0 = closeBracket := by
  induction s with
  | nil => exact absurd h List.not_mem_nil
  | cons c s ih =>
      rw [List.takeWhile_cons] at h
      split_ifs at h with hzero
      · rw [List.dropWhile_cons]
        split_ifs with hc
        · refine ih ((List.mem_cons.mp h).resolve_left fun heq => ?_)
          rw [← heq] at hc
          exact absurd hc (by decide)
        · have hzero' : c ≠ 0 := of_decide_eq_true hzero
          by_contra hne
          exact hc (by simpa [hzero'] using hne)
      · exact absurd h List.not_mem_nil

/-- **A text that is not bracketed** has no bracket that opens, or none that closes. -/
theorem not_bracketed {text : List UInt8} (h : bracketed text = none) :
    ((text.takeWhile (· ≠ 0)).dropWhile isSpace).headD 0 ≠ openBracket ∨
      closeBracket ∉ ((text.takeWhile (· ≠ 0)).dropWhile isSpace).tail := by
  by_contra hneg
  rw [not_or, not_not, not_not, dropWhile_takeWhile] at hneg
  obtain ⟨hopen, hclose⟩ := hneg
  have hcons := eq_cons_of_headD hopen (by decide)
  rcases htext : text.dropWhile isSpace with - | ⟨c, t⟩
  · rw [htext] at hcons
    cases hcons
  rw [htext, List.takeWhile_cons] at hopen hclose
  split_ifs at hopen hclose with hzero
  · rw [bracketed, htext] at h
    rw [List.tail_cons] at hclose
    exact absurd (h.symm.trans (if_pos ⟨hopen, headD_of_closeBracket_mem hclose⟩))
      (Option.some_ne_none _).symm
  · exact absurd hclose List.not_mem_nil

/-! ### The detector and the parser -/

section Parse

variable {text : List UInt8}

/-- The detector finds one dimension, whatever the hint. -/
theorem detectTextVectorParameters_iff (dims : ℕ) :
    (∃ typeHint type, detectTextVectorParameters typeHint text = .ok (type, dims)) ↔
      dims = text.count comma + if text.any isDigit then 1 else 0 := by
  obtain ⟨n, hn⟩ : ∃ n, n = text.count comma + if text.any isDigit then 1 else 0 := ⟨_, rfl⟩
  rw [← hn]
  constructor
  · rintro ⟨typeHint, type, h⟩
    rw [detectTextVectorParameters, ← hn] at h
    split_ifs at h <;> exact (Prod.mk.inj (Except.ok.inj h)).2.symm
  · rintro rfl
    refine ⟨0, .float32, ?_⟩
    rw [detectTextVectorParameters, ← hn]
    exact if_pos rfl

/-- Where the brackets are closed, the text is a vector if only blanks are behind. -/
theorem vectorParseSqliteText_of_loop {inner behind : List UInt8} {elems : List D}
    (h : bracketed text = some (inner, behind))
    (hloop : parseElems strtod [] [] (inner ++ closeBracket :: behind.takeWhile (· ≠ 0)) =
      (elems, .ok (closeBracket :: behind.takeWhile (· ≠ 0)))) :
    (vectorParseSqliteText strtod text).1 = elems ∧
      ∀ m, (vectorParseSqliteText strtod text).2 = .ok m ↔ Blank behind ∧ m = elems.length := by
  obtain ⟨-, -, htext⟩ := bracketed_spec h
  rw [vectorParseSqliteText]
  dsimp only
  rw [htext, List.headD_cons, if_neg (not_not.mpr rfl), List.tail_cons, hloop]
  dsimp only
  rw [List.dropWhile_cons_of_neg (by decide), List.headD_cons, if_neg (not_not.mpr rfl),
    List.tail_cons, blank_iff]
  split_ifs with hblank
  · refine ⟨rfl, fun m => ⟨fun hm => (by cases hm), fun hm => absurd hm.1 hblank⟩⟩
  · refine ⟨rfl, fun m => ⟨fun hm => ⟨not_not.mp hblank, (Except.ok.inj hm).symm⟩, ?_⟩⟩
    rintro ⟨-, rfl⟩
    rfl

/-- **A text with closed brackets**. -/
theorem vectorParseSqliteText_closed {inner behind : List UInt8}
    (h : bracketed text = some (inner, behind)) :
    ((∀ c ∈ inner, isSpace c = true) ∧ (vectorParseSqliteText strtod text).1.length = 0 ∧
      ∀ m, (vectorParseSqliteText strtod text).2 = .ok m ↔ Blank behind ∧ m = 0) ∨
    (NumbersOk inner ∧
      (vectorParseSqliteText strtod text).1.length = inner.count comma + 1 ∧
      ∀ m, (vectorParseSqliteText strtod text).2 = .ok m ↔
        Blank behind ∧ m = inner.count comma + 1) ∨
    (¬ (∀ c ∈ inner, isSpace c = true) ∧ ¬ NumbersOk inner ∧
      (vectorParseSqliteText strtod text).1.length ≤ inner.count comma ∧
      ∀ m, (vectorParseSqliteText strtod text).2 ≠ .ok m) := by
  obtain ⟨hclose, -, htext⟩ := bracketed_spec h
  rcases parseElems_closed strtod (behind.takeWhile (· ≠ 0)) hclose with
    ⟨hblank, hloop⟩ | ⟨hok, hloop⟩ | ⟨hblank, hok, hle, zErrMsg, herr⟩
  · obtain ⟨helems, hm⟩ := vectorParseSqliteText_of_loop strtod h hloop
    exact .inl ⟨hblank, by rw [helems, List.length_nil], hm⟩
  · obtain ⟨helems, hm⟩ := vectorParseSqliteText_of_loop strtod h hloop
    rw [List.length_map, ← tokens_nil, tokens_length] at hm
    exact .inr (.inl ⟨hok, by rw [helems, List.length_map, ← tokens_nil, tokens_length], hm⟩)
  · refine .inr (.inr ⟨hblank, hok, ?_⟩)
    rw [vectorParseSqliteText]
    dsimp only
    rw [htext, List.headD_cons, if_neg (not_not.mpr rfl), List.tail_cons]
    rcases hloop : parseElems strtod [] [] (inner ++ closeBracket :: behind.takeWhile (· ≠ 0))
      with ⟨elems, result⟩
    rw [hloop] at hle herr
    dsimp only at hle herr
    rw [herr]
    exact ⟨hle, fun m hm => by cases hm⟩

/-- **A text without closed brackets** is no vector, and no element is written beyond the
commas. -/
theorem vectorParseSqliteText_open (h : bracketed text = none) :
    (vectorParseSqliteText strtod text).1.length ≤ text.count comma ∧
      ∀ m, (vectorParseSqliteText strtod text).2 ≠ .ok m := by
  rw [vectorParseSqliteText]
  dsimp only
  rcases not_bracketed h with hopen | hclose
  · rw [if_pos hopen]
    exact ⟨Nat.zero_le _, fun m hm => by cases hm⟩
  split_ifs
  · exact ⟨Nat.zero_le _, fun m hm => by cases hm⟩
  have hcount : ((text.takeWhile (· ≠ 0)).dropWhile isSpace).tail.count comma ≤
      text.count comma :=
    (((List.tail_sublist _).trans (List.dropWhile_sublist _)).trans
      (List.takeWhile_sublist _)).count_le _
  obtain ⟨hle, hrest⟩ := parseElems_open strtod hclose [] []
  rw [List.length_nil, Nat.zero_add] at hle
  rcases hloop : parseElems strtod [] [] ((text.takeWhile (· ≠ 0)).dropWhile isSpace).tail
    with ⟨elems, zErrMsg | rest⟩
  · rw [hloop] at hle ⊢
    exact ⟨hle.trans hcount, fun m hm => by cases hm⟩
  · -- the end of the text is no bracket
    rw [hloop] at hle hrest ⊢
    rw [hrest rest rfl]
    exact ⟨hle.trans hcount, fun m hm => by cases hm⟩

/-- Safety is about the one dimension that the detector finds. -/
theorem textSafe_iff :
    TextSafe strtod text ↔
      (vectorParseSqliteText strtod text).1.length ≤
          text.count comma + (if text.any isDigit then 1 else 0) ∧
        ∀ m, (vectorParseSqliteText strtod text).2 = .ok m →
          m = text.count comma + if text.any isDigit then 1 else 0 := by
  constructor
  · intro h
    obtain ⟨typeHint, type, hdetect⟩ := (detectTextVectorParameters_iff _).mpr rfl
    exact h typeHint type _ hdetect
  · intro h typeHint type dims hdetect
    rw [(detectTextVectorParameters_iff dims).mp ⟨typeHint, type, hdetect⟩]
    exact h

/-- A text with closed brackets has one inner text and one behind. -/
theorem dimsCounted_iff {inner behind : List UInt8} (h : bracketed text = some (inner, behind)) :
    DimsCounted text ↔
      (NumbersOk inner → 1 ≤ surplus text behind ∧ (Blank behind → surplus text behind = 1)) ∧
      ((∀ c ∈ inner, isSpace c = true) → Blank behind → surplus text behind = 0) := by
  rw [DimsCounted, h]
  constructor
  · exact fun hall => hall inner behind rfl
  · intro hone inner' behind' heq
    obtain ⟨rfl, rfl⟩ := Prod.mk.inj (Option.some.inj heq)
    exact hone

/-- Blanks are no numbers. -/
theorem not_numbersOk_of_blank {inner : List UInt8} (h : ∀ c ∈ inner, isSpace c = true) :
    ¬ NumbersOk inner :=
  fun hok => not_numberOk_nil
    (hok.1 [] (by rw [← tokens_nil, tokens_blank h]; exact List.mem_cons_self))

/-- Blanks have no commas. -/
theorem count_comma_of_blank {inner : List UInt8} (h : ∀ c ∈ inner, isSpace c = true) :
    inner.count comma = 0 :=
  List.count_eq_zero.mpr fun hmem => absurd (h comma hmem) (by decide)

/-- **The detector counts what the parser writes** exactly if `DimsCounted`. -/
theorem vectorParseSqliteText_safe_iff (text : List UInt8) :
    TextSafe strtod text ↔ DimsCounted text := by
  rw [textSafe_iff]
  rcases hbracket : bracketed text with - | ⟨inner, behind⟩
  · obtain ⟨hle, herr⟩ := vectorParseSqliteText_open strtod hbracket
    refine iff_of_true ⟨hle.trans (Nat.le_add_right _ _), fun m hm => absurd hm (herr m)⟩ ?_
    intro inner behind h
    rw [hbracket] at h
    cases h
  obtain ⟨-, hcount, -⟩ := bracketed_spec hbracket
  have hdims : text.count comma + (if text.any isDigit then 1 else 0) =
      inner.count comma + surplus text behind := by
    rw [hcount, surplus, Nat.add_assoc]
  rw [dimsCounted_iff hbracket, hdims]
  rcases vectorParseSqliteText_closed strtod hbracket with
    ⟨hblank, hlen, hm⟩ | ⟨hok, hlen, hm⟩ | ⟨hblank, hok, hle, herr⟩
  · -- nothing between the brackets
    rw [hlen, count_comma_of_blank hblank, Nat.zero_add]
    constructor
    · intro h
      exact ⟨fun hok => absurd hok (not_numbersOk_of_blank hblank),
        fun _ hb => (h.2 0 ((hm 0).mpr ⟨hb, rfl⟩)).symm⟩
    · intro h
      refine ⟨Nat.zero_le _, fun m hok => ?_⟩
      obtain ⟨hb, rfl⟩ := (hm m).mp hok
      exact (h.2 hblank hb).symm
  · -- a number before each comma and one more
    rw [hlen]
    constructor
    · rintro ⟨hle, hdims⟩
      refine ⟨fun _ => ⟨by omega, fun hb => ?_⟩,
        fun hblank => absurd hok (not_numbersOk_of_blank hblank)⟩
      have := hdims _ ((hm _).mpr ⟨hb, rfl⟩)
      omega
    · rintro ⟨h, -⟩
      obtain ⟨hpos, hone⟩ := h hok
      refine ⟨by omega, fun m hm' => ?_⟩
      obtain ⟨hb, rfl⟩ := (hm m).mp hm'
      rw [hone hb]
  · refine iff_of_true ⟨hle.trans (Nat.le_add_right _ _), fun m hm => absurd hm (herr m)⟩ ?_
    exact ⟨fun h => absurd h hok, fun h => absurd h hblank⟩

/-- `[1, 2]` is parsed as two elements, blanks left out. -/
example : vectorParseSqliteText (fun token => token)
    [0x5b, 0x31, 0x2c, 0x20, 0x32, 0x5d] = ([[0x31], [0x32]], .ok 2) := by decide

/-- `[inf]` has one element, which is written, and a dimension of zero. -/
theorem inf_written_behind_vector :
    ¬ ∀ text : List UInt8, TextSafe (fun token => token) text := by
  intro h
  have hdetect : detectTextVectorParameters 0 [0x5b, 0x69, 0x6e, 0x66, 0x5d] =
      .ok (.float32, 0) := by decide
  exact absurd (h _ _ _ _ hdetect).1 (by decide)

end Parse

end MoVeBench
