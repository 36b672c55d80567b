/-
MoVeBench/DiskAnn/TextBuf.lean

The buffer in which the parser of vectors collects the characters of a number
(`vectorParseSqliteText` of `vector.c`).

The buffer has one byte more than the longest number, so that a zero byte is left behind it.  It is
cleared at the start and after every number, as far as the number went.  `strtod` and the messages
take it as a C string, which must end inside the buffer.

* Between two characters the buffer holds the number so far and zeros (`Filled`), so `strtod` gets
  the number and nothing else.
* The check lets a number fill the whole buffer.  At the next character of any kind, but a blank,
  the string that is read has no end (`tokensOk_iff`).
* As long as this does not happen, the parser does what `VectorText` says
  (`Loop.refines`).
-/
import MoVeBench.DiskAnn.VectorText

namespace MoVeBench

namespace TextBuf

open Bytes

/-! ### The parser -/

/-- The size of `valueBuf`. -/
abbrev bufSize : ℕ := maxFloatCharSz + 1

/-- The string at the start of the buffer, `none` if no zero byte of the buffer ends it. -/
def cString (valueBuf : List UInt8) : Option (List UInt8) :=
  if 0 ∈ valueBuf then some (valueBuf.takeWhile (· ≠ 0)) else none

/-- What the parser has done: the strings that `strtod` was given, the elements that have been
written, and how it ends, where `none` stands for bytes outside the buffer that are read or
written. -/
structure Parsed (D α : Type*) where
  calls : List (List UInt8)
  elems : List D
  result : Option (Except String α)

variable {D : Type*} (strtod : List UInt8 → D)

/-- The loop of `vectorParseSqliteText`, from `pzText` on. -/
def parseLoop (valueBuf : List UInt8) (iBuf : ℕ) (calls : List (List UInt8)) (elems : List D) :
    List UInt8 → Parsed D (List UInt8)
  | [] => ⟨calls, elems, some (.ok [])⟩
  | this :: pzText =>
      if isSpace this then parseLoop valueBuf iBuf calls elems pzText
      else if this ≠ comma ∧ this ≠ closeBracket then
        if iBuf > maxFloatCharSz then
          ⟨calls, elems, (cString valueBuf).map fun z =>
            .error (s!"vector: float string length exceeded {maxFloatCharSz} " ++
              s!"characters: '{textOf z}'")⟩
        else if iBuf < valueBuf.length then
          parseLoop (valueBuf.set iBuf this) (iBuf + 1) calls elems pzText
        else ⟨calls, elems, none⟩
      -- empty vector case: '[]'
      else if this = closeBracket ∧ elems.length = 0 ∧ iBuf = 0 then
        ⟨calls, elems, some (.ok (this :: pzText))⟩
      else
        match cString valueBuf with
        | none => ⟨calls, elems, none⟩
        | some z =>
            if strtodConverts z = false then
              ⟨calls ++ [z], elems,
                some (.error (s!"vector: invalid float at position {elems.length}: " ++
                  s!"'{textOf z}'"))⟩
            else if elems.length ≥ maxVectorSz then
              ⟨calls ++ [z], elems, some (.error s!"vector: max size exceeded {maxVectorSz}")⟩
            else if this = closeBracket then
              ⟨calls ++ [z], elems ++ [strtod z], some (.ok (this :: pzText))⟩
            else
              -- clear only the first positions, all others are zero
              parseLoop (writeBytes valueBuf 0 (List.replicate iBuf 0)) 0 (calls ++ [z])
                (elems ++ [strtod z]) pzText

/-- `vectorParseSqliteText`. -/
def vectorParseSqliteText (text : List UInt8) : Parsed D ℕ :=
  -- a C string ends at its first zero byte
  let pzText := (text.takeWhile (· ≠ 0)).dropWhile isSpace
  if pzText.headD 0 ≠ openBracket then ⟨[], [], some (.error "vector: must start with '['")⟩
  else
    match parseLoop strtod (List.replicate bufSize 0) 0 [] [] pzText.tail with
    | ⟨calls, elems, none⟩ => ⟨calls, elems, none⟩
    | ⟨calls, elems, some (.error zErrMsg)⟩ => ⟨calls, elems, some (.error zErrMsg)⟩
    | ⟨calls, elems, some (.ok pzText)⟩ =>
        let pzText := pzText.dropWhile isSpace
        if pzText.headD 0 ≠ closeBracket then
          ⟨calls, elems, some (.error "vector: must end with ']'")⟩
        else
          let pzText := pzText.tail.dropWhile isSpace
          if pzText.headD 0 ≠ 0 then
            ⟨calls, elems, some (.error "vector: non-space symbols after closing ']' are forbidden")⟩
          else ⟨calls, elems, some (.ok elems.length)⟩

/-! ### The buffer -/

/-- The buffer holds the characters `buf` of a number, and zeros behind them. -/
structure Filled (buf valueBuf : List UInt8) (iBuf : ℕ) : Prop where
  eq : valueBuf = buf ++ List.replicate (bufSize - buf.length) 0
  iBuf : iBuf = buf.length
  le : buf.length ≤ bufSize
  ne_zero : 0 ∉ buf

section Buffer

variable {buf valueBuf : List UInt8} {iBuf : ℕ}

theorem filled_clear : Filled [] (List.replicate bufSize 0) 0 :=
  ⟨rfl, rfl, Nat.zero_le _, List.not_mem_nil⟩

theorem Filled.length (h : Filled buf valueBuf iBuf) : valueBuf.length = bufSize := by
  have hle := h.le
  rw [h.eq, List.length_append, List.length_replicate]
  omega

theorem exists_room (h : buf.length ≤ maxFloatCharSz) : ∃ n, bufSize - buf.length = n + 1 :=
  ⟨maxFloatCharSz - buf.length, Nat.succ_sub h⟩

/-- A number that leaves room for a zero byte is the string. -/
theorem Filled.cString_eq (h : Filled buf valueBuf iBuf) :
    cString valueBuf = if buf.length ≤ maxFloatCharSz then some buf else none := by
  have hle := h.le
  unfold cString
  rw [h.eq]
  split_ifs with hmem hroom hroom
  · obtain ⟨n, hn⟩ := exists_room hroom
    rw [hn, List.replicate_succ, List.takeWhile_append_of_pos fun c hc => ?_,
      List.takeWhile_cons_of_neg (by simp), List.append_nil]
    rw [decide_eq_true_eq]
    exact fun hno => h.ne_zero (hno ▸ hc)
  · have hfull : bufSize - buf.length = 0 := Nat.sub_eq_zero_of_le (not_le.mp hroom)
    rw [hfull, List.replicate_zero, List.append_nil] at hmem
    exact absurd hmem h.ne_zero
  · obtain ⟨n, hn⟩ := exists_room hroom
    rw [hn] at hmem
    exact absurd (List.mem_append_right _ List.mem_cons_self) hmem
  · rfl

/-- A character goes behind the others. -/
theorem Filled.char (h : Filled buf valueBuf iBuf) (hroom : iBuf ≤ maxFloatCharSz) {c : UInt8}
    (hc : c ≠ 0) : Filled (buf ++ [c]) (valueBuf.set iBuf c) (iBuf + 1) := by
  have hi := h.iBuf
  obtain ⟨n, hn⟩ := exists_room (hi ▸ hroom)
  refine ⟨?_, by rw [hi, List.length_append]; rfl, ?_, ?_⟩
  · rw [h.eq, hi, List.set_append_right _ _ le_rfl, Nat.sub_self, hn, List.length_append,
      List.length_singleton, show bufSize - (buf.length + 1) = n by omega, List.append_assoc]
    rfl
  · rw [List.length_append, List.length_singleton]
    exact Nat.succ_le_succ (hi ▸ hroom)
  · rw [List.mem_append, List.mem_singleton]
    exact fun hno => hno.elim h.ne_zero fun h0 => hc h0.symm

theorem writeBytes_front (data rest : List UInt8) {buf : List UInt8}
    (h : data.length = buf.length) : writeBytes (buf ++ rest) 0 data = data ++ rest := by
  rw [writeBytes_append_left (by omega)]
  have hall : readBytes (writeBytes buf 0 data) 0 data.length = data :=
    readBytes_writeBytes (by omega)
  rw [h, ← writeBytes_length buf 0 data, readBytes_all] at hall
  rw [hall]

/-- The buffer is cleared. -/
theorem Filled.clear (h : Filled buf valueBuf iBuf) :
    Filled [] (writeBytes valueBuf 0 (List.replicate iBuf 0)) 0 := by
  have hle := h.le
  have hall : writeBytes valueBuf 0 (List.replicate iBuf 0) = List.replicate bufSize 0 := by
    rw [h.eq, h.iBuf, writeBytes_front _ _ List.length_replicate, List.replicate_append_replicate,
      Nat.add_sub_cancel' hle]
  rw [hall]
  exact filled_clear

end Buffer

/-! ### Numbers that fit -/

/-- The buffer has room for a zero byte behind every number that the parser comes to, after `k`
elements.  A number that nothing closes may fill the buffer, as it is not read. -/
def FitFrom (k : ℕ) (ts : List (List UInt8)) (closed : Bool) : Prop :=
  ∀ i token, ts[i]? = some token → k + i ≤ maxVectorSz →
    (∀ t ∈ ts.take i, strtodConverts t = true) →
      token.length ≤ maxFloatCharSz ∨
        closed = false ∧ i + 1 = ts.length ∧ token.length = maxFloatCharSz + 1

theorem fitFrom_cons {k : ℕ} (hk : k ≤ maxVectorSz) (t : List UInt8) (ts : List (List UInt8))
    (closed : Bool) : FitFrom k (t :: ts) closed ↔
      (t.length ≤ maxFloatCharSz ∨
        closed = false ∧ ts = [] ∧ t.length = maxFloatCharSz + 1) ∧
      (strtodConverts t = true → k < maxVectorSz → FitFrom (k + 1) ts closed) := by
  constructor
  · refine fun h => ⟨?_, fun hconv hlt i token hi hle hall => ?_⟩
    · rcases h 0 t rfl hk (fun t' ht' => absurd ht' List.not_mem_nil) with hfit | ⟨h1, h2, h3⟩
      · exact .inl hfit
      · rw [List.length_cons, zero_add, Nat.right_eq_add, List.length_eq_zero_iff] at h2
        exact .inr ⟨h1, h2, h3⟩
    · have hnext := h (i + 1) token hi (by omega) fun t' ht' => by
        rw [List.take_succ_cons, List.mem_cons] at ht'
        exact ht'.elim (fun heq => heq ▸ hconv) (hall t')
      rwa [List.length_cons, Nat.add_right_cancel_iff] at hnext
  · rintro ⟨hfirst, hrest⟩ i token hi hle hall
    rcases i with - | i
    · obtain rfl := Option.some.inj hi
      rcases hfirst with hfit | ⟨h1, rfl, h3⟩
      · exact .inl hfit
      · exact .inr ⟨h1, rfl, h3⟩
    · rw [List.take_succ_cons, List.forall_mem_cons] at hall
      have hnext := hrest hall.1 (by omega) i token hi (by omega) hall.2
      rwa [List.length_cons, Nat.add_right_cancel_iff]

/-! ### The loop -/

/-- The text up to the bracket that closes. -/
abbrev inside (pzText : List UInt8) : List UInt8 := pzText.takeWhile (· ≠ closeBracket)

/-- What the loop does with a number `buf` begun: `strtod` gets the numbers of the text, the buffer
is not left if they fit, and then the loop does what it should. -/
structure Loop (buf : List UInt8) (calls : List (List UInt8)) (elems : List D)
    (pzText : List UInt8) (r : Parsed D (List UInt8)) : Prop where
  calls : ∃ cs, r.calls = calls ++ cs ∧ cs <+: tokens buf (inside pzText)
  fits : r.result ≠ none ↔
    FitFrom elems.length (tokens buf (inside pzText)) (pzText.contains closeBracket)
  accepts : ∀ rest, r.result = some (.ok rest) → rest ≠ [] →
    ∀ t ∈ tokens buf (inside pzText), t.length ≤ maxFloatCharSz
  refines : r.result ≠ none →
    r.elems = (parseElems strtod buf elems pzText).1 ∧
      r.result = some (parseElems strtod buf elems pzText).2

section Loop

variable {strtod} {buf valueBuf : List UInt8} {iBuf : ℕ} {calls : List (List UInt8)}
  {elems : List D} {c : UInt8} {pzText : List UInt8} {r : Parsed D (List UInt8)}

theorem inside_cons (h : c ≠ closeBracket) : inside (c :: pzText) = c :: inside pzText :=
  List.takeWhile_cons_of_pos (by simpa using h)

theorem contains_cons (h : c ≠ closeBracket) :
    (c :: pzText).contains closeBracket = pzText.contains closeBracket := by
  rw [List.contains_cons]
  simp [Ne.symm h]

/-- A blank. -/
theorem Loop.space (hspace : isSpace c = true) (h : Loop strtod buf calls elems pzText r) :
    Loop strtod buf calls elems (c :: pzText) r := by
  have hclose : c ≠ closeBracket := fun hno => absurd (hno ▸ hspace) (by decide)
  have htokens : tokens buf (inside (c :: pzText)) = tokens buf (inside pzText) := by
    rw [inside_cons hclose, tokens, if_pos hspace]
  refine ⟨?_, ?_, ?_, ?_⟩
  · rw [htokens]
    exact h.calls
  · rw [htokens, contains_cons hclose]
    exact h.fits
  · rw [htokens]
    exact h.accepts
  · rw [parseElems_isSpace strtod buf elems hspace]
    exact h.refines

/-- A character of a number. -/
theorem Loop.char (hspace : ¬ isSpace c = true) (hcomma : c ≠ comma) (hclose : c ≠ closeBracket)
    (hroom : buf.length ≤ maxFloatCharSz) (h : Loop strtod (buf ++ [c]) calls elems pzText r) :
    Loop strtod buf calls elems (c :: pzText) r := by
  have htokens : tokens buf (inside (c :: pzText)) = tokens (buf ++ [c]) (inside pzText) := by
    rw [inside_cons hclose, tokens, if_neg hspace, if_neg hcomma]
  have hparse : parseElems strtod buf elems (c :: pzText) =
      parseElems strtod (buf ++ [c]) elems pzText := by
    rcases parseElems_char strtod buf elems hspace hcomma hclose with ⟨hlong, -⟩ | ⟨-, heq⟩
    · exact absurd hlong (not_lt.mpr hroom)
    · exact heq
  refine ⟨?_, ?_, ?_, ?_⟩
  · rw [htokens]
    exact h.calls
  · rw [htokens, contains_cons hclose]
    exact h.fits
  · rw [htokens]
    exact h.accepts
  · rw [hparse]
    exact h.refines

/-- The tokens where a number ends. -/
theorem tokens_end (hend : c = comma ∨ c = closeBracket) (buf pzText : List UInt8) :
    tokens buf (inside (c :: pzText)) =
      buf :: if c = closeBracket then [] else tokens [] (inside pzText) := by
  rcases hend with rfl | rfl
  · rw [inside_cons (by decide), tokens, if_neg (by decide), if_pos rfl, if_neg (by decide)]
  · rw [inside, List.takeWhile_cons_of_neg (by simp), if_pos rfl]
    rfl

theorem tokens_ne_nil (buf inner : List UInt8) : tokens buf inner ≠ [] := by
  intro hno
  have hlen := tokens_length inner buf
  rw [hno, List.length_nil] at hlen
  omega

/-- A number that fills the buffer is not read. -/
theorem not_fitFrom_end (hend : c = comma ∨ c = closeBracket) (hk : elems.length ≤ maxVectorSz)
    (hfull : maxFloatCharSz < buf.length) :
    ¬ FitFrom elems.length (tokens buf (inside (c :: pzText)))
      ((c :: pzText).contains closeBracket) := by
  rw [tokens_end hend, fitFrom_cons hk]
  rintro ⟨hno | ⟨hopen, hlast, -⟩, -⟩
  · omega
  · rcases hend with rfl | rfl
    · rw [if_neg (by decide)] at hlast
      exact tokens_ne_nil _ _ hlast
    · rw [List.contains_cons] at hopen
      exact absurd hopen (by simp)

/-- **The end of a number.** -/
theorem Filled.loopEnd (h : Filled buf valueBuf iBuf) (hk : elems.length ≤ maxVectorSz)
    (hend : c = comma ∨ c = closeBracket)
    (hempty : ¬ (c = closeBracket ∧ elems.length = 0 ∧ iBuf = 0))
    (hrest : c ≠ closeBracket → ∀ {valueBuf}, Filled [] valueBuf 0 → elems.length < maxVectorSz →
      Loop strtod [] (calls ++ [buf]) (elems ++ [strtod buf]) pzText
        (parseLoop strtod valueBuf 0 (calls ++ [buf]) (elems ++ [strtod buf]) pzText)) :
    Loop strtod buf calls elems (c :: pzText)
      (parseLoop strtod valueBuf iBuf calls elems (c :: pzText)) := by
  have hi := h.iBuf
  have hspace : ¬ isSpace c = true := by
    rcases hend with rfl | rfl <;> decide
  have hchar : ¬ (c ≠ comma ∧ c ≠ closeBracket) := fun h => hend.elim h.1 h.2
  have hempty' : ¬ (c = closeBracket ∧ elems.length = 0 ∧ buf.length = 0) := hi ▸ hempty
  have htokens := tokens_end hend buf pzText
  unfold parseLoop
  rw [if_neg hspace, if_neg hchar, if_neg hempty, h.cString_eq]
  by_cases hroom : buf.length ≤ maxFloatCharSz
  swap
  · rw [if_neg hroom]
    exact ⟨⟨[], (List.append_nil _).symm, List.nil_prefix⟩,
      iff_of_false (fun hno => hno rfl) (not_fitFrom_end hend hk (not_le.mp hroom)),
      by rintro _ ⟨⟩, fun hno => absurd rfl hno⟩
  rw [if_pos hroom]
  dsimp only
  have hfits : (strtodConverts buf = true → elems.length < maxVectorSz → c ≠ closeBracket →
      FitFrom (elems.length + 1) (tokens [] (inside pzText)) (pzText.contains closeBracket)) →
        FitFrom elems.length (tokens buf (inside (c :: pzText)))
          ((c :: pzText).contains closeBracket) := by
    intro hnext
    rw [htokens, fitFrom_cons hk]
    refine ⟨.inl hroom, fun hconv hlt => ?_⟩
    by_cases hclose : c = closeBracket
    · rw [if_pos hclose]
      exact fun i token hi => by cases hi
    · rw [if_neg hclose, contains_cons hclose]
      exact hnext hconv hlt hclose
  have hcall : ∃ cs, calls ++ [buf] = calls ++ cs ∧ cs <+: tokens buf (inside (c :: pzText)) :=
    ⟨[buf], rfl, htokens ▸ List.prefix_append [buf] _⟩
  by_cases hconv : strtodConverts buf = false
  · -- no number
    rw [if_pos hconv]
    refine ⟨hcall, iff_of_true (by rintro ⟨⟩) (hfits fun hyes => ?_), by rintro _ ⟨⟩,
      fun _ => ?_⟩
    · rw [hconv] at hyes
      cases hyes
    · rw [parseElems, if_neg hspace, if_neg hchar, if_neg hempty', if_pos hconv]
      exact ⟨rfl, rfl⟩
  rw [if_neg hconv]
  by_cases hmax : elems.length ≥ maxVectorSz
  · -- no room for an element
    rw [if_pos hmax]
    refine ⟨hcall, iff_of_true (by rintro ⟨⟩) (hfits fun _ hlt => absurd hlt (not_lt.mpr hmax)),
      by rintro _ ⟨⟩, fun _ => ?_⟩
    rw [parseElems, if_neg hspace, if_neg hchar, if_neg hempty', if_neg hconv, if_pos hmax]
    exact ⟨rfl, rfl⟩
  rw [if_neg hmax]
  by_cases hclose : c = closeBracket
  · -- the last element
    rw [if_pos hclose]
    refine ⟨hcall, iff_of_true (by rintro ⟨⟩) (hfits fun _ _ hno => absurd hclose hno),
      fun _ _ _ t ht => ?_, fun _ => ?_⟩
    · rw [htokens, if_pos hclose] at ht
      obtain rfl := List.mem_singleton.mp ht
      exact hroom
    · rw [parseElems, if_neg hspace, if_neg hchar, if_neg hempty', if_neg hconv, if_neg hmax,
        if_pos hclose]
      exact ⟨rfl, rfl⟩
  · -- an element, and the next number
    rw [if_neg hclose]
    have hnext := hrest hclose h.clear (not_le.mp hmax)
    rw [if_neg hclose] at htokens
    refine ⟨?_, ?_, fun rest hok hne => ?_, ?_⟩
    · obtain ⟨cs, hcs, hprefix⟩ := hnext.calls
      refine ⟨buf :: cs, by rw [hcs, List.append_assoc]; rfl, ?_⟩
      rw [htokens]
      exact (List.prefix_cons_inj buf).mpr hprefix
    · rw [hnext.fits, htokens, fitFrom_cons hk, contains_cons hclose, List.length_append,
        List.length_singleton]
      exact ⟨fun hfit => ⟨.inl hroom, fun _ _ => hfit⟩,
        fun hfit => hfit.2 (Bool.eq_true_of_not_eq_false hconv) (not_le.mp hmax)⟩
    · rw [htokens, List.forall_mem_cons]
      exact ⟨hroom, hnext.accepts rest hok hne⟩
    · rw [parseElems, if_neg hspace, if_neg hchar, if_neg hempty', if_neg hconv, if_neg hmax,
        if_neg hclose]
      exact hnext.refines

/-- **The loop**, from any number begun. -/
theorem parseLoop_spec (htext : 0 ∉ pzText) (h : Filled buf valueBuf iBuf)
    (hk : elems.length ≤ maxVectorSz) :
    Loop strtod buf calls elems pzText
      (parseLoop strtod valueBuf iBuf calls elems pzText) := by
  induction pzText generalizing buf valueBuf iBuf calls elems with
  | nil =>
      refine ⟨⟨[], (List.append_nil _).symm, List.nil_prefix⟩, iff_of_true (by rintro ⟨⟩) ?_,
        fun _ hrest hne => ?_, fun _ => ⟨rfl, rfl⟩⟩
      swap
      · obtain rfl := Except.ok.inj (Option.some.inj hrest)
        exact absurd rfl hne
      refine (fitFrom_cons hk _ _ _).mpr ⟨?_, fun _ _ i token hi => by cases hi⟩
      rcases Nat.lt_or_ge maxFloatCharSz buf.length with hlong | hroom
      · exact .inr ⟨rfl, rfl, le_antisymm h.le hlong⟩
      · exact .inl hroom
  | cons c pzText ih =>
      have hc : c ≠ 0 := fun hno => htext (hno ▸ List.mem_cons_self)
      have htext' : 0 ∉ pzText := fun hno => htext (List.mem_cons_of_mem _ hno)
      have hi := h.iBuf
      by_cases hspace : isSpace c = true
      · rw [parseLoop, if_pos hspace]
        exact (ih htext' h hk).space hspace
      by_cases hchar : c ≠ comma ∧ c ≠ closeBracket
      · -- a character of a number
        obtain ⟨hcomma, hclose⟩ := hchar
        rw [parseLoop, if_neg hspace, if_pos ⟨hcomma, hclose⟩]
        by_cases hlong : iBuf > maxFloatCharSz
        · rw [if_pos hlong, h.cString_eq, if_neg (by rw [← hi]; exact not_le.mpr hlong)]
          refine ⟨⟨[], (List.append_nil _).symm, List.nil_prefix⟩,
            iff_of_false (fun hno => hno rfl) fun hfit => ?_, nofun, fun hno => absurd rfl hno⟩
          -- the number is longer than the buffer
          have htokens : tokens buf (inside (c :: pzText)) =
              tokens (buf ++ [c]) (inside pzText) := by
            rw [inside_cons hclose, tokens, if_neg hspace, if_neg hcomma]
          obtain ⟨token, rest, hhead, hle⟩ := tokens_head (inside pzText) (buf ++ [c])
          rw [htokens, hhead, fitFrom_cons hk] at hfit
          rw [List.length_append, List.length_singleton] at hle
          rcases hfit.1 with hno | ⟨-, -, hno⟩ <;> omega
        · rw [if_neg hlong, if_pos (by rw [h.length]; exact Nat.lt_succ_of_le (not_lt.mp hlong))]
          exact (ih htext' (h.char (not_lt.mp hlong) hc) hk).char hspace hcomma hclose
            (hi ▸ not_lt.mp hlong)
      have hend : c = comma ∨ c = closeBracket := by
        by_contra hno
        exact hchar (not_or.mp hno)
      by_cases hempty : c = closeBracket ∧ elems.length = 0 ∧ iBuf = 0
      · -- the empty vector
        obtain ⟨rfl, he, hb⟩ := hempty
        obtain rfl : buf = [] := List.length_eq_zero_iff.mp (hi ▸ hb)
        rw [parseLoop, if_neg hspace, if_neg hchar, if_pos ⟨rfl, he, hb⟩]
        have htokens := tokens_end hend [] pzText
        rw [if_pos rfl] at htokens
        refine ⟨⟨[], (List.append_nil _).symm, List.nil_prefix⟩, iff_of_true (by rintro ⟨⟩) ?_,
          fun _ _ _ t ht => ?_, fun _ => ?_⟩
        · rw [htokens]
          exact (fitFrom_cons hk _ _ _).mpr ⟨.inl (Nat.zero_le _), fun _ _ i token hi => by cases hi⟩
        · rw [htokens] at ht
          obtain rfl := List.mem_singleton.mp ht
          exact Nat.zero_le _
        · rw [parseElems, if_neg hspace, if_neg hchar, if_pos ⟨rfl, he, rfl⟩]
          exact ⟨rfl, rfl⟩
      refine h.loopEnd hk hend hempty fun _ _ hfill hlt => ih htext' hfill ?_
      rw [List.length_append, List.length_singleton]
      exact hlt

end Loop

/-! ### Whole texts -/

/-- The C string behind the first bracket, of a text that begins with one. -/
def opened (text : List UInt8) : List UInt8 :=
  ((text.takeWhile (· ≠ 0)).dropWhile isSpace).tail

/-- The numbers that the parser comes to leave room in the buffer. -/
def TokensFit (text : List UInt8) : Prop :=
  ((text.takeWhile (· ≠ 0)).dropWhile isSpace).headD 0 = openBracket →
    FitFrom 0 (numbers (inside (opened text))) ((opened text).contains closeBracket)

/-- The buffer is not left, `strtod` gets the numbers of the text one after the other, and a text
with a number that leaves no room in the buffer is not accepted. -/
structure TokensOk (text : List UInt8) : Prop where
  inBounds : (vectorParseSqliteText strtod text).result ≠ none
  exact : (vectorParseSqliteText strtod text).calls <+: numbers (inside (opened text))
  rejects : ∀ n, (vectorParseSqliteText strtod text).result = some (.ok n) →
    ∀ token ∈ numbers (inside (opened text)), token.length ≤ maxFloatCharSz

section Texts

variable {strtod} {text : List UInt8}

variable (strtod) in
/-- The whole parser, by its loop. -/
theorem loop_opened (text : List UInt8) : Loop strtod [] [] [] (opened text)
    (parseLoop strtod (List.replicate bufSize 0) 0 [] [] (opened text)) := by
  refine parseLoop_spec (fun hmem => ?_) filled_clear (Nat.zero_le _)
  have hfront := (List.dropWhile_suffix _).mem (List.mem_of_mem_tail hmem)
  simpa using List.mem_takeWhile_imp hfront

/-- **What the parser does** with a text that begins with a bracket, by what its loop does. -/
theorem vectorParseSqliteText_opened
    (h : ((text.takeWhile (· ≠ 0)).dropWhile isSpace).headD 0 = openBracket) :
    let r := parseLoop strtod (List.replicate bufSize 0) 0 [] [] (opened text)
    let r' := vectorParseSqliteText strtod text
    r'.calls = r.calls ∧ r'.elems = r.elems ∧ (r'.result = none ↔ r.result = none) ∧
      ∀ n, r'.result = some (.ok n) → ∃ rest, r.result = some (.ok rest) ∧ rest ≠ [] := by
  unfold vectorParseSqliteText opened
  dsimp only
  rw [if_neg (not_not.mpr h)]
  generalize parseLoop strtod (List.replicate bufSize 0) 0 [] [] _ = r
  rcases r with ⟨calls, elems, - | zErrMsg | rest⟩
  · exact ⟨rfl, rfl, iff_of_true rfl rfl, nofun⟩
  · exact ⟨rfl, rfl, iff_of_false nofun nofun, nofun⟩
  · dsimp only
    split_ifs with hclose hbehind
    · exact ⟨rfl, rfl, iff_of_false nofun nofun, nofun⟩
    · exact ⟨rfl, rfl, iff_of_false nofun nofun, nofun⟩
    · refine ⟨rfl, rfl, iff_of_false nofun nofun, fun _ _ => ⟨rest, rfl, ?_⟩⟩
      rintro rfl
      exact hclose (by decide)

/-- The buffer is left exactly if a number leaves no room. -/
theorem inBounds_iff :
    (vectorParseSqliteText strtod text).result ≠ none ↔ TokensFit text := by
  by_cases hopen : ((text.takeWhile (· ≠ 0)).dropWhile isSpace).headD 0 = openBracket
  · have hloop := (loop_opened strtod text).fits
    rw [tokens_nil] at hloop
    rw [Ne, (vectorParseSqliteText_opened hopen).2.2.1, ← Ne, hloop]
    exact ⟨fun h _ => h, fun h => h hopen⟩
  · unfold vectorParseSqliteText TokensFit
    dsimp only
    rw [if_pos hopen]
    exact iff_of_true (by rintro ⟨⟩) fun hno => absurd hno hopen

/-- **As long as the numbers fit**, the parser does what it does with a buffer without a bound. -/
theorem vectorParseSqliteText_refines (h : TokensFit text) :
    (vectorParseSqliteText strtod text).elems =
        (MoVeBench.vectorParseSqliteText strtod text).1 ∧
      (vectorParseSqliteText strtod text).result =
        some (MoVeBench.vectorParseSqliteText strtod text).2 := by
  by_cases hopen : ((text.takeWhile (· ≠ 0)).dropWhile isSpace).headD 0 = openBracket
  · have hloop := loop_opened strtod text
    have hfit : (vectorParseSqliteText strtod text).result ≠ none := inBounds_iff.mpr h
    rw [Ne, (vectorParseSqliteText_opened hopen).2.2.1] at hfit
    obtain ⟨helems, hresult⟩ := hloop.refines hfit
    unfold opened at helems hresult
    unfold vectorParseSqliteText MoVeBench.vectorParseSqliteText
    dsimp only
    rw [if_neg (not_not.mpr hopen), if_neg (not_not.mpr hopen)]
    generalize parseLoop strtod (List.replicate bufSize 0) 0 [] [] _ = r at helems hresult ⊢
    generalize parseElems strtod [] [] _ = q at helems hresult ⊢
    obtain ⟨calls, elems, result⟩ := r
    obtain ⟨elems', result'⟩ := q
    dsimp only at helems hresult
    subst helems hresult
    rcases result' with zErrMsg | rest
    · exact ⟨rfl, rfl⟩
    · dsimp only
      split_ifs <;> exact ⟨rfl, rfl⟩
  · unfold vectorParseSqliteText MoVeBench.vectorParseSqliteText
    dsimp only
    rw [if_pos hopen, if_pos hopen]
    exact ⟨rfl, rfl⟩

end Texts

/-- **The buffer of the parser is sound** exactly for the texts whose numbers fit. -/
theorem tokensOk_iff (text : List UInt8) : TokensOk strtod text ↔ TokensFit text := by
  refine ⟨fun h => inBounds_iff.mp h.inBounds, fun h => ⟨inBounds_iff.mpr h, ?_, fun n hn => ?_⟩⟩
  · by_cases hopen : ((text.takeWhile (· ≠ 0)).dropWhile isSpace).headD 0 = openBracket
    · obtain ⟨cs, hcalls, hprefix⟩ := (loop_opened strtod text).calls
      rw [tokens_nil] at hprefix
      rw [(vectorParseSqliteText_opened hopen).1, hcalls]
      exact hprefix
    · unfold vectorParseSqliteText
      dsimp only
      rw [if_pos hopen]
      exact List.nil_prefix
  · by_cases hopen : ((text.takeWhile (· ≠ 0)).dropWhile isSpace).headD 0 = openBracket
    · obtain ⟨rest, hrest, hne⟩ := (vectorParseSqliteText_opened hopen).2.2.2 n hn
      rw [← tokens_nil]
      exact (loop_opened strtod text).accepts rest hrest hne
    · unfold vectorParseSqliteText at hn
      dsimp only at hn
      rw [if_pos hopen] at hn
      cases Option.some.inj hn

theorem tokens_replicate (n : ℕ) (buf : List UInt8) {c : UInt8} (hspace : ¬ isSpace c = true)
    (hcomma : c ≠ comma) : tokens buf (List.replicate n c) = [buf ++ List.replicate n c] := by
  induction n generalizing buf with
  | zero => rw [List.replicate_zero, List.append_nil]; rfl
  | succ n ih =>
      rw [List.replicate_succ, tokens, if_neg hspace, if_neg hcomma, ih, List.append_assoc]
      rfl

/-- A number of 1025 digits is read behind the end of the buffer. -/
theorem not_tokensOk : ¬ ∀ text, TokensOk (fun z => z.length) text := by
  intro hall
  obtain ⟨digits, hdigits⟩ : ∃ digits : List UInt8, digits = List.replicate 1025 0x31 := ⟨_, rfl⟩
  have hnumber : ∀ c ∈ digits, c = 0x31 := fun c hc => List.eq_of_mem_replicate (hdigits ▸ hc)
  have htext : (openBracket :: (digits ++ [closeBracket])).takeWhile (· ≠ 0) =
      openBracket :: (digits ++ [closeBracket]) := by
    rw [List.takeWhile_eq_self_iff]
    intro c hc
    rcases List.mem_cons.mp hc with rfl | hc
    · decide
    · rcases List.mem_append.mp hc with hc | hc
      · obtain rfl := hnumber c hc
        decide
      · obtain rfl := List.mem_singleton.mp hc
        decide
  have hopened : opened (openBracket :: (digits ++ [closeBracket])) = digits ++ [closeBracket] := by
    unfold opened
    rw [htext, List.dropWhile_cons_of_neg (by decide)]
    rfl
  have hinside : inside (digits ++ [closeBracket]) = digits := by
    rw [inside, List.takeWhile_append_of_pos fun c hc => ?_, List.takeWhile_cons_of_neg (by simp),
      List.append_nil]
    obtain rfl := hnumber c hc
    decide
  have hclosed : (digits ++ [closeBracket]).contains closeBracket = true :=
    List.contains_iff_mem.mpr (List.mem_append_right _ List.mem_cons_self)
  have hfit := inBounds_iff.mp (hall (openBracket :: (digits ++ [closeBracket]))).inBounds
  unfold TokensFit at hfit
  rw [hopened, hinside, htext, hclosed, ← tokens_nil, hdigits,
    tokens_replicate _ _ (by decide) (by decide), List.nil_append] at hfit
  have hlast := hfit rfl 0 _ rfl (Nat.zero_le _) fun t ht => absurd ht List.not_mem_nil
  rw [List.length_replicate] at hlast
  rcases hlast with hlong | ⟨hopen, -⟩
  · exact absurd hlong (by decide)
  · cases hopen

end TextBuf

end MoVeBench
