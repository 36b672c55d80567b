/-
MoVeBench/NumRead.lean

Numbers from text (`sqlite4_num_from_text` of `math.c`).

The reader goes through the text once.  It keeps as many digits as a signed integer of 64 bits has
room for, rounds by the next one, and counts the others into the exponent.

* A text reads the same in UTF-8 and in UTF-16, where only the low bytes are looked at, but for
  `inf` at the end of a text in UTF-16BE (`sqlite4_num_from_text_utf16`).
* A numeral reads as its value, up to one unit of the last digit that is kept, and the `approx`
  flag says whether that is exact (`sqlite4_num_from_text_numeral`).
-/
import MoVeBench.NumArith

namespace MoVeBench

/-! ### The reader -/

/-- The encoding of a text; `SQLITE4_UTF16` stands for one of the last two. -/
inductive TextEnc where
  | utf8
  | utf16le
  | utf16be
deriving DecidableEq, Repr

/-- The distance from one character to the next. -/
def TextEnc.incr : TextEnc → ℕ
  | .utf8 => 1
  | _ => 2

@[simp] theorem TextEnc.incr_utf8 : TextEnc.utf8.incr = 1 := rfl

/-- The `flags` of `sqlite4_num_from_text`. -/
structure TextFlags where
  enc : TextEnc
  prefixOnly : Bool
  ignoreWhitespace : Bool
  negative : Bool
  integerOnly : Bool
deriving DecidableEq, Repr

/-- What the loop of `sqlite4_num_from_text` keeps. -/
structure Reading where
  r : Num
  bReal : Bool
  seenRadix : Bool
  seenDigit : Bool
  bRnd : Bool
deriving DecidableEq, Repr

/-- `error_value`. -/
def errorValue : Num := ⟨false, false, mxExp + 1, 0⟩

/-- The bit of `sqlite4CtypeMap` that `sqlite4Isspace` looks at. -/
def sqlite4Isspace (x : UInt8) : Bool := (0x09 ≤ x && x ≤ 0x0d) || x == 0x20

/-- The loops over white space.  Behind the end there is a zero byte, as far as they see. -/
def skipSpace (incr : ℕ) : ℕ → List UInt8 → List UInt8
  | 0, z => z
  | n + 1, z => if sqlite4Isspace (z.headD 0) then skipSpace incr n (z.drop incr) else z

/-- The test for `inf`. -/
def spellsInf (incr : ℕ) (z : List UInt8) : Bool :=
  let c (k : ℕ) : UInt8 := (z.drop (incr * k)).headD 0
  (c 0 == 0x69 || c 0 == 0x49) && (c 1 == 0x6e || c 1 == 0x4e) && (c 2 == 0x66 || c 2 == 0x46)

/-- A round of the loop at a digit. -/
def readDigit (iDigit : ℕ) (s : Reading) : Reading :=
  if iDigit = 0 ∧ s.seenDigit = false then
    if s.seenRadix then { s with r := { s.r with e := toShort (s.r.e - 1) } } else s
  else if s.r.e > 0 ∨ s.r.m > (2 ^ 63 - 1) / 10 ∨
      s.r.m = (2 ^ 63 - 1) / 10 ∧ iDigit > (if s.r.sign then 8 else 7) then
    -- mantissa overflow
    { r :=
        { sign := s.r.sign
          approx := s.r.approx || iDigit != 0
          e := if s.seenRadix then s.r.e else toShort (s.r.e + 1)
          m := if s.bRnd ∧ iDigit > 5 ∧ s.r.m < largestInt s.r.sign then s.r.m + 1 else s.r.m }
      bReal := true
      seenRadix := s.seenRadix
      seenDigit := true
      bRnd := false }
  else
    { s with
      r :=
        { s.r with
          e := if s.seenRadix then toShort (s.r.e - 1) else s.r.e
          m := s.r.m * 10 + iDigit }
      seenDigit := true }

/-- The exponent that a number stands for, if it may stand behind an `e`. -/
def exponentOf (exp : Num) : Option ℤ :=
  if sqlite4_num_isnan exp then none
  else if exp.e ≠ 0 ∨ exp.m > 999 then none
  else some (exp.m * if exp.sign then -1 else 1)

/-- A round of the loop at an `e`, which is the last one, and where it ends: at `z`, behind the
`e`, or at the end of the text. -/
def readExponent (exponent : List UInt8 → Num) (s : Reading) (z zExp : List UInt8) :
    Reading × List UInt8 :=
  if zExp = [] then (s, z)
  else
    match exponentOf (exponent zExp) with
    | none => (s, zExp)
    | some x => ({ s with r := { s.r with e := toShort (s.r.e + x) }, bReal := true }, [])

/-- The loop of `sqlite4_num_from_text`, and where it ends. -/
def readLoop (exponent : List UInt8 → Num) (integerOnly : Bool) (incr : ℕ) :
    ℕ → Reading → List UInt8 → Reading × List UInt8
  | 0, s, z => (s, z)
  | n + 1, s, z =>
      let c := z.headD 0
      if c = 0 then (s, z)
      else if 0x30 ≤ c ∧ c ≤ 0x39 then
        readLoop exponent integerOnly incr n (readDigit (c.toNat - 0x30) s) (z.drop incr)
      else if integerOnly then (s, z)
      else if c = 0x2e then
        if s.seenRadix then (s, z)
        else
          readLoop exponent integerOnly incr n { s with seenRadix := true, bReal := true }
            (z.drop incr)
      else if c = 0x65 ∨ c = 0x45 then readExponent exponent s z (z.drop incr)
      else (s, z)

/-- From the label `finished` on: what is left of the text is an error. -/
def finished (flags : TextFlags) (r : Num) (z : List UInt8) : Num :=
  if flags.prefixOnly = false ∧ z.headD 0 ≠ 0 then
    let z := if flags.ignoreWhitespace then skipSpace flags.enc.incr z.length z else z
    if z.headD 0 ≠ 0 then { r with e := mxExp + 1, m := 0 } else r
  else r

/-- What stands behind the sign, and what is written to `*pbReal`. -/
def readUnsigned (exponent : List UInt8 → Num) (flags : TextFlags) (sign : Bool)
    (z : List UInt8) : Num × Option Bool :=
  let incr := flags.enc.incr
  if z = [] then (errorValue, none)
  else if flags.integerOnly = false ∧ z.length ≥ incr * 3 ∧ spellsInf incr z then
    (finished flags ⟨sign, false, mxExp + 1, 1⟩ (z.drop (incr * 3)), some true)
  else
    let (s, z) := readLoop exponent flags.integerOnly incr z.length
      ⟨⟨sign, false, 0, 0⟩, false, false, false, true⟩ z
    (finished flags s.r z, some s.bReal)

/-- The sign, and what stands behind it. -/
def readSigned (exponent : List UInt8 → Num) (flags : TextFlags) (z : List UInt8) :
    Num × Option Bool :=
  if z = [] then (errorValue, none)
  else if z.headD 0 = 0x2d then readUnsigned exponent flags true (z.drop flags.enc.incr)
  else if z.headD 0 = 0x2b then readUnsigned exponent flags false (z.drop flags.enc.incr)
  else readUnsigned exponent flags flags.negative z

/-- The flags for the exponent. -/
def TextFlags.forExponent (flags : TextFlags) : TextFlags where
  enc := if flags.enc.incr = 2 then .utf16le else .utf8
  prefixOnly := flags.prefixOnly
  ignoreWhitespace := flags.ignoreWhitespace
  negative := false
  integerOnly := false

/-- `sqlite4_num_from_text`, for the `nIn` bytes at `zIn`, or for those up to the zero byte if
`nIn` is negative, and what it writes to `*pbReal`.  It calls itself for the exponents. -/
def fromText : ℕ → TextFlags → List UInt8 → Num × Option Bool
  | 0, _, _ => (errorValue, none)
  | depth + 1, flags, zIn =>
      let z := if flags.enc = .utf16be then zIn.drop 1 else zIn
      let z := if flags.ignoreWhitespace then skipSpace flags.enc.incr z.length z else z
      readSigned (fun zExp => (fromText depth flags.forExponent zExp).1) flags z

/-- An exponent is shorter than the text, which bounds the calls. -/
def sqlite4_num_from_text (zIn : List UInt8) (flags : TextFlags) : Num × Option Bool :=
  fromText (zIn.length + 1) flags zIn

/-! ### Lengths of the text -/

theorem skipSpace_suffix (n : ℕ) (t : List UInt8) : skipSpace 1 n t <:+ t := by
  induction n generalizing t with
  | zero => exact List.suffix_refl t
  | succ n ih =>
      unfold skipSpace
      split_ifs
      · exact (ih _).trans (List.drop_suffix 1 t)
      · exact List.suffix_refl t

theorem skipSpace_nil (n : ℕ) : skipSpace 1 n [] = [] :=
  List.suffix_nil.mp (skipSpace_suffix n [])

/-- As many rounds as there are characters are enough. -/
theorem skipSpace_rounds {n : ℕ} {t : List UInt8} (h : t.length ≤ n) :
    skipSpace 1 n t = skipSpace 1 t.length t := by
  induction n generalizing t with
  | zero => rw [List.length_eq_zero_iff.mp (Nat.le_zero.mp h)]; rfl
  | succ n ih =>
      rcases t with _ | ⟨c, t⟩
      · exact skipSpace_nil _
      · rw [List.length_cons, skipSpace, skipSpace, List.drop_one, List.tail_cons]
        rw [List.length_cons] at h
        rw [ih (by omega)]

section Rounds

variable {exponent exponent' : List UInt8 → Num} {integerOnly : Bool}

theorem readLoop_nil (n : ℕ) (s : Reading) :
    readLoop exponent integerOnly 1 n s [] = (s, []) := by
  rcases n with _ | n <;> rfl

/-- As many rounds as there are characters are enough. -/
theorem readLoop_rounds {n : ℕ} {z : List UInt8} (s : Reading) (h : z.length ≤ n) :
    readLoop exponent integerOnly 1 n s z = readLoop exponent integerOnly 1 z.length s z := by
  induction n generalizing s z with
  | zero => rw [List.length_eq_zero_iff.mp (Nat.le_zero.mp h)]; rfl
  | succ n ih =>
      rcases z with _ | ⟨c, z⟩
      · rw [readLoop_nil, readLoop_nil]
      · rw [List.length_cons] at h
        rw [List.length_cons, readLoop, readLoop, List.drop_one, List.tail_cons]
        simp only [ih _ (show z.length ≤ n by omega)]

/-- The exponent is part of the text. -/
theorem readLoop_congr (n : ℕ) (s : Reading) {z : List UInt8}
    (h : ∀ y : List UInt8, y.length < z.length → exponent y = exponent' y) :
    readLoop exponent integerOnly 1 n s z = readLoop exponent' integerOnly 1 n s z := by
  induction n generalizing s z with
  | zero => rfl
  | succ n ih =>
      rcases z with _ | ⟨c, z⟩
      · rw [readLoop_nil, readLoop_nil]
      · rw [readLoop, readLoop, List.drop_one, List.tail_cons]
        have hrest : ∀ s, readLoop exponent integerOnly 1 n s z =
            readLoop exponent' integerOnly 1 n s z := fun s =>
          ih s fun y hy => h y (hy.trans (Nat.lt_succ_self _))
        simp only [hrest, readExponent, h z (Nat.lt_succ_self _)]

theorem readUnsigned_congr {flags : TextFlags} (henc : flags.enc = .utf8) (sign : Bool)
    {z : List UInt8} (h : ∀ y : List UInt8, y.length < z.length → exponent y = exponent' y) :
    readUnsigned exponent flags sign z = readUnsigned exponent' flags sign z := by
  unfold readUnsigned
  simp only [henc, TextEnc.incr_utf8]
  rw [readLoop_congr _ _ h]

theorem readSigned_congr {flags : TextFlags} (henc : flags.enc = .utf8) {z : List UInt8}
    (h : ∀ y : List UInt8, y.length < z.length → exponent y = exponent' y) :
    readSigned exponent flags z = readSigned exponent' flags z := by
  have hdrop : ∀ y : List UInt8, y.length < (z.drop 1).length → exponent y = exponent' y :=
    fun y hy => h y (hy.trans_le (List.drop_suffix 1 z).length_le)
  unfold readSigned
  rw [henc, TextEnc.incr_utf8, readUnsigned_congr henc _ hdrop, readUnsigned_congr henc _ hdrop,
    readUnsigned_congr henc _ h]

end Rounds

/-- More depth than characters makes no difference. -/
theorem fromText_depth {d k : ℕ} {flags : TextFlags} (henc : flags.enc = .utf8)
    {t : List UInt8} (h : t.length < d) (h' : t.length < k) :
    fromText d flags t = fromText k flags t := by
  induction d generalizing k flags t with
  | zero => omega
  | succ d ih =>
      obtain ⟨k, rfl⟩ : ∃ j, k = j + 1 := ⟨k - 1, by omega⟩
      rw [fromText, fromText]
      simp only [henc, TextEnc.incr_utf8, reduceCtorEq, if_false]
      refine readSigned_congr henc fun y hy => ?_
      have hle : y.length < t.length := by
        refine hy.trans_le ?_
        split_ifs
        · exact (skipSpace_suffix _ _).length_le
        · exact le_rfl
      rw [ih (k := k) (by simp [TextFlags.forExponent, henc]) (by omega) (by omega)]

/-! ### UTF-16 -/

/-- A text in an encoding.  For UTF-16 the high bytes are zero. -/
def TextEnc.encode : TextEnc → List UInt8 → List UInt8
  | .utf8, t => t
  | .utf16le, t => t.flatMap fun c => [c, 0]
  | .utf16be, t => t.flatMap fun c => [0, c]

/-- A zero byte behind each character, but perhaps for the last one. -/
def wide (last : Bool) : List UInt8 → List UInt8
  | [] => []
  | [c] => if last then [c, 0] else [c]
  | c :: d :: t => c :: 0 :: wide last (d :: t)

theorem encode_utf16le (t : List UInt8) : TextEnc.utf16le.encode t = wide true t := by
  induction t with
  | nil => rfl
  | cons c t ih =>
      rcases t with _ | ⟨d, t⟩
      · rfl
      · rw [wide, ← ih]
        rfl

theorem encode_utf16be (t : List UInt8) : (TextEnc.utf16be.encode t).drop 1 = wide false t := by
  induction t with
  | nil => rfl
  | cons c t ih =>
      rcases t with _ | ⟨d, t⟩
      · rfl
      · rw [wide, ← ih]
        rfl

section Wide

variable {last : Bool}

@[simp] theorem wide_headD (t : List UInt8) : (wide last t).headD 0 = t.headD 0 := by
  rcases t with _ | ⟨c, _ | ⟨d, t⟩⟩
  · rfl
  · cases last <;> rfl
  · rfl

@[simp] theorem wide_drop_two (t : List UInt8) : (wide last t).drop 2 = wide last (t.drop 1) := by
  rcases t with _ | ⟨c, _ | ⟨d, t⟩⟩
  · rfl
  · cases last <;> rfl
  · rfl

@[simp] theorem wide_eq_nil {t : List UInt8} : wide last t = [] ↔ t = [] := by
  rcases t with _ | ⟨c, _ | ⟨d, t⟩⟩
  · simp [wide]
  · cases last <;> simp [wide]
  · simp [wide]

theorem wide_drop (t : List UInt8) (k : ℕ) :
    (wide last t).drop (2 * k) = wide last (t.drop (1 * k)) := by
  induction k generalizing t with
  | zero => rfl
  | succ k ih =>
      rw [Nat.mul_succ, Nat.add_comm, ← List.drop_drop, wide_drop_two, ih, List.drop_drop]
      congr 2
      omega

theorem wide_length (t : List UInt8) :
    (wide last t).length = 2 * t.length - if last then 0 else 1 := by
  induction t with
  | nil => simp [wide]
  | cons c t ih =>
      rcases t with _ | ⟨d, t⟩
      · cases last <;> rfl
      · rw [wide, List.length_cons, List.length_cons, ih]
        simp only [List.length_cons]
        split_ifs <;> omega

theorem le_wide_length (t : List UInt8) : t.length ≤ (wide last t).length := by
  rw [wide_length]
  split_ifs <;> omega

theorem skipSpace_wide (n : ℕ) (t : List UInt8) :
    skipSpace 2 n (wide last t) = wide last (skipSpace 1 n t) := by
  induction n generalizing t with
  | zero => rfl
  | succ n ih =>
      rw [skipSpace, skipSpace, wide_headD, wide_drop_two]
      split_ifs
      · exact ih _
      · rfl

theorem spellsInf_wide (t : List UInt8) : spellsInf 2 (wide last t) = spellsInf 1 t := by
  simp only [spellsInf, wide_drop, wide_headD]

/-- The `inf` that is not seen for want of the last byte. -/
def NoInfAtEnd (last : Bool) (t : List UInt8) : Prop :=
  last = true ∨ ∀ z, z <:+ t → z.length = 3 → spellsInf 1 z = false

theorem NoInfAtEnd.suffix {t t' : List UInt8} (h : NoInfAtEnd last t) (ht : t' <:+ t) :
    NoInfAtEnd last t' :=
  h.imp_right fun h z hz => h z (hz.trans ht)

theorem NoInfAtEnd.seen {z : List UInt8} (h : NoInfAtEnd last z) :
    ((wide last z).length ≥ 2 * 3 ∧ spellsInf 2 (wide last z) = true) ↔
      z.length ≥ 1 * 3 ∧ spellsInf 1 z = true := by
  rw [spellsInf_wide, wide_length]
  refine and_congr_left fun hinf => ?_
  rcases h with rfl | h
  · rw [if_pos rfl]
    omega
  · have hlen : z.length ≠ 3 := fun hlen =>
      Bool.false_ne_true ((h z (List.suffix_refl z) hlen).symm.trans hinf)
    split_ifs <;> omega

theorem finished_wide {flags flags' : TextFlags} (henc : flags.enc = .utf8)
    (henc' : flags'.enc.incr = 2) (hp : flags'.prefixOnly = flags.prefixOnly)
    (hw : flags'.ignoreWhitespace = flags.ignoreWhitespace) (r : Num) (z : List UInt8) :
    finished flags' r (wide last z) = finished flags r z := by
  have hz : (if flags.ignoreWhitespace = true then
        skipSpace flags'.enc.incr (wide last z).length (wide last z) else wide last z) =
      wide last (if flags.ignoreWhitespace = true then skipSpace flags.enc.incr z.length z
        else z) := by
    rw [henc, henc', TextEnc.incr_utf8, skipSpace_wide, skipSpace_rounds (le_wide_length z)]
    split_ifs <;> rfl
  unfold finished
  rw [hp, hw, hz]
  simp only [wide_headD]

variable {exponent exponent' : List UInt8 → Num} {integerOnly : Bool}

theorem readLoop_wide
    (hexp : ∀ t, NoInfAtEnd last t → exponentOf (exponent' (wide last t)) = exponentOf (exponent t))
    (n : ℕ) (s : Reading) {t : List UInt8} (ht : NoInfAtEnd last t) :
    readLoop exponent' integerOnly 2 n s (wide last t) =
      ((readLoop exponent integerOnly 1 n s t).1,
        wide last (readLoop exponent integerOnly 1 n s t).2) := by
  induction n generalizing s t with
  | zero => rfl
  | succ n ih =>
      have htail := ht.suffix (List.drop_suffix 1 t)
      rw [readLoop, readLoop, wide_headD, wide_drop_two]
      split_ifs
      · rfl
      · exact ih _ htail
      · rfl
      · rfl
      · exact ih _ htail
      · rw [readExponent, readExponent, hexp _ htail]
        simp only [wide_eq_nil]
        split_ifs
        · rfl
        · cases exponentOf (exponent (t.drop 1)) <;> rfl
      · rfl

theorem readUnsigned_wide
    (hexp : ∀ t, NoInfAtEnd last t → exponentOf (exponent' (wide last t)) = exponentOf (exponent t))
    (flags : TextFlags) {enc : TextEnc} (henc : enc.incr = 2) (sign : Bool) {t : List UInt8}
    (ht : NoInfAtEnd last t) :
    readUnsigned exponent' { flags with enc := enc } sign (wide last t) =
      readUnsigned exponent { flags with enc := .utf8 } sign t := by
  have hfin : ∀ r z, finished { flags with enc := enc } r (wide last z) =
      finished { flags with enc := .utf8 } r z := finished_wide rfl henc rfl rfl
  unfold readUnsigned
  dsimp only
  rw [henc, TextEnc.incr_utf8]
  simp only [wide_eq_nil, ht.seen, wide_drop, readLoop_wide hexp _ _ ht, hfin,
    readLoop_rounds _ (le_wide_length t)]

theorem readSigned_wide
    (hexp : ∀ t, NoInfAtEnd last t → exponentOf (exponent' (wide last t)) = exponentOf (exponent t))
    (flags : TextFlags) {enc : TextEnc} (henc : enc.incr = 2) {t : List UInt8}
    (ht : NoInfAtEnd last t) :
    readSigned exponent' { flags with enc := enc } (wide last t) =
      readSigned exponent { flags with enc := .utf8 } t := by
  have htail := ht.suffix (List.drop_suffix 1 t)
  unfold readSigned
  dsimp only
  rw [henc, TextEnc.incr_utf8]
  simp only [wide_eq_nil, wide_headD, wide_drop_two, readUnsigned_wide hexp flags henc _ ht,
    readUnsigned_wide hexp flags henc _ htail]

end Wide

theorem fromText_succ_wide {depth : ℕ} (flags : TextFlags) {enc : TextEnc} (henc : enc.incr = 2)
    {last : Bool} {t zIn : List UInt8} (ht : NoInfAtEnd last t)
    (hz : (if enc = .utf16be then zIn.drop 1 else zIn) = wide last t)
    (hexp : ∀ t, NoInfAtEnd last t →
      exponentOf (fromText depth (TextFlags.forExponent { flags with enc := enc })
        (wide last t)).1 =
      exponentOf (fromText depth (TextFlags.forExponent { flags with enc := .utf8 }) t).1) :
    fromText (depth + 1) { flags with enc := enc } zIn =
      fromText (depth + 1) { flags with enc := .utf8 } t := by
  have hskip : skipSpace 2 (wide last t).length (wide last t) =
      wide last (skipSpace 1 t.length t) := by
    rw [skipSpace_wide, skipSpace_rounds (le_wide_length t)]
  rw [fromText, fromText]
  dsimp only
  rw [hz, henc, hskip]
  simp only [reduceCtorEq, if_false, TextEnc.incr_utf8]
  split_ifs
  · exact readSigned_wide hexp flags henc (ht.suffix (skipSpace_suffix _ _))
  · exact readSigned_wide hexp flags henc ht

theorem fromText_wide (depth : ℕ) (flags : TextFlags) {last : Bool} {t : List UInt8}
    (ht : NoInfAtEnd last t) :
    fromText depth { flags with enc := .utf16le } (wide last t) =
      fromText depth { flags with enc := .utf8 } t := by
  induction depth generalizing flags t with
  | zero => rfl
  | succ depth ih =>
      exact fromText_succ_wide flags rfl ht rfl fun _ ht =>
        congrArg (fun r => exponentOf r.1)
          (ih (TextFlags.forExponent { flags with enc := .utf8 }) ht)

theorem fromText_utf16be {depth : ℕ} (flags : TextFlags) {t : List UInt8}
    (ht : NoInfAtEnd false t) :
    fromText (depth + 1) { flags with enc := .utf16be } (TextEnc.utf16be.encode t) =
      fromText (depth + 1) { flags with enc := .utf8 } t :=
  fromText_succ_wide flags rfl ht (encode_utf16be t) fun _ ht =>
    congrArg (fun r => exponentOf r.1)
      (fromText_wide depth (TextFlags.forExponent { flags with enc := .utf8 }) ht)

theorem inf_utf16be : ∀ p w n : Bool, ∀ a ∈ [0x69, 0x49], ∀ b ∈ [0x6e, 0x4e], ∀ c ∈ [0x66, 0x46],
    sqlite4_num_isinf (sqlite4_num_from_text [a, b, c] ⟨.utf8, p, w, n, false⟩).1 = true ∧
      sqlite4_num_isinf (sqlite4_num_from_text (TextEnc.utf16be.encode [a, b, c])
        ⟨.utf16be, p, w, n, false⟩).1 = false := by
  decide +kernel

/-- A text reads the same in every encoding, but for `inf` at the end in UTF-16BE. -/
theorem fromText_encode (flags : TextFlags) {t : List UInt8}
    (ht : flags.enc = .utf16be → NoInfAtEnd false t) :
    sqlite4_num_from_text (flags.enc.encode t) flags =
      sqlite4_num_from_text t { flags with enc := .utf8 } := by
  obtain ⟨enc, p, w, n, i⟩ := flags
  rw [sqlite4_num_from_text, sqlite4_num_from_text]
  cases enc with
  | utf8 => rfl
  | utf16le =>
      have hle : t.length ≤ (wide true t).length := le_wide_length t
      have hwide := fromText_wide ((wide true t).length + 1) ⟨.utf16le, p, w, n, i⟩
        (t := t) (.inl rfl)
      show fromText ((TextEnc.utf16le.encode t).length + 1) _ (TextEnc.utf16le.encode t) = _
      rw [encode_utf16le, hwide]
      exact fromText_depth rfl (by omega) (by omega)
  | utf16be =>
      have hle : t.length ≤ (wide false t).length := le_wide_length t
      rw [← encode_utf16be, List.length_drop] at hle
      show fromText ((TextEnc.utf16be.encode t).length + 1) _ (TextEnc.utf16be.encode t) = _
      rw [fromText_utf16be ⟨.utf16be, p, w, n, i⟩ (ht rfl)]
      exact fromText_depth rfl (by omega) (by omega)

/-- **A text reads the same in every encoding**, but for `inf` at the end of a text in UTF-16BE,
where the last high byte is missing: alone it is no infinity there. -/
theorem sqlite4_num_from_text_utf16 (flags : TextFlags) (t : List UInt8) :
    ((flags.enc = .utf16be → NoInfAtEnd false t) →
        sqlite4_num_from_text (flags.enc.encode t) flags =
          sqlite4_num_from_text t { flags with enc := .utf8 }) ∧
      (flags.integerOnly = false → t.length = 3 → spellsInf 1 t = true →
        sqlite4_num_isinf (sqlite4_num_from_text t { flags with enc := .utf8 }).1 = true ∧
          sqlite4_num_isinf (sqlite4_num_from_text (TextEnc.utf16be.encode t)
            { flags with enc := .utf16be }).1 = false) := by
  refine ⟨fromText_encode flags, fun hint hlen hinf => ?_⟩
  obtain ⟨a, b, c, rfl⟩ := List.length_eq_three.mp hlen
  obtain ⟨enc, p, w, n, i⟩ := flags
  obtain rfl : i = false := hint
  simp only [spellsInf, Bool.and_eq_true, Bool.or_eq_true, beq_iff_eq] at hinf
  exact inf_utf16be p w n a (by simpa using hinf.1.1) b (by simpa using hinf.1.2) c
    (by simpa using hinf.2)

/-! ### Digits -/

/-- The character of a digit. -/
def digitChar (d : ℕ) : UInt8 := .ofNat (0x30 + d)

/-- The number that digits stand for, behind those of `N`. -/
def digitsFrom (N : ℕ) (ds : List ℕ) : ℕ := ds.foldl (fun n d => 10 * n + d) N

theorem digitChar_spec : ∀ d < 10, digitChar d ≠ 0 ∧ (0x30 ≤ digitChar d ∧ digitChar d ≤ 0x39) ∧
    (digitChar d).toNat - 0x30 = d ∧ sqlite4Isspace (digitChar d) = false ∧
    digitChar d ≠ 0x2d ∧ digitChar d ≠ 0x2b ∧ digitChar d ≠ 0x69 ∧ digitChar d ≠ 0x49 := by
  decide

/-- What the loop has read: `N` is the number of all digits, `p` of which stood behind the point,
and `k` digits are counted in the exponent instead of kept. -/
structure Reads (s : Reading) (len N p k : ℕ) : Prop where
  e : s.r.e = k - p
  k_le : k ≤ len
  p_le : p ≤ len
  fits : s.r.m ≤ largestInt s.r.sign
  m : s.r.m = N / 10 ^ k ∨ s.r.approx = true ∧ s.r.m = N / 10 ^ k + 1
  exact : s.r.approx = false ↔ N % 10 ^ k = 0
  rounds : k = 0 → s.bRnd = true
  full : k ≠ 0 → (2 ^ 63 - 1) / 10 < s.r.m ∧ s.bRnd = false ∧
    largestInt s.r.sign < N / 10 ^ (k - 1)
  seen : s.seenDigit = false ↔ N = 0
  radix : s.seenRadix = false → p = 0

theorem reads_nothing (sign : Bool) :
    Reads ⟨⟨sign, false, 0, 0⟩, false, false, false, true⟩ 0 0 0 0 where
  e := rfl
  k_le := le_rfl
  p_le := le_rfl
  fits := Nat.zero_le _
  m := .inl rfl
  exact := by simp
  rounds _ := rfl
  full h := absurd rfl h
  seen := by simp
  radix _ := rfl

variable {s : Reading} {len N p k : ℕ}

theorem Reads.point (h : Reads s len N p k) :
    Reads { s with seenRadix := true, bReal := true } len N p k :=
  { h with radix := fun h => nomatch h }

/-- Digits are kept as long as there is room for one more. -/
theorem Reads.kept (h : Reads s len N p k) (hm : s.r.m ≤ (2 ^ 63 - 1) / 10) :
    k = 0 ∧ s.r.m = N ∧ s.r.approx = false := by
  have hk : k = 0 := by
    by_contra hk
    exact absurd (h.full hk).1 (not_lt.mpr hm)
  subst hk
  have hexact : s.r.approx = false := h.exact.mpr (by rw [pow_zero, Nat.mod_one])
  refine ⟨rfl, ?_, hexact⟩
  rcases h.m with hm | ⟨happ, -⟩
  · rw [hm, pow_zero, Nat.div_one]
  · exact absurd (happ.symm.trans hexact) Bool.noConfusion

theorem largestInt_bounds (sign : Bool) :
    2 ^ 63 - 1 ≤ largestInt sign ∧
      largestInt sign = (2 ^ 63 - 1) / 10 * 10 + (if sign then 8 else 7) := by
  cases sign <;> decide

/-- Behind the point the exponent goes down with every digit that is kept. -/
theorem Reads.e_kept (h : Reads s len N p k) (hk : k = 0) (hlen : len < 30000) :
    (if s.seenRadix then toShort (s.r.e - 1) else s.r.e) =
      ((0 : ℕ) : ℤ) - ((if s.seenRadix then p + 1 else p : ℕ) : ℤ) := by
  have he := h.e
  have hp := h.p_le
  split_ifs
  · rw [toShort_eq] <;> push_cast <;> omega
  · push_cast
    omega

/-- In front of the point it goes up with every digit that is not. -/
theorem Reads.e_counted (h : Reads s len N p k) (hlen : len < 30000) :
    (if s.seenRadix then s.r.e else toShort (s.r.e + 1)) =
      ((k + 1 : ℕ) : ℤ) - ((if s.seenRadix then p + 1 else p : ℕ) : ℤ) := by
  have he := h.e
  have hk := h.k_le
  have hp := h.p_le
  split_ifs
  · push_cast
    omega
  · rw [toShort_eq] <;> push_cast <;> omega

theorem Reads.p_next (h : Reads s len N p k) :
    (if s.seenRadix then p + 1 else p) ≤ len + 1 := by
  have hp := h.p_le
  split_ifs <;> omega

theorem Reads.radix_next (h : Reads s len N p k) (hradix : s.seenRadix = false) :
    (if s.seenRadix then p + 1 else p) = 0 := by
  rw [if_neg (by rw [hradix]; exact Bool.false_ne_true)]
  exact h.radix hradix

variable {d : ℕ}

/-- A zero in front of the other digits. -/
theorem readDigit_zero (hlen : len < 30000) (h : Reads s len N p k)
    (hzero : d = 0 ∧ s.seenDigit = false) :
    Reads (readDigit d s) (len + 1) (10 * N + d) (if s.seenRadix then p + 1 else p) k := by
  obtain ⟨rfl, hseen⟩ := hzero
  obtain rfl := h.seen.mp hseen
  have hk := h.k_le
  have hk0 : k = 0 := by
    by_contra hk0
    have := (h.full hk0).2.2
    rw [Nat.zero_div] at this
    omega
  have he := h.e_kept hk0 hlen
  have hp := h.p_next
  rw [readDigit, if_pos ⟨rfl, hseen⟩]
  by_cases hradix : s.seenRadix = true
  · rw [if_pos hradix] at he hp ⊢
    rw [if_pos hradix] at he ⊢
    exact { h with
      e := by rw [hk0]; exact he
      k_le := by omega
      p_le := hp
      radix := fun h => absurd (hradix.symm.trans h) Bool.noConfusion }
  · rw [if_neg hradix] at hp ⊢
    rw [if_neg hradix]
    exact { h with k_le := by omega, p_le := hp }

/-- A digit for which there is room. -/
theorem readDigit_kept (hlen : len < 30000) (h : Reads s len N p k)
    (hzero : ¬ (d = 0 ∧ s.seenDigit = false))
    (hfull : ¬ (s.r.e > 0 ∨ s.r.m > (2 ^ 63 - 1) / 10 ∨
      s.r.m = (2 ^ 63 - 1) / 10 ∧ d > (if s.r.sign then 8 else 7))) (hd : d < 10) :
    Reads (readDigit d s) (len + 1) (10 * N + d) (if s.seenRadix then p + 1 else p) 0 := by
  rw [readDigit, if_neg hzero, if_neg hfull]
  rw [not_or, not_or, not_and, not_lt, not_lt] at hfull
  obtain ⟨-, hfits, hlast⟩ := hfull
  obtain ⟨hk0, hm, hexact⟩ := h.kept hfits
  have hlarge := (largestInt_bounds s.r.sign).2
  exact {
    e := h.e_kept hk0 hlen
    k_le := Nat.zero_le _
    p_le := h.p_next
    fits := by
      dsimp only
      rcases Nat.lt_or_eq_of_le hfits with hlt | heq
      · omega
      · have := hlast heq
        omega
    m := .inl (by
      dsimp only
      rw [pow_zero, Nat.div_one, hm, Nat.mul_comm])
    exact := by
      rw [pow_zero, Nat.mod_one]
      exact iff_of_true hexact rfl
    rounds := fun _ => h.rounds hk0
    full := fun h => absurd rfl h
    seen := iff_of_false Bool.noConfusion fun hN => hzero ⟨by omega, h.seen.mpr (by omega)⟩
    radix := h.radix_next }

/-- A digit for which there is no room.  The first one rounds. -/
theorem readDigit_full (hlen : len < 30000) (h : Reads s len N p k)
    (hzero : ¬ (d = 0 ∧ s.seenDigit = false))
    (hfull : s.r.e > 0 ∨ s.r.m > (2 ^ 63 - 1) / 10 ∨
      s.r.m = (2 ^ 63 - 1) / 10 ∧ d > (if s.r.sign then 8 else 7)) (hd : d < 10) :
    Reads (readDigit d s) (len + 1) (10 * N + d) (if s.seenRadix then p + 1 else p) (k + 1) := by
  obtain ⟨hlarge, hlarge'⟩ := largestInt_bounds s.r.sign
  have he := h.e
  have hk := h.k_le
  have hten : (10 * N + d) / 10 = N := by omega
  have hdiv : (10 * N + d) / 10 ^ (k + 1) = N / 10 ^ k := by
    rw [pow_succ', ← Nat.div_div_eq_div_mul, hten]
  have hmod : (10 * N + d) % 10 ^ (k + 1) = 0 ↔ d = 0 ∧ N % 10 ^ k = 0 := by
    rw [pow_succ', Nat.mod_mul, hten]
    omega
  have hseven : 7 ≤ (if s.r.sign then 8 else 7 : ℕ) ∧ (if s.r.sign then 8 else 7 : ℕ) ≤ 8 := by
    split_ifs <;> omega
  -- what holds at the first of these digits
  have hfirst : k = 0 → s.r.m = N ∧ (s.r.m > (2 ^ 63 - 1) / 10 ∨
      s.r.m = (2 ^ 63 - 1) / 10 ∧ d > (if s.r.sign then 8 else 7)) := by
    intro hk0
    refine ⟨?_, hfull.resolve_left (by omega)⟩
    have hexact : s.r.approx = false := h.exact.mpr (by rw [hk0, pow_zero, Nat.mod_one])
    rcases h.m with hm | ⟨happ, -⟩
    · rw [hm, hk0, pow_zero, Nat.div_one]
    · exact absurd (happ.symm.trans hexact) Bool.noConfusion
  have hrounds : s.bRnd = true ∧ d > 5 ∧ s.r.m < largestInt s.r.sign → k = 0 := fun hrnd => by
    by_contra hk0
    exact absurd (hrnd.1.symm.trans (h.full hk0).2.1) Bool.noConfusion
  rw [readDigit, if_neg hzero, if_pos hfull]
  exact {
    e := h.e_counted hlen
    k_le := by omega
    p_le := h.p_next
    fits := by
      have := h.fits
      dsimp only
      split_ifs <;> omega
    m := by
      dsimp only
      rw [hdiv]
      by_cases hrnd : s.bRnd = true ∧ d > 5 ∧ s.r.m < largestInt s.r.sign
      · have hk0 := hrounds hrnd
        rw [if_pos hrnd, (hfirst hk0).1, hk0, pow_zero, Nat.div_one, Bool.or_eq_true, bne_iff_ne]
        exact .inr ⟨.inr (by omega), rfl⟩
      · rw [if_neg hrnd]
        exact h.m.imp_right fun h => ⟨by rw [h.1, Bool.true_or], h.2⟩
    exact := by
      rw [hmod, Bool.or_eq_false_iff, bne_eq_false_iff_eq, h.exact, and_comm]
    rounds := fun h => absurd h (Nat.succ_ne_zero k)
    full := fun _ => by
      refine ⟨?_, rfl, ?_⟩
      · dsimp only
        by_cases hk0 : k = 0
        · rcases (hfirst hk0).2 with hm | ⟨hm, hd'⟩
          · split_ifs <;> omega
          · rw [if_pos ⟨h.rounds hk0, by omega, by omega⟩]
            omega
        · have := (h.full hk0).1
          split_ifs <;> omega
      · dsimp only
        rw [Nat.add_sub_cancel]
        by_cases hk0 : k = 0
        · obtain ⟨hm, hlast⟩ := hfirst hk0
          rw [hk0, pow_zero, Nat.div_one]
          rcases hlast with hm' | ⟨hm', hd'⟩ <;> omega
        · obtain ⟨j, rfl⟩ : ∃ j, k = j + 1 := ⟨k - 1, by omega⟩
          have := (h.full hk0).2.2
          rw [pow_succ', ← Nat.div_div_eq_div_mul, hten]
          exact this
    seen := iff_of_false Bool.noConfusion fun hN => hzero ⟨by omega, h.seen.mpr (by omega)⟩
    radix := h.radix_next }

theorem readDigit_frame (d : ℕ) (s : Reading) :
    (readDigit d s).r.sign = s.r.sign ∧ (readDigit d s).seenRadix = s.seenRadix := by
  unfold readDigit
  split_ifs <;> exact ⟨rfl, rfl⟩

/-- **A digit** is kept, or it is counted. -/
theorem readDigit_reads (hd : d < 10) (hlen : len < 30000) (h : Reads s len N p k) :
    ∃ k', Reads (readDigit d s) (len + 1) (10 * N + d) (if s.seenRadix then p + 1 else p) k' := by
  by_cases hzero : d = 0 ∧ s.seenDigit = false
  · exact ⟨k, readDigit_zero hlen h hzero⟩
  by_cases hfull : s.r.e > 0 ∨ s.r.m > (2 ^ 63 - 1) / 10 ∨
      s.r.m = (2 ^ 63 - 1) / 10 ∧ d > (if s.r.sign then 8 else 7)
  · exact ⟨k + 1, readDigit_full hlen h hzero hfull hd⟩
  · exact ⟨0, readDigit_kept hlen h hzero hfull hd⟩

theorem readDigits_frame (ds : List ℕ) (s : Reading) :
    (ds.foldl (fun s d => readDigit d s) s).r.sign = s.r.sign ∧
      (ds.foldl (fun s d => readDigit d s) s).seenRadix = s.seenRadix := by
  induction ds generalizing s with
  | nil => exact ⟨rfl, rfl⟩
  | cons d ds ih =>
      obtain ⟨h1, h2⟩ := ih (readDigit d s)
      obtain ⟨h1', h2'⟩ := readDigit_frame d s
      exact ⟨h1.trans h1', h2.trans h2'⟩

/-- All digits of a run. -/
theorem readDigits_reads {ds : List ℕ} (hds : ∀ d ∈ ds, d < 10) (hlen : len + ds.length ≤ 30000)
    (h : Reads s len N p k) :
    ∃ k', Reads (ds.foldl (fun s d => readDigit d s) s) (len + ds.length) (digitsFrom N ds)
      (if s.seenRadix then p + ds.length else p) k' := by
  induction ds generalizing s len N p k with
  | nil =>
      refine ⟨k, ?_⟩
      simpa [digitsFrom] using h
  | cons d ds ih =>
      rw [List.length_cons] at hlen ⊢
      obtain ⟨k', hd⟩ := readDigit_reads (hds d List.mem_cons_self) (by omega) h
      obtain ⟨k'', hds'⟩ := ih (fun e he => hds e (List.mem_cons_of_mem d he)) (by omega) hd
      have hp : (if s.seenRadix then (if s.seenRadix then p + 1 else p) + ds.length
          else (if s.seenRadix then p + 1 else p)) =
          if s.seenRadix then p + (ds.length + 1) else p := by
        split_ifs <;> omega
      rw [(readDigit_frame d s).2, hp, Nat.add_assoc, Nat.add_comm 1] at hds'
      exact ⟨k'', hds'⟩

/-! ### Values -/

/-- A number read from digits `N` with the last one at the power `q` of ten: it is off by one unit
of its last digit at most; it is not marked as an approximation if the digits have room in 64
bits, but for zeros at the end, and then it is the value. -/
structure ReadsAs (r : Num) (neg : Bool) (N : ℕ) (q : ℤ) : Prop where
  sign : r.sign = neg
  near : |r.toRat - (if neg then -1 else 1) * (N * 10 ^ q)| ≤ 10 ^ r.e
  exact : r.approx = false → r.toRat = (if neg then -1 else 1) * (N * 10 ^ q)
  approx : r.approx = false ↔ ∃ M j, N = M * 10 ^ j ∧ M ≤ largestInt neg
  kept : N ≤ largestInt neg → r.e = q ∧ r.m = N

theorem Reads.readsAs (h : Reads s len N p k) {r : Num} {x : ℤ}
    (hr : r = { s.r with e := s.r.e + x }) : ReadsAs r s.r.sign N (x - p) := by
  obtain rfl := hr
  have he := h.e
  have hdiv := Nat.div_add_mod' N (10 ^ k)
  have hmod := Nat.mod_lt N (show 0 < 10 ^ k by positivity)
  have hu : (0 : ℚ) < 10 ^ (x - p : ℤ) := by positivity
  have hpow : (10 : ℚ) ^ (s.r.e + x) = 10 ^ k * 10 ^ (x - p : ℤ) := by
    rw [he, ← zpow_natCast, ← zpow_add₀ (by norm_num)]
    congr 1
    omega
  have hvalue : ({ s.r with e := s.r.e + x } : Num).toRat =
      (if s.r.sign then -1 else 1) * (((s.r.m * 10 ^ k : ℕ) : ℚ) * 10 ^ (x - p : ℤ)) := by
    rw [Num.toRat_eq, Num.mag, hpow]
    push_cast
    ring
  have hexact : s.r.approx = false → s.r.m * 10 ^ k = N := by
    intro happ
    rcases h.m with hm | ⟨happ', -⟩
    · have := h.exact.mp happ
      rw [hm]
      omega
    · exact absurd (happ'.symm.trans happ) Bool.noConfusion
  refine ⟨rfl, ?_, fun happ => ?_, ⟨fun happ => ?_, ?_⟩, fun hN => ?_⟩
  · rw [hvalue, ← mul_sub, abs_mul, abs_sign, one_mul, ← sub_mul, abs_mul, abs_of_pos hu, hpow]
    refine mul_le_mul_of_nonneg_right ?_ hu.le
    have hcast : ((10 ^ k : ℕ) : ℚ) = 10 ^ k := by push_cast; rfl
    rw [abs_le, ← hcast, neg_le_sub_iff_le_add, sub_le_iff_le_add]
    constructor
    · have : N ≤ s.r.m * 10 ^ k + 10 ^ k := by
        rcases h.m with hm | ⟨-, hm⟩ <;> rw [hm]
        · omega
        · rw [add_mul]
          omega
      exact_mod_cast this
    · have : s.r.m * 10 ^ k ≤ 10 ^ k + N := by
        rcases h.m with hm | ⟨-, hm⟩ <;> rw [hm]
        · omega
        · rw [add_mul]
          omega
      exact_mod_cast this
  · rw [hvalue, hexact happ]
  · exact ⟨s.r.m, k, (hexact happ).symm, h.fits⟩
  · rintro ⟨M, j, hN, hM⟩
    refine h.exact.mpr (Nat.mod_eq_zero_of_dvd ?_)
    by_cases hk0 : k = 0
    · rw [hk0, pow_zero]
      exact one_dvd _
    · have hjk : k ≤ j := by
        by_contra hjk
        have hlarge := (h.full hk0).2.2
        have : N / 10 ^ (k - 1) ≤ N / 10 ^ j :=
          Nat.div_le_div_left (Nat.pow_le_pow_right (by omega) (by omega)) (by positivity)
        rw [hN, Nat.mul_div_cancel _ (by positivity)] at this
        rw [hN] at hlarge
        omega
      exact hN ▸ Dvd.dvd.mul_left (Nat.pow_dvd_pow 10 hjk) M
  · have hk0 : k = 0 := by
      by_contra hk0
      have := (h.full hk0).2.2
      have := Nat.div_le_self N (10 ^ (k - 1))
      omega
    have happ : s.r.approx = false := h.exact.mpr (by rw [hk0, pow_zero, Nat.mod_one])
    have hm := hexact happ
    rw [hk0, pow_zero, mul_one] at hm
    refine ⟨?_, hm⟩
    dsimp only
    omega

/-! ### Numerals -/

def signText : Option Bool → List UInt8
  | none => []
  | some true => [0x2d]
  | some false => [0x2b]

def pointText : Option (List ℕ) → List UInt8
  | none => []
  | some ds => 0x2e :: ds.map digitChar

def expText : Option (Option Bool × List ℕ) → List UInt8
  | none => []
  | some (sign, ds) => 0x65 :: (signText sign ++ ds.map digitChar)

/-- What the loop keeps of the digits in front of an exponent. -/
def readMantissa (sign : Bool) (whole : List ℕ) (frac : Option (List ℕ)) : Reading :=
  let s := whole.foldl (fun s d => readDigit d s) ⟨⟨sign, false, 0, 0⟩, false, false, false, true⟩
  match frac with
  | none => s
  | some ds => ds.foldl (fun s d => readDigit d s) { s with seenRadix := true, bReal := true }

section Mantissa

variable {exponent : List UInt8 → Num} {flags : TextFlags} {sign : Bool} {whole : List ℕ}
  {frac : Option (List ℕ)}

theorem readMantissa_reads (sign : Bool) (hds : ∀ d ∈ whole ++ frac.getD [], d < 10)
    (hlen : (whole ++ frac.getD []).length ≤ 30000) :
    (readMantissa sign whole frac).r.sign = sign ∧
      ∃ k, Reads (readMantissa sign whole frac) (whole ++ frac.getD []).length
        (digitsFrom 0 (whole ++ frac.getD [])) (frac.getD []).length k := by
  rw [List.length_append] at hlen
  obtain ⟨k, h⟩ := readDigits_reads (fun d hd => hds d (List.mem_append_left _ hd))
    (by omega) (reads_nothing sign)
  obtain ⟨hsign, -⟩ := readDigits_frame whole ⟨⟨sign, false, 0, 0⟩, false, false, false, true⟩
  rw [if_neg Bool.false_ne_true, Nat.zero_add] at h
  rcases frac with _ | ds
  · refine ⟨hsign, k, ?_⟩
    simpa [readMantissa] using h
  · obtain ⟨k', h'⟩ := readDigits_reads (fun d hd => hds d (List.mem_append_right _ hd))
      (by simpa using hlen) h.point
    obtain ⟨hsign', -⟩ := readDigits_frame ds
      { whole.foldl (fun s d => readDigit d s) ⟨⟨sign, false, 0, 0⟩, false, false, false, true⟩ with
        seenRadix := true, bReal := true }
    refine ⟨hsign'.trans hsign, k', ?_⟩
    rw [if_pos rfl, Nat.zero_add] at h'
    rw [List.length_append, digitsFrom, List.foldl_append]
    exact h'

theorem readLoop_digits {integerOnly : Bool} {ds : List ℕ} (hds : ∀ d ∈ ds, d < 10) (n : ℕ)
    (s : Reading) (z : List UInt8) :
    readLoop exponent integerOnly 1 (ds.length + n) s (ds.map digitChar ++ z) =
      readLoop exponent integerOnly 1 n (ds.foldl (fun s d => readDigit d s) s) z := by
  induction ds generalizing s with
  | nil => rw [List.length_nil, Nat.zero_add]; rfl
  | cons d ds ih =>
      obtain ⟨h0, hdigit, hd, -⟩ := digitChar_spec d (hds d List.mem_cons_self)
      rw [List.length_cons, Nat.add_right_comm, readLoop, List.map_cons, List.cons_append,
        List.headD_cons, List.drop_one, List.tail_cons]
      rw [if_neg h0, if_pos hdigit, hd, List.foldl_cons]
      exact ih (fun e he => hds e (List.mem_cons_of_mem d he)) _

theorem readLoop_mantissa (hds : ∀ d ∈ whole ++ frac.getD [], d < 10) (z : List UInt8) :
    readLoop exponent false 1 (whole.map digitChar ++ (pointText frac ++ z)).length
        ⟨⟨sign, false, 0, 0⟩, false, false, false, true⟩
        (whole.map digitChar ++ (pointText frac ++ z)) =
      readLoop exponent false 1 z.length (readMantissa sign whole frac) z := by
  rw [List.length_append, List.length_map,
    readLoop_digits fun d hd => hds d (List.mem_append_left _ hd)]
  rcases frac with _ | ds
  · rfl
  · have hradix := (readDigits_frame whole ⟨⟨sign, false, 0, 0⟩, false, false, false, true⟩).2
    rw [pointText, List.cons_append, List.length_cons, List.length_append, List.length_map,
      readLoop, List.headD_cons, List.drop_one, List.tail_cons]
    rw [if_neg (by decide), if_neg (by decide), if_neg Bool.false_ne_true, if_pos rfl,
      if_neg (by rw [hradix]; exact Bool.false_ne_true),
      readLoop_digits fun d (hd : d ∈ ds) => hds d (List.mem_append_right _ hd)]
    rfl

theorem readUnsigned_mantissa (henc : flags.enc = .utf8) (hint : flags.integerOnly = false)
    (hwhole : whole ≠ []) (hds : ∀ d ∈ whole ++ frac.getD [], d < 10) (z : List UInt8) :
    readUnsigned exponent flags sign (whole.map digitChar ++ (pointText frac ++ z)) =
      (finished flags (readLoop exponent false 1 z.length (readMantissa sign whole frac) z).1.r
          (readLoop exponent false 1 z.length (readMantissa sign whole frac) z).2,
        some (readLoop exponent false 1 z.length (readMantissa sign whole frac) z).1.bReal) := by
  obtain ⟨d, ds, rfl⟩ := List.exists_cons_of_ne_nil hwhole
  obtain ⟨-, -, -, -, -, -, hi, hI⟩ := digitChar_spec d (hds d (by simp))
  have hinf : spellsInf 1 ((d :: ds).map digitChar ++ (pointText frac ++ z)) = false := by
    simp [spellsInf, hi, hI]
  unfold readUnsigned
  rw [henc, TextEnc.incr_utf8, hint]
  dsimp only
  rw [if_neg (by simp), if_neg (by rw [hinf]; simp), readLoop_mantissa hds]

theorem fromText_mantissa (henc : flags.enc = .utf8) (hint : flags.integerOnly = false)
    (depth : ℕ) (sign : Option Bool) (hwhole : whole ≠ [])
    (hds : ∀ d ∈ whole ++ frac.getD [], d < 10) {z : List UInt8} {P : Reading × List UInt8}
    (hP : readLoop (fun y => (fromText depth flags.forExponent y).1) false 1 z.length
      (readMantissa (sign.getD flags.negative) whole frac) z = P) :
    fromText (depth + 1) flags
        (signText sign ++ (whole.map digitChar ++ (pointText frac ++ z))) =
      (finished flags P.1.r P.2, some P.1.bReal) := by
  have hbody : readUnsigned (fun y => (fromText depth flags.forExponent y).1) flags
      (sign.getD flags.negative) (whole.map digitChar ++ (pointText frac ++ z)) = _ :=
    readUnsigned_mantissa henc hint hwhole hds z
  rw [hP] at hbody
  obtain ⟨d, ds, rfl⟩ := List.exists_cons_of_ne_nil hwhole
  obtain ⟨-, -, -, hspace, hminus, hplus, -⟩ := digitChar_spec d (hds d (by simp))
  have hskip : ∀ n, skipSpace 1 n
      (signText sign ++ ((d :: ds).map digitChar ++ (pointText frac ++ z))) =
      signText sign ++ ((d :: ds).map digitChar ++ (pointText frac ++ z)) := by
    rintro (_ | n)
    · rfl
    · rcases sign with _ | (_ | _)
      · rw [skipSpace, if_neg (by simpa [signText] using hspace)]
      · rfl
      · rfl
  rw [fromText]
  simp only [henc, reduceCtorEq, if_false, TextEnc.incr_utf8, hskip, ite_self]
  rw [← hbody]
  unfold readSigned
  rw [henc, TextEnc.incr_utf8]
  rcases sign with _ | (_ | _)
  · rw [if_neg (by simp [signText]), if_neg (by simpa [signText] using hminus),
      if_neg (by simpa [signText] using hplus)]
    rfl
  · rfl
  · rfl

end Mantissa

theorem finished_nil (flags : TextFlags) (r : Num) : finished flags r [] = r := by
  simp [finished]

/-- An exponent of the text. -/
theorem exponentOf_fromText {flags : TextFlags} (henc : flags.enc = .utf8)
    (hint : flags.integerOnly = false) (hneg : flags.negative = false) (depth : ℕ)
    (sign : Option Bool) {ds : List ℕ} (hnil : ds ≠ []) (hds : ∀ d ∈ ds, d < 10)
    (hlen : ds.length ≤ 30000) :
    exponentOf (fromText (depth + 1) flags (signText sign ++ ds.map digitChar)).1 =
      if digitsFrom 0 ds ≤ 999 then
        some ((digitsFrom 0 ds : ℤ) * if sign.getD false then -1 else 1) else none := by
  have hds' : ∀ d ∈ ds ++ (none : Option (List ℕ)).getD [], d < 10 := by simpa using hds
  have htext := fromText_mantissa henc hint depth sign hnil hds' (z := []) (readLoop_nil 0 _)
  simp only [pointText, List.append_nil, finished_nil] at htext
  obtain ⟨hsign, k, h⟩ := readMantissa_reads (sign.getD flags.negative) hds' (by simpa using hlen)
  simp only [Option.getD_none, List.append_nil, List.length_nil] at h
  rw [htext]
  by_cases hsmall : digitsFrom 0 ds ≤ 999
  · have hlarge := (largestInt_bounds (readMantissa (sign.getD flags.negative) ds none).r.sign).1
    obtain ⟨he, hm⟩ := (h.readsAs (r := (readMantissa (sign.getD flags.negative) ds none).r)
      (x := 0) (by rw [add_zero])).kept (by omega)
    have he0 : (readMantissa (sign.getD flags.negative) ds none).r.e = 0 := by
      rw [he]
      rfl
    rw [if_pos hsmall, exponentOf, if_neg (by simp [sqlite4_num_isnan, he0]),
      if_neg (by rw [he0, hm]; omega), hm, hsign, hneg]
  · have hbig : 999 < (readMantissa (sign.getD flags.negative) ds none).r.m := by
      by_cases hk0 : k = 0
      · subst hk0
        have hm := h.m
        rw [pow_zero, Nat.div_one] at hm
        omega
      · have := (h.full hk0).1
        omega
    rw [if_neg hsmall, exponentOf]
    split_ifs with hnan hfar
    · rfl
    · rfl
    · exact absurd (.inr hbig) hfar

/-- A decimal numeral. -/
structure Numeral where
  sign : Option Bool
  whole : List ℕ
  frac : Option (List ℕ)
  exp : Option (Option Bool × List ℕ)

namespace Numeral

variable (t : Numeral)

def text : List UInt8 :=
  signText t.sign ++ (t.whole.map digitChar ++ (pointText t.frac ++ expText t.exp))

/-- The digits in front of the exponent. -/
def digits : List ℕ := t.whole ++ t.frac.getD []

def expDigits : List ℕ := (t.exp.map Prod.snd).getD []

/-- The power of ten that the last digit stands for. -/
def place : ℤ :=
  digitsFrom 0 t.expDigits * (if (t.exp.bind Prod.fst).getD false then -1 else 1) -
    (t.frac.getD []).length

structure Proper : Prop where
  whole : t.whole ≠ []
  exp : ∀ x ∈ t.exp, x.2 ≠ []
  digits : ∀ d ∈ t.digits, d < 10
  expDigits : ∀ d ∈ t.expDigits, d < 10
  length : t.digits.length ≤ 30000
  expLength : t.expDigits.length ≤ 30000

end Numeral

/-- The round of the loop at the `e`. -/
theorem readLoop_expText {flags : TextFlags} (henc : flags.enc = .utf8) (depth : ℕ)
    (sign : Option Bool) {ds : List ℕ} (hnil : ds ≠ []) (hds : ∀ d ∈ ds, d < 10)
    (hlen : ds.length ≤ 30000) (s : Reading) :
    readLoop (fun y => (fromText (depth + 1) flags.forExponent y).1) false 1
        (expText (some (sign, ds))).length s (expText (some (sign, ds))) =
      if digitsFrom 0 ds ≤ 999 then
        ({ s with
          r := { s.r with
            e := toShort (s.r.e + digitsFrom 0 ds * if sign.getD false then -1 else 1) }
          bReal := true }, [])
      else (s, signText sign ++ ds.map digitChar) := by
  have henc' : flags.forExponent.enc = .utf8 := by simp [TextFlags.forExponent, henc]
  have hexp := exponentOf_fromText henc' rfl rfl depth sign hnil hds hlen
  have hround : ∀ (n : ℕ) (ex : List UInt8 → Num) (z : List UInt8),
      readLoop ex false 1 (n + 1) s (0x65 :: z) = readExponent ex s (0x65 :: z) z :=
    fun n ex z => by rw [readLoop]; rfl
  rw [expText, List.length_cons, hround, readExponent, if_neg (by simp [hnil]), hexp]
  split_ifs <;> rfl

/-- What a numeral with an exponent is read as. -/
theorem fromText_exp {sign sign' : Option Bool} {whole ds : List ℕ} {frac : Option (List ℕ)}
    (ht : Numeral.Proper ⟨sign, whole, frac, some (sign', ds)⟩) {flags : TextFlags}
    (henc : flags.enc = .utf8) (hint : flags.integerOnly = false) {r : Num}
    (hr : (readMantissa (sign.getD flags.negative) whole frac).r = r) :
    (sqlite4_num_from_text (Numeral.text ⟨sign, whole, frac, some (sign', ds)⟩) flags).1 =
      if digitsFrom 0 ds ≤ 999 then
        { r with e := toShort (r.e + digitsFrom 0 ds * if sign'.getD false then -1 else 1) }
      else finished flags r (signText sign' ++ ds.map digitChar) := by
  obtain ⟨depth, hdepth⟩ : ∃ n,
      (Numeral.text ⟨sign, whole, frac, some (sign', ds)⟩).length = n + 1 :=
    ⟨_, (Nat.succ_pred_eq_of_pos (by simp [Numeral.text, expText])).symm⟩
  have htext := fromText_mantissa henc hint _ sign ht.whole ht.digits
    (readLoop_expText henc depth sign' (ht.exp _ rfl) ht.expDigits ht.expLength
      (readMantissa (sign.getD flags.negative) whole frac))
  rw [← hdepth] at htext
  refine (congrArg Prod.fst htext).trans ?_
  dsimp only
  by_cases hsmall : digitsFrom 0 ds ≤ 999
  · simp only [if_pos hsmall, finished_nil, ← hr]
  · simp only [if_neg hsmall, ← hr]

/-- A numeral without an exponent, or with one of three digits that count. -/
theorem fromText_near {t : Numeral} (ht : t.Proper)
    (hexp : digitsFrom 0 t.expDigits ≤ 999) {flags : TextFlags} (henc : flags.enc = .utf8)
    (hint : flags.integerOnly = false) :
    ReadsAs (sqlite4_num_from_text t.text flags).1 (t.sign.getD flags.negative)
      (digitsFrom 0 t.digits) t.place := by
  obtain ⟨sign, whole, frac, exp⟩ := t
  have hlen : (whole ++ frac.getD []).length ≤ 30000 := ht.length
  obtain ⟨hsign, k, h⟩ := readMantissa_reads (sign.getD flags.negative) ht.digits hlen
  have hk := h.k_le
  have hp := h.p_le
  have he := h.e
  dsimp only at hsign h hk hp he
  rcases exp with _ | ⟨sign', ds⟩
  · have htext : sqlite4_num_from_text (Numeral.text ⟨sign, whole, frac, none⟩) flags = _ :=
      fromText_mantissa henc hint _ sign ht.whole ht.digits (z := []) (readLoop_nil 0 _)
    have hplace : Numeral.place ⟨sign, whole, frac, none⟩ = 0 - ((frac.getD []).length : ℤ) := by
      simp [Numeral.place, Numeral.expDigits, digitsFrom]
    have hread := h.readsAs (x := 0) (by rw [add_zero])
    rw [hsign] at hread
    rw [htext, finished_nil, hplace]
    exact hread
  · have hexp' : digitsFrom 0 ds ≤ 999 := hexp
    have hshort : toShort ((readMantissa (sign.getD flags.negative) whole frac).r.e +
        digitsFrom 0 ds * if sign'.getD false then -1 else 1) = _ :=
      toShort_eq (by split_ifs <;> omega) (by split_ifs <;> omega)
    have hread := h.readsAs (x := digitsFrom 0 ds * if sign'.getD false then -1 else 1) rfl
    rw [hsign] at hread
    rw [fromText_exp ht henc hint rfl, if_pos hexp', hshort]
    exact hread

/-- The text of an exponent begins with neither a zero byte nor a blank. -/
theorem finished_exponent (flags : TextFlags) (r : Num) (sign : Option Bool) {ds : List ℕ}
    (hnil : ds ≠ []) (hds : ∀ d ∈ ds, d < 10) :
    finished flags r (signText sign ++ ds.map digitChar) =
      if flags.prefixOnly = false then { r with e := mxExp + 1, m := 0 } else r := by
  obtain ⟨c, z, htext, h0, hspace⟩ : ∃ c z, signText sign ++ ds.map digitChar = c :: z ∧ c ≠ 0 ∧
      sqlite4Isspace c = false := by
    obtain ⟨d, ds, rfl⟩ := List.exists_cons_of_ne_nil hnil
    obtain ⟨h0, -, -, hspace, -⟩ := digitChar_spec d (hds d List.mem_cons_self)
    rcases sign with _ | (_ | _)
    · exact ⟨_, _, rfl, h0, hspace⟩
    · exact ⟨_, _, rfl, by decide, by decide⟩
    · exact ⟨_, _, rfl, by decide, by decide⟩
  have hskip : ∀ n, skipSpace flags.enc.incr n (c :: z) = c :: z := by
    rintro (_ | n)
    · rfl
    · rw [skipSpace, List.headD_cons, hspace, if_neg Bool.false_ne_true]
  rw [htext, finished]
  simp only [List.headD_cons, ne_eq, h0, not_false_eq_true, and_true, hskip, ite_self, if_true]

/-- Longer exponents are errors: the text is no number, or a number without the exponent if only
the beginning of the text is asked for. -/
theorem fromText_far {t : Numeral} (ht : t.Proper) (hexp : 999 < digitsFrom 0 t.expDigits)
    {flags : TextFlags} (henc : flags.enc = .utf8) (hint : flags.integerOnly = false) :
    (flags.prefixOnly = false →
        sqlite4_num_isnan (sqlite4_num_from_text t.text flags).1 = true) ∧
      (flags.prefixOnly = true → ReadsAs (sqlite4_num_from_text t.text flags).1
        (t.sign.getD flags.negative) (digitsFrom 0 t.digits) (-((t.frac.getD []).length : ℤ))) := by
  obtain ⟨sign, whole, frac, exp⟩ := t
  obtain ⟨hsign, k, h⟩ := readMantissa_reads (sign.getD flags.negative) ht.digits ht.length
  dsimp only at hsign h
  rcases exp with _ | ⟨sign', ds⟩
  · exact absurd hexp (by simp [Numeral.expDigits, digitsFrom])
  have hexp' : ¬ digitsFrom 0 ds ≤ 999 := not_le.mpr hexp
  rw [fromText_exp ht henc hint rfl, if_neg hexp',
    finished_exponent flags _ sign' (ht.exp _ rfl) ht.expDigits]
  refine ⟨fun hp => by rw [if_pos hp]; rfl, fun hp => ?_⟩
  have hread := h.readsAs (x := 0) (by rw [add_zero])
  rw [hsign, zero_sub] at hread
  rw [if_neg (by rw [hp]; exact Bool.noConfusion)]
  exact hread

/-- **A numeral reads as its value**, as far as its digits have room, if its exponent has up to
three digits that count.  With more of them the text is no number, or the exponent is left out. -/
theorem sqlite4_num_from_text_numeral {t : Numeral} (ht : t.Proper) {flags : TextFlags}
    (henc : flags.enc = .utf8) (hint : flags.integerOnly = false) :
    (digitsFrom 0 t.expDigits ≤ 999 → ReadsAs (sqlite4_num_from_text t.text flags).1
        (t.sign.getD flags.negative) (digitsFrom 0 t.digits) t.place) ∧
      (999 < digitsFrom 0 t.expDigits →
        (flags.prefixOnly = false →
          sqlite4_num_isnan (sqlite4_num_from_text t.text flags).1 = true) ∧
        (flags.prefixOnly = true → ReadsAs (sqlite4_num_from_text t.text flags).1
          (t.sign.getD flags.negative) (digitsFrom 0 t.digits)
          (-((t.frac.getD []).length : ℤ)))) :=
  ⟨fun hexp => fromText_near ht hexp henc hint, fun hexp => fromText_far ht hexp henc hint⟩

/-- Minus two and a half. -/
theorem sqlite4_num_from_text_numeral_half :
    Numeral.text ⟨some true, [2, 5, 0], none, some (some true, [0, 2])⟩ =
        [0x2d, 0x32, 0x35, 0x30, 0x65, 0x2d, 0x30, 0x32] ∧
      ReadsAs (sqlite4_num_from_text
        (Numeral.text ⟨some true, [2, 5, 0], none, some (some true, [0, 2])⟩)
        ⟨.utf8, false, false, false, false⟩).1 true 250 (-2) :=
  ⟨by decide, (sqlite4_num_from_text_numeral (t := ⟨some true, [2, 5, 0], none,
    some (some true, [0, 2])⟩) ⟨by decide, by decide, by decide, by decide, by decide, by decide⟩
    rfl rfl).1 (by decide)⟩

end MoVeBench
