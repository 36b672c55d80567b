/-
MoVeBench/DiskAnn/Columns.lean

The columns of a record are read back (`sqlite4VdbeEncodeData` and
`sqlite4VdbeDecoderGetColumn` of `vdbecodec.c`).

The header of a record lists the types of its columns, and a type determines the size of
a payload; so the decoder finds the payload of a column behind those of the columns in
front of it (`findColumn_at`).  What it makes of the payload is the value again, but for
two cases: where plain `char` is unsigned the first byte of a negative integer is not
extended, and a real whose exponent and significand take 13 bytes has the type code of
the empty text (`columnValue_payload`).

`sqlite4VdbeDecoderGetColumn_iff` puts both together.
-/
import MoVeBench.DiskAnn.Record

namespace MoVeBench

open Bytes

/-! ### Integers -/

/-- An integer fits its bytes as a signed number, and uses all eight only where it has
to. -/
theorem significantBytes_range {v : ℤ} (hv : -2 ^ 63 ≤ v ∧ v < 2 ^ 63) :
    -256 ^ significantBytes v ≤ 2 * v ∧ 2 * v < 256 ^ significantBytes v ∧
      (v < 0 → (significantBytes v = 8 ↔ v < -2 ^ 55)) := by
  unfold significantBytes
  rcases lt_or_ge v 0 with hneg | hpos
  · simp only [significantBytesLoop, if_pos hneg]
    split_ifs <;> norm_num <;> omega
  · simp only [significantBytesLoop, if_neg (not_lt.mpr hpos)]
    split_ifs <;> norm_num <;> omega

/-- The loop of the decoder, with the wrap of 64 bits taken once. -/
theorem columnInt_foldl (l : List UInt8) {c : ℤ} (hc : c.bmod (2 ^ 64) = c) :
    l.foldl (fun v w => (v * 256 + w.toNat).bmod (2 ^ 64)) c =
      (c * 256 ^ l.length + fromBe l).bmod (2 ^ 64) := by
  induction l generalizing c with
  | nil =>
      rw [List.foldl_nil, List.length_nil, pow_zero, mul_one, fromBe, Nat.cast_zero, add_zero, hc]
  | cons w l ih =>
      rw [List.foldl_cons, ih Int.bmod_bmod, ← Int.bmod_add_bmod, Int.bmod_mul_bmod,
        Int.bmod_add_bmod, List.length_cons, fromBe]
      congr 1
      push_cast
      ring

theorem CharSign.value_eq (char : CharSign) (u : UInt8) :
    char.value u = u.toNat - if char = .signed ∧ 128 ≤ u.toNat then 256 else 0 := by
  have hlt := u.toNat_lt
  cases char with
  | unsigned => simp [CharSign.value]
  | signed =>
      have hval : u.toInt8.toInt = (u.toNat : ℤ).bmod (2 ^ 8) :=
        BitVec.toInt_eq_toNat_bmod u.toBitVec
      simp only [CharSign.value, hval, true_and]
      split_ifs with h
      · rw [Int.bmod_def]
        omega
      · rw [Int.bmod_def]
        omega

/-- **What an integer column reads as**: the bytes as an unsigned number, less the sign
where `char` has one. -/
theorem columnInt_eq (char : CharSign) (u : UInt8) (l : List UInt8) :
    columnInt char (u :: l) = ((fromBe (u :: l) : ℤ) -
      if char = .signed ∧ 128 ≤ u.toNat then 256 ^ (l.length + 1) else 0).bmod (2 ^ 64) := by
  have hlt := u.toNat_lt
  have hval := char.value_eq u
  have hrange : (char.value u).bmod (2 ^ 64) = char.value u := by
    refine Int.bmod_eq_of_le ?_ ?_ <;> rw [hval] <;> split_ifs <;> omega
  rw [columnInt, columnInt_foldl l hrange, hval, fromBe]
  congr 1
  split_ifs <;> push_cast <;> ring

/-- A remainder by a power of the base, as a natural number. -/
theorem natCast_emod_pow (v : ℤ) (w : ℕ) : ((v % 256 ^ w).toNat : ℤ) = v % 256 ^ w :=
  Int.toNat_of_nonneg (Int.emod_nonneg v (by positivity))

/-- The bytes of a 64-bit integer are those of its remainder. -/
theorem beBytes_emod (v : ℤ) {w : ℕ} (hw : w ≤ 8) :
    beBytes w (v % 2 ^ 64).toNat = beBytes w (v % 256 ^ w).toNat := by
  have hpow : (256 : ℤ) ^ w ∣ 2 ^ 64 := by
    rw [show (2 : ℤ) ^ 64 = 256 ^ 8 by norm_num]
    exact pow_dvd_pow 256 hw
  have hnat : (((v % 2 ^ 64).toNat % 256 ^ w : ℕ) : ℤ) = ((v % 256 ^ w).toNat : ℕ) := by
    rw [natCast_emod_pow, ← Int.emod_emod_of_dvd v hpow, Int.natCast_mod,
      Int.toNat_of_nonneg (Int.emod_nonneg v (by norm_num))]
    push_cast
    rfl
  rw [← beBytes_mod w _ w le_rfl]
  exact congrArg _ (by exact_mod_cast hnat)

section Signed

variable {v : ℤ} {k : ℕ} (hlo : -256 ^ (k + 1) ≤ 2 * v) (hhi : 2 * v < 256 ^ (k + 1))
include hlo hhi

/-- A signed number as an unsigned one. -/
theorem emod_pow_eq :
    v % 256 ^ (k + 1) = if v < 0 then v + 256 ^ (k + 1) else v := by
  split_ifs with hneg
  · rw [← Int.add_emod_right, Int.emod_eq_of_lt (by omega) (by omega)]
  · exact Int.emod_eq_of_lt (by omega) (by omega)

/-- The first byte has the sign. -/
theorem topByte_iff :
    128 ≤ (UInt8.ofNat ((v % 256 ^ (k + 1)).toNat / 256 ^ k)).toNat ↔ v < 0 := by
  have hxv := (natCast_emod_pow v (k + 1)).trans (emod_pow_eq hlo hhi)
  generalize (v % 256 ^ (k + 1)).toNat = x at hxv ⊢
  have hsplit : (256 : ℤ) ^ (k + 1) = 2 * (128 * 256 ^ k) := by ring
  have hcast : ((128 * 256 ^ k : ℕ) : ℤ) = 128 * 256 ^ k := by push_cast; ring
  have hxlt : x < 256 ^ k * 256 := by
    have : ((256 ^ k * 256 : ℕ) : ℤ) = 2 * (128 * 256 ^ k) := by push_cast; ring
    split_ifs at hxv <;> omega
  rw [toNat_ofNat_of_lt (Nat.div_lt_of_lt_mul hxlt), Nat.le_div_iff_mul_le (by positivity)]
  split_ifs at hxv with hneg
  · exact iff_of_true (by omega) hneg
  · exact iff_of_false (by omega) hneg

/-- **What the bytes of an integer read as**: the integer, but the unsigned number of a
negative one where `char` has no sign. -/
theorem columnInt_signed (char : CharSign) (hk : k + 1 ≤ 8) :
    columnInt char (beBytes (k + 1) (v % 2 ^ 64).toNat) =
      if char = .unsigned ∧ v < 0 then (v + 256 ^ (k + 1)).bmod (2 ^ 64) else v := by
  have hpow : (256 : ℤ) ^ (k + 1) ≤ 256 ^ 8 := pow_le_pow_right₀ (by norm_num) hk
  have hself : v.bmod (2 ^ 64) = v := Int.bmod_eq_of_le (by omega) (by omega)
  have hxv := (natCast_emod_pow v (k + 1)).trans (emod_pow_eq hlo hhi)
  have hxlt : (v % 256 ^ (k + 1)).toNat < 256 ^ (k + 1) := by
    have : ((256 ^ (k + 1) : ℕ) : ℤ) = 256 ^ (k + 1) := by push_cast; rfl
    split_ifs at hxv <;> omega
  have htop := topByte_iff hlo hhi
  rw [beBytes_emod v hk]
  generalize (v % 256 ^ (k + 1)).toNat = x at hxv hxlt htop ⊢
  show columnInt char (.ofNat (x / 256 ^ k) :: beBytes k x) = _
  rw [columnInt_eq, beBytes_length,
    show UInt8.ofNat (x / 256 ^ k) :: beBytes k x = beBytes (k + 1) x from rfl,
    fromBe_beBytes hxlt, hxv]
  simp only [htop]
  by_cases hneg : v < 0
  · cases char with
    | signed =>
        rw [if_pos hneg, if_pos ⟨rfl, hneg⟩, if_neg (fun h => by cases h.1), add_sub_cancel_right,
          hself]
    | unsigned =>
        rw [if_pos hneg, if_neg (fun h => by cases h.1), if_pos ⟨rfl, hneg⟩, sub_zero]
  · rw [if_neg hneg, if_neg (fun h => hneg h.2), if_neg (fun h => hneg h.2), sub_zero, hself]

end Signed

/-- **An integer is read back**, on a platform with unsigned `char` only if it is not
negative or takes all eight bytes. -/
theorem columnInt_beBytes (char : CharSign) {v : ℤ} (hv : -2 ^ 63 ≤ v ∧ v < 2 ^ 63) :
    columnInt char (beBytes (significantBytes v) (v % 2 ^ 64).toNat) = v ↔
      (char = .unsigned → 0 ≤ v ∨ v < -2 ^ 55) := by
  obtain ⟨hlo, hhi, hfull⟩ := significantBytes_range hv
  obtain ⟨hw1, hw8⟩ := significantBytes_bounds v
  generalize significantBytes v = w at *
  obtain ⟨k, rfl⟩ : ∃ k, w = k + 1 := ⟨w - 1, by omega⟩
  rw [columnInt_signed hlo hhi char hw8]
  split_ifs with hun
  · obtain ⟨rfl, hneg⟩ := hun
    rw [forall_prop_of_true rfl, or_iff_right (not_le.mpr hneg), ← hfull hneg]
    constructor
    · intro heq
      by_contra hne
      have hsmall : (256 : ℤ) ^ (k + 1) ≤ 256 ^ 7 := pow_le_pow_right₀ (by norm_num) (by omega)
      rw [Int.bmod_eq_of_le (by omega) (by omega)] at heq
      omega
    · intro h8
      rw [h8, show (256 : ℤ) ^ 8 = ((2 ^ 64 : ℕ) : ℤ) by norm_num, Int.add_bmod_right]
      exact Int.bmod_eq_of_le (by omega) (by omega)
  · refine iff_of_true rfl fun hchar => .inl ?_
    exact not_lt.mp fun hneg => hun ⟨hchar, hneg⟩

/-! ### Type codes -/

variable (char : CharSign) (encoding : TextEncoding)

/-- The type code in the header. -/
def dataCode : DataMem → ℕ
  | .null => 0
  | .int num => significantBytes (sqlite4_num_to_int64 num) + 2
  | .real num => (realBytes num).length + 9
  | .str z => 22 + 4 * (encodingByte char encoding z ++ z).length
  | .blob z => 23 + 4 * z.length

/-- The varint in front of the significand: `e` shifted by the two sign bits. -/
def realExponent (p : Num) : ℕ :=
  (if p.e < 0 then p.e * -4 + 2 + (if p.sign then 1 else 0)
    else p.e * 4 + if p.sign then 1 else 0).toNat

/-- **How long a finite real is**: 13 bytes, one more than there is room for, with an
exponent of four bytes and a significand of nine. -/
theorem realBytes_length {p : Num} (hp : p.Finite) :
    2 ≤ (realBytes p).length ∧ (realBytes p).length ≤ 13 ∧
      ((realBytes p).length ≤ 12 ↔ (p.e < -16955 → p.m < 2 ^ 56)) := by
  have hge := hp.e_ge
  have hle : p.e ≤ 999 := hp.e_le
  have hexp : realExponent p < 2 ^ 24 ∧ (67823 < realExponent p ↔ p.e < -16955) := by
    unfold realExponent
    split_ifs <;> omega
  have hlen := sqlite4PutVarint64_length (x := realExponent p) (by omega)
  have hlen' := sqlite4PutVarint64_length hp.m_lt
  have htotal : (realBytes p).length =
      (sqlite4PutVarint64 (realExponent p)).length + (sqlite4PutVarint64 p.m).length := by
    rw [← List.length_append]
    rfl
  obtain ⟨-, hshort, h3, -, -⟩ := varintClass_tail (realExponent p)
  obtain ⟨-, -, -, h7, h8⟩ := varintClass_tail p.m
  have hle3 := h3.mpr hexp.1
  rw [htotal, hlen, hlen']
  refine ⟨by omega, by omega, ?_⟩
  rw [← hexp.2, ← h7]
  constructor
  · intro hfit hlong
    have := mt hshort.mp (not_le.mpr hlong)
    omega
  · intro hsmall
    rcases lt_or_ge 67823 (realExponent p) with hlong | hle
    · have := hsmall hlong
      omega
    · have := hshort.mpr hle
      omega

/-- A value as a column can hold one: integers of 64 bits, finite reals. -/
def DataMem.Plain : DataMem → Prop
  | .int num => ∃ v : ℤ, -2 ^ 63 ≤ v ∧ v < 2 ^ 63 ∧ num = sqlite4_num_from_int64 v
  | .real num => num.Finite
  | _ => True

/-- The type of a column is written as a varint. -/
theorem dataType_eq {a : DataMem} (ha : a.Plain) :
    dataType char encoding a = sqlite4PutVarint64 (dataCode char encoding a) := by
  cases a with
  | null => rfl
  | int num =>
      have hw := significantBytes_bounds (sqlite4_num_to_int64 num)
      exact (sqlite4PutVarint64_small (show _ + 2 ≤ 240 by omega)).symm
  | real num =>
      have hlen := (realBytes_length (p := num) ha).2.1
      exact (sqlite4PutVarint64_small (show _ + 9 ≤ 240 by omega)).symm
  | str z => rfl
  | blob z => rfl

/-- No type that is written has a subtype. -/
theorem dataCode_class {a : DataMem} (ha : a.Plain) :
    ¬ (22 ≤ dataCode char encoding a ∧ (dataCode char encoding a - 22) % 4 = 3) := by
  cases a with
  | null => simp [dataCode]
  | int num =>
      have hw := significantBytes_bounds (sqlite4_num_to_int64 num)
      simp only [dataCode]
      omega
  | real num =>
      have hlen := (realBytes_length (p := num) ha).2.1
      simp only [dataCode]
      omega
  | str z => simp only [dataCode]; omega
  | blob z => simp only [dataCode]; omega

/-! ### Which values are read back -/

/-- The value that a column should have.  The text with no characters is the same in all
encodings; that a number is approximate is not stored. -/
def DataMem.value : DataMem → ColumnValue
  | .null => .null
  | .int num => .int (sqlite4_num_to_int64 num)
  | .real num => .real { num with approx := false }
  | .str z => .str z (if z = [] then .utf8 else encoding)
  | .blob z => .blob z

/-- The values that are read back: with unsigned `char` no negative integer but those of
eight bytes, and no real with an exponent of four bytes and a significand of nine. -/
def DataMem.Readable : DataMem → Prop
  | .int num => char = .unsigned →
      0 ≤ sqlite4_num_to_int64 num ∨ sqlite4_num_to_int64 num < -2 ^ 55
  | .real num => num.e < -16955 → num.m < 2 ^ 56
  | _ => True

theorem columnSize_int {w : ℕ} (h : 1 ≤ w ∧ w ≤ 8) : columnSize (w + 2) = w := by
  unfold columnSize
  rw [if_neg (by omega), if_neg (by omega), if_pos (by omega), Nat.add_sub_cancel]

theorem columnSize_real {n : ℕ} (h : 2 ≤ n ∧ n ≤ 12) : columnSize (n + 9) = n := by
  unfold columnSize
  rw [if_neg (by omega), if_neg (by omega), if_neg (by omega), Nat.add_sub_cancel]

/-- Texts and blobs, of class 0 and 1. -/
theorem columnSize_long {n : ℕ} (cclass : ℕ) (hn : n < 2 ^ 31) (hc : cclass < 2) :
    columnSize (22 + cclass + 4 * n) = n := by
  unfold columnSize
  rw [if_pos (by omega), if_neg (by omega)]
  omega

/-- **A readable column is as long as its type says.** -/
theorem columnSize_dataCode {a : DataMem} (ha : a.Plain) (hread : a.Readable char)
    (hlen : (dataPayload char encoding a).length < 2 ^ 31) :
    columnSize (dataCode char encoding a) = (dataPayload char encoding a).length := by
  cases a with
  | null => rfl
  | int num =>
      rw [dataPayload, beBytes_length]
      exact columnSize_int (significantBytes_bounds _)
  | real num =>
      obtain ⟨h2, -, h12⟩ := realBytes_length (p := num) ha
      exact columnSize_real ⟨h2, h12.mpr hread⟩
  | str z => exact columnSize_long 0 hlen (by omega)
  | blob z => exact columnSize_long 1 hlen (by omega)

/-! ### The payload of a column -/

variable (decoderFromKey : ℕ → Bool → Option ColumnValue)

/-- The two varints of a real, read from the place where they stand. -/
theorem columnValue_real {p : Num} (hp : p.Finite) (hfit : (realBytes p).length ≤ 12)
    {a rest : List UInt8} {ofst : ℕ} (hdrop : a.drop ofst = realBytes p ++ rest) :
    columnValue char decoderFromKey a ((realBytes p).length + 9) ofst =
      some (.real { p with approx := false }) := by
  obtain ⟨h2, -, -⟩ := realBytes_length hp
  have hge := hp.e_ge
  have hle : p.e ≤ 999 := hp.e_le
  obtain ⟨x, hx⟩ : ∃ x, x = realExponent p := ⟨_, rfl⟩
  have hsplit : realBytes p = sqlite4PutVarint64 x ++ sqlite4PutVarint64 p.m := hx ▸ rfl
  have hxlt : x < 2 ^ 31 := by
    rw [hx, realExponent]
    split_ifs <;> omega
  have hread := sqlite4GetVarint64_put (x := x) (by omega) (sqlite4PutVarint64 p.m ++ rest)
  have hread' := sqlite4GetVarint64_put hp.m_lt rest
  rw [← List.append_assoc, ← hsplit, ← hdrop] at hread
  have hdrop' : a.drop (ofst + (sqlite4PutVarint64 x).length) = sqlite4PutVarint64 p.m ++ rest := by
    rw [← List.drop_drop, hdrop, hsplit, List.append_assoc, List.drop_left]
  have hsum : (realBytes p).length =
      (sqlite4PutVarint64 x).length + (sqlite4PutVarint64 p.m).length := by
    rw [hsplit, List.length_append]
  unfold columnValue
  rw [columnSize_real ⟨h2, hfit⟩, if_neg (by omega), if_neg (by omega), if_neg (by omega),
    if_pos (by omega), hread]
  simp only [hdrop', hread', hsum, ne_eq, not_true_eq_false, if_false, toInt_of_lt hxlt]
  -- the two low bits are the signs
  have hsign : decide ((x : ℤ) % 2 = 1) = p.sign := by
    rw [hx, realExponent]
    rcases hs : p.sign with - | - <;> simp only [Bool.false_eq_true, if_false, if_true] <;>
      split_ifs <;> simp <;> omega
  have hexp : (if (x : ℤ) % 4 / 2 = 1 then -((x : ℤ) / 4) else (x : ℤ) / 4) = p.e := by
    rw [hx, realExponent]
    split_ifs <;> omega
  rw [hsign, hexp]

theorem readBytes_of_drop {a p rest : List UInt8} {ofst : ℕ} (h : a.drop ofst = p ++ rest)
    (hne : p ≠ []) : readBytes a ofst p.length = p := by
  have hlen := congrArg List.length h
  rw [List.length_drop, List.length_append] at hlen
  have hpos := List.length_pos_of_ne_nil hne
  have hsplit : a = a.take ofst ++ p ++ rest := by
    rw [List.append_assoc, ← h, List.take_append_drop]
  have htake : (a.take ofst).length = ofst := by
    rw [List.length_take]
    omega
  have hread := readBytes_append_right (a.take ofst) p
  rw [htake] at hread
  rw [hsplit, readBytes_append_left (by rw [List.length_append]; omega), hread]

/-- The bytes of an integer. -/
theorem columnValue_int (v : ℤ) {a rest : List UInt8} {ofst : ℕ}
    (hdrop : a.drop ofst = beBytes (significantBytes v) (v % 2 ^ 64).toNat ++ rest) :
    columnValue char decoderFromKey a (significantBytes v + 2) ofst =
      some (.int (columnInt char (beBytes (significantBytes v) (v % 2 ^ 64).toNat))) := by
  have hw := significantBytes_bounds v
  have hne : beBytes (significantBytes v) (v % 2 ^ 64).toNat ≠ [] := by
    intro h
    have := congrArg List.length h
    rw [beBytes_length, List.length_nil] at this
    omega
  have hread := readBytes_of_drop hdrop hne
  rw [beBytes_length] at hread
  unfold columnValue
  rw [columnSize_int hw]
  dsimp only
  rw [hread, if_neg (by omega), if_neg (by omega), if_pos (by omega)]

/-- The bytes of a blob. -/
theorem columnValue_blob {z : List UInt8} (hlen : z.length < 2 ^ 31) {a rest : List UInt8}
    {ofst : ℕ} (hdrop : a.drop ofst = z ++ rest) :
    columnValue char decoderFromKey a (dataCode char encoding (.blob z)) ofst =
      some (.blob z) := by
  have hread : readBytes a ofst z.length = z := by
    rcases z with - | ⟨u, z⟩
    · rfl
    · exact readBytes_of_drop hdrop (List.cons_ne_nil u z)
  simp only [dataCode]
  unfold columnValue
  rw [show 23 + 4 * z.length = 22 + 1 + 4 * z.length by omega, columnSize_long _ hlen (by omega)]
  dsimp only
  rw [hread, if_neg (by omega), if_neg (by omega), if_neg (by omega), if_neg (by omega),
    if_neg (by omega), if_neg (by omega)]

/-- A text behind its encoding byte, which tells the encoding where it has to. -/
theorem columnValue_str {z a rest : List UInt8} {ofst : ℕ}
    (hlen : (encodingByte char encoding z ++ z).length < 2 ^ 31)
    (hdrop : a.drop ofst = encodingByte char encoding z ++ z ++ rest) :
    columnValue char decoderFromKey a (22 + 4 * (encodingByte char encoding z ++ z).length) ofst =
      some (.str z (if z = [] then .utf8 else encoding)) := by
  have hclass : (22 + 4 * (encodingByte char encoding z ++ z).length - 22) % 4 = 0 := by omega
  unfold columnValue
  rw [columnSize_long 0 hlen (by omega), if_neg (by omega), if_neg (by omega),
    if_neg (by omega), if_neg (by omega), if_pos hclass]
  rcases z with - | ⟨u, z⟩
  · rfl
  rw [readBytes_of_drop hdrop (by simp), if_neg (List.cons_ne_nil u z)]
  cases encoding with
  | utf16le => rfl
  | utf16be => rfl
  | utf8 =>
      by_cases hlow : char.value u < 3
      · simp only [encodingByte, if_pos hlow]
        rfl
      · -- no byte in front: the first one is above 2
        have hu : u > 2 := by
          rw [CharSign.value_eq] at hlow
          have hlt := u.toNat_lt
          rw [gt_iff_lt, UInt8.lt_iff_toNat_lt]
          show 2 < u.toNat
          split_ifs at hlow <;> omega
        simp only [encodingByte, if_neg hlow, List.nil_append, if_pos hu]

/-- **What a column reads as**: its value, exactly where that is readable. -/
theorem columnValue_payload {x : DataMem} (hx : x.Plain) {a rest : List UInt8} {ofst : ℕ}
    (hlen : (dataPayload char encoding x).length < 2 ^ 31)
    (hdrop : a.drop ofst = dataPayload char encoding x ++ rest) :
    columnValue char decoderFromKey a (dataCode char encoding x) ofst =
        some (x.value encoding) ↔ x.Readable char := by
  cases x with
  | null => exact iff_of_true rfl trivial
  | int num =>
      obtain ⟨v, hlo, hhi, rfl⟩ := hx
      have hnum := sqlite4_num_to_int64_from ⟨hlo, hhi⟩
      simp only [dataPayload, hnum] at hdrop
      have hvalue := columnValue_int char decoderFromKey v hdrop
      simp only [dataCode, DataMem.value, DataMem.Readable, hnum, hvalue, Option.some.injEq,
        ColumnValue.int.injEq]
      exact columnInt_beBytes char ⟨hlo, hhi⟩
  | real num =>
      obtain ⟨h2, h13, h12⟩ := realBytes_length (p := num) hx
      simp only [DataMem.Readable, ← h12]
      constructor
      · intro hval
        by_contra hlong
        -- 13 bytes: the type code is that of the empty text
        have hcode : dataCode char encoding (.real num) = 22 := by
          simp only [dataCode]
          omega
        rw [hcode] at hval
        cases hval
      · exact fun hfit => columnValue_real char decoderFromKey hx hfit hdrop
  | str z => exact iff_of_true (columnValue_str char encoding decoderFromKey hlen hdrop) trivial
  | blob z => exact iff_of_true (columnValue_blob char encoding decoderFromKey hlen hdrop) trivial

/-! ### The header -/

theorem dataCode_lt {x : DataMem} (hx : x.Plain)
    (hlen : (dataPayload char encoding x).length < 2 ^ 31) :
    dataCode char encoding x < 2 ^ 64 := by
  cases x with
  | null => simp [dataCode]
  | int num =>
      have := significantBytes_bounds (sqlite4_num_to_int64 num)
      simp only [dataCode]
      omega
  | real num =>
      have := (realBytes_length (p := num) hx).2.1
      simp only [dataCode]
      omega
  | str z => simp only [dataCode, dataPayload] at hlen ⊢; omega
  | blob z => simp only [dataCode, dataPayload] at hlen ⊢; omega

/-- One column of the header is read. -/
theorem columnType_header {x : DataMem} (hx : x.Plain)
    (hlen : (dataPayload char encoding x).length < 2 ^ 31) {a rest : List UInt8} {n : ℕ}
    (hdrop : a.drop n = dataType char encoding x ++ rest) :
    columnType a n =
      some (dataCode char encoding x, n + (dataType char encoding x).length) := by
  have hread := sqlite4GetVarint64_put (dataCode_lt char encoding hx hlen) rest
  rw [← dataType_eq char encoding hx, ← hdrop] at hread
  rw [columnType, hread]
  exact if_neg (dataCode_class char encoding hx)

theorem dataType_ne_nil {x : DataMem} (hx : x.Plain)
    (hlen : (dataPayload char encoding x).length < 2 ^ 31) : dataType char encoding x ≠ [] := by
  rw [dataType_eq char encoding hx, ne_eq, ← List.length_eq_zero_iff,
    sqlite4PutVarint64_length (dataCode_lt char encoding hx hlen)]
  omega

variable {aIn : List DataMem}

/-- **A column of the record is found** behind columns that are as long as their types
say. -/
theorem findColumn_at {a rest : List UInt8} {endHdr : ℤ} {pre post : List DataMem} {x : DataMem}
    (hplain : ∀ y ∈ pre ++ x :: post, y.Plain)
    (hlen : ∀ y ∈ pre ++ x :: post, (dataPayload char encoding y).length < 2 ^ 31)
    (hread : ∀ y ∈ pre, y.Readable char) {n ofst : ℕ}
    (hdrop : a.drop n = (pre ++ x :: post).flatMap (dataType char encoding) ++ rest)
    (hend : endHdr = n + ((pre ++ x :: post).flatMap (dataType char encoding)).length)
    (hofst : ofst + (pre.flatMap (dataPayload char encoding)).length < 2 ^ 64) :
    findColumn a endHdr pre.length n ofst =
      some (some (dataCode char encoding x,
        ofst + (pre.flatMap (dataPayload char encoding)).length)) := by
  induction pre generalizing n ofst with
  | nil =>
      have hx := hplain x (by simp)
      have hxlen := hlen x (by simp)
      have hpos := List.length_pos_of_ne_nil (dataType_ne_nil char encoding hx hxlen)
      rw [List.nil_append, List.flatMap_cons, List.length_append] at hend
      rw [List.nil_append, List.flatMap_cons, List.append_assoc] at hdrop
      rw [List.length_nil, findColumn, if_pos (by omega),
        columnType_header char encoding hx hxlen hdrop]
      rfl
  | cons y pre ih =>
      have hy := hplain y (by simp)
      have hylen := hlen y (by simp)
      have hpos := List.length_pos_of_ne_nil (dataType_ne_nil char encoding hy hylen)
      rw [List.cons_append, List.flatMap_cons, List.length_append] at hend
      rw [List.cons_append, List.flatMap_cons, List.append_assoc] at hdrop
      rw [List.flatMap_cons, List.length_append] at hofst ⊢
      have hstep : (ofst + columnSize (dataCode char encoding y)) % 2 ^ 64 =
          ofst + (dataPayload char encoding y).length := by
        rw [columnSize_dataCode char encoding hy (hread y (by simp)) hylen]
        exact Nat.mod_eq_of_lt (by omega)
      rw [List.length_cons, findColumn, if_pos (by omega),
        columnType_header char encoding hy hylen hdrop]
      simp only [hstep]
      rw [ih (fun z hz => hplain z (by simp [hz])) (fun z hz => hlen z (by simp [hz]))
        (fun z hz => hread z (by simp [hz]))
        (by rw [← List.drop_drop, hdrop, List.drop_left]) (by push_cast; omega) (by omega),
        Nat.add_assoc]

/-- Behind the last column of the header there is none. -/
theorem findColumn_beyond {a rest : List UInt8} {endHdr : ℤ}
    (hplain : ∀ y ∈ aIn, y.Plain)
    (hlen : ∀ y ∈ aIn, (dataPayload char encoding y).length < 2 ^ 31) {iVal n ofst : ℕ}
    (hdrop : a.drop n = aIn.flatMap (dataType char encoding) ++ rest)
    (hend : endHdr = n + (aIn.flatMap (dataType char encoding)).length)
    (hval : aIn.length ≤ iVal) : findColumn a endHdr iVal n ofst = some none := by
  induction aIn generalizing iVal n ofst with
  | nil =>
      rw [List.flatMap_nil, List.length_nil] at hend
      rw [findColumn, if_neg (by omega)]
  | cons y aIn ih =>
      have hy := hplain y (by simp)
      have hylen := hlen y (by simp)
      have hpos := List.length_pos_of_ne_nil (dataType_ne_nil char encoding hy hylen)
      rw [List.flatMap_cons, List.length_append] at hend
      rw [List.flatMap_cons, List.append_assoc] at hdrop
      rw [List.length_cons] at hval
      obtain ⟨k, rfl⟩ : ∃ k, iVal = k + 1 := ⟨iVal - 1, by omega⟩
      rw [findColumn, if_pos (by omega), columnType_header char encoding hy hylen hdrop]
      simp only
      exact ih (fun z hz => hplain z (by simp [hz])) (fun z hz => hlen z (by simp [hz]))
        (by rw [← List.drop_drop, hdrop, List.drop_left]) (by push_cast; omega) (by omega)

/-! ### Records -/

/-- The bytes of a record: the varint of the header size, the header, the payloads. -/
theorem encodeData_length (aIn : List DataMem) :
    (sqlite4VdbeEncodeData char encoding aIn).length =
      (sqlite4PutVarint64 (aIn.flatMap (dataType char encoding)).length).length +
        ((aIn.flatMap (dataType char encoding)).length +
          (aIn.flatMap (dataPayload char encoding)).length) := by
  rw [sqlite4VdbeEncodeData, List.length_append, List.length_append]

theorem dataPayload_length_le {x : DataMem} (hx : x ∈ aIn) :
    (dataPayload char encoding x).length ≤
      (aIn.flatMap (dataPayload char encoding)).length := by
  obtain ⟨pre, post, rfl⟩ := List.append_of_mem hx
  rw [List.flatMap_append, List.flatMap_cons, List.length_append, List.length_append]
  omega

variable (hplain : ∀ x ∈ aIn, x.Plain)
variable (hlen : (sqlite4VdbeEncodeData char encoding aIn).length < 2 ^ 31)

include hlen

/-- The decoder on a record, after the size of the header. -/
theorem getColumn_eq (iVal : ℕ) (pDefault : ColumnValue) {H endHdr : ℕ}
    (hH : H = (sqlite4PutVarint64 (aIn.flatMap (dataType char encoding)).length).length)
    (hend : endHdr = H + (aIn.flatMap (dataType char encoding)).length) :
    sqlite4VdbeDecoderGetColumn char decoderFromKey (sqlite4VdbeEncodeData char encoding aIn) iVal
        pDefault =
      match findColumn (sqlite4VdbeEncodeData char encoding aIn) endHdr iVal H endHdr with
      | none => none
      | some none => some pDefault
      | some (some (type, ofst)) =>
          columnValue char decoderFromKey (sqlite4VdbeEncodeData char encoding aIn) type ofst := by
  have htotal := encodeData_length char encoding aIn
  have hread := sqlite4GetVarint64_put (x := (aIn.flatMap (dataType char encoding)).length)
    (by omega) (aIn.flatMap (dataType char encoding) ++ aIn.flatMap (dataPayload char encoding))
  rw [show sqlite4PutVarint64 (aIn.flatMap (dataType char encoding)).length ++
    (aIn.flatMap (dataType char encoding) ++ aIn.flatMap (dataPayload char encoding)) =
    sqlite4VdbeEncodeData char encoding aIn from rfl, ← hH] at hread
  have hofst : ((aIn.flatMap (dataType char encoding)).length + H) % 2 ^ 64 = endHdr := by
    rw [hend, Nat.add_comm]
    exact Nat.mod_eq_of_lt (by omega)
  rw [sqlite4VdbeDecoderGetColumn, hread]
  simp only [hofst, toInt_of_lt (show endHdr < 2 ^ 31 by omega)]
  exact if_neg (by omega)

include hplain

/-- **One column**: it reads as its value exactly where that is readable, if those in
front of it are. -/
theorem getColumn_iff {pre post : List DataMem} {x : DataMem} (haIn : aIn = pre ++ x :: post)
    (hread : ∀ y ∈ pre, y.Readable char) (pDefault : ColumnValue) :
    sqlite4VdbeDecoderGetColumn char decoderFromKey (sqlite4VdbeEncodeData char encoding aIn)
        pre.length pDefault = some (x.value encoding) ↔ x.Readable char := by
  have htotal := encodeData_length char encoding aIn
  have hlens : ∀ y ∈ aIn, (dataPayload char encoding y).length < 2 ^ 31 := fun y hy => by
    have := dataPayload_length_le char encoding hy
    omega
  obtain ⟨H, hH⟩ : ∃ H, H =
    (sqlite4PutVarint64 (aIn.flatMap (dataType char encoding)).length).length := ⟨_, rfl⟩
  have hsum : (aIn.flatMap (dataPayload char encoding)).length =
      (pre.flatMap (dataPayload char encoding)).length +
        (((dataPayload char encoding x).length +
          (post.flatMap (dataPayload char encoding)).length)) := by
    rw [haIn, List.flatMap_append, List.flatMap_cons, List.length_append, List.length_append]
  have hdrop : (sqlite4VdbeEncodeData char encoding aIn).drop H =
      aIn.flatMap (dataType char encoding) ++ aIn.flatMap (dataPayload char encoding) := by
    rw [sqlite4VdbeEncodeData, hH, List.drop_left]
  have hfind : findColumn (sqlite4VdbeEncodeData char encoding aIn)
      ((H + (aIn.flatMap (dataType char encoding)).length : ℕ) : ℤ) pre.length H
      (H + (aIn.flatMap (dataType char encoding)).length) =
      some (some (dataCode char encoding x, H + (aIn.flatMap (dataType char encoding)).length +
        (pre.flatMap (dataPayload char encoding)).length)) :=
    findColumn_at char encoding (fun y hy => hplain y (haIn ▸ hy))
      (fun y hy => hlens y (haIn ▸ hy)) hread
      (by rw [hdrop, haIn]) (by rw [haIn]; push_cast; rfl) (by omega)
  have hpayload : (sqlite4VdbeEncodeData char encoding aIn).drop
      (H + (aIn.flatMap (dataType char encoding)).length +
        (pre.flatMap (dataPayload char encoding)).length) =
      dataPayload char encoding x ++ post.flatMap (dataPayload char encoding) := by
    rw [← List.drop_drop, ← List.drop_drop, hdrop, List.drop_left, haIn, List.flatMap_append,
      List.drop_left, List.flatMap_cons]
  rw [getColumn_eq char encoding decoderFromKey hlen _ _ hH rfl, hfind]
  exact columnValue_payload char encoding decoderFromKey (hplain x (by simp [haIn]))
    (hlens x (by simp [haIn])) hpayload

/-- Behind the last column the default is answered. -/
theorem getColumn_beyond {iVal : ℕ} (hval : aIn.length ≤ iVal) (pDefault : ColumnValue) :
    sqlite4VdbeDecoderGetColumn char decoderFromKey (sqlite4VdbeEncodeData char encoding aIn) iVal
      pDefault = some pDefault := by
  have htotal := encodeData_length char encoding aIn
  rw [getColumn_eq char encoding decoderFromKey hlen _ _ rfl rfl,
    findColumn_beyond char encoding hplain
      (fun y hy => by have := dataPayload_length_le char encoding hy; omega)
      (by rw [sqlite4VdbeEncodeData, List.drop_left]) (by push_cast; rfl) hval]

/-- **Records are read back** column by column, and the default behind them, exactly
where every value of the record is readable. -/
theorem sqlite4VdbeDecoderGetColumn_iff :
    (∀ iVal pDefault,
      sqlite4VdbeDecoderGetColumn char decoderFromKey (sqlite4VdbeEncodeData char encoding aIn)
          iVal pDefault =
        some ((aIn[iVal]?.map (DataMem.value encoding)).getD pDefault)) ↔
      ∀ x ∈ aIn, x.Readable char := by
  have hone := fun k (hk : k < aIn.length) =>
    getColumn_iff char encoding decoderFromKey hplain hlen
      (show aIn = aIn.take k ++ aIn[k] :: aIn.drop (k + 1) by
        rw [List.getElem_cons_drop, List.take_append_drop])
  constructor
  · intro h
    -- the columns in front of a column tell where it is
    have hprefix : ∀ k, ∀ y ∈ aIn.take k, y.Readable char := by
      intro k
      induction k with
      | zero => simp
      | succ k ih =>
          intro y hy
          rcases lt_or_ge k aIn.length with hk | hk
          · rw [List.take_succ_eq_append_getElem hk, List.mem_append, List.mem_singleton] at hy
            rcases hy with hy | rfl
            · exact ih y hy
            · have hcol := h k .null
              rw [List.getElem?_eq_getElem hk, Option.map_some, Option.getD_some] at hcol
              refine (hone k hk ih .null).mp ?_
              rw [List.length_take, Nat.min_eq_left hk.le]
              exact hcol
          · rw [List.take_of_length_le (by omega)] at hy
            rw [List.take_of_length_le hk] at ih
            exact ih y hy
    intro x hx
    have hall := hprefix aIn.length
    rw [List.take_length] at hall
    exact hall x hx
  · intro hread iVal pDefault
    rcases lt_or_ge iVal aIn.length with hk | hk
    · have hcol := (hone iVal hk (fun y hy => hread y (List.mem_of_mem_take hy)) pDefault).mpr
        (hread _ (List.getElem_mem hk))
      rw [List.length_take, Nat.min_eq_left hk.le] at hcol
      rw [hcol, List.getElem?_eq_getElem hk, Option.map_some, Option.getD_some]
    · rw [getColumn_beyond char encoding decoderFromKey hplain hlen hk, List.getElem?_eq_none hk]
      rfl

omit hplain hlen in
theorem plain_minusTwo : ∀ x ∈ [DataMem.int (sqlite4_num_from_int64 (-2)), .str [0x61]],
    x.Plain := by
  intro x hx
  simp only [List.mem_cons, List.not_mem_nil, or_false] at hx
  rcases hx with rfl | rfl
  · exact ⟨-2, by norm_num, by norm_num, rfl⟩
  · trivial

omit hplain hlen in
/-- A record of `-2` and a text. -/
theorem sqlite4VdbeDecoderGetColumn_iff_two :
    (∀ iVal pDefault,
      sqlite4VdbeDecoderGetColumn .signed (fun _ _ => none) (sqlite4VdbeEncodeData .signed .utf8
          [.int (sqlite4_num_from_int64 (-2)), .str [0x61]]) iVal pDefault =
        some (([DataMem.int (sqlite4_num_from_int64 (-2)), .str [0x61]][iVal]?.map
          (DataMem.value .utf8)).getD pDefault)) ↔
      ∀ x ∈ [DataMem.int (sqlite4_num_from_int64 (-2)), .str [0x61]], x.Readable .signed :=
  sqlite4VdbeDecoderGetColumn_iff .signed .utf8 _ plain_minusTwo (by decide)

omit hplain hlen in
/-- With unsigned `char`, a column of `-2` does not read as `-2`. -/
theorem unsignedChar_column_misread :
    ¬ ∀ (char : CharSign) (encoding : TextEncoding) (aIn : List DataMem),
      (∀ x ∈ aIn, x.Plain) → (sqlite4VdbeEncodeData char encoding aIn).length < 2 ^ 31 →
      ∀ decoderFromKey iVal pDefault,
        sqlite4VdbeDecoderGetColumn char decoderFromKey (sqlite4VdbeEncodeData char encoding aIn)
            iVal pDefault =
          some ((aIn[iVal]?.map (DataMem.value encoding)).getD pDefault) := by
  intro h
  have hcol := h .unsigned .utf8 _ plain_minusTwo (by decide) (fun _ _ => none) 0 .null
  have hiff := getColumn_iff .unsigned .utf8 (fun _ _ => none) plain_minusTwo (by decide)
    (show _ = [] ++ _ :: _ from rfl) (fun y hy => absurd hy List.not_mem_nil) .null
  have hread : ¬ DataMem.Readable .unsigned (.int (sqlite4_num_from_int64 (-2))) := by
    intro hr
    rcases hr rfl with h0 | h0
    · exact absurd h0 (by decide)
    · exact absurd h0 (by decide)
  exact hread (hiff.mp hcol)

end MoVeBench
