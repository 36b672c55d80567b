/-
MoVeBench/Lib/Bytes.lean

Bytes and fixed-width integers written as bytes.

A byte string is a `List UInt8`.  Bytes are ordered by value
(`compare_ofNat`), and complementing every byte reverses that order
(`compare_complement`).  Two fixed-width codes of natural numbers are given:
the big-endian one, whose order as byte strings is the order of the numbers
(`beBytes_diverges`), and the little-endian one.  Both are read back from the
front of any byte string that starts with them (`fromBe_beBytes`,
`fromLe_leBytes`).
-/
import MoVeBench.Lib.LexCode

namespace Bytes

open LexCode

/-! ### Single bytes -/

@[simp] theorem toNat_ofNat_of_lt {n : ℕ} (h : n < 256) :
    (UInt8.ofNat n).toNat = n := by
  rw [UInt8.toNat_ofNat']
  omega

theorem ofNat_mod (n : ℕ) : UInt8.ofNat (n % 256) = UInt8.ofNat n := by
  apply UInt8.toNat_inj.mp
  rw [UInt8.toNat_ofNat', UInt8.toNat_ofNat']
  omega

/-- Bytes compare as the numbers they stand for. -/
theorem compare_toNat (u v : UInt8) : compare u v = compare u.toNat v.toNat := by
  rcases lt_trichotomy u.toNat v.toNat with h | h | h
  · rw [Nat.compare_eq_lt.mpr h]
    exact Std.compare_eq_lt.mpr (UInt8.lt_iff_toNat_lt.mpr h)
  · rw [h, Nat.compare_eq_eq.mpr rfl, UInt8.toNat_inj.mp h]
    exact Std.ReflOrd.compare_self
  · rw [Nat.compare_eq_gt.mpr h]
    exact Std.compare_eq_gt.mpr (UInt8.lt_iff_toNat_lt.mpr h)

theorem compare_ofNat {m n : ℕ} (hm : m < 256) (hn : n < 256) :
    compare (UInt8.ofNat m) (UInt8.ofNat n) = compare m n := by
  rw [compare_toNat, toNat_ofNat_of_lt hm, toNat_ofNat_of_lt hn]

theorem compare_lt_of_toNat_lt {u v : UInt8} (h : u.toNat < v.toNat) :
    compare u v = .lt := by
  rw [compare_toNat]
  exact Nat.compare_eq_lt.mpr h

theorem toNat_complement (u : UInt8) : (~~~u).toNat = 255 - u.toNat := by
  rw [UInt8.toNat_not]
  rfl

theorem xor_ff (u : UInt8) : u ^^^ 0xff = ~~~u := by
  apply UInt8.toBitVec_inj.mp
  exact BitVec.xor_allOnes

/-- Complementing bytes reverses their order. -/
theorem compare_complement (u v : UInt8) :
    compare (~~~u) (~~~v) = (compare u v).swap := by
  have hu := u.toNat_lt
  have hv := v.toNat_lt
  rw [compare_toNat, compare_toNat, Nat.compare_swap, toNat_complement,
    toNat_complement]
  rcases lt_trichotomy u.toNat v.toNat with h | h | h
  · rw [Nat.compare_eq_gt.mpr (by omega), Nat.compare_eq_gt.mpr h]
  · rw [h, Nat.compare_eq_eq.mpr rfl, Nat.compare_eq_eq.mpr rfl]
  · rw [Nat.compare_eq_lt.mpr (by omega), Nat.compare_eq_lt.mpr h]

/-! ### Big-endian words -/

/-- The `w` low-order bytes of `x`, most significant byte first. -/
def beBytes : ℕ → ℕ → List UInt8
  | 0, _ => []
  | w + 1, x => UInt8.ofNat (x / 256 ^ w) :: beBytes w x

/-- The number a big-endian byte string stands for. -/
def fromBe : List UInt8 → ℕ
  | [] => 0
  | u :: l => u.toNat * 256 ^ l.length + fromBe l

@[simp] theorem beBytes_length (w x : ℕ) : (beBytes w x).length = w := by
  induction w with
  | zero => rfl
  | succ w ih => rw [beBytes, List.length_cons, ih]

theorem beBytes_mod (w x k : ℕ) (h : w ≤ k) :
    beBytes w (x % 256 ^ k) = beBytes w x := by
  induction w with
  | zero => rfl
  | succ w ih =>
      obtain ⟨d, rfl⟩ : ∃ d, k = w + 1 + d := ⟨k - (w + 1), by omega⟩
      have hdiv : x % 256 ^ (w + 1 + d) / 256 ^ w % 256 = x / 256 ^ w % 256 := by
        rw [show w + 1 + d = w + (1 + d) by ring, pow_add, Nat.mod_mul_right_div_self]
        exact Nat.mod_mod_of_dvd _ (dvd_pow_self 256 (by omega))
      rw [beBytes, beBytes, ih (by omega), ← ofNat_mod, hdiv, ofNat_mod]

theorem fromBe_beBytes {w x : ℕ} (h : x < 256 ^ w) : fromBe (beBytes w x) = x := by
  induction w generalizing x with
  | zero =>
      obtain rfl : x = 0 := by simpa using h
      rfl
  | succ w ih =>
      have hdiv : x / 256 ^ w < 256 := Nat.div_lt_of_lt_mul (by rwa [pow_succ] at h)
      rw [beBytes, fromBe, beBytes_length, toNat_ofNat_of_lt hdiv,
        ← beBytes_mod w x w le_rfl, ih (Nat.mod_lt _ (Nat.pow_pos (by omega)))]
      exact Nat.div_add_mod' x (256 ^ w)

/-- Big-endian words of one width compare as the numbers they stand for. -/
theorem beBytes_diverges {w x y : ℕ} (hx : x < 256 ^ w) (hy : y < 256 ^ w) :
    Diverges (compare x y) (beBytes w x) (beBytes w y) := by
  induction w generalizing x y with
  | zero =>
      obtain rfl : x = y := by simp at hx hy; omega
      rw [Nat.compare_eq_eq.mpr rfl]
      exact .same _
  | succ w ih =>
      have hpos : 0 < 256 ^ w := Nat.pow_pos (by omega)
      have hdx : x / 256 ^ w < 256 := Nat.div_lt_of_lt_mul (by rwa [pow_succ] at hx)
      have hdy : y / 256 ^ w < 256 := Nat.div_lt_of_lt_mul (by rwa [pow_succ] at hy)
      have hhead := compare_ofNat hdx hdy
      rcases lt_trichotomy (x / 256 ^ w) (y / 256 ^ w) with hlt | heq | hgt
      · have hxy : x < y := by
          by_contra hge
          exact absurd (Nat.div_le_div_right (c := 256 ^ w) (not_lt.mp hge)) (by omega)
        rw [Nat.compare_eq_lt.mpr hxy]
        exact .head _ _ (hhead.trans (Nat.compare_eq_lt.mpr hlt)) (by simp)
      · have hmod := ih (Nat.mod_lt x hpos) (Nat.mod_lt y hpos)
        rw [beBytes_mod w x w le_rfl, beBytes_mod w y w le_rfl] at hmod
        have hcmp : compare x y = compare (x % 256 ^ w) (y % 256 ^ w) := by
          have ex := Nat.div_add_mod' x (256 ^ w)
          have ey := Nat.div_add_mod' y (256 ^ w)
          rw [← heq] at ey
          rcases lt_trichotomy (x % 256 ^ w) (y % 256 ^ w) with h | h | h
          · rw [Nat.compare_eq_lt.mpr h, Nat.compare_eq_lt.mpr (by omega)]
          · rw [Nat.compare_eq_eq.mpr h, Nat.compare_eq_eq.mpr (by omega)]
          · rw [Nat.compare_eq_gt.mpr h, Nat.compare_eq_gt.mpr (by omega)]
        rw [beBytes, beBytes, heq, hcmp]
        exact hmod.cons _
      · have hxy : y < x := by
          by_contra hge
          exact absurd (Nat.div_le_div_right (c := 256 ^ w) (not_lt.mp hge)) (by omega)
        rw [Nat.compare_eq_gt.mpr hxy]
        exact .head _ _ (hhead.trans (Nat.compare_eq_gt.mpr hgt)) (by simp)

/-! ### Little-endian words -/

/-- The `w` low-order bytes of `x`, least significant byte first. -/
def leBytes : ℕ → ℕ → List UInt8
  | 0, _ => []
  | w + 1, x => UInt8.ofNat x :: leBytes w (x / 256)

/-- The number a little-endian byte string stands for. -/
def fromLe : List UInt8 → ℕ
  | [] => 0
  | u :: l => u.toNat + 256 * fromLe l

@[simp] theorem leBytes_length (w x : ℕ) : (leBytes w x).length = w := by
  induction w generalizing x with
  | zero => rfl
  | succ w ih => rw [leBytes, List.length_cons, ih]

theorem fromLe_leBytes (w x : ℕ) : fromLe (leBytes w x) = x % 256 ^ w := by
  induction w generalizing x with
  | zero => simp [leBytes, fromLe, Nat.mod_one]
  | succ w ih =>
      have hsplit : x % (256 * 256 ^ w) = x % 256 + 256 * (x / 256 % 256 ^ w) := Nat.mod_mul
      rw [leBytes, fromLe, ih, UInt8.toNat_ofNat', pow_succ' 256, hsplit]

theorem fromLe_lt (l : List UInt8) : fromLe l < 256 ^ l.length := by
  induction l with
  | nil => simp [fromLe]
  | cons u l ih =>
      have hu := u.toNat_lt
      rw [fromLe, List.length_cons, pow_succ']
      omega

/-! ### Buffers

A buffer is a byte string of fixed length.  Reads outside it give zero bytes,
writes outside it are lost; neither happens in range. -/

/-- `n` bytes from offset `off` on. -/
def readBytes (buf : List UInt8) (off : ℕ) : ℕ → List UInt8
  | 0 => []
  | n + 1 => buf.getD off 0 :: readBytes buf (off + 1) n

/-- Copy `data` into the buffer at offset `off`. -/
def writeBytes (buf : List UInt8) (off : ℕ) : List UInt8 → List UInt8
  | [] => buf
  | u :: data => writeBytes (buf.set off u) (off + 1) data

@[simp] theorem readBytes_length (buf : List UInt8) (off n : ℕ) :
    (readBytes buf off n).length = n := by
  induction n generalizing off with
  | zero => rfl
  | succ n ih => rw [readBytes, List.length_cons, ih]

@[simp] theorem writeBytes_length (buf : List UInt8) (off : ℕ) (data : List UInt8) :
    (writeBytes buf off data).length = buf.length := by
  induction data generalizing buf off with
  | nil => rfl
  | cons u data ih => rw [writeBytes, ih, List.length_set]

/-- A byte that is not written keeps its value. -/
theorem writeBytes_getD_of_ne {buf data : List UInt8} {off i : ℕ}
    (h : i < off ∨ off + data.length ≤ i) : (writeBytes buf off data).getD i 0 = buf.getD i 0 := by
  induction data generalizing buf off with
  | nil => rfl
  | cons u data ih =>
      rw [List.length_cons] at h
      rw [writeBytes, ih (by omega), List.getD_eq_getElem?_getD, List.getElem?_set_ne (by omega),
        List.getD_eq_getElem?_getD]

/-- Two buffers hold the same `n` bytes from offset `off` on. -/
def AgreeOn (off n : ℕ) (buf buf' : List UInt8) : Prop :=
  ∀ i, off ≤ i → i < off + n → buf.getD i 0 = buf'.getD i 0

theorem AgreeOn.mono {off n off' n' : ℕ} {buf buf' : List UInt8} (h : AgreeOn off n buf buf')
    (hlo : off ≤ off') (hhi : off' + n' ≤ off + n) : AgreeOn off' n' buf buf' :=
  fun i hi hi' => h i (by omega) (by omega)

theorem AgreeOn.trans {off n : ℕ} {buf buf' buf'' : List UInt8} (h : AgreeOn off n buf buf')
    (h' : AgreeOn off n buf' buf'') : AgreeOn off n buf buf'' :=
  fun i hi hi' => (h i hi hi').trans (h' i hi hi')

/-- **Frame rule**: writing a range leaves every range disjoint from it alone. -/
theorem agreeOn_writeBytes {buf data : List UInt8} {off off' n : ℕ}
    (h : off' + n ≤ off ∨ off + data.length ≤ off') :
    AgreeOn off' n (writeBytes buf off data) buf :=
  fun _ _ _ => writeBytes_getD_of_ne (by omega)

/-- Ranges that hold the same bytes read the same. -/
theorem readBytes_congr {buf buf' : List UInt8} {off n : ℕ} (h : AgreeOn off n buf buf') :
    readBytes buf off n = readBytes buf' off n := by
  induction n generalizing off with
  | zero => rfl
  | succ n ih =>
      rw [readBytes, readBytes, h off le_rfl (by omega), ih (h.mono (by omega) (by omega))]

/-- What was written is read back. -/
theorem readBytes_writeBytes {buf data : List UInt8} {off : ℕ}
    (h : off + data.length ≤ buf.length) :
    readBytes (writeBytes buf off data) off data.length = data := by
  induction data generalizing buf off with
  | nil => rfl
  | cons u data ih =>
      rw [List.length_cons] at h ⊢
      have hhead : (writeBytes (buf.set off u) (off + 1) data).getD off 0 = u := by
        rw [writeBytes_getD_of_ne (by omega), List.getD_eq_getElem?_getD,
          List.getElem?_set_self (by omega), Option.getD_some]
      rw [writeBytes, readBytes, hhead, ih (by rw [List.length_set]; omega)]

theorem readBytes_append (buf : List UInt8) (off m n : ℕ) :
    readBytes buf off (m + n) = readBytes buf off m ++ readBytes buf (off + m) n := by
  induction m generalizing off with
  | zero => simp [readBytes]
  | succ m ih =>
      rw [show m + 1 + n = m + n + 1 by omega, readBytes, ih, readBytes, List.cons_append,
        show off + 1 + m = off + (m + 1) by omega]

theorem readBytes_append_right (l m : List UInt8) : readBytes (l ++ m) l.length m.length = m := by
  induction m generalizing l with
  | nil => rfl
  | cons u m ih =>
      have htail := ih (l ++ [u])
      rw [List.append_assoc, List.length_append] at htail
      rw [List.length_cons, readBytes, List.getD_eq_getElem?_getD,
        List.getElem?_append_right le_rfl, Nat.sub_self]
      exact congrArg (u :: ·) htail

theorem readBytes_all (buf : List UInt8) : readBytes buf 0 buf.length = buf :=
  readBytes_append_right [] buf

/-- A range up to the end. -/
theorem readBytes_drop {buf : List UInt8} {off n : ℕ} (h : off + n = buf.length) :
    readBytes buf off n = buf.drop off := by
  have htail := readBytes_append_right (buf.take off) (buf.drop off)
  rwa [List.take_append_drop, List.length_take, List.length_drop, Nat.min_eq_left (by omega),
    ← h, Nat.add_sub_cancel_left] at htail

/-- A range that ends in front of `rest` does not depend on it. -/
theorem readBytes_append_left {buf : List UInt8} {off n : ℕ} (h : off + n ≤ buf.length)
    (rest : List UInt8) : readBytes (buf ++ rest) off n = readBytes buf off n := by
  apply readBytes_congr
  intro i _ hi
  rw [List.getD_eq_getElem?_getD, List.getD_eq_getElem?_getD,
    List.getElem?_append_left (by omega)]

/-- A write that ends in front of `rest` leaves it alone. -/
theorem writeBytes_append_left {buf data : List UInt8} {off : ℕ}
    (h : off + data.length ≤ buf.length) (rest : List UInt8) :
    writeBytes (buf ++ rest) off data = writeBytes buf off data ++ rest := by
  induction data generalizing buf off with
  | nil => rfl
  | cons u data ih =>
      rw [List.length_cons] at h
      rw [writeBytes, writeBytes, List.set_append_left off u (by omega)]
      apply ih
      rw [List.length_set]
      omega

/-- Ranges that read the same have parts that read the same. -/
theorem readBytes_part {buf buf' : List UInt8} {off off' n : ℕ}
    (h : readBytes buf off n = readBytes buf' off' n) {k m : ℕ} (hkm : k + m ≤ n) :
    readBytes buf (off + k) m = readBytes buf' (off' + k) m := by
  obtain ⟨r, rfl⟩ := Nat.exists_eq_add_of_le hkm
  rw [readBytes_append, readBytes_append, readBytes_append, readBytes_append] at h
  have hleft := List.append_inj_left h (by simp)
  exact List.append_inj_right hleft (by simp)

/-- A part of what was written. -/
theorem readBytes_written {buf data : List UInt8} {off k n : ℕ}
    (hin : off + data.length ≤ buf.length) (hk : k + n ≤ data.length) :
    readBytes (writeBytes buf off data) (off + k) n = readBytes data k n := by
  have hall := (readBytes_writeBytes hin).trans (readBytes_all data).symm
  rw [readBytes_part hall hk, Nat.zero_add]

/-- A part of what was read. -/
theorem readBytes_readBytes {buf : List UInt8} {off k m n : ℕ} (h : k + n ≤ m) :
    readBytes (readBytes buf off m) k n = readBytes buf (off + k) n := by
  have hall := readBytes_all (readBytes buf off m)
  rw [readBytes_length] at hall
  have hpart := readBytes_part hall h
  rwa [Nat.zero_add] at hpart

/-- Bytes behind a first part. -/
theorem readBytes_append_add (l m : List UInt8) {k n : ℕ} (h : k + n ≤ m.length) :
    readBytes (l ++ m) (l.length + k) n = readBytes m k n := by
  have hall := (readBytes_append_right l m).trans (readBytes_all m).symm
  rw [readBytes_part hall h, Nat.zero_add]

end Bytes
