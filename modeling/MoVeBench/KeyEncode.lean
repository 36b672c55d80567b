/-
MoVeBench/KeyEncode.lean

Index keys (`sqlite4VdbeEncodeKey` of `vdbecodec.c`): the fields of a row,
written so that `memcmp` on keys is meant to order rows as
`sqlite4MemCompare` orders their values, column by column.

Text is held as its UTF-8 bytes, the form in which both the encoder
(`sqlite4ValueText`) and the BINARY comparison read it; no other collating
sequence is attached to a column.

The order is kept by every field whose code ends by itself.  Two fields do not
keep it:

* a text is copied only up to its first NUL byte, so texts that agree up to
  there get one code;
* the last field of a key, if a blob, has no terminator, so a blob and a proper
  extension of it get codes one of which is a prefix of the other, and such
  codes compare the same way in a DESC column as in an ASC one.

`sqlite4VdbeEncodeKey_order` says what a comparison of two keys computes in
terms of the values, with both defects in it; `sqlite4VdbeEncodeKey_correct_iff`
derives when that is the order of the rows.
-/
import MoVeBench.KeyNumber

namespace MoVeBench

open LexCode Bytes

/-! ### Values -/

/-- A value (`Mem`): `MEM_Null`, `MEM_Int` or `MEM_Real` (both keep a
`sqlite4_num`), `MEM_Str`, `MEM_Blob`. -/
inductive Mem
  | null
  | num (n : Num)
  | str (z : List UInt8)
  | blob (z : List UInt8)
deriving DecidableEq, Repr

/-- A value whose number, if it is one, is finite. -/
def Mem.Finite : Mem → Prop
  | .num n => n.Finite
  | _ => True

instance : DecidablePred Mem.Finite := fun a =>
  match a with
  | .num n => inferInstanceAs (Decidable n.Finite)
  | .null => isTrue trivial
  | .str _ => isTrue trivial
  | .blob _ => isTrue trivial

/-- `SQLITE4_SO_ASC`, `SQLITE4_SO_DESC`. -/
inductive SortOrder
  | asc
  | desc
deriving DecidableEq, Repr

/-- The part of `KeyInfo` that the encoder reads; `aSortOrder` may be NULL. -/
structure KeyInfo where
  nField : ℕ
  aSortOrder : Option (List SortOrder)

/-- `so ? so[i] : SQLITE4_SO_ASC`. -/
def KeyInfo.sortOrder (info : KeyInfo) (i : ℕ) : SortOrder :=
  match info.aSortOrder with
  | some so => so.getD i .asc
  | none => .asc

/-! ### The encoder -/

/-- The loop over the bytes of a blob that is not the last field: the bytes are
cut into groups of seven bits, `s` is the number of bits by which the next byte
is shifted and `t` holds the bits left over. -/
def packBlob (s : ℕ) (t : UInt8) : List UInt8 → List UInt8
  | [] => if s > 1 then [0x80 ||| t] else []
  | x :: a =>
      ((0x80 : UInt8) ||| t ||| (x >>> UInt8.ofNat s)) ::
        (if s < 7 then packBlob (s + 1) (x <<< UInt8.ofNat (7 - s)) a
         else (0x80 ||| x) :: packBlob 1 0 a)

/-- The bytes of a field before the sort order is applied. -/
def encodeField (isLastValue : Bool) : Mem → List UInt8
  | .null => [0x05]
  | .num n => encodeNumericKey n
  | .str z => 0x24 :: (z.takeWhile (· ≠ 0) ++ [0x00])
  | .blob z =>
      if isLastValue then 0x26 :: z
      else 0x25 :: (packBlob 1 0 z ++ [0x00])

/-- `encodeOneKeyValue`. -/
def encodeOneKeyValue (a : Mem) (sortOrder : SortOrder) (isLastValue : Bool) : List UInt8 :=
  match sortOrder with
  | .asc => encodeField isLastValue a
  | .desc => (encodeField isLastValue a).map (· ^^^ 0xff)

/-- The loop of `sqlite4VdbeEncodeKey`, from column `i` on. -/
def encodeFields (info : KeyInfo) (i : ℕ) : List Mem → List UInt8
  | [] => []
  | a :: aIn =>
      encodeOneKeyValue a (info.sortOrder i) (i + 1 == info.nField) ++
        encodeFields info (i + 1) aIn

/-- `sqlite4VdbeEncodeKey`; `iTabno` may be negative, for no table prefix. -/
def sqlite4VdbeEncodeKey (aIn : List Mem) (iTabno : ℤ) (info : KeyInfo) : List UInt8 :=
  (if iTabno ≥ 0 then sqlite4PutVarint64 iTabno.toNat else []) ++ encodeFields info 0 aIn

/-! ### Comparison of values -/

/-- `memcmp` on the first `n` bytes. -/
def memcmp : List UInt8 → List UInt8 → ℕ → ℤ
  | u :: a, v :: b, n + 1 => if u = v then memcmp a b n else if u < v then -1 else 1
  | _, _, _ => 0

/-- `memcmp` on the common length, then the shorter string first. -/
def memcmpLength (a b : List UInt8) : ℤ :=
  let res := memcmp a b (min a.length b.length)
  if res = 0 then (a.length : ℤ) - b.length else res

/-- `sqlite4MemCompare` with the BINARY collating sequence or none. -/
def sqlite4MemCompare : Mem → Mem → ℤ
  | .null, .null => 0
  | .null, _ => -1
  | _, .null => 1
  | .num a, .num b => (sqlite4_num_compare a b : ℤ) - 2
  | .num _, _ => -1
  | _, .num _ => 1
  | .str a, .str b => memcmpLength a b
  | .str _, .blob _ => -1
  | .blob _, .str _ => 1
  | .blob a, .blob b => memcmpLength a b

/-- The order of two values in a column. -/
def compareColumn (so : SortOrder) (a b : Mem) : Ordering :=
  match so with
  | .asc => compare (sqlite4MemCompare a b) 0
  | .desc => (compare (sqlite4MemCompare a b) 0).swap

/-- Lexicographic order of rows, from column `i` on. -/
def compareRows (info : KeyInfo) (i : ℕ) : List Mem → List Mem → Ordering
  | a :: aIn, b :: bIn =>
      (compareColumn (info.sortOrder i) a b).then (compareRows info (i + 1) aIn bIn)
  | _, _ => .eq

/-- The order of two keys. -/
def compareKeys (a b : List UInt8) : Ordering := compare (memcmpLength a b) 0

theorem memcmpLength_cons (u v : UInt8) (a b : List UInt8) :
    memcmpLength (u :: a) (v :: b) =
      if u = v then memcmpLength a b else if u < v then -1 else 1 := by
  unfold memcmpLength
  simp only [List.length_cons, Nat.succ_min_succ, memcmp]
  split_ifs <;> simp_all

/-- `memcmp` order is the lexicographic order of byte strings. -/
theorem compareKeys_eq (a b : List UInt8) : compareKeys a b = a.compareLex compare b := by
  unfold compareKeys
  induction a generalizing b with
  | nil =>
      rcases b with - | ⟨v, b⟩
      · rfl
      · rw [List.compareLex_nil_cons]
        simp only [memcmpLength, List.length_nil, List.length_cons, memcmp, if_true]
        exact compare_lt_iff_lt.mpr (by omega)
  | cons u a ih =>
      rcases b with - | ⟨v, b⟩
      · rw [List.compareLex_cons_nil]
        simp only [memcmpLength, List.length_nil, List.length_cons, memcmp, if_true]
        exact compare_gt_iff_gt.mpr (by omega)
      rw [List.compareLex_cons_cons, memcmpLength_cons]
      split_ifs with huv hlt
      · rw [huv, Std.ReflOrd.compare_self, ih]
        rfl
      · rw [Std.compare_eq_lt.mpr hlt]
        rfl
      · have hgt : v.toNat < u.toNat := by
          have hle := UInt8.le_iff_toNat_le.mp (UInt8.not_lt.mp hlt)
          have hne : u.toNat ≠ v.toNat := fun h => huv (UInt8.toNat_inj.mp h)
          omega
        rw [compare_toNat, Nat.compare_eq_gt.mpr hgt]
        rfl

/-! ### Blobs in seven-bit groups -/

/-- What `packBlob` keeps in `t`: bits above the `8 - s` that the next byte
will fill. -/
def Aligned (s : ℕ) (t : UInt8) : Prop := 1 ≤ s ∧ s ≤ 7 ∧ 2 ^ (8 - s) ∣ (0x80 ||| t).toNat

/-- The group that byte `x` completes. -/
theorem group_toNat {s : ℕ} {t : UInt8} (h : Aligned s t) (x : UInt8) :
    (0x80 ||| t ||| (x >>> UInt8.ofNat s)).toNat =
      (0x80 ||| t).toNat + x.toNat / 2 ^ s := by
  obtain ⟨hs, hs7, c, hc⟩ := h
  have hlt : x.toNat / 2 ^ s < 2 ^ (8 - s) := by
    rw [Nat.div_lt_iff_lt_mul (by positivity), ← pow_add, Nat.sub_add_cancel (by omega)]
    exact x.toNat_lt
  have hshift : (x >>> UInt8.ofNat s).toNat = x.toNat / 2 ^ s := by
    rw [UInt8.toNat_shiftRight, toNat_ofNat_of_lt (by omega), Nat.mod_eq_of_lt (by omega),
      Nat.shiftRight_eq_div_pow]
  rw [UInt8.toNat_or, hshift, hc]
  exact (Nat.two_pow_add_eq_or_of_lt hlt c).symm

theorem toNat_or_128 (u : UInt8) : (0x80 ||| u).toNat = 128 + u.toNat % 128 := by
  have hu := u.toNat_lt
  have hlow : ∀ r < 128, 128 ||| r = 128 + r := fun r hr =>
    (Nat.two_pow_add_eq_or_of_lt (i := 7) hr 1).symm
  rw [UInt8.toNat_or]
  change 128 ||| u.toNat = _
  rcases lt_or_ge u.toNat 128 with h | h
  · rw [hlow _ h, Nat.mod_eq_of_lt h]
  · obtain ⟨r, hr⟩ : ∃ r, u.toNat = 128 + r := ⟨u.toNat - 128, by omega⟩
    rw [hr, ← hlow r (by omega), ← Nat.or_assoc, Nat.or_self, hlow r (by omega)]
    omega

/-- The bits left over after a group. -/
theorem left_toNat {s : ℕ} (hs : 1 ≤ s) (hs7 : s < 7) (x : UInt8) :
    (0x80 ||| (x <<< UInt8.ofNat (7 - s))).toNat = 128 + x.toNat % 2 ^ s * 2 ^ (7 - s) := by
  have h128 : 128 = 2 ^ s * 2 ^ (7 - s) := by
    rw [← pow_add, Nat.add_sub_cancel' (by omega)]
    rfl
  rw [toNat_or_128, UInt8.toNat_shiftLeft, toNat_ofNat_of_lt (by omega),
    Nat.mod_eq_of_lt (by omega : 7 - s < 8), Nat.shiftLeft_eq,
    Nat.mod_mod_of_dvd _ (by decide : 128 ∣ 2 ^ 8)]
  congr 1
  conv_lhs => rw [h128]
  rw [Nat.mul_mod_mul_right]

theorem Aligned.start : Aligned 1 0 := ⟨le_rfl, by omega, by decide⟩

theorem Aligned.next {s : ℕ} (hs : 1 ≤ s) (hs7 : s < 7) (x : UInt8) :
    Aligned (s + 1) (x <<< UInt8.ofNat (7 - s)) := by
  refine ⟨by omega, by omega, ?_⟩
  rw [left_toNat hs hs7, show 8 - (s + 1) = 7 - s by omega]
  refine Nat.dvd_add ?_ (Dvd.intro_left _ rfl)
  exact pow_dvd_pow 2 (by omega : 7 - s ≤ 7)

/-- The first byte after a shifted start holds the bits left over. -/
theorem packBlob_head {s : ℕ} {t : UInt8} (h : Aligned s t) (hs : 1 < s) (a : List UInt8) :
    ∃ u rest, packBlob s t a ++ [0] = u :: rest ∧
      (0x80 ||| t).toNat ≤ u.toNat ∧ u.toNat < (0x80 ||| t).toNat + 2 ^ (8 - s) := by
  rcases a with - | ⟨x, a⟩
  · refine ⟨0x80 ||| t, [0], by rw [packBlob, if_pos hs]; rfl, le_rfl, ?_⟩
    exact Nat.lt_add_of_pos_right (by positivity)
  · refine ⟨_, _, rfl, ?_, ?_⟩ <;> rw [group_toNat h]
    · exact Nat.le_add_right _ _
    · have hs7 := h.2.1
      have hlt : x.toNat / 2 ^ s < 2 ^ (8 - s) := by
        rw [Nat.div_lt_iff_lt_mul (by positivity), ← pow_add,
          Nat.sub_add_cancel (by omega : s ≤ 8)]
        exact x.toNat_lt
      omega

/-- A blob that ends is before one that goes on. -/
theorem packBlob_nil {s : ℕ} {t : UInt8} (h : Aligned s t) (y : UInt8) (b : List UInt8) :
    Diverges .lt (packBlob s t [] ++ [0]) (packBlob s t (y :: b) ++ [0]) := by
  have hgroup := group_toNat h y
  have hmark := toNat_or_128 t
  rw [packBlob, packBlob, List.cons_append]
  by_cases hs : s > 1
  · rw [if_pos hs]
    rcases Nat.eq_zero_or_pos (y.toNat / 2 ^ s) with hz | hpos
    · -- the group adds no bit: the terminator meets the next group
      rw [hz, add_zero] at hgroup
      rw [UInt8.toNat_inj.mp hgroup]
      refine Diverges.cons _ ?_
      by_cases hs7 : s < 7
      · obtain ⟨u, rest, hu, hle, -⟩ :=
          packBlob_head (Aligned.next h.1 hs7 y) (by omega) b
        rw [if_pos hs7, hu]
        refine .head _ _ (compare_lt_of_toNat_lt ?_) (by simp)
        rw [left_toNat h.1 hs7] at hle
        exact lt_of_lt_of_le (by decide) ((Nat.le_add_right 128 _).trans hle)
      · rw [if_neg hs7]
        refine .head _ _ (compare_lt_of_toNat_lt ?_) (by simp)
        rw [toNat_or_128]
        exact lt_of_lt_of_le (by decide) (Nat.le_add_right 128 _)
    · refine .head _ _ (compare_lt_of_toNat_lt ?_) (by simp)
      omega
  · rw [if_neg hs]
    refine .head _ _ (compare_lt_of_toNat_lt ?_) (by simp)
    rw [hgroup, hmark]
    exact lt_of_lt_of_le (by decide) (Nat.le_add_right 128 _ |>.trans (Nat.le_add_right _ _))

/-- Blobs whose next bytes differ. -/
theorem packBlob_lt {s : ℕ} {t x y : UInt8} (h : Aligned s t) (hxy : x.toNat < y.toNat)
    (a b : List UInt8) :
    Diverges .lt (packBlob s t (x :: a) ++ [0]) (packBlob s t (y :: b) ++ [0]) := by
  have hs := h.1
  have hgx := group_toNat h x
  have hgy := group_toNat h y
  rw [packBlob, packBlob, List.cons_append, List.cons_append]
  rcases (Nat.div_le_div_right (c := 2 ^ s) hxy.le).lt_or_eq with hlt | heq
  · refine .head _ _ (compare_lt_of_toNat_lt ?_) (by simp)
    omega
  · -- the groups agree, so the bits left over decide
    rw [heq, ← hgy] at hgx
    rw [UInt8.toNat_inj.mp hgx]
    refine Diverges.cons _ ?_
    have hmod : x.toNat % 2 ^ s < y.toNat % 2 ^ s := by
      have ex := Nat.div_add_mod' x.toNat (2 ^ s)
      have ey := Nat.div_add_mod' y.toNat (2 ^ s)
      rw [heq] at ex
      omega
    by_cases hs7 : s < 7
    · obtain ⟨u, r, hu, -, hu'⟩ := packBlob_head (Aligned.next h.1 hs7 x) (by omega) a
      obtain ⟨v, r', hv, hv', -⟩ := packBlob_head (Aligned.next h.1 hs7 y) (by omega) b
      rw [if_pos hs7, if_pos hs7, hu, hv]
      refine .head _ _ (compare_lt_of_toNat_lt ?_) (by simp)
      rw [left_toNat h.1 hs7, show 8 - (s + 1) = 7 - s by omega] at hu'
      rw [left_toNat h.1 hs7] at hv'
      have hmul : (x.toNat % 2 ^ s + 1) * 2 ^ (7 - s) ≤ y.toNat % 2 ^ s * 2 ^ (7 - s) :=
        Nat.mul_le_mul_right _ hmod
      rw [add_mul, one_mul] at hmul
      omega
    · obtain rfl : s = 7 := by have := h.2.1; omega
      rw [if_neg hs7, if_neg hs7]
      refine .head _ _ (compare_lt_of_toNat_lt ?_) (by simp)
      rw [toNat_or_128, toNat_or_128]
      norm_num at hmod
      omega

/-- **Packed blobs compare as the blobs do.** -/
theorem packBlob_diverges {s : ℕ} {t : UInt8} (h : Aligned s t) (a b : List UInt8) :
    Diverges (a.compareLex compare b) (packBlob s t a ++ [0]) (packBlob s t b ++ [0]) := by
  induction a generalizing s t b with
  | nil =>
      rcases b with - | ⟨y, b⟩
      · exact .same _
      · exact packBlob_nil h y b
  | cons x a ih =>
      rcases b with - | ⟨y, b⟩
      · exact (packBlob_nil h x a).swap
      rw [List.compareLex_cons_cons]
      rcases lt_trichotomy x.toNat y.toNat with hlt | heq | hgt
      · rw [compare_lt_of_toNat_lt hlt]
        exact packBlob_lt h hlt a b
      · obtain rfl := UInt8.toNat_inj.mp heq
        rw [Std.ReflOrd.compare_self, packBlob, packBlob, List.cons_append, List.cons_append]
        refine Diverges.cons _ ?_
        split_ifs with hs7
        · exact ih (Aligned.next h.1 hs7 x) b
        · exact (ih Aligned.start b).cons _
      · rw [compare_toNat, Nat.compare_eq_gt.mpr hgt]
        exact (packBlob_lt h hgt b a).swap

/-! ### What a key holds of a row -/

/-- All of a value that a key can tell: a text only up to its first NUL. -/
def Mem.cut : Mem → Mem
  | .str z => .str (z.takeWhile (· ≠ 0))
  | a => a

/-- Two blobs one of which is a proper prefix of the other. -/
def prefixBlobs : Mem → Mem → Bool
  | .blob a, .blob b => a != b && (a.isPrefixOf b || b.isPrefixOf a)
  | _, _ => false

/-- The rows agree in all columns before the last one of the key, and that is a
DESC column holding two blobs one of which is a proper prefix of the other. -/
def tornLastBlob (info : KeyInfo) : ℕ → List Mem → List Mem → Bool
  | i, a :: aIn, b :: bIn =>
      if i + 1 = info.nField then info.sortOrder i == .desc && prefixBlobs a b
      else compareColumn (info.sortOrder i) a b == .eq && tornLastBlob info (i + 1) aIn bIn
  | _, _, _ => false

/-! ### Order of single fields -/

/-- The types in the order of `sqlite4MemCompare`. -/
def Mem.rank : Mem → ℕ
  | .null => 0
  | .num _ => 1
  | .str _ => 2
  | .blob _ => 3

theorem sqlite4MemCompare_rank {a b : Mem} (h : a.rank < b.rank) :
    sqlite4MemCompare a b = -1 ∧ sqlite4MemCompare b a = 1 := by
  cases a <;> cases b <;> simp_all [Mem.rank, sqlite4MemCompare]

/-- The least and the greatest first byte of a field of each type. -/
def tagRange : Mem → ℕ × ℕ
  | .null => (0x05, 0x05)
  | .num _ => (0x08, 0x22)
  | .str _ => (0x24, 0x24)
  | .blob _ => (0x25, 0x26)

theorem tagRange_lt {a b : Mem} (h : a.rank < b.rank) : (tagRange a).2 < (tagRange b).1 := by
  cases a <;> cases b <;> simp_all [Mem.rank, tagRange]

/-- The first byte of a field tells its type. -/
theorem encodeField_head (isLastValue : Bool) {a : Mem} (h : a.Finite) :
    ∃ u rest, encodeField isLastValue a = u :: rest ∧
      (tagRange a).1 ≤ u.toNat ∧ u.toNat ≤ (tagRange a).2 := by
  cases a with
  | null => exact ⟨0x05, [], rfl, le_rfl, le_rfl⟩
  | num n =>
      obtain ⟨u, rest, hu, hlo, hhi, -⟩ := encodeNumericKey_head h
      exact ⟨u, rest, hu, hlo, hhi⟩
  | str z => exact ⟨0x24, _, rfl, le_rfl, le_rfl⟩
  | blob z =>
      cases isLastValue
      · exact ⟨0x25, _, rfl, le_rfl, (by decide : 0x25 ≤ 0x26)⟩
      · exact ⟨0x26, _, rfl, (by decide : 0x25 ≤ 0x26), le_rfl⟩

theorem encodeField_rank (isLastValue : Bool) {a b : Mem} (ha : a.Finite) (hb : b.Finite)
    (h : a.rank < b.rank) :
    Diverges .lt (encodeField isLastValue a) (encodeField isLastValue b) := by
  obtain ⟨u, s, hu, -, hu'⟩ := encodeField_head isLastValue ha
  obtain ⟨v, t, hv, hv', -⟩ := encodeField_head isLastValue hb
  rw [hu, hv]
  refine .head s t (compare_lt_of_toNat_lt ?_) (by simp)
  exact lt_of_le_of_lt hu' (lt_of_lt_of_le (tagRange_lt h) hv')

theorem compare_sqlite4_num {a b : Num} (ha : a.Finite) (hb : b.Finite) :
    compare ((sqlite4_num_compare a b : ℤ) - 2) 0 = compare a.toRat b.toRat := by
  rw [sqlite4_num_compare_finite ha hb]
  cases compare a.toRat b.toRat <;> rfl

theorem not_nul_of_mem_takeWhile {z : List UInt8} {u : UInt8}
    (h : u ∈ z.takeWhile (· ≠ 0)) : compare (0 : UInt8) u = .lt := by
  have hne : u ≠ 0 := by simpa using List.mem_takeWhile_imp h
  refine compare_lt_of_toNat_lt (Nat.pos_of_ne_zero fun h0 => hne ?_)
  exact UInt8.toNat_inj.mp h0

/-- **A field that ends by itself keeps the order of values**: every field but
the last blob, for texts without a NUL byte. -/
theorem encodeField_diverges (isLastValue : Bool) {a b : Mem} (ha : a.Finite) (hb : b.Finite)
    (hblob : isLastValue = false ∨ ¬ ∃ z w, a = .blob z ∧ b = .blob w) :
    Diverges (compare (sqlite4MemCompare a.cut b.cut) 0)
      (encodeField isLastValue a) (encodeField isLastValue b) := by
  have hcut : ∀ c : Mem, c.cut.rank = c.rank := fun c => by cases c <;> rfl
  rcases lt_trichotomy a.rank b.rank with hlt | heq | hgt
  · rw [(sqlite4MemCompare_rank (by rwa [hcut, hcut])).1]
    exact encodeField_rank isLastValue ha hb hlt
  · cases a <;> cases b <;> simp only [Mem.rank] at heq <;> try omega
    case null.null => exact .same _
    case num.num a b =>
      simp only [Mem.cut, sqlite4MemCompare]
      rw [compare_sqlite4_num ha hb]
      exact encodeNumericKey_diverges ha hb
    case str.str a b =>
      simp only [Mem.cut, sqlite4MemCompare]
      change Diverges (compareKeys _ _) _ _
      rw [compareKeys_eq]
      exact (Diverges.terminated (fun u hu => not_nul_of_mem_takeWhile hu)
        (fun u hu => not_nul_of_mem_takeWhile hu)).cons _
    case blob.blob a b =>
      obtain rfl : isLastValue = false := hblob.resolve_right fun h => h ⟨a, b, rfl, rfl⟩
      simp only [Mem.cut, sqlite4MemCompare]
      change Diverges (compareKeys _ _) _ _
      rw [compareKeys_eq]
      exact (packBlob_diverges Aligned.start a b).cons _
  · rw [(sqlite4MemCompare_rank (by rwa [hcut, hcut])).2]
    exact (encodeField_rank isLastValue hb ha hgt).swap

/-- `aOut[i] ^= 0xff` complements a byte. -/
theorem compare_xor_ff (u v : UInt8) :
    compare (u ^^^ 0xff) (v ^^^ 0xff) = (compare u v).swap := by
  rw [xor_ff, xor_ff, compare_complement]

theorem encodeOneKeyValue_diverges (so : SortOrder) (isLastValue : Bool) {a b : Mem}
    (ha : a.Finite) (hb : b.Finite)
    (hblob : isLastValue = false ∨ ¬ ∃ z w, a = .blob z ∧ b = .blob w) :
    Diverges (compareColumn so a.cut b.cut)
      (encodeOneKeyValue a so isLastValue) (encodeOneKeyValue b so isLastValue) := by
  have h := encodeField_diverges isLastValue ha hb hblob
  cases so with
  | asc => exact h
  | desc => exact h.map_swap compare_xor_ff

/-- The last blob of a key is not terminated: where one is a proper prefix of
the other, the shorter code comes first under either sort order. -/
theorem lastBlob_order (so : SortOrder) (a b : List UInt8) :
    (encodeOneKeyValue (.blob a) so true).compareLex compare
        (encodeOneKeyValue (.blob b) so true) =
      if so == .desc && prefixBlobs (.blob a) (.blob b) then
        (compareColumn so (.blob a) (.blob b)).swap
      else compareColumn so (.blob a) (.blob b) := by
  have hvalues : compare (sqlite4MemCompare (.blob a) (.blob b)) 0 = a.compareLex compare b :=
    compareKeys_eq a b
  cases so with
  | asc =>
      simp only [compareColumn, hvalues, encodeOneKeyValue, encodeField, if_true]
      rw [List.compareLex_cons_cons, Std.ReflOrd.compare_self]
      rfl
  | desc =>
      simp only [compareColumn, hvalues, Ordering.swap_swap, encodeOneKeyValue, encodeField,
        if_true, List.map_cons, BEq.rfl, Bool.true_and]
      rw [List.compareLex_cons_cons, Std.ReflOrd.compare_self]
      change (a.map _).compareLex compare (b.map _) = _
      rcases diverges_or_prefix a b with h | ⟨u, s, rfl⟩ | ⟨u, s, rfl⟩
      · -- they differ at some byte: complementing turns the order around
        rw [(h.map_swap compare_xor_ff).compareLex_eq]
        have hp : prefixBlobs (.blob a) (.blob b) = false := by
          by_contra hp
          simp only [prefixBlobs, Bool.not_eq_false, Bool.and_eq_true, bne_iff_ne,
            Bool.or_eq_true, List.isPrefixOf_iff_prefix] at hp
          rcases hp.2 with hpre | hpre
          · exact hp.1 (h.eq_of_prefix hpre)
          · exact hp.1 (h.swap.eq_of_prefix hpre).symm
        rw [hp]
        rfl
      · -- a proper prefix comes first, complemented or not
        have hp : prefixBlobs (.blob a) (.blob (a ++ u :: s)) = true := by
          simp [prefixBlobs]
        rw [if_pos hp, compareLex_prefix, List.map_append, List.map_cons]
        exact compareLex_prefix _ _ _
      · have hp : prefixBlobs (.blob (b ++ u :: s)) (.blob b) = true := by
          simp [prefixBlobs]
        rw [if_pos hp, compareLex_extension, List.map_append, List.map_cons]
        exact compareLex_extension _ _ _

/-! ### Order of keys -/

theorem encodeFields_order (info : KeyInfo) {i : ℕ} {aIn bIn : List Mem}
    (hlen : aIn.length = bIn.length) (hn : i + aIn.length ≤ info.nField)
    (ha : ∀ a ∈ aIn, a.Finite) (hb : ∀ b ∈ bIn, b.Finite) :
    (encodeFields info i aIn).compareLex compare (encodeFields info i bIn) =
      if tornLastBlob info i (aIn.map Mem.cut) (bIn.map Mem.cut) then
        (compareRows info i (aIn.map Mem.cut) (bIn.map Mem.cut)).swap
      else compareRows info i (aIn.map Mem.cut) (bIn.map Mem.cut) := by
  induction aIn generalizing i bIn with
  | nil =>
      obtain rfl := List.length_eq_zero_iff.mp hlen.symm
      rfl
  | cons a aIn ih =>
      rcases bIn with - | ⟨b, bIn⟩
      · simp at hlen
      simp only [List.length_cons, Nat.add_right_cancel_iff] at hlen hn
      have ha0 := ha a (by simp)
      have hb0 := hb b (by simp)
      have ha' : ∀ c ∈ aIn, c.Finite := fun c hc => ha c (by simp [hc])
      have hb' : ∀ c ∈ bIn, c.Finite := fun c hc => hb c (by simp [hc])
      simp only [encodeFields, List.map_cons, tornLastBlob, compareRows]
      by_cases hlast : i + 1 = info.nField
      · -- the last column of the key: nothing follows
        obtain rfl : aIn = [] := List.length_eq_zero_iff.mp (by omega)
        obtain rfl : bIn = [] := List.length_eq_zero_iff.mp hlen.symm
        simp only [hlast, BEq.rfl, if_true, encodeFields, List.append_nil, List.map_nil,
          compareRows, Ordering.then_eq]
        by_cases hblobs : ∃ z w, a = .blob z ∧ b = .blob w
        · obtain ⟨z, w, rfl, rfl⟩ := hblobs
          exact lastBlob_order _ z w
        · have hp : prefixBlobs a.cut b.cut = false := by
            cases a <;> cases b <;> simp_all [prefixBlobs, Mem.cut]
          rw [hp, Bool.and_false,
            (encodeOneKeyValue_diverges _ true ha0 hb0 (.inr hblobs)).compareLex_eq]
          rfl
      · -- a column that is not the last ends in a terminator
        have hbeq : (i + 1 == info.nField) = false := by simpa using hlast
        have hfield := encodeOneKeyValue_diverges (info.sortOrder i) false ha0 hb0 (.inl rfl)
        rw [hbeq, hfield.compareLex_append, ih hlen (by omega) ha' hb', if_neg hlast]
        cases compareColumn (info.sortOrder i) a.cut b.cut <;> rfl

/-- **What the order of two keys says about the rows**: the order of the rows
with every text cut at its first NUL, turned round when a DESC column with
a blob and a proper prefix of it ends the key and decides. -/
theorem sqlite4VdbeEncodeKey_order (info : KeyInfo) (iTabno : ℤ) {aIn bIn : List Mem}
    (hlen : aIn.length = bIn.length) (hn : aIn.length ≤ info.nField)
    (ha : ∀ a ∈ aIn, a.Finite) (hb : ∀ b ∈ bIn, b.Finite) :
    compareKeys (sqlite4VdbeEncodeKey aIn iTabno info) (sqlite4VdbeEncodeKey bIn iTabno info) =
      if tornLastBlob info 0 (aIn.map Mem.cut) (bIn.map Mem.cut) then
        (compareRows info 0 (aIn.map Mem.cut) (bIn.map Mem.cut)).swap
      else compareRows info 0 (aIn.map Mem.cut) (bIn.map Mem.cut) := by
  rw [compareKeys_eq, sqlite4VdbeEncodeKey, sqlite4VdbeEncodeKey, compareLex_append_left]
  exact encodeFields_order info hlen (by omega) ha hb

theorem compareRows_eq_eq (info : KeyInfo) {i : ℕ} {aIn bIn : List Mem}
    (h : compareRows info i aIn bIn = .eq) :
    ∀ p ∈ aIn.zip bIn, sqlite4MemCompare p.1 p.2 = 0 := by
  induction aIn generalizing i bIn with
  | nil => simp
  | cons a aIn ih =>
      rcases bIn with - | ⟨b, bIn⟩
      · simp
      rw [compareRows, Ordering.then_eq_eq] at h
      intro p hp
      rcases List.mem_cons.mp (List.zip_cons_cons ▸ hp) with rfl | hp
      · have hcol := h.1
        unfold compareColumn at hcol
        split at hcol
        · exact compare_eq_iff_eq.mp hcol
        · rw [Ordering.swap_eq_eq] at hcol
          exact compare_eq_iff_eq.mp hcol
      · exact ih h.2 p hp

/-- The rows compare as the key can tell: cutting the texts does not change how
they compare, or, where a torn last blob turns the answer round, cutting the
texts turns it round as well. -/
def KeyTellsOrder (info : KeyInfo) (aIn bIn : List Mem) : Prop :=
  compareRows info 0 aIn bIn =
    if tornLastBlob info 0 (aIn.map Mem.cut) (bIn.map Mem.cut) then
      (compareRows info 0 (aIn.map Mem.cut) (bIn.map Mem.cut)).swap
    else compareRows info 0 (aIn.map Mem.cut) (bIn.map Mem.cut)

instance (info : KeyInfo) (aIn bIn : List Mem) : Decidable (KeyTellsOrder info aIn bIn) :=
  inferInstanceAs (Decidable (_ = _))

/-- **When keys keep the order of rows**: exactly when the rows compare as the
key can tell. -/
theorem sqlite4VdbeEncodeKey_correct_iff (info : KeyInfo) (iTabno : ℤ) {aIn bIn : List Mem}
    (hlen : aIn.length = bIn.length) (hn : aIn.length ≤ info.nField)
    (ha : ∀ a ∈ aIn, a.Finite) (hb : ∀ b ∈ bIn, b.Finite) :
    (compareKeys (sqlite4VdbeEncodeKey aIn iTabno info)
        (sqlite4VdbeEncodeKey bIn iTabno info) = compareRows info 0 aIn bIn ∧
      (sqlite4VdbeEncodeKey aIn iTabno info = sqlite4VdbeEncodeKey bIn iTabno info →
        ∀ p ∈ aIn.zip bIn, sqlite4MemCompare p.1 p.2 = 0)) ↔
    KeyTellsOrder info aIn bIn := by
  have horder := sqlite4VdbeEncodeKey_order info iTabno hlen hn ha hb
  constructor
  · rintro ⟨hcmp, -⟩
    exact hcmp.symm.trans horder
  · intro h
    have hcmp : compareKeys (sqlite4VdbeEncodeKey aIn iTabno info)
        (sqlite4VdbeEncodeKey bIn iTabno info) = compareRows info 0 aIn bIn :=
      horder.trans h.symm
    refine ⟨hcmp, fun heq => compareRows_eq_eq info (i := 0) ?_⟩
    rw [← hcmp, heq, compareKeys_eq, compareLex_eq_eq_iff]

/-- Rows without a text holding NUL and with a key that does not end in a torn
blob, for instance all rows in ASC columns whose texts are NUL-free. -/
theorem keyTellsOrder_of_clean {info : KeyInfo} {aIn bIn : List Mem}
    (ha : ∀ a ∈ aIn, a.cut = a) (hb : ∀ b ∈ bIn, b.cut = b)
    (htorn : tornLastBlob info 0 aIn bIn = false) : KeyTellsOrder info aIn bIn := by
  have hmap : ∀ l : List Mem, (∀ a ∈ l, a.cut = a) → l.map Mem.cut = l := fun l hl =>
    (List.map_congr_left hl).trans (List.map_id l)
  rw [KeyTellsOrder, hmap aIn ha, hmap bIn hb, htorn]
  rfl

/-- A single DESC column with the blobs `61` and `6162`: the key of the longer
blob should come first, and comes last. -/
theorem descBlob_key_misordered :
    ¬ ∀ (info : KeyInfo) (iTabno : ℤ) (aIn bIn : List Mem),
      aIn.length = bIn.length → aIn.length ≤ info.nField →
      (∀ a ∈ aIn, a.Finite) → (∀ b ∈ bIn, b.Finite) →
      compareKeys (sqlite4VdbeEncodeKey aIn iTabno info)
          (sqlite4VdbeEncodeKey bIn iTabno info) = compareRows info 0 aIn bIn ∧
        (sqlite4VdbeEncodeKey aIn iTabno info = sqlite4VdbeEncodeKey bIn iTabno info →
          ∀ p ∈ aIn.zip bIn, sqlite4MemCompare p.1 p.2 = 0) := by
  intro h
  have hbad := (h ⟨1, some [.desc]⟩ 5 [.blob [0x61]] [.blob [0x61, 0x62]]
    rfl le_rfl (by decide) (by decide)).1
  revert hbad
  decide

/-- A number in a DESC column and a text in an ASC column: `1.5` and `2`. -/
theorem sqlite4VdbeEncodeKey_correct_iff_textNumber :
    compareKeys
        (sqlite4VdbeEncodeKey [.num ⟨true, false, -1, 15⟩, .str [0x61]] 5 ⟨2, some [.desc, .asc]⟩)
        (sqlite4VdbeEncodeKey [.num ⟨true, false, 0, 2⟩, .str []] 5 ⟨2, some [.desc, .asc]⟩) =
      compareRows ⟨2, some [.desc, .asc]⟩ 0 [.num ⟨true, false, -1, 15⟩, .str [0x61]]
        [.num ⟨true, false, 0, 2⟩, .str []] :=
  ((@sqlite4VdbeEncodeKey_correct_iff ⟨2, some [.desc, .asc]⟩ 5
    [.num ⟨true, false, -1, 15⟩, .str [0x61]] [.num ⟨true, false, 0, 2⟩, .str []]
    rfl le_rfl (by decide) (by decide)).mpr (by decide)).1

end MoVeBench
