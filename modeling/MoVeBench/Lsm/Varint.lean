/-
MoVeBench/Lsm/Varint.lean

The varints of the storage engine (`lsm_varint.c`).

The file begins with a copy of `varint.c`, which writes and reads 64-bit values.  Around it are
routines for signed values, a faster reader for 32-bit values, and the length of a varint from its
first byte.

* All readers find what was written, whatever follows (`lsmSqlite4GetVarint64_put`), and the
  32-bit routines do what the 64-bit ones do on the values that they have in common
  (`lsmVarintGet32_eq`).
* The copy has another bound for the varints of seven bytes, so it writes one byte more than
  `varint.c` for the values from `2^47` to `2^48` (`varintsAgree_iff`).
-/
import MoVeBench.Lsm.LogJump

namespace MoVeBench

namespace Lsm.Varint

open Bytes

/-! ### The routines -/

/-- `lsmSqlite4PutVarint64`, of which the log and the segments have the same model. -/
def lsmSqlite4PutVarint64 (x : UInt64) : List UInt8 := Seg.lsmVarintPut64 x.toNat

/-- `lsmSqlite4GetVarint64`: the value and the number of bytes read.  The length of the memory is
not known to it, and bytes behind `z` are 0 here. -/
def lsmSqlite4GetVarint64 (z : List UInt8) : UInt64 × ℕ :=
  let b (i : ℕ) : ℕ := (z.getD i 0).toNat
  if b 0 ≤ 240 then (.ofNat (b 0), 1)
  else if b 0 ≤ 248 then (.ofNat ((b 0 - 241) * 256 + b 1 + 240), 2)
  else if b 0 = 249 then (.ofNat (2288 + 256 * b 1 + b 2), 3)
  else if b 0 = 250 then (.ofNat (b 1 <<< 16 + b 2 <<< 8 + b 3), 4)
  else
    let x := b 1 <<< 24 + b 2 <<< 16 + b 3 <<< 8 + b 4
    if b 0 = 251 then (.ofNat x, 5)
    else if b 0 = 252 then (.ofNat (x <<< 8 + b 5), 6)
    else if b 0 = 253 then (.ofNat (x <<< 16 + b 5 <<< 8 + b 6), 7)
    else if b 0 = 254 then (.ofNat (x <<< 24 + b 5 <<< 16 + b 6 <<< 8 + b 7), 8)
    else (.ofNat (x <<< 32 + (b 5 <<< 24 + b 6 <<< 16 + b 7 <<< 8 + b 8)), 9)

/-- `lsmVarintPut64`. -/
def lsmVarintPut64 (iVal : Int64) : List UInt8 := lsmSqlite4PutVarint64 iVal.toUInt64

/-- `lsmVarintGet64`. -/
def lsmVarintGet64 (aData : List UInt8) : Int64 × ℕ :=
  ((lsmSqlite4GetVarint64 aData).1.toInt64, (lsmSqlite4GetVarint64 aData).2)

/-- `lsmVarintPut32`: the `int` is cast to an unsigned value of 64 bits. -/
def lsmVarintPut32 (iVal : Int32) : List UInt8 := lsmSqlite4PutVarint64 iVal.toInt64.toUInt64

/-- `lsmVarintGet32`, which has the classes of up to four bytes itself. -/
def lsmVarintGet32 (z : List UInt8) : Int32 × ℕ :=
  let b (i : ℕ) : ℕ := (z.getD i 0).toNat
  if b 0 ≤ 240 then (.ofNat (b 0), 1)
  else if b 0 ≤ 248 then (.ofNat ((b 0 - 241) * 256 + b 1 + 240), 2)
  else if b 0 = 249 then (.ofNat (2288 + 256 * b 1 + b 2), 3)
  else if b 0 = 250 then (.ofNat (b 1 <<< 16 + b 2 <<< 8 + b 3), 4)
  else ((lsmSqlite4GetVarint64 z).1.toInt64.toInt32, (lsmSqlite4GetVarint64 z).2)

/-- `lsmVarintSize`. -/
def lsmVarintSize (c : UInt8) : ℕ := Log.lsmVarintSize c

/-! ### Reading -/

/-- A class of the format, in both readers. -/
theorem ite_read {c : Prop} [Decidable c] {v n v' n' : ℕ} {e : Option (ℕ × ℕ)} {g : UInt64 × ℕ}
    (h : (if c then some (v, n) else e) = some (v', n'))
    (hlater : ¬ c → e = some (v', n') → g = (.ofNat v', n')) :
    (if c then (.ofNat v, n) else g) = (UInt64.ofNat v', n') := by
  by_cases hc : c
  · rw [if_pos hc] at h ⊢
    obtain ⟨rfl, rfl⟩ := Prod.mk.inj (Option.some.inj h)
    rfl
  · rw [if_neg hc] at h ⊢
    exact hlater hc h

/-- Where `varint.c` finds that the bytes end, the copy reads on. -/
theorem of_ite_none {c : Prop} [Decidable c] {e : Option (ℕ × ℕ)} {r : ℕ × ℕ}
    (h : (if c then none else e) = some r) : e = some r := by
  split_ifs at h
  exact h

/-- The copy reads what `varint.c` reads. -/
theorem lsmSqlite4GetVarint64_eq {z : List UInt8} {v n : ℕ}
    (h : sqlite4GetVarint64 z = some (v, n)) : lsmSqlite4GetVarint64 z = (.ofNat v, n) := by
  unfold sqlite4GetVarint64 at h
  refine ite_read (of_ite_none h) fun _ h => ?_
  by_cases h1 : (z.getD 0 0).toNat ≤ 248
  · rw [if_pos h1] at h ⊢
    obtain ⟨rfl, rfl⟩ := Prod.mk.inj (Option.some.inj (of_ite_none h))
    rfl
  rw [if_neg h1] at h ⊢
  have h := of_ite_none h
  iterate 6 refine ite_read h fun _ h => ?_
  obtain ⟨rfl, rfl⟩ := Prod.mk.inj (Option.some.inj h)
  rfl

/-- **What was written is read**, whatever follows. -/
theorem lsmSqlite4GetVarint64_put (x : UInt64) (rest : List UInt8) :
    lsmSqlite4GetVarint64 (lsmSqlite4PutVarint64 x ++ rest) =
      (x, (lsmSqlite4PutVarint64 x).length) := by
  have hget := lsmSqlite4GetVarint64_eq (Seg.lsmVarintGet64_put x.toNat_lt rest)
  rw [UInt64.ofNat_toNat] at hget
  exact hget

/-- A class that the reader of 32-bit values has itself. -/
theorem ite_cut {c : Prop} [Decidable c] {v n : ℕ} {g : UInt64 × ℕ} {g' : Int32 × ℕ}
    (hlater : ¬ c → g' = (g.1.toInt64.toInt32, g.2)) :
    (if c then (Int32.ofNat v, n) else g') =
      ((if c then (UInt64.ofNat v, n) else g).1.toInt64.toInt32,
        (if c then (UInt64.ofNat v, n) else g).2) := by
  by_cases hc : c
  · rw [if_pos hc, if_pos hc, UInt64.toInt64_ofNat', Int64.toInt32_ofNat']
  · rw [if_neg hc, if_neg hc, hlater hc]

/-- **The reader of 32-bit values** gives the same value, cut to an `int`. -/
theorem lsmVarintGet32_eq (z : List UInt8) :
    lsmVarintGet32 z = ((lsmVarintGet64 z).1.toInt32, (lsmVarintGet64 z).2) := by
  unfold lsmVarintGet32 lsmVarintGet64 lsmSqlite4GetVarint64
  refine ite_cut fun h1 => ite_cut fun h2 => ite_cut fun h3 => ite_cut fun h4 => ?_
  -- the reader of 64-bit values comes to the same classes
  dsimp only
  rw [if_neg h1, if_neg h2, if_neg h3, if_neg h4]

/-- An `int` that is not negative is the same value of 64 bits. -/
theorem toInt64_toInt32 {v : UInt64} (h : v.toNat < 2 ^ 31) :
    v.toInt64.toInt32.toInt64 = v.toInt64 := by
  have hv : v.toBitVec.toInt = v.toNat := by
    rw [BitVec.toInt_eq_toNat_of_lt (by rw [UInt64.toNat_toBitVec]; omega), UInt64.toNat_toBitVec]
  apply Int64.toBitVec_inj.mp
  apply BitVec.eq_of_toInt_eq
  rw [Int32.toBitVec_toInt64, Int64.toBitVec_toInt32, UInt64.toBitVec_toInt64,
    BitVec.toInt_signExtend_of_le (by norm_num),
    BitVec.toInt_signExtend_eq_toInt_bmod_of_le _ (by norm_num), hv]
  exact Int.bmod_eq_of_le (by omega) (by omega)

/-! ### The routines agree -/

/-- What the two modules promise of a value: it is read back from what was written, the first byte
tells the length, the 32-bit routines do the same with it if it is below `2^31`, and `varint.c`
writes the same bytes. -/
structure VarintsAgree (v : UInt64) : Prop where
  get64 : ∀ rest, lsmVarintGet64 (lsmVarintPut64 v.toInt64 ++ rest) =
    (v.toInt64, (lsmVarintPut64 v.toInt64).length)
  size : lsmVarintSize ((lsmVarintPut64 v.toInt64).headD 0) = (lsmVarintPut64 v.toInt64).length
  put32 : v.toNat < 2 ^ 31 → lsmVarintPut32 v.toInt64.toInt32 = lsmVarintPut64 v.toInt64
  get32 : v.toNat < 2 ^ 31 → ∀ z n, lsmVarintGet64 z = (v.toInt64, n) →
    ((lsmVarintGet32 z).1.toInt64, (lsmVarintGet32 z).2) = (v.toInt64, n)
  same : lsmVarintPut64 v.toInt64 = sqlite4PutVarint64 v.toNat

/-- Where the copy writes other bytes than `varint.c`. -/
theorem lsmSqlite4PutVarint64_eq_iff (x : UInt64) :
    lsmSqlite4PutVarint64 x = sqlite4PutVarint64 x.toNat ↔
      ¬ (2 ^ 47 ≤ x.toNat ∧ x.toNat < 2 ^ 48) := by
  have hlt := x.toNat_lt
  unfold lsmSqlite4PutVarint64
  rw [Seg.lsmVarintPut64_eq, Nat.shiftRight_eq_div_pow]
  by_cases hw : 32767 < x.toNat / 2 ^ 32 ∧ x.toNat / 2 ^ 32 ≤ 65535
  · rw [if_pos hw]
    refine iff_of_false (fun heq => ?_) (fun hno => hno (by omega))
    -- eight bytes, where `varint.c` has seven
    have hlen := congrArg List.length heq
    rw [List.length_cons, beBytes_length, sqlite4PutVarint64_length hlt] at hlen
    rcases varintClass_cases x.toNat with ⟨hx, e⟩ | ⟨lx, hx, e⟩ | ⟨lx, hx, e⟩ | ⟨lx, hx, e⟩ |
      ⟨lx, hx, e⟩ | ⟨lx, hx, e⟩ | ⟨lx, hx, e⟩ | ⟨lx, hx, e⟩ | ⟨lx, e⟩ <;>
    rw [e] at hlen <;> simp only at hlen <;> omega
  · rw [if_neg hw]
    exact iff_of_true rfl (by omega)

/-- **The varints agree** but for the values from `2^47` to `2^48`. -/
theorem varintsAgree_iff (v : UInt64) :
    VarintsAgree v ↔ ¬ (2 ^ 47 ≤ v.toNat ∧ v.toNat < 2 ^ 48) := by
  have hput : lsmVarintPut64 v.toInt64 = lsmSqlite4PutVarint64 v := rfl
  rw [← lsmSqlite4PutVarint64_eq_iff, ← hput]
  refine ⟨VarintsAgree.same, fun hsame => ⟨fun rest => ?_, ?_, fun hlt => ?_, fun hlt z n hz => ?_,
    hsame⟩⟩
  · unfold lsmVarintGet64
    rw [hput, lsmSqlite4GetVarint64_put]
  · rw [hput, List.headD_eq_getD]
    exact (Log.lsmVarintSize_put v.toNat_lt).2
  · unfold lsmVarintPut32 lsmVarintPut64
    rw [toInt64_toInt32 hlt]
  · rw [lsmVarintGet32_eq, hz]
    exact congrArg (·, n) (toInt64_toInt32 hlt)

/-- `2^47` takes seven bytes with `varint.c`, and eight with the copy. -/
theorem not_varintsAgree : ¬ ∀ v, VarintsAgree v := fun hall =>
  absurd (hall 140737488355328).same (by decide)

end Lsm.Varint

end MoVeBench
