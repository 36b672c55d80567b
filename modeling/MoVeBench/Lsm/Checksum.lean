/-
MoVeBench/Lsm/Checksum.lean

What the checksum of a checkpoint tells (`ckptChecksum` of `lsm_ckpt.c`).

The loop mixes two integers at a time into two sums.  Where the number of integers is odd,
the last one is added to the sums before the loop, its lower half to one and its upper half
to the other.  Every step can be undone, so that a single integer that is changed always
changes the checksum (`ckptChecksum_payload`).
-/
import MoVeBench.Lsm.Checkpoint
import MoVeBench.Lib.Mixing

namespace MoVeBench

namespace Lsm

open SlotList

/-! ### One step -/

/-- One turn of the loop, on the integers `x` and `y`. -/
def ckptMix (c : UInt32 × UInt32) (x y : UInt32) : UInt32 × UInt32 :=
  (c.1 + (c.2 + x), c.2 + (c.1 + (c.2 + x) + y))

/-- The sums before the loop, `x` being the last integer. -/
def ckptStart (nCkpt : ℕ) (x : UInt32) : UInt32 × UInt32 :=
  if nCkpt % 2 = 1 then (1 + (x &&& 0x0000FFFF), 2 + (x &&& 0xFFFF0000)) else (1, 2)

theorem ckptChecksum_eq (aCkpt : List UInt32) (nCkpt : ℕ) : ckptChecksum aCkpt nCkpt =
    (List.range ((nCkpt - 2) / 2)).foldl
      (fun c i => ckptMix c (aCkpt.getD (2 * i) 0) (aCkpt.getD (2 * i + 1) 0))
      (ckptStart nCkpt (aCkpt.getD (nCkpt - 3) 0)) := rfl

theorem ckptMix_injective (x y : UInt32) : Function.Injective fun c => ckptMix c x y := by
  rintro ⟨c1, c2⟩ ⟨d1, d2⟩ h
  obtain ⟨h1, h2⟩ := Prod.mk.inj h
  dsimp only at h1 h2
  rw [h1] at h2
  obtain rfl := (UInt32.add_left_inj _).mp h2
  rw [(UInt32.add_left_inj _).mp h1]

theorem ckptMix_inputs {c : UInt32 × UInt32} {x y x' y' : UInt32}
    (h : ckptMix c x y = ckptMix c x' y') : x = x' ∧ y = y' := by
  obtain ⟨h1, h2⟩ := Prod.mk.inj h
  have hx := (UInt32.add_right_inj _).mp ((UInt32.add_right_inj _).mp h1)
  subst hx
  exact ⟨rfl, (UInt32.add_right_inj _).mp ((UInt32.add_right_inj _).mp h2)⟩

/-- The halves of an integer tell it. -/
theorem halves_eq (z : UInt32) : (z &&& 0x0000FFFF) ||| (z &&& 0xFFFF0000) = z := by
  apply UInt32.toBitVec_inj.mp
  rw [UInt32.toBitVec_or, UInt32.toBitVec_and, UInt32.toBitVec_and]
  ext i hi
  have hmask : ∀ i (hi : i < 32), ((0x0000FFFF : UInt32).toBitVec[i] ||
      (0xFFFF0000 : UInt32).toBitVec[i]) = true := by decide
  rw [BitVec.getElem_or, BitVec.getElem_and, BitVec.getElem_and, ← Bool.and_or_distrib_left,
    hmask i hi, Bool.and_true]

theorem ckptStart_injective {nCkpt : ℕ} (hodd : nCkpt % 2 = 1) :
    Function.Injective (ckptStart nCkpt) := by
  intro x x' h
  unfold ckptStart at h
  rw [if_pos hodd, if_pos hodd] at h
  obtain ⟨h1, h2⟩ := Prod.mk.inj h
  rw [← halves_eq x, ← halves_eq x', (UInt32.add_right_inj _).mp h1,
    (UInt32.add_right_inj _).mp h2]

/-! ### The whole checksum -/

section Whole

variable {aCkpt : List UInt32} {nCkpt i : ℕ} {v : UInt32}

theorem getD_set (hi : i < aCkpt.length) (v : UInt32) (j : ℕ) :
    (aCkpt.set i v).getD j 0 = if j = i then v else aCkpt.getD j 0 := by
  split_ifs with h
  · rw [h, getD_set_self hi]
  · exact getD_set_of_ne (Ne.symm h) _ _

/-- **An integer of the payload is changed**: so is the checksum. -/
theorem ckptChecksum_set (hn : 3 ≤ nCkpt) (hlen : nCkpt ≤ aCkpt.length) (hi : i < nCkpt - 2)
    (hv : v ≠ aCkpt.getD i 0) : ckptChecksum (aCkpt.set i v) nCkpt ≠ ckptChecksum aCkpt nCkpt := by
  have hget := getD_set (show i < aCkpt.length by omega) v
  rw [ckptChecksum_eq, ckptChecksum_eq]
  by_cases hpair : i < 2 * ((nCkpt - 2) / 2)
  · -- the integer is read by turn `i / 2` of the loop
    have hstart : (aCkpt.set i v).getD (nCkpt - 3) 0 = aCkpt.getD (nCkpt - 3) 0 ∨
        nCkpt % 2 ≠ 1 := by
      by_cases hodd : nCkpt % 2 = 1
      · rw [hget, if_neg (by omega)]
        exact .inl rfl
      · exact .inr hodd
    have hstart' : ckptStart nCkpt ((aCkpt.set i v).getD (nCkpt - 3) 0) =
        ckptStart nCkpt (aCkpt.getD (nCkpt - 3) 0) := by
      rcases hstart with hsame | heven
      · rw [hsame]
      · rw [ckptStart, ckptStart, if_neg heven, if_neg heven]
    rw [hstart']
    refine Mixing.foldl_ne_of_step List.nodup_range (j := i / 2)
      (List.mem_range.mpr (by omega)) (fun k _ hk c => ?_)
      (fun k _ => ckptMix_injective _ _) (fun c heq => ?_) _
    · rw [hget, hget, if_neg (by omega), if_neg (by omega)]
    · obtain ⟨h0, h1⟩ := ckptMix_inputs heq
      rw [hget] at h0 h1
      rcases Nat.mod_two_eq_zero_or_one i with hmod | hmod
      · rw [if_pos (by omega), show 2 * (i / 2) = i by omega] at h0
        exact hv h0
      · rw [if_pos (by omega), show 2 * (i / 2) + 1 = i by omega] at h1
        exact hv h1
  · -- it is the last one, which is added before the loop
    obtain ⟨hodd, rfl⟩ : nCkpt % 2 = 1 ∧ i = nCkpt - 3 := by omega
    rw [Mixing.foldl_congr (fun k hk c => ?_)]
    · intro heq
      have h := ckptStart_injective hodd
        (Mixing.foldl_injective (fun k _ => ckptMix_injective _ _) heq)
      rw [hget, if_pos rfl] at h
      exact hv h
    · have hk := List.mem_range.mp hk
      rw [hget, hget, if_neg (by omega), if_neg (by omega)]

/-- **The checksum and its payload**: changing one integer of the payload changes the
checksum, and nothing else is looked at. -/
theorem ckptChecksum_payload (hn : 3 ≤ nCkpt) (hlen : nCkpt ≤ aCkpt.length) :
    (∀ i < nCkpt - 2, ∀ v, v ≠ aCkpt.getD i 0 →
        ckptChecksum (aCkpt.set i v) nCkpt ≠ ckptChecksum aCkpt nCkpt) ∧
      ∀ aCkpt', (∀ i < nCkpt - 2, aCkpt'.getD i 0 = aCkpt.getD i 0) →
        ckptChecksum aCkpt' nCkpt = ckptChecksum aCkpt nCkpt :=
  ⟨fun _ hi _ hv => ckptChecksum_set hn hlen hi hv, fun _ h => ckptChecksum_congr h hn⟩

/-- The empty checkpoint with another number of blocks. -/
theorem ckptChecksum_payload_empty :
    ckptChecksum ((ckptLoadEmpty ⟨1024, 4096⟩).set 4 7) 25 ≠
      ckptChecksum (ckptLoadEmpty ⟨1024, 4096⟩) 25 :=
  (ckptChecksum_payload (by decide) (by decide)).1 4 (by decide) 7 (by decide)

/-- A checkpoint that is stored with one integer changed is not accepted: an integer of the
payload other than the length. -/
theorem ckptChecksumOk_set (h : ExportedCkpt aCkpt) (hi : i < aCkpt.length - 2) (hi2 : i ≠ 2)
    (hv : v ≠ aCkpt.getD i 0) : ckptChecksumOk (aCkpt.set i v) = false := by
  have hheader := h.header
  have hfits := h.fits
  have hget := getD_set (show i < aCkpt.length by omega) v
  have hn : nCkptOf (aCkpt.set i v) = aCkpt.length := by
    rw [nCkptOf, hget, if_neg hi2.symm]
    exact h.length
  have hok := h.cksum
  unfold ckptChecksumOk at hok ⊢
  simp only [h.length, hn] at hok ⊢
  rw [if_neg (by omega), decide_eq_true_eq] at hok
  rw [if_neg (by omega), decide_eq_false_iff_not, hget, hget, if_neg (by omega),
    if_neg (by omega), ← hok]
  exact ckptChecksum_set (by omega) le_rfl hi hv

end Whole

end Lsm

end MoVeBench
