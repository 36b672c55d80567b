/-
MoVeBench/DiskAnn/VectorGap.lean

The memory that a serialised FLOAT8 vector lies in (`vectorSerializeWithMeta` of `vector.c`).

The blob is allocated with the components padded to a multiple of four, and filled piece by piece.
The components, the two parameters and the trailer are written; the padding is not, so what was in
the memory before is in the blob (`getD_serializeWithMeta`).  There is no padding exactly if the
dimension is a multiple of four.
-/
import MoVeBench.DiskAnn.VectorBlob

namespace MoVeBench

open Bytes SlotList

/-- `nBlobSize`, the memory that is allocated for a vector. -/
def blobSize (v : Vector) : ℕ := vectorDataSize v.type v.dims + vectorMetaSize v.type v.dims

/-- Serialising gives the same bytes whatever the memory held. -/
def AllWritten (v : Vector) : Prop :=
  ∀ pBlob pBlob' : List UInt8, pBlob.length = blobSize v → pBlob'.length = blobSize v →
    vectorSerializeWithMeta v pBlob = vectorSerializeWithMeta v pBlob'

section Gap

variable {v : Vector} {pBlob pBlob' : List UInt8}

/-- The blob is as long as the memory. -/
theorem vectorSerializeWithMeta_length (v : Vector) (pBlob : List UInt8) :
    (vectorSerializeWithMeta v pBlob).length = pBlob.length := by
  unfold vectorSerializeWithMeta vectorSerializeMeta
  dsimp only
  split <;> simp only [List.length_set, vectorSerializeToBlob_length]
  split_ifs <;> simp only [List.length_set, vectorSerializeToBlob_length]

theorem getD_writeBytes {data : List UInt8} {off i : ℕ} (h : off + data.length ≤ pBlob.length)
    (hi : i < data.length) : (writeBytes pBlob off data).getD (off + i) 0 = data.getD i 0 := by
  induction data generalizing pBlob off i with
  | nil => exact absurd hi (Nat.not_lt_zero i)
  | cons u data ih =>
      rw [List.length_cons] at h hi
      rw [writeBytes]
      rcases i with - | i
      · rw [writeBytes_getD_of_ne (by omega)]
        exact getD_set_self (by omega) u 0
      · have hrest : (writeBytes (pBlob.set off u) (off + 1) data).getD (off + 1 + i) 0 =
            data.getD i 0 := ih (by rw [List.length_set]; omega) (by omega)
        rw [show off + (i + 1) = off + 1 + i by omega, hrest]
        rfl

/-- The components and the parameters are written, and nothing else. -/
theorem getD_serializeToBlob (htype : v.type = .float8) (hlen : blobSize v ≤ pBlob.length)
    {i : ℕ} : (vectorSerializeToBlob v pBlob 0).getD i 0 =
      if i < v.dims then v.data.getD i 0
      else if i < alignUp v.dims 4 then pBlob.getD i 0
      else if i < alignUp v.dims 4 + 8 then v.data.getD (v.dims + (i - alignUp v.dims 4)) 0
      else pBlob.getD i 0 := by
  have hgap := le_alignUp v.dims
  have hdata := v.data_length
  have hsize : alignUp v.dims 4 + 8 ≤ blobSize v := by
    unfold blobSize
    rw [htype]
    exact Nat.le_add_right _ _
  unfold vectorSerializeToBlob
  rw [htype] at hdata ⊢
  have hdata : v.data.length = v.dims + 8 := hdata
  show (writeBytes (writeBytes pBlob 0 (v.data.take v.dims)) (0 + alignUp v.dims 4)
    (v.data.drop v.dims)).getD i 0 = _
  have htake : (v.data.take v.dims).length = v.dims := by
    rw [List.length_take]
    omega
  have hdrop : (v.data.drop v.dims).length = 8 := by
    rw [List.length_drop]
    omega
  split_ifs with h1 h2 h3
  · have hfirst : (writeBytes pBlob 0 (v.data.take v.dims)).getD (0 + i) 0 =
        (v.data.take v.dims).getD i 0 := getD_writeBytes (by omega) (by omega)
    rw [writeBytes_getD_of_ne (by omega)]
    rw [Nat.zero_add] at hfirst
    rw [hfirst, List.getD_eq_getElem?_getD, List.getElem?_take_of_lt h1, List.getD_eq_getElem?_getD]
  · rw [writeBytes_getD_of_ne (by omega), writeBytes_getD_of_ne (by omega)]
  · obtain ⟨k, rfl⟩ := Nat.exists_eq_add_of_le (not_lt.mp h2)
    rw [Nat.zero_add, getD_writeBytes (by rw [writeBytes_length]; omega) (by omega),
      List.getD_eq_getElem?_getD, List.getElem?_drop, List.getD_eq_getElem?_getD,
      Nat.add_sub_cancel_left]
  · rw [writeBytes_getD_of_ne (by omega), writeBytes_getD_of_ne (by omega)]

/-- **The bytes of the blob**: only the padding is left from the memory. -/
theorem getD_serializeWithMeta (htype : v.type = .float8) (hlen : pBlob.length = blobSize v)
    {i : ℕ} : (vectorSerializeWithMeta v pBlob).getD i 0 =
      if i < v.dims then v.data.getD i 0
      else if i < alignUp v.dims 4 then pBlob.getD i 0
      else if i < alignUp v.dims 4 + 8 then v.data.getD (v.dims + (i - alignUp v.dims 4)) 0
      else if i = alignUp v.dims 4 + 8 then 0
      else if i = alignUp v.dims 4 + 9 then .ofNat (alignUp v.dims 4 - v.dims)
      else if i = alignUp v.dims 4 + 10 then .ofNat v.type.code
      else 0 := by
  have hsize : blobSize v = alignUp v.dims 4 + 11 := by
    unfold blobSize
    rw [htype]
    rfl
  have hblob := getD_serializeToBlob htype hlen.ge (i := i)
  have hgap := le_alignUp v.dims
  have hsame : (vectorSerializeToBlob v pBlob 0).length = alignUp v.dims 4 + 11 := by
    rw [vectorSerializeToBlob_length, hlen, hsize]
  unfold vectorSerializeWithMeta vectorSerializeMeta
  rw [htype]
  dsimp only
  rw [hsame]
  rcases Nat.lt_or_ge i (alignUp v.dims 4 + 8) with hlt | hge
  · -- in front of the trailer
    rw [getD_set_of_ne (by omega), getD_set_of_ne (by omega), getD_set_of_ne (by omega), hblob]
    split_ifs <;> rfl
  · rw [if_neg (by omega), if_neg (by omega), if_neg (by omega)]
    split_ifs with h8 h9 h10
    · rw [h8]
      exact getD_set_self (by rw [List.length_set, List.length_set]; omega) _ _
    · rw [h9, getD_set_of_ne (by omega)]
      exact getD_set_self (by rw [List.length_set]; omega) _ _
    · rw [h10, getD_set_of_ne (by omega), getD_set_of_ne (by omega)]
      exact getD_set_self (by omega) _ _
    · refine List.getD_eq_default _ _ ?_
      rw [List.length_set, List.length_set, List.length_set]
      omega

end Gap

/-- **Every byte of the blob is written** exactly if the components need no padding. -/
theorem allWritten_iff (v : Vector) (htype : v.type = .float8) :
    AllWritten v ↔ v.dims % 4 = 0 := by
  have hgap : v.dims % 4 = 0 ↔ alignUp v.dims 4 ≤ v.dims := by
    unfold alignUp
    omega
  have hle : alignUp v.dims 4 ≤ blobSize v := by
    unfold blobSize
    rw [htype]
    show alignUp v.dims 4 ≤ alignUp v.dims 4 + 4 + 4 + 3
    omega
  rw [hgap]
  constructor
  · intro hall
    by_contra hpad
    -- the first byte of the padding
    have hsame := hall (List.replicate (blobSize v) 0) (List.replicate (blobSize v) 1)
      List.length_replicate List.length_replicate
    have hkept : ∀ u : UInt8, (vectorSerializeWithMeta v (List.replicate (blobSize v) u)).getD
        v.dims 0 = u := by
      intro u
      rw [getD_serializeWithMeta htype List.length_replicate, if_neg (lt_irrefl _),
        if_pos (not_le.mp hpad), List.getD_replicate _ (by omega)]
    have hbyte := hkept 0
    rw [hsame, hkept 1] at hbyte
    exact absurd hbyte (by decide)
  · intro hnone pBlob pBlob' hlen hlen'
    refine List.ext_getElem ?_ fun i hi hi' => ?_
    · rw [vectorSerializeWithMeta_length, vectorSerializeWithMeta_length, hlen, hlen']
    · rw [← List.getD_eq_getElem _ 0, ← List.getD_eq_getElem _ 0,
        getD_serializeWithMeta htype hlen, getD_serializeWithMeta htype hlen']
      by_cases hdims : i < v.dims
      · rw [if_pos hdims, if_pos hdims]
      · have hpast : ¬ i < alignUp v.dims 4 := by omega
        rw [if_neg hdims, if_neg hdims, if_neg hpast, if_neg hpast]

/-- A FLOAT8 vector whose bytes are all zero. -/
def zeroF8 (dims : ℕ) : Vector where
  type := .float8
  dims := dims
  data := List.replicate (dims + 8) 0
  data_length := List.length_replicate

/-- Four components leave no gap. -/
theorem allWritten_four : AllWritten (zeroF8 4) := (allWritten_iff (zeroF8 4) rfl).mpr rfl

/-- A single component leaves three bytes of the memory in the blob. -/
theorem not_allWritten : ¬ ∀ v : Vector, v.type = .float8 → AllWritten v := fun hall =>
  absurd (hall (zeroF8 1) rfl (List.replicate 15 0) (List.replicate 15 1) rfl rfl) (by decide)

end MoVeBench
