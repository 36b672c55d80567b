/-
MoVeBench/DiskAnn/Store.lean

The shadow table in the key-value store.

A row of the shadow table is one entry of the store: the key is the prefix of
the table followed by the encoded rowid, the value a data record of the rowid
and the block.  `blobSpotReload` and `blobSpotFlush` read and write these
entries directly, the SQL statements of `diskAnnInsertShadowRow` and
`diskAnnDeleteShadowRow` through the table.

Distinct rowids have distinct keys (`blobSpotBuildKey_injective`) and a record
reads back what was written (`blobSpotDecodeRecord_encode`); so for the code
above, the table is a map from rowids to blocks (`blobSpotRead`).
-/
import MoVeBench.KeyNumber
import MoVeBench.DiskAnn.Params
import MoVeBench.Lib.SortedMap

namespace MoVeBench

open Bytes LexCode

/-! ### The store -/

/-- Bytes in the order of `memcmp`. -/
instance instLinearOrderUInt8 : LinearOrder UInt8 where
  le_refl u := UInt8.le_iff_toNat_le.mpr le_rfl
  le_trans u v w h h' :=
    UInt8.le_iff_toNat_le.mpr
      ((UInt8.le_iff_toNat_le.mp h).trans (UInt8.le_iff_toNat_le.mp h'))
  le_antisymm u v h h' :=
    UInt8.toNat_inj.mp (le_antisymm (UInt8.le_iff_toNat_le.mp h) (UInt8.le_iff_toNat_le.mp h'))
  le_total u v := by
    rw [UInt8.le_iff_toNat_le, UInt8.le_iff_toNat_le]
    exact le_total _ _
  lt_iff_le_not_ge u v := by
    rw [UInt8.lt_iff_toNat_lt, UInt8.le_iff_toNat_le, UInt8.le_iff_toNat_le]
    omega
  toDecidableLE := inferInstance
  toDecidableEq := inferInstance
  toDecidableLT := inferInstance

/-- The key-value store: keys in the order of `memcmp`, and their records. -/
abbrev Kv := SortedMap (List UInt8) (List UInt8)

/-- Result codes: `SQLITE4_DONE`, `SQLITE4_NOTFOUND`, `DISKANN_ROW_NOT_FOUND`,
`SQLITE4_NOMEM`, `SQLITE4_ERROR`. -/
inductive Rc
  | done
  | notFound
  | rowNotFound
  | nomem
  | error
deriving DecidableEq, Repr

/-- The numbers of the result codes. -/
def Rc.code : Rc → ℕ
  | .done => 101
  | .notFound => 12
  | .rowNotFound => 1001
  | .nomem => 7
  | .error => 1

/-- `(int)n`. -/
def toInt (n : ℕ) : ℤ := (n : ℤ).bmod (2 ^ 32)

theorem toInt_of_lt {n : ℕ} (h : n < 2 ^ 31) : toInt n = n :=
  Int.bmod_eq_of_le (by omega) (by omega)

/-! ### Keys -/

/-- `(i64)nRowid`. -/
def rowidToInt (nRowid : UInt64) : ℤ := nRowid.toInt64.toInt

/-- `sqlite4VdbeEncodeIntKey`. -/
def sqlite4VdbeEncodeIntKey (v : ℤ) : List UInt8 := encodeNumericKey (sqlite4_num_from_int64 v)

/-- `blobSpotBuildKey`. -/
def blobSpotBuildKey (pIndex : DiskAnnIndex) (nRowid : UInt64) : List UInt8 :=
  pIndex.aKeyPrefix ++ sqlite4VdbeEncodeIntKey (rowidToInt nRowid)

theorem rowidToInt_range (nRowid : UInt64) :
    -2 ^ 63 ≤ rowidToInt nRowid ∧ rowidToInt nRowid < 2 ^ 63 :=
  ⟨nRowid.toInt64.le_toInt, nRowid.toInt64.toInt_lt⟩

theorem rowidToInt_injective : Function.Injective rowidToInt := fun a b h => by
  have h' : a.toInt64 = b.toInt64 := Int64.toInt_inj.mp h
  rw [← UInt64.toUInt64_toInt64 a, h', UInt64.toUInt64_toInt64]

theorem toRat_from_int64 (n : ℤ) : (sqlite4_num_from_int64 n).toRat = n := by
  unfold Num.toRat Num.mag sqlite4_num_from_int64
  rcases lt_or_ge n 0 with h | h
  · have habs : ((n.natAbs : ℤ) : ℚ) = -n := by exact_mod_cast Int.ofNat_natAbs_of_nonpos h.le
    simp only [h, decide_true, if_true, zpow_zero, mul_one]
    rw [← Int.cast_natCast, habs, neg_neg]
  · have habs : ((n.natAbs : ℤ) : ℚ) = n := by exact_mod_cast Int.natAbs_of_nonneg h
    simp only [not_lt.mpr h, decide_false, Bool.false_eq_true, if_false, zpow_zero, mul_one]
    rw [← Int.cast_natCast, habs]

/-- Keys of rowids differ as the rowids do, at a byte that both have. -/
theorem encodeIntKey_diverges {m n : ℤ} (hm : -2 ^ 63 ≤ m ∧ m < 2 ^ 63)
    (hn : -2 ^ 63 ≤ n ∧ n < 2 ^ 63) :
    Diverges (compare (m : ℚ) n) (sqlite4VdbeEncodeIntKey m) (sqlite4VdbeEncodeIntKey n) := by
  have h := encodeNumericKey_diverges (sqlite4_num_from_int64_finite hm.1 hm.2)
    (sqlite4_num_from_int64_finite hn.1 hn.2)
  rwa [toRat_from_int64, toRat_from_int64] at h

/-- **Different rows have different keys.** -/
theorem blobSpotBuildKey_injective (pIndex : DiskAnnIndex) :
    Function.Injective (blobSpotBuildKey pIndex) := fun a b h => by
  have hcode : sqlite4VdbeEncodeIntKey (rowidToInt a) = sqlite4VdbeEncodeIntKey (rowidToInt b) :=
    List.append_cancel_left h
  have hcmp := (encodeIntKey_diverges (rowidToInt_range a) (rowidToInt_range b)).compareLex_eq
  rw [hcode, compareLex_eq_eq_iff.mpr rfl] at hcmp
  have hrat : ((rowidToInt a : ℤ) : ℚ) = rowidToInt b := compare_eq_iff_eq.mp hcmp.symm
  exact rowidToInt_injective (by exact_mod_cast hrat)

/-! ### Records -/

/-- The loop over `nIntBytes`, at most `k` more rounds. -/
def significantBytesLoop (v : ℤ) : ℕ → ℕ → ℤ → ℕ
  | 0, nIntBytes, _ => nIntBytes
  | k + 1, nIntBytes, x =>
      if (if v < 0 then v < x else v > x) then significantBytesLoop v k (nIntBytes + 1) (x * 256)
      else nIntBytes

/-- The number of bytes the record has for an integer. -/
def significantBytes (v : ℤ) : ℕ := significantBytesLoop v 7 1 (if v < 0 then -128 else 127)

/-- `blobSpotEncodeRecord`. -/
def blobSpotEncodeRecord (nRowid : UInt64) (pBlob : List UInt8) : List UInt8 :=
  let nIntBytes := significantBytes (rowidToInt nRowid)
  let aHdrBuf := .ofNat (nIntBytes + 2) :: sqlite4PutVarint64 (23 + 4 * pBlob.length)
  sqlite4PutVarint64 aHdrBuf.length ++ (aHdrBuf ++ (beBytes nIntBytes nRowid.toNat ++ pBlob))

/-- The size of column 0, an integer, from its type code. -/
def col0Size (typeCode : ℕ) : Option ℕ :=
  if typeCode = 0 then some 0
  else if 2 ≤ typeCode ∧ typeCode ≤ 10 then some (typeCode - 2)
  else none

/-- `blobSpotDecodeRecord`: the bytes from the blob on, and its size. -/
def blobSpotDecodeRecord (pData : List UInt8) : Option (List UInt8 × ℤ) :=
  match sqlite4GetVarint64 pData with
  | none => none
  | some (hdrSize, nHdr) =>
      let payloadOff := nHdr + toInt hdrSize
      -- the only check against the size of the record
      if payloadOff > pData.length then none
      else match sqlite4GetVarint64 (pData.drop nHdr) with
        | none => none
        | some (typeCode, n) =>
            match col0Size typeCode, sqlite4GetVarint64 (pData.drop (nHdr + n)) with
            | some size, some (blobTypeCode, _) =>
                if blobTypeCode < 23 ∨ blobTypeCode % 4 ≠ 3 then none
                else some (pData.drop (payloadOff + size).toNat, toInt ((blobTypeCode - 23) / 4))
            | _, _ => none

theorem significantBytes_bounds (v : ℤ) : 1 ≤ significantBytes v ∧ significantBytes v ≤ 8 := by
  have hloop : ∀ (k n : ℕ) (x : ℤ), n ≤ significantBytesLoop v k n x ∧
      significantBytesLoop v k n x ≤ n + k := by
    intro k
    induction k with
    | zero => exact fun n x => ⟨le_rfl, le_rfl⟩
    | succ k ih =>
        intro n x
        have h := ih (n + 1) (x * 256)
        unfold significantBytesLoop
        split_ifs <;> omega
  exact hloop 7 1 _

theorem sqlite4PutVarint64_small {x : ℕ} (h : x ≤ 240) : sqlite4PutVarint64 x = [.ofNat x] := by
  rw [sqlite4PutVarint64, if_pos h]

theorem sqlite4PutVarint64_length_le (x : ℕ) : (sqlite4PutVarint64 x).length ≤ 9 := by
  unfold sqlite4PutVarint64 varintWrite32
  simp only
  split_ifs <;> simp

/-- A number that fits one byte, in front of other bytes. -/
theorem sqlite4GetVarint64_small {x : ℕ} (h : x ≤ 240) (rest : List UInt8) :
    sqlite4GetVarint64 (.ofNat x :: rest) = some (x, 1) := by
  have hread := sqlite4GetVarint64_put (show x < 2 ^ 64 by omega) rest
  rwa [sqlite4PutVarint64_small h] at hread

/-- **A record reads back the block that was written.** -/
theorem blobSpotDecodeRecord_encode (nRowid : UInt64) {pBlob : List UInt8}
    (hlen : pBlob.length < 2 ^ 31) :
    blobSpotDecodeRecord (blobSpotEncodeRecord nRowid pBlob) =
      some (pBlob, (pBlob.length : ℤ)) := by
  obtain ⟨hlo, hhi⟩ := significantBytes_bounds (rowidToInt nRowid)
  obtain ⟨w, hw⟩ : ∃ w, w = significantBytes (rowidToInt nRowid) := ⟨_, rfl⟩
  obtain ⟨b, hb⟩ : ∃ b, b = sqlite4PutVarint64 (23 + 4 * pBlob.length) := ⟨_, rfl⟩
  have hb9 : b.length ≤ 9 := hb ▸ sqlite4PutVarint64_length_le _
  rw [← hw] at hlo hhi
  have hrecord : blobSpotEncodeRecord nRowid pBlob =
      .ofNat (b.length + 1) :: .ofNat (w + 2) :: (b ++ (beBytes w nRowid.toNat ++ pBlob)) := by
    unfold blobSpotEncodeRecord
    rw [← hw, ← hb]
    simp only [List.length_cons, sqlite4PutVarint64_small (show b.length + 1 ≤ 240 by omega)]
    rfl
  have hhdr := sqlite4GetVarint64_small (show b.length + 1 ≤ 240 by omega)
    (.ofNat (w + 2) :: (b ++ (beBytes w nRowid.toNat ++ pBlob)))
  have hcol0 := sqlite4GetVarint64_small (show w + 2 ≤ 240 by omega)
    (b ++ (beBytes w nRowid.toNat ++ pBlob))
  have hcol1 := sqlite4GetVarint64_put (show 23 + 4 * pBlob.length < 2 ^ 64 by omega)
    (beBytes w nRowid.toNat ++ pBlob)
  rw [← hb] at hcol1
  have hsize : col0Size (w + 2) = some w := by
    rw [col0Size, if_neg (by omega), if_pos (by omega), Nat.add_sub_cancel]
  have hoff : ((1 : ℕ) + toInt (b.length + 1) + (w : ℕ)).toNat = 2 + (b.length + w) := by
    rw [toInt_of_lt (by omega)]
    omega
  have hblob : (23 + 4 * pBlob.length - 23) / 4 = pBlob.length := by omega
  have hdrop : (b ++ (beBytes w nRowid.toNat ++ pBlob)).drop (b.length + w) = pBlob := by
    rw [← List.drop_drop, List.drop_left, List.drop_left' (beBytes_length w _)]
  rw [hrecord, blobSpotDecodeRecord, hhdr]
  simp only [List.drop_succ_cons, List.drop_zero, hcol0, hcol1, hsize, hoff, hblob]
  rw [if_neg, if_neg (by omega), Nat.add_comm 2, List.drop_succ_cons, List.drop_succ_cons, hdrop,
    toInt_of_lt hlen]
  rw [toInt_of_lt (by omega)]
  simp only [List.length_cons, List.length_append, beBytes_length]
  omega

/-! ### Blob spots -/

/-- `BlobSpot`.  Its buffer has `nBlockSize` bytes; what they are before the
first successful load is never looked at. -/
structure BlobSpot where
  nRowid : UInt64
  pBuffer : List UInt8
  isInitialized : Bool
  isAborted : Bool

variable (pIndex : DiskAnnIndex) (kv : Kv)

/-- `blobSpotCreate`. -/
def blobSpotCreate (nRowid : UInt64) : BlobSpot where
  nRowid := nRowid
  pBuffer := List.replicate pIndex.nBlockSize 0
  isInitialized := false
  isAborted := false

/-- The block of a row, as `blobSpotReload` takes it from the store. -/
def blobSpotRead (nRowid : UInt64) : Except Rc (List UInt8) :=
  match kv.get? (blobSpotBuildKey pIndex nRowid) with
  | none => .error .rowNotFound
  | some pData =>
      match blobSpotDecodeRecord pData with
      | none => .error .error
      | some (pBlob, nBlob) =>
          if nBlob < pIndex.nBlockSize then .error .error
          else .ok (readBytes pBlob 0 pIndex.nBlockSize)

/-- `blobSpotReload`: the result code, `none` for `SQLITE4_OK`, and the spot
afterwards. -/
def blobSpotReload (pBlobSpot : BlobSpot) (nRowid : UInt64) : Option Rc × BlobSpot :=
  if pBlobSpot.nRowid = nRowid ∧ pBlobSpot.isInitialized then (none, pBlobSpot)
  else
    let spot := { pBlobSpot with nRowid, isInitialized := false, isAborted := false }
    match blobSpotRead pIndex kv nRowid with
    | .error .rowNotFound => (some .rowNotFound, spot)
    | .error rc => (some rc, { spot with isAborted := true })
    | .ok pBuffer => (none, { spot with pBuffer, isInitialized := true })

/-- `blobSpotFlush`. -/
def blobSpotFlush (pBlobSpot : BlobSpot) : Kv :=
  kv.insert (blobSpotBuildKey pIndex pBlobSpot.nRowid)
    (blobSpotEncodeRecord pBlobSpot.nRowid pBlobSpot.pBuffer)

/-- `diskAnnInsertShadowRow`: a row with a block of zeros, unless the primary
key is taken.  The entry that the statement adds to the secondary index of the
table lies under another table number. -/
def diskAnnInsertShadowRow (nRowid : UInt64) : Except Rc Kv :=
  if (kv.get? (blobSpotBuildKey pIndex nRowid)).isSome then .error .error
  else .ok (kv.insert (blobSpotBuildKey pIndex nRowid)
    (blobSpotEncodeRecord nRowid (List.replicate pIndex.nBlockSize 0)))

/-- `diskAnnDeleteShadowRow`. -/
def diskAnnDeleteShadowRow (nRowid : UInt64) : Kv := kv.erase (blobSpotBuildKey pIndex nRowid)

/-- The row is in the shadow table. -/
def HasRow (nRowid : UInt64) : Prop := (kv.get? (blobSpotBuildKey pIndex nRowid)).isSome

instance (nRowid : UInt64) : Decidable (HasRow pIndex kv nRowid) :=
  inferInstanceAs (Decidable (_ = true))

/-- A spot that is initialized holds the block of its row. -/
def SpotOk (pBlobSpot : BlobSpot) : Prop :=
  pBlobSpot.isInitialized → blobSpotRead pIndex kv pBlobSpot.nRowid = .ok pBlobSpot.pBuffer

variable {pIndex kv}

theorem SpotOk.create (pIndex : DiskAnnIndex) (kv : Kv) (nRowid : UInt64) :
    SpotOk pIndex kv (blobSpotCreate pIndex nRowid) := by
  intro h
  cases h

/-- **Loading a spot is reading the store**, also where the block is kept from
the last load. -/
theorem blobSpotReload_spec {pBlobSpot : BlobSpot} (h : SpotOk pIndex kv pBlobSpot)
    (nRowid : UInt64) :
    SpotOk pIndex kv (blobSpotReload pIndex kv pBlobSpot nRowid).2 ∧
      (blobSpotReload pIndex kv pBlobSpot nRowid).2.nRowid = nRowid ∧
      match blobSpotRead pIndex kv nRowid with
      | .ok buf => (blobSpotReload pIndex kv pBlobSpot nRowid).1 = none ∧
          (blobSpotReload pIndex kv pBlobSpot nRowid).2.pBuffer = buf
      | .error rc => (blobSpotReload pIndex kv pBlobSpot nRowid).1 = some rc := by
  unfold blobSpotReload
  split_ifs with hkept
  · obtain ⟨rfl, hinit⟩ := hkept
    rw [h hinit]
    exact ⟨h, rfl, rfl, rfl⟩
  · rcases hread : blobSpotRead pIndex kv nRowid with rc | buf
    · cases rc <;> exact ⟨nofun, rfl, rfl⟩
    · exact ⟨fun _ => hread, rfl, rfl, rfl⟩

theorem blobSpotRead_length {nRowid : UInt64} {buf : List UInt8}
    (h : blobSpotRead pIndex kv nRowid = .ok buf) : buf.length = pIndex.nBlockSize := by
  unfold blobSpotRead at h
  split at h
  · cases h
  · split at h
    · cases h
    · split_ifs at h
      obtain rfl := Except.ok.inj h
      simp

/-- A block that is read belongs to a row of the table. -/
theorem hasRow_of_read {nRowid : UInt64} {buf : List UInt8}
    (h : blobSpotRead pIndex kv nRowid = .ok buf) : HasRow pIndex kv nRowid := by
  unfold blobSpotRead at h
  unfold HasRow
  split at h
  · cases h
  · rename_i heq
    rw [heq]
    rfl

theorem blobSpotRead_congr {kv' : Kv} {nRowid : UInt64}
    (h : kv'.get? (blobSpotBuildKey pIndex nRowid) = kv.get? (blobSpotBuildKey pIndex nRowid)) :
    blobSpotRead pIndex kv' nRowid = blobSpotRead pIndex kv nRowid := by
  rw [blobSpotRead, h, blobSpotRead]

/-- What is read after a record was put. -/
theorem blobSpotRead_put (hsize : pIndex.nBlockSize ≤ maxBlockSize) {nRowid : UInt64}
    {pBlob : List UInt8} (hlen : pBlob.length = pIndex.nBlockSize) (r : UInt64) :
    blobSpotRead pIndex
        (kv.insert (blobSpotBuildKey pIndex nRowid) (blobSpotEncodeRecord nRowid pBlob)) r =
      if r = nRowid then .ok pBlob else blobSpotRead pIndex kv r := by
  split_ifs with hr
  · subst hr
    have hmax : pBlob.length ≤ 134217728 := hlen ▸ hsize
    rw [blobSpotRead, SortedMap.get?_insert_self]
    simp only [blobSpotDecodeRecord_encode r (show pBlob.length < 2 ^ 31 by omega)]
    rw [if_neg (by omega), ← hlen, readBytes_all]
  · exact blobSpotRead_congr
      (SortedMap.get?_insert_of_ne _ (fun h => hr (blobSpotBuildKey_injective pIndex h)) _)

theorem hasRow_put {nRowid r : UInt64} {pData : List UInt8} :
    HasRow pIndex (kv.insert (blobSpotBuildKey pIndex nRowid) pData) r ↔
      r = nRowid ∨ HasRow pIndex kv r := by
  unfold HasRow
  rw [SortedMap.get?_insert]
  split_ifs with h
  · simp [blobSpotBuildKey_injective pIndex h]
  · simp [show r ≠ nRowid from fun hr => h (by rw [hr])]

theorem blobSpotRead_delete (nRowid r : UInt64) :
    blobSpotRead pIndex (diskAnnDeleteShadowRow pIndex kv nRowid) r =
      if r = nRowid then .error .rowNotFound else blobSpotRead pIndex kv r := by
  unfold diskAnnDeleteShadowRow
  split_ifs with hr
  · subst hr
    rw [blobSpotRead, SortedMap.get?_erase, if_pos rfl]
  · refine blobSpotRead_congr ?_
    rw [SortedMap.get?_erase, if_neg fun h => hr (blobSpotBuildKey_injective pIndex h)]

theorem hasRow_delete {nRowid r : UInt64} :
    HasRow pIndex (diskAnnDeleteShadowRow pIndex kv nRowid) r ↔
      r ≠ nRowid ∧ HasRow pIndex kv r := by
  unfold HasRow diskAnnDeleteShadowRow
  rw [SortedMap.get?_erase]
  split_ifs with h
  · simp [blobSpotBuildKey_injective pIndex h]
  · simp [show r ≠ nRowid from fun hr => h (by rw [hr])]

end MoVeBench
