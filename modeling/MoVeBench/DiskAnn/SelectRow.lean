/-
MoVeBench/DiskAnn/SelectRow.lean

The random start row: `diskAnnSelectRandomShadowRow`, and the estimate
`nShadowRows` of the number of rows that it draws from.

The estimate starts as the last rowid of the table when the index is opened, and
then counts insertions and deletions.  While it is zero or negative the function
looks for the first row.  Otherwise it draws a rowid up to the estimate, seeks the
next row from there, and wraps round to the first row of the table; what it
finds then it does not check again.
-/
import MoVeBench.KeyDecode

namespace MoVeBench

open Bytes LexCode

/-! ### Selecting a row -/

section Select

variable (pIndex : DiskAnnIndex) (kv : Kv)

/-- The key has the prefix of the shadow table and goes on behind it. -/
def hasKeyPrefix (pKey : List UInt8) : Bool :=
  pIndex.aKeyPrefix.length < pKey.length ∧ pIndex.aKeyPrefix.isPrefixOf pKey

/-- The rowid behind the prefix of a key. -/
def decodeRowid (pKey : List UInt8) : Except Rc UInt64 :=
  match sqlite4VdbeDecodeNumericKey (pKey.drop pIndex.aKeyPrefix.length) with
  | none => .error .error
  | some (num, _) => .ok (Int64.ofInt (sqlite4_num_to_int64 num)).toUInt64

/-- `diskAnnSelectRandomShadowRow` for the random value `randVal`. -/
def diskAnnSelectRandomShadowRow (nShadowRows : ℤ) (randVal : UInt64) : Except Rc UInt64 :=
  if nShadowRows ≤ 0 then
    -- no estimate: the first row of the table
    match kv.seekGE pIndex.aKeyPrefix with
    | none => .error .done
    | some (pKey, _) =>
        if hasKeyPrefix pIndex pKey then decodeRowid pIndex pKey else .error .done
  else
    -- rows are taken to be numbered without gaps
    let targetRowid := UInt64.ofNat (randVal.toNat % nShadowRows.toNat + 1)
    let found :=
      match kv.seekGE (blobSpotBuildKey pIndex targetRowid) with
      | none => kv.seekGE pIndex.aKeyPrefix
      | some e => some e
    match found with
    | none => .error .notFound
    | some (pKey, _) =>
        if hasKeyPrefix pIndex pKey then decodeRowid pIndex pKey
        else
          -- past the rows of the table: back to its first, without a check of the key
          match kv.seekGE pIndex.aKeyPrefix with
          | none => .error .done
          | some (pKey, _) => decodeRowid pIndex pKey

/-- The estimate that `diskAnnOpenIndex` starts from: the rowid of the last row
of the table, zero without one. -/
def shadowRowsAtOpen : ℤ :=
  let aEndKey := sqlite4PutVarint64 (pIndex.iShadowTnum + 1)
  let found :=
    match kv.seekLE aEndKey with
    | some (pKey, pData) =>
        -- an exact hit is stepped back over
        if pKey = aEndKey then (kv.erase aEndKey).seekLE aEndKey else some (pKey, pData)
    | none => none
  match found with
  | none => 0
  | some (pKey, _) =>
      if hasKeyPrefix pIndex pKey then
        match sqlite4VdbeDecodeNumericKey (pKey.drop pIndex.aKeyPrefix.length) with
        | none => 0
        | some (num, _) => sqlite4_num_to_int64 num
      else 0

end Select

/-! ### When the selection is right -/

section Correct

variable {pIndex : DiskAnnIndex} {kv : Kv}

/-- What follows the prefix of the shadow table is the key of a row; other
tables have other prefixes. -/
def KeysOk (pIndex : DiskAnnIndex) (kv : Kv) : Prop :=
  ∀ e ∈ kv.entries, pIndex.aKeyPrefix <+: e.1 → ∃ r, e.1 = blobSpotBuildKey pIndex r

/-- The answer that the function's comment promises: a row of the table, and
`SQLITE4_DONE` when there is none. -/
def SelectOk (pIndex : DiskAnnIndex) (kv : Kv) (answer : Except Rc UInt64) : Prop :=
  (answer = .error .done ↔ ¬ ∃ r, HasRow pIndex kv r) ∧
    ((∃ r, HasRow pIndex kv r) → ∃ r, answer = .ok r ∧ HasRow pIndex kv r)

theorem decodeRowid_key (r : UInt64) :
    decodeRowid pIndex (blobSpotBuildKey pIndex r) = .ok r := by
  obtain ⟨num, hnum, hint⟩ := decodeIntKey (rowidToInt_range r) []
  rw [List.append_nil] at hnum
  rw [decodeRowid, blobSpotBuildKey, List.drop_left, hnum]
  simp only [hint, rowidToInt, Int64.ofInt_toInt]
  rfl

theorem hasKeyPrefix_key (r : UInt64) : hasKeyPrefix pIndex (blobSpotBuildKey pIndex r) = true := by
  obtain ⟨num, hnum, -⟩ := decodeIntKey (rowidToInt_range r) []
  rw [List.append_nil] at hnum
  have hne : sqlite4VdbeEncodeIntKey (rowidToInt r) ≠ [] := by
    intro h
    rw [h] at hnum
    cases hnum
  have hpos := List.length_pos_of_ne_nil hne
  simp only [hasKeyPrefix, blobSpotBuildKey, List.length_append, decide_eq_true_eq,
    List.isPrefixOf_iff_prefix]
  exact ⟨by omega, List.prefix_append _ _⟩

theorem prefix_of_hasKeyPrefix {key : List UInt8} (h : hasKeyPrefix pIndex key = true) :
    pIndex.aKeyPrefix <+: key := by
  simp only [hasKeyPrefix, decide_eq_true_eq, List.isPrefixOf_iff_prefix] at h
  exact h.2

theorem hasRow_iff_mem {r : UInt64} :
    HasRow pIndex kv r ↔ ∃ v, (blobSpotBuildKey pIndex r, v) ∈ kv.entries := by
  unfold HasRow
  rw [Option.isSome_iff_exists]
  exact exists_congr fun v => kv.get?_eq_some_iff

/-- A key of the table is the key of a row that is in it. -/
theorem hasRow_of_prefix (hk : KeysOk pIndex kv) {key v : List UInt8}
    (he : (key, v) ∈ kv.entries) (hp : pIndex.aKeyPrefix <+: key) :
    ∃ r, key = blobSpotBuildKey pIndex r ∧ HasRow pIndex kv r := by
  obtain ⟨r, rfl⟩ := hk (key, v) he hp
  exact ⟨r, rfl, hasRow_iff_mem.mpr ⟨v, he⟩⟩

/-- The first key at or after the prefix is the table's first row. -/
theorem seek_first (hk : KeysOk pIndex kv) (hrow : ∃ r, HasRow pIndex kv r) :
    ∃ r v, kv.seekGE pIndex.aKeyPrefix = some (blobSpotBuildKey pIndex r, v) ∧
      HasRow pIndex kv r := by
  obtain ⟨r₀, hr₀⟩ := hrow
  obtain ⟨v₀, hv₀⟩ := hasRow_iff_mem.mp hr₀
  have hle : pIndex.aKeyPrefix ≤ blobSpotBuildKey pIndex r₀ := le_append _ _
  rcases hseek : kv.seekGE pIndex.aKeyPrefix with - | ⟨key, v⟩
  · exact absurd hle (not_le.mpr (kv.seekGE_eq_none_iff.mp hseek _ hv₀))
  · obtain ⟨he, hge, hfirst⟩ := kv.seekGE_spec hseek
    obtain ⟨r, rfl, hr⟩ := hasRow_of_prefix hk he
      (prefix_of_between hge (hfirst (blobSpotBuildKey pIndex r₀, v₀) hv₀ hle))
    exact ⟨r, v, rfl, hr⟩

/-- Without a row no key has the prefix. -/
theorem not_hasKeyPrefix (hk : KeysOk pIndex kv) (hrow : ¬ ∃ r, HasRow pIndex kv r)
    {key v : List UInt8} (he : (key, v) ∈ kv.entries) : hasKeyPrefix pIndex key = false := by
  by_contra h
  rw [Bool.not_eq_false] at h
  obtain ⟨r, -, hr⟩ := hasRow_of_prefix hk he (prefix_of_hasKeyPrefix h)
  exact hrow ⟨r, hr⟩

theorem selectOk_of_rows (hk : KeysOk pIndex kv) (hrow : ∃ r, HasRow pIndex kv r)
    (nShadowRows : ℤ) (randVal : UInt64) :
    SelectOk pIndex kv (diskAnnSelectRandomShadowRow pIndex kv nShadowRows randVal) := by
  obtain ⟨r₀, v₀, hfirst, hr₀⟩ := seek_first hk hrow
  have hok : ∀ r, HasRow pIndex kv r → SelectOk pIndex kv (.ok r) := fun r hr =>
    ⟨by simp [hrow], fun _ => ⟨r, rfl, hr⟩⟩
  unfold diskAnnSelectRandomShadowRow
  split_ifs with hn
  · simp only [hfirst, hasKeyPrefix_key, if_true, decodeRowid_key]
    exact hok r₀ hr₀
  · rcases hseek : kv.seekGE (blobSpotBuildKey pIndex
      (UInt64.ofNat (randVal.toNat % nShadowRows.toNat + 1))) with - | ⟨key, v⟩
    · -- no key from the target on: back to the first row
      simp only [hseek, hfirst, hasKeyPrefix_key, if_true, decodeRowid_key]
      exact hok r₀ hr₀
    · simp only [hseek]
      split_ifs with hp
      · obtain ⟨r, rfl, hr⟩ := hasRow_of_prefix hk (kv.seekGE_spec hseek).1
          (prefix_of_hasKeyPrefix hp)
        rw [decodeRowid_key]
        exact hok r hr
      · simp only [hfirst, decodeRowid_key]
        exact hok r₀ hr₀

/-- **When the selection is right**: exactly when the estimate is not positive or
the table has a row.  An empty table with a positive estimate is never
reported as such. -/
theorem selectOk_iff (hk : KeysOk pIndex kv) (nShadowRows : ℤ) (randVal : UInt64) :
    SelectOk pIndex kv (diskAnnSelectRandomShadowRow pIndex kv nShadowRows randVal) ↔
      nShadowRows ≤ 0 ∨ ∃ r, HasRow pIndex kv r := by
  by_cases hrow : ∃ r, HasRow pIndex kv r
  · simp only [hrow, or_true, iff_true]
    exact selectOk_of_rows hk hrow nShadowRows randVal
  simp only [hrow, or_false]
  have hdecode : ∀ key, decodeRowid pIndex key ≠ .error .done := by
    intro key
    unfold decodeRowid
    split <;> simp
  constructor
  · intro h
    by_contra hn
    have hdone := h.1.mpr hrow
    unfold diskAnnSelectRandomShadowRow at hdone
    rw [if_neg hn] at hdone
    rcases hseek : kv.seekGE (blobSpotBuildKey pIndex
      (UInt64.ofNat (randVal.toNat % nShadowRows.toNat + 1))) with - | ⟨key, v⟩
    · simp only [hseek] at hdone
      rcases hfirst : kv.seekGE pIndex.aKeyPrefix with - | ⟨key, v⟩
      · simp [hfirst] at hdone
      · -- a key from the prefix on, but below the target, would be a row
        obtain ⟨he, hge, -⟩ := kv.seekGE_spec hfirst
        have hlt := kv.seekGE_eq_none_iff.mp hseek _ he
        obtain ⟨r, -, hr⟩ := hasRow_of_prefix hk he (prefix_of_between hge hlt.le)
        exact hrow ⟨r, hr⟩
    · obtain ⟨he, hge, -⟩ := kv.seekGE_spec hseek
      simp only [hseek, not_hasKeyPrefix hk hrow he, Bool.false_eq_true, if_false] at hdone
      rcases hfirst : kv.seekGE pIndex.aKeyPrefix with - | ⟨key', v'⟩
      · have hle : pIndex.aKeyPrefix ≤ key := le_trans (le_append _ _) hge
        exact absurd hle (not_le.mpr (kv.seekGE_eq_none_iff.mp hfirst _ he))
      · simp only [hfirst] at hdone
        exact hdecode key' hdone
  · intro hn
    have hdone : diskAnnSelectRandomShadowRow pIndex kv nShadowRows randVal = .error .done := by
      unfold diskAnnSelectRandomShadowRow
      rw [if_pos hn]
      rcases hfirst : kv.seekGE pIndex.aKeyPrefix with - | ⟨key, v⟩
      · rfl
      · simp only [not_hasKeyPrefix hk hrow (kv.seekGE_spec hfirst).1, Bool.false_eq_true, if_false]
    exact ⟨iff_of_true hdone hrow, fun h => absurd h hrow⟩

end Correct

end MoVeBench
