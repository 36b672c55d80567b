/-
MoVeBench/Lsm/Freelist.lean

The free-block list of a worker snapshot, and the allocation of blocks.

The list is an overlay of three layers: entries stored in the LSM, the list of
the snapshot, and the temporary list that takes the changes made while a level
is being written.  An entry of an upper layer with a negative id says that the
block is not free (`FreeList.iId?`).
-/
import MoVeBench.Lib.SortedMap

namespace MoVeBench

namespace Lsm

/-! ### The layers of the list -/

/-- The free-block list: blocks with the snapshot ids at which they were
freed. -/
structure FreeList where
  /-- The entries in the LSM. -/
  stored : SortedMap ℕ ℤ
  /-- `Snapshot.freelist`. -/
  worker : SortedMap ℕ ℤ
  /-- `lsm_db.pFreelist`, while `bUseFreelist` is set. -/
  temp : Option (SortedMap ℕ ℤ)

/-- A layer over the layers below it. -/
def layer (upper : SortedMap ℕ ℤ) (below : Option ℤ) (iBlk : ℕ) : Option ℤ :=
  match upper.get? iBlk with
  | some iId => if iId < 0 then none else some iId
  | none => below

namespace FreeList

/-- The id at which the block was freed, if it is free. -/
def iId? (f : FreeList) (iBlk : ℕ) : Option ℤ :=
  let below := layer f.worker (layer f.stored none iBlk) iBlk
  match f.temp with
  | some temp => layer temp below iBlk
  | none => below

/-- The blocks with an entry in some layer, in order. -/
def keys (f : FreeList) : List ℕ :=
  ((f.stored.entries ++ f.worker.entries ++
    (f.temp.map SortedMap.entries).getD []).map Prod.fst).toFinset.sort (· ≤ ·)

end FreeList

/-- `freelistAppend`. -/
def freelistAppend (f : FreeList) (iBlk : ℕ) (iId : ℤ) : FreeList :=
  match f.temp with
  | some temp => { f with temp := some (temp.insert iBlk iId) }
  | none => { f with worker := f.worker.insert iBlk iId }

/-- The entries that `lsmWalkFreelist` passes to its callback, in order. -/
def lsmWalkFreelist (f : FreeList) (bReverse : Bool) : List (ℕ × ℤ) :=
  let entries := f.keys.filterMap fun iBlk => (f.iId? iBlk).map (iBlk, ·)
  if bReverse then entries.reverse else entries

/-- Free-list entries are written into a new level or a merge: the entries of the
worker's list, as of before, go into the LSM, and the changes made meanwhile
become the worker's list. -/
def flushFreelist (f : FreeList) : FreeList where
  stored := f.worker.entries.foldl (fun stored e =>
    if e.2 < 0 then stored.erase e.1 else stored.insert e.1 e.2) f.stored
  worker := f.temp.getD SortedMap.empty
  temp := none

section Lists

variable {f : FreeList} {iBlk b : ℕ} {iId x : ℤ}

theorem iId?_nonneg (h : f.iId? b = some x) : 0 ≤ x := by
  have hlayer : ∀ {upper : SortedMap ℕ ℤ} {below : Option ℤ},
      (∀ y, below = some y → 0 ≤ y) → ∀ y, layer upper below b = some y → 0 ≤ y := by
    intro upper below hbelow y hy
    unfold layer at hy
    split at hy
    · split_ifs at hy with hneg
      rw [← Option.some.inj hy]
      exact not_lt.mp hneg
    · exact hbelow y hy
  have hnone : ∀ y, (none : Option ℤ) = some y → 0 ≤ y := fun y hy => by cases hy
  unfold FreeList.iId? at h
  simp only at h
  split at h
  · exact hlayer (hlayer (hlayer hnone)) _ h
  · exact hlayer (hlayer hnone) _ h

theorem mem_keys : b ∈ f.keys ↔ f.stored.get? b ≠ none ∨ f.worker.get? b ≠ none ∨
    ∃ temp, f.temp = some temp ∧ temp.get? b ≠ none := by
  have hkey : ∀ m : SortedMap ℕ ℤ, b ∈ m.entries.map Prod.fst ↔ m.get? b ≠ none := by
    intro m
    rw [ne_eq, m.get?_eq_none_iff]
    simp
  unfold FreeList.keys
  rw [Finset.mem_sort, List.mem_toFinset, List.map_append, List.map_append, List.mem_append,
    List.mem_append, hkey, hkey, or_assoc]
  refine or_congr Iff.rfl (or_congr Iff.rfl ?_)
  rcases f.temp with - | temp
  · simp
  · show b ∈ temp.entries.map Prod.fst ↔ _
    rw [hkey]
    simp

theorem mem_keys_of_iId? (h : f.iId? b = some x) : b ∈ f.keys := by
  by_contra hb
  rw [mem_keys, not_or, not_or, not_ne_iff, not_ne_iff] at hb
  obtain ⟨hstored, hworker, htemp⟩ := hb
  unfold FreeList.iId? layer at h
  simp only [hstored, hworker] at h
  rcases e : f.temp with - | temp
  · rw [e] at h
    cases h
  · rw [e] at h
    have htb : temp.get? b = none := by
      by_contra hne
      exact htemp ⟨temp, e, hne⟩
    simp only [htb] at h
    cases h

/-- The walk visits what is free, and nothing else. -/
theorem mem_lsmWalkFreelist {bReverse : Bool} :
    (b, x) ∈ lsmWalkFreelist f bReverse ↔ f.iId? b = some x := by
  have hmem : (b, x) ∈ (f.keys.filterMap fun iBlk => (f.iId? iBlk).map (iBlk, ·)) ↔
      f.iId? b = some x := by
    rw [List.mem_filterMap]
    constructor
    · rintro ⟨k, -, hk⟩
      obtain ⟨y, hy, hpair⟩ := Option.map_eq_some_iff.mp hk
      obtain ⟨rfl, rfl⟩ := Prod.mk.inj hpair
      exact hy
    · intro h
      exact ⟨b, mem_keys_of_iId? h, by rw [h]; rfl⟩
  unfold lsmWalkFreelist
  simp only
  split_ifs
  · rw [List.mem_reverse]
    exact hmem
  · exact hmem

@[simp] theorem iId?_append (f : FreeList) (iBlk : ℕ) (iId : ℤ) (b : ℕ) :
    (freelistAppend f iBlk iId).iId? b =
      if b = iBlk then if iId < 0 then none else some iId else f.iId? b := by
  unfold freelistAppend FreeList.iId?
  rcases f.temp with - | temp
  · simp only [layer]
    rw [SortedMap.get?_insert]
    by_cases hb : b = iBlk
    · simp only [if_pos hb]
    · simp only [if_neg hb]
  · simp only [layer]
    rw [SortedMap.get?_insert]
    by_cases hb : b = iBlk
    · simp only [if_pos hb]
    · simp only [if_neg hb]

/-- Entries written over a map, as the layers see it. -/
theorem layer_foldl (m stored : SortedMap ℕ ℤ) (b : ℕ) :
    layer (m.entries.foldl (fun stored e =>
      if e.2 < 0 then stored.erase e.1 else stored.insert e.1 e.2) stored) none b =
      layer m (layer stored none b) b := by
  obtain ⟨l, hl⟩ := m
  have hmem : ∀ (l : List (ℕ × ℤ)) (stored : SortedMap ℕ ℤ),
      l.Pairwise (fun a b => a.1 < b.1) →
      layer (l.foldl (fun stored e =>
        if e.2 < 0 then stored.erase e.1 else stored.insert e.1 e.2) stored) none b =
        match (l.find? fun e => e.1 = b).map Prod.snd with
        | some iId => if iId < 0 then none else some iId
        | none => layer stored none b := by
    intro l
    induction l with
    | nil => intro stored _; rfl
    | cons e l ih =>
        intro stored hsorted
        obtain ⟨hhead, htail⟩ := List.pairwise_cons.mp hsorted
        rw [List.foldl_cons, ih _ htail, List.find?_cons]
        by_cases he : e.1 = b
        · -- the entry of `b` is the only one
          have hnone : l.find? (fun e => e.1 = b) = none := by
            rw [List.find?_eq_none]
            intro e' he'
            have := hhead e' he'
            simp only [decide_eq_true_eq]
            omega
          rw [hnone]
          simp only [he, decide_true, Option.map_none, Option.map_some]
          by_cases hneg : e.2 < 0
          · rw [if_pos hneg, if_pos hneg]
            unfold layer
            rw [SortedMap.get?_erase, if_pos rfl]
          · rw [if_neg hneg, if_neg hneg]
            unfold layer
            rw [SortedMap.get?_insert, if_pos rfl]
            simp only
            rw [if_neg hneg]
        · simp only [decide_eq_false he]
          have hsame : layer (if e.2 < 0 then stored.erase e.1 else stored.insert e.1 e.2)
              none b = layer stored none b := by
            unfold layer
            split_ifs
            · rw [SortedMap.get?_erase, if_neg (Ne.symm he)]
            · rw [SortedMap.get?_insert_of_ne _ (Ne.symm he)]
          rw [hsame]
  exact hmem l stored hl

/-- Writing the list into the LSM does not change what is free. -/
theorem iId?_flush (f : FreeList) (b : ℕ) : (flushFreelist f).iId? b = f.iId? b := by
  unfold FreeList.iId? flushFreelist
  simp only
  rw [layer_foldl]
  rcases f.temp with - | temp
  · rfl
  · rfl

/-- Nor does a new temporary list, which is empty. -/
theorem iId?_beginTemp (h : f.temp = none) (b : ℕ) :
    ({ f with temp := some SortedMap.empty } : FreeList).iId? b = f.iId? b := by
  unfold FreeList.iId?
  rw [h]
  rfl

end Lists

/-! ### Allocation -/

/-- What block allocation uses of a snapshot. -/
structure Snapshot where
  iId : ℤ
  nBlock : ℕ
  freelist : FreeList
  /-- `redirect.a`: moved blocks, as pairs `iFrom`, `iTo`. -/
  redirect : List (ℕ × ℕ)

/-- `findFreeblock`. -/
def findFreeblock (p : Snapshot) (iInUse : ℤ) (bNotOne : Bool) : Option ℕ :=
  ((lsmWalkFreelist p.freelist false).find? fun e =>
    decide (e.2 < iInUse) && (e.1 ≠ 1 || !bNotOne)).map Prod.fst

/-- `blockIsRedirectSource`. -/
def blockIsRedirectSource (p : Snapshot) (iBlk : ℕ) : Bool := p.redirect.any fun e => e.1 = iBlk

/-- The first block from `iRet` on that is not the source of a redirect; at most
`k` are. -/
def skipRedirects (p : Snapshot) : ℕ → ℕ → ℕ
  | 0, iRet => iRet
  | k + 1, iRet => if blockIsRedirectSource p iRet then skipRedirects p k (iRet + 1) else iRet

/-- `lsmBlockAllocate`, once `iInUse` is known: the block, if there is one. -/
def lsmBlockAllocate (p : Snapshot) (iBefore : ℕ) (iInUse : ℤ) (bRotrans : Bool) :
    Snapshot × Option ℕ :=
  let iRet := if bRotrans then none else findFreeblock p iInUse (decide (0 < iBefore))
  match iRet with
  | some iBlk =>
      if 0 < iBefore ∧ iBefore ≤ iBlk then (p, none)
      else ({ p with freelist := freelistAppend p.freelist iBlk (-1) }, some iBlk)
  | none =>
      if 0 < iBefore then (p, none)
      else
        let iBlk := skipRedirects p p.redirect.length (p.nBlock + 1)
        ({ p with nBlock := iBlk }, some iBlk)

/-- `lsmBlockFree`. -/
def lsmBlockFree (p : Snapshot) (iBlk : ℕ) : Snapshot :=
  { p with freelist := freelistAppend p.freelist iBlk p.iId }

/-- `lsmBlockRefree`. -/
def lsmBlockRefree (p : Snapshot) (iBlk : ℕ) : Snapshot :=
  { p with freelist := freelistAppend p.freelist iBlk 0 }

section Allocate

variable {p p' : Snapshot} {iBefore b : ℕ} {iInUse : ℤ} {bRotrans : Bool}

theorem le_skipRedirects (p : Snapshot) (k iRet : ℕ) : iRet ≤ skipRedirects p k iRet := by
  induction k generalizing iRet with
  | zero => exact le_refl _
  | succ k ih =>
      unfold skipRedirects
      split_ifs
      · exact (Nat.le_succ iRet).trans (ih _)
      · exact le_refl _

/-- **What `lsmBlockAllocate` can do**: take a free block that was freed before
`iInUse`; extend the database, where no free block is found; or find no block
before `iBefore`. -/
theorem lsmBlockAllocate_cases (p : Snapshot) (iBefore : ℕ) (iInUse : ℤ) (bRotrans : Bool) :
    (∃ b x, p.freelist.iId? b = some x ∧ x < iInUse ∧ (0 < iBefore → b < iBefore) ∧
      lsmBlockAllocate p iBefore iInUse bRotrans =
        ({ p with freelist := freelistAppend p.freelist b (-1) }, some b)) ∨
    (∃ b, p.nBlock < b ∧ b = skipRedirects p p.redirect.length (p.nBlock + 1) ∧ iBefore = 0 ∧
      (bRotrans = true ∨ findFreeblock p iInUse false = none) ∧
      lsmBlockAllocate p iBefore iInUse bRotrans = ({ p with nBlock := b }, some b)) ∨
    lsmBlockAllocate p iBefore iInUse bRotrans = (p, none) := by
  unfold lsmBlockAllocate
  simp only
  rcases hret : (if bRotrans then none else
    findFreeblock p iInUse (decide (0 < iBefore))) with - | b
  · by_cases hbefore : 0 < iBefore
    · exact .inr (.inr (if_pos hbefore))
    · obtain rfl : iBefore = 0 := by omega
      refine .inr (.inl ⟨_, le_skipRedirects _ _ _, rfl, rfl, ?_, if_neg hbefore⟩)
      split_ifs at hret with hro
      · exact .inl hro
      · exact .inr hret
  · by_cases hb : 0 < iBefore ∧ iBefore ≤ b
    · exact .inr (.inr (if_pos hb))
    · have hfind : findFreeblock p iInUse (decide (0 < iBefore)) = some b := by
        split_ifs at hret
        exact hret
      obtain ⟨⟨b', x⟩, hfirst, rfl⟩ := Option.map_eq_some_iff.mp hfind
      have hmem := mem_lsmWalkFreelist.mp (List.mem_of_find?_eq_some hfirst)
      have hlt := List.find?_some hfirst
      simp only [Bool.and_eq_true, decide_eq_true_eq] at hlt
      exact .inl ⟨b', x, hmem, hlt.1, fun h => not_le.mp fun hle => hb ⟨h, hle⟩, if_neg hb⟩

end Allocate

end Lsm

end MoVeBench
