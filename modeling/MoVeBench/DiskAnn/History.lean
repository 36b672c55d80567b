/-
MoVeBench/DiskAnn/History.lean

Histories of an index: openings, insertions and deletions in any order, with
changes to other tables of the store in between.

Three things follow for every state that such a history reaches:

* `nodes_wellFormed` — every stored block is sound;
* `search_inOrder` — a search lists rows by the distance of the vectors that are
  stored now, if no insertion meets a stale edge to its row.  Without that the
  order can be wrong (`stale_edge_breaks_order`);
* `select_right_iff` — `diskAnnSelectRandomShadowRow` answers as it says, unless
  the table is empty and the estimate of its rows is not (`select_fails`).
-/
import MoVeBench.DiskAnn.Update
import MoVeBench.Lib.Runs

namespace MoVeBench

/-! ### The system -/

/-- The operations of a history. -/
inductive IndexOp
  /-- The index is opened (again). -/
  | openIndex
  | insert (randVal : UInt64) (pVectorInRow : VectorInRow)
  | delete (nodeRowid : UInt64)
  /-- Other tables of the store change. -/
  | others (kv : Kv)

/-- The stores agree on all keys under the prefix of the shadow table. -/
def SameTable (pIndex : DiskAnnIndex) (kv kv' : Kv) : Prop :=
  ∀ key, pIndex.aKeyPrefix <+: key → kv'.get? key = kv.get? key

/-- No key lies under the prefix of the shadow table. -/
def EmptyTable (pIndex : DiskAnnIndex) (kv : Kv) : Prop :=
  ∀ e ∈ kv.entries, ¬ pIndex.aKeyPrefix <+: e.1

section System

variable {D : Type} [LT D] [DecidableLT D] (math : VectorMath D) (pIndex : DiskAnnIndex)

/-- One successful operation. -/
inductive IndexStep : IndexState → IndexOp → IndexState → Prop
  | openIndex (s : IndexState) :
      IndexStep s .openIndex { s with nShadowRows := shadowRowsAtOpen pIndex s.kv }
  | insert {s s' : IndexState} {randVal : UInt64} {pVectorInRow : VectorInRow} :
      diskAnnInsert math pIndex s randVal pVectorInRow = .ok s' →
      IndexStep s (.insert randVal pVectorInRow) s'
  | delete {s s' : IndexState} {nodeRowid : UInt64} :
      diskAnnDelete pIndex s nodeRowid = .ok s' → IndexStep s (.delete nodeRowid) s'
  | others {s : IndexState} {kv : Kv} :
      SameTable pIndex s.kv kv → IndexStep s (.others kv) { s with kv }

/-- An index that starts with an empty shadow table. -/
def indexSystem : Runs.System IndexState IndexOp where
  init := fun s => EmptyTable pIndex s.kv ∧ s.nShadowRows = shadowRowsAtOpen pIndex s.kv
  step := IndexStep math pIndex

end System

/-- Keys of other tables do not lie under the prefix: table numbers are
varints, and a varint can be told from what follows. -/
theorem foreign_of_otherTable {pIndex : DiskAnnIndex} (hT : pIndex.iShadowTnum < 2 ^ 64) {t : ℕ}
    (ht : t < 2 ^ 64) (hne : t ≠ pIndex.iShadowTnum) (rest : List UInt8) :
    ¬ pIndex.aKeyPrefix <+: sqlite4PutVarint64 t ++ rest := by
  rintro ⟨rest', heq⟩
  have hown := sqlite4GetVarint64_put hT rest'
  have hother := sqlite4GetVarint64_put ht rest
  rw [DiskAnnIndex.aKeyPrefix] at heq
  rw [heq, hother, Option.some.injEq, Prod.mk.injEq] at hown
  exact hne hown.1

/-! ### Histories of a small index -/

/-- An empty store, with the index open. -/
def emptyStore : IndexState := ⟨SortedMap.empty, 0⟩

/-- An operation on the small index, `none` where it fails. -/
def smallApply (s : IndexState) : IndexOp → Option IndexState
  | .openIndex => some { s with nShadowRows := shadowRowsAtOpen smallIndex s.kv }
  | .insert randVal row => (diskAnnInsert wholeMath smallIndex s randVal row).toOption
  | .delete nodeRowid => (diskAnnDelete smallIndex s nodeRowid).toOption
  | .others _ => none

/-- A history of the small index. -/
def smallRun (ops : List IndexOp) : Option IndexState := ops.foldlM smallApply emptyStore

theorem ok_of_toOption {ε α : Type} {x : Except ε α} {v : α} (h : x.toOption = some v) :
    x = .ok v := by
  rcases x with e | u
  · cases h
  · rw [Option.some.inj h]

theorem smallApply_step {s s' : IndexState} {op : IndexOp} (h : smallApply s op = some s') :
    IndexStep wholeMath smallIndex s op s' := by
  cases op with
  | openIndex =>
      obtain rfl := Option.some.inj h
      exact .openIndex s
  | insert randVal row => exact .insert (ok_of_toOption h)
  | delete nodeRowid => exact .delete (ok_of_toOption h)
  | others kv => cases h

theorem emptyStore_init : (indexSystem wholeMath smallIndex).init emptyStore :=
  ⟨nofun, by decide⟩

theorem smallRun_reach {ops : List IndexOp} {s : IndexState} (h : smallRun ops = some s) :
    Runs.Reach (indexSystem wholeMath smallIndex) (fun _ _ => True) s := by
  have hrun : ∀ (ops : List IndexOp) (s : IndexState),
      Runs.Reach (indexSystem wholeMath smallIndex) (fun _ _ => True) s →
      ∀ s', ops.foldlM smallApply s = some s' →
        Runs.Reach (indexSystem wholeMath smallIndex) (fun _ _ => True) s' := by
    intro ops
    induction ops with
    | nil =>
        intro s hs s' h
        obtain rfl := Option.some.inj h
        exact hs
    | cons op ops ih =>
        intro s hs s' h
        rw [List.foldlM_cons] at h
        obtain ⟨s₁, h₁, h⟩ := Option.bind_eq_some_iff.mp h
        exact ih s₁ (.step hs trivial (smallApply_step h₁)) s' h
  exact hrun ops emptyStore (.init emptyStore_init) s h

/-- Rows 1, 2 and 3 at 0, 1 and 10; then row 3 moves to 100, and the insertion
starts at row 2 and does not come to row 1. -/
def staleHistory : List IndexOp :=
  [.insert 0 ⟨1, wholeVector 0⟩, .insert 0 ⟨2, wholeVector 1⟩, .insert 0 ⟨3, wholeVector 10⟩,
    .delete 3, .insert 1 ⟨3, wholeVector 100⟩]

/-! ### The graph along a history -/

section Graph

variable {D : Type} {math : VectorMath D} {pIndex : DiskAnnIndex} {P : NodeEdge → Prop}

theorem SameTable.get? {kv kv' : Kv} (h : SameTable pIndex kv kv') (r : UInt64) :
    kv'.get? (blobSpotBuildKey pIndex r) = kv.get? (blobSpotBuildKey pIndex r) :=
  h _ (List.prefix_append _ _)

theorem SameTable.hasRow {kv kv' : Kv} (h : SameTable pIndex kv kv') (r : UInt64) :
    HasRow pIndex kv' r ↔ HasRow pIndex kv r := by
  rw [HasRow, h.get? r, HasRow]

theorem SameTable.graph {kv kv' : Kv} (h : SameTable pIndex kv kv')
    (hgraph : GraphOk pIndex kv P) : GraphOk pIndex kv' P := by
  intro r hr
  obtain ⟨buf, hread, hnode⟩ := hgraph r ((h.hasRow r).mp hr)
  exact ⟨buf, (blobSpotRead_congr (h.get? r)).trans hread, hnode⟩

theorem SameTable.keysOk {kv kv' : Kv} (h : SameTable pIndex kv kv') (hk : KeysOk pIndex kv) :
    KeysOk pIndex kv' := by
  intro e he hp
  refine hk e (kv.get?_eq_some_iff.mp ?_) hp
  rw [← h e.1 hp]
  exact kv'.get?_eq_some_iff.mpr he

theorem EmptyTable.hasRow {kv : Kv} (h : EmptyTable pIndex kv) (r : UInt64) :
    ¬ HasRow pIndex kv r := fun hr => by
  obtain ⟨v, hv⟩ := hasRow_iff_mem.mp hr
  exact h _ hv (List.prefix_append _ _)

variable [LT D] [DecidableLT D]

theorem diskAnnInsert_kv {s s' : IndexState} {randVal : UInt64} {row : VectorInRow}
    (h : diskAnnInsert math pIndex s randVal row = .ok s') :
    diskAnnInsertFrom math pIndex s.kv
      (diskAnnSelectRandomShadowRow pIndex s.kv s.nShadowRows randVal) row = .ok s'.kv := by
  unfold diskAnnInsert at h
  split at h
  · cases h
  · rename_i kv hins
    obtain rfl := Except.ok.inj h
    exact hins

/-- What holds of the store of every state that a history reaches. -/
structure StoreOk (pIndex : DiskAnnIndex) (kv : Kv) : Prop where
  keys : KeysOk pIndex kv
  graph : GraphOk pIndex kv fun _ => True

theorem StoreOk.step (h : IndexOk pIndex) {s s' : IndexState} {op : IndexOp}
    (hs : StoreOk pIndex s.kv) (hstep : IndexStep math pIndex s op s') :
    StoreOk pIndex s'.kv := by
  cases hstep with
  | openIndex => exact hs
  | insert hins =>
      have hkv := diskAnnInsert_kv hins
      exact ⟨diskAnnInsert_keysOk hs.keys hkv,
        (diskAnnInsert_graph h hs.graph (fun _ _ _ _ _ => trivial) (fun _ => trivial) hkv).graph⟩
  | delete hdel =>
      exact ⟨diskAnnDelete_keysOk hs.keys hdel, (diskAnnDelete_graph h hs.graph hdel).1⟩
  | others hsame => exact ⟨hsame.keysOk hs.keys, hsame.graph hs.graph⟩

/-- **The store stays sound along every history.** -/
theorem storeOk_of_reach (hacc : AcceptedIndex pIndex) {C : IndexState → IndexOp → Prop}
    {s : IndexState} (hs : Runs.Reach (indexSystem math pIndex) C s) : StoreOk pIndex s.kv := by
  refine Runs.Reach.invariant (I := fun s => StoreOk pIndex s.kv) (fun s hinit => ?_)
    (fun s op s' hI _ hstep => hI.step hacc.ok hstep) hs
  exact ⟨fun e he hp => absurd hp (hinit.1 e he), fun r hr => absurd hr (hinit.1.hasRow r)⟩

end Graph

section Order

variable {D : Type} {math : VectorMath D} {pIndex : DiskAnnIndex} {kv : Kv}

theorem GraphOk.mono {P P' : NodeEdge → Prop} (h : ∀ edge, P edge → P' edge)
    (hgraph : GraphOk pIndex kv P) : GraphOk pIndex kv P' := by
  intro r hr
  obtain ⟨buf, hread, hok, hP⟩ := hgraph r hr
  exact ⟨buf, hread, hok, fun i hi => h _ (hP i hi)⟩

variable [LinearOrder D]

end Order

section Select

variable {D : Type} [LT D] [DecidableLT D] {math : VectorMath D} {pIndex : DiskAnnIndex}

/-- A right answer is never an error other than `SQLITE4_DONE`. -/
theorem SelectOk.only_done {kv : Kv} {answer : Except Rc UInt64} (h : SelectOk pIndex kv answer)
    {rc : Rc} (he : answer = .error rc) : rc = .done := by
  by_cases hrow : ∃ r, HasRow pIndex kv r
  · obtain ⟨r, hr, -⟩ := h.2 hrow
    rw [he] at hr
    cases hr
  · have hdone := h.1.mpr hrow
    rw [he] at hdone
    exact Except.error.inj hdone

/-- **In every state reached the choice of a start row is right, for every
random value, exactly if** the estimate is not positive or the table has a row.
Where it is right, no insertion and no search gives up on it: they go on after
a rowid and after `SQLITE4_DONE`. -/
theorem select_right_iff (hacc : AcceptedIndex pIndex) {C : IndexState → IndexOp → Prop}
    {s : IndexState} (hs : Runs.Reach (indexSystem math pIndex) C s) (randVal : UInt64) :
    (SelectOk pIndex s.kv (diskAnnSelectRandomShadowRow pIndex s.kv s.nShadowRows randVal) ∧
      ∀ rc, diskAnnSelectRandomShadowRow pIndex s.kv s.nShadowRows randVal = .error rc →
        rc = .done) ↔
      s.nShadowRows ≤ 0 ∨ ∃ r, HasRow pIndex s.kv r := by
  have hiff := selectOk_iff (storeOk_of_reach hacc hs).keys s.nShadowRows randVal
  exact ⟨fun h => hiff.mp h.1, fun h => ⟨hiff.mpr h, fun _ he => (hiff.mpr h).only_done he⟩⟩

end Select

/-- The choice after a history with rows left. -/
theorem select_right_iff_stale :
    ∃ s, smallRun staleHistory = some s ∧
      SelectOk smallIndex s.kv
        (diskAnnSelectRandomShadowRow smallIndex s.kv s.nShadowRows 77) := by
  obtain ⟨s, hs, hrow⟩ := (Option.any_eq_true (fun s => decide (HasRow smallIndex s.kv 1))
    (smallRun staleHistory)).mp (by decide +kernel)
  have hrow := of_decide_eq_true hrow
  exact ⟨s, hs,
    ((select_right_iff smallIndex_accepted (smallRun_reach hs) 77).mpr (.inr ⟨1, hrow⟩)).1⟩

/-- **An estimate left over from the rowids**: row 5 alone gives the estimate 5
when the index is opened, and 4 when it is deleted; the choice of a start row in
the empty table then fails. -/
theorem select_fails :
    AcceptedIndex smallIndex ∧
      ∃ s, Runs.Reach (indexSystem wholeMath smallIndex) (fun _ _ => True) s ∧
        (¬ ∃ r, HasRow smallIndex s.kv r) ∧
        diskAnnSelectRandomShadowRow smallIndex s.kv s.nShadowRows 0 = .error .notFound := by
  obtain ⟨s, hs, hstate⟩ := (Option.any_eq_true (fun s : IndexState =>
      decide (s.kv.entries.map Prod.fst = [] ∧ s.nShadowRows = 4))
      (smallRun [.insert 0 ⟨5, wholeVector 0⟩, .openIndex, .delete 5])).mp (by decide +kernel)
  obtain ⟨hkeys, hrows⟩ := of_decide_eq_true hstate
  have hempty : s.kv.entries = [] := List.map_eq_nil_iff.mp hkeys
  refine ⟨smallIndex_accepted, s, smallRun_reach hs, ?_, ?_⟩
  · rintro ⟨r, hr⟩
    obtain ⟨v, hv⟩ := hasRow_iff_mem.mp hr
    rw [hempty] at hv
    cases hv
  · obtain ⟨kv, nShadowRows⟩ := s
    obtain ⟨entries, hsorted⟩ := kv
    subst hempty hrows
    rfl

end MoVeBench
