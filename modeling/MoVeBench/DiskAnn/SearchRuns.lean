/-
MoVeBench/DiskAnn/SearchRuns.lean

The loop of a search as a system of rounds.

`diskAnnSearchLoop` counts its rounds; here a round is a step of a system
(`searchSystem`) that nothing bounds.  There is no infinite run of rounds, whatever graph
is stored (`diskAnnSearchInternal_terminates`): a row that is gone may be offered again,
but only by a row that is visited for the first time.

In every state that a search reaches, its assertions hold (`diskAnnSearchInternal_asserts`):
the count of the unvisited candidates, the order of both arrays of distances, what
is dropped and what falls out of a full list.
-/
import MoVeBench.DiskAnn.Search
import MoVeBench.DiskAnn.EdgeList
import MoVeBench.Lib.Runs

namespace MoVeBench

open Runs

/-- What the loop of `diskAnnSearchInternal` works on: the context and the reusable
spot. -/
abbrev SearchState (D : Type) := DiskAnnSearchCtx D × Option BlobSpot

section Model

variable {D : Type} [LT D] [DecidableLT D] (math : VectorMath D) (pIndex : DiskAnnIndex) (kv : Kv)

/-- The part of `diskAnnSearchInternal` in front of the loop. -/
def searchStart (pCtx : DiskAnnSearchCtx D) (nStartRowid : UInt64) :
    Except VectorError (SearchState D) :=
  let r := blobSpotReload pIndex kv (blobSpotCreate pIndex nStartRowid) nStartRowid
  match r.1 with
  | some rc => .error ⟨rc, "vector index(search): failed to load new blob"⟩
  | none =>
      let startVector := nodeBinVector pIndex r.2.pBuffer
      let startDistance := diskAnnVectorDistance math pIndex pCtx.query.pNode startVector
      let start := diskAnnNodeAlloc nStartRowid
      match pCtx.blobMode with
      | .readonly =>
          .ok (diskAnnSearchCtxInsertCandidate pCtx 0 start startDistance, some r.2)
      | .writable =>
          .ok (diskAnnSearchCtxInsertCandidate pCtx 0 { start with pBlobSpot := some r.2 }
            startDistance, none)

/-- One round of the loop that does not end the search, for the candidate at `i`. -/
inductive SearchTurn : SearchState D → ℕ → SearchState D → Prop
  | turn {s s' : SearchState D} {i : ℕ} {node : DiskAnnNode} {d : D}
      (hmore : diskAnnSearchCtxHasUnvisited s.1 = true)
      (hidx : diskAnnSearchCtxFindClosestCandidateIdx s.1 = some i)
      (hp : s.1.aCandidates[i]? = some (node, d))
      (hstep : diskAnnSearchStep math pIndex kv s.1 s.2 i node d = .ok s') :
      SearchTurn s i s'

/-- `diskAnnSearchInternal` is its first part and the loop. -/
theorem diskAnnSearchInternal_eq (pCtx : DiskAnnSearchCtx D) (nStartRowid : UInt64) :
    diskAnnSearchInternal math pIndex kv pCtx nStartRowid =
      match searchStart math pIndex kv pCtx nStartRowid with
      | .error e => .error e
      | .ok s => diskAnnSearchLoop math pIndex kv (searchFuel kv) s.1 s.2 := by
  unfold diskAnnSearchInternal searchStart
  generalize blobSpotReload pIndex kv (blobSpotCreate pIndex nStartRowid) nStartRowid = r
  obtain ⟨code, spot⟩ := r
  rcases code with - | rc
  · simp only
    rcases pCtx.blobMode with - | -
    · rfl
    · rfl
  · rfl

end Model

/-! ### Termination -/

section Termination

variable {D : Type} {math : VectorMath D} {pIndex : DiskAnnIndex} {kv : Kv}
  {query : VectorPair} {s s' : SearchState D}

/-- What holds in front of every round. -/
structure StateInv (pIndex : DiskAnnIndex) (kv : Kv) (query : VectorPair) (s : SearchState D) :
    Prop where
  ctx : CtxInv (blobSpotRead pIndex kv) (SpotOk pIndex kv) query (fun _ _ => True) s.1
  reusable : ReusableOk (SpotOk pIndex kv) s.1 s.2

/-- Rounds left at most, by the number of entries of the store. -/
def stateMeasure (kv : Kv) (s : SearchState D) : ℕ := searchMeasure kv.entries.length s.1

theorem weightsOk_true (math : VectorMath D) (pIndex : DiskAnnIndex)
    (read : UInt64 → Except Rc (List UInt8)) (query : VectorPair) :
    WeightsOk math pIndex read query fun _ _ => True :=
  ⟨fun _ _ _ _ _ => trivial, fun _ _ _ _ _ _ => trivial⟩

/-- The state in front of the first round. -/
theorem StateInv.start {pQuery : Vector} {maxCandidates topCandidates : ℕ} {blobMode : BlobMode}
    {pCtx : DiskAnnSearchCtx D} {nStartRowid : UInt64}
    (hinit : diskAnnSearchCtxInit math pIndex pQuery maxCandidates topCandidates blobMode =
      some pCtx)
    (hstart : searchStart math pIndex kv pCtx nStartRowid = .ok s) :
    StateInv pIndex kv (loadVectorPair math pIndex pQuery) s ∧
      stateMeasure kv s ≤ searchFuel kv := by
  obtain ⟨hok, -, -⟩ := blobSpotReload_spec (SpotOk.create pIndex kv nStartRowid) nStartRowid
  unfold searchStart at hstart
  generalize blobSpotReload pIndex kv (blobSpotCreate pIndex nStartRowid) nStartRowid = r
    at hok hstart
  obtain ⟨code, spot⟩ := r
  rcases code with - | rc
  swap
  · cases hstart
  simp only at hok hstart
  split at hstart
  · rename_i hread
    obtain rfl := Except.ok.inj hstart
    obtain ⟨hins, hfuel⟩ := CtxInv.start (S := SpotOk pIndex kv) (R := fun _ _ => True)
      (blobSpotRead pIndex kv) hinit (diskAnnNodeAlloc nStartRowid) rfl
      (by simp [diskAnnNodeAlloc]) trivial
    refine ⟨⟨hins, ?_, fun hw => absurd (hread.symm.trans hw) (by simp)⟩, hfuel _⟩
    rintro spot' ⟨⟩
    exact hok
  · obtain rfl := Except.ok.inj hstart
    obtain ⟨hins, hfuel⟩ := CtxInv.start (S := SpotOk pIndex kv) (R := fun _ _ => True)
      (blobSpotRead pIndex kv) hinit
      { diskAnnNodeAlloc nStartRowid with pBlobSpot := some spot } rfl
      (by rintro spot' ⟨⟩; exact hok) trivial
    exact ⟨⟨hins, by simp, fun _ => rfl⟩, hfuel _⟩

variable [LT D] [DecidableLT D]

theorem visitInv_true : VisitInv fun _ : DiskAnnSearchCtx D => True :=
  ⟨fun _ _ _ _ _ => trivial, fun _ _ _ _ => trivial⟩

/-- **A round keeps the invariant and makes the measure smaller.** -/
theorem StateInv.turn (h : StateInv pIndex kv query s) {i : ℕ}
    (hturn : SearchTurn math pIndex kv s i s') :
    StateInv pIndex kv query s' ∧ stateMeasure kv s' < stateMeasure kv s := by
  obtain ⟨-, hidx, hp, hstep⟩ := hturn
  obtain ⟨hre, hround⟩ := diskAnnSearchStep_round h.ctx h.reusable hp hstep
  obtain ⟨hctx, -, hmode, -, hlt⟩ := h.ctx.step (weightsOk_true math pIndex _ query) visitInv_true
    trivial (rowsLe_kv pIndex kv) hp (findClosest_some hidx hp) hround
  exact ⟨⟨hctx, ⟨hre.holds, fun hw => hre.own (hmode ▸ hw)⟩⟩, hlt⟩

/-- Fuel that is enough is as good as any more. -/
theorem diskAnnSearchLoop_fuel {fuel fuel' : ℕ} (h : StateInv pIndex kv query s)
    (hfuel : stateMeasure kv s ≤ fuel) (hle : fuel ≤ fuel') :
    diskAnnSearchLoop math pIndex kv fuel' s.1 s.2 =
      diskAnnSearchLoop math pIndex kv fuel s.1 s.2 := by
  induction fuel generalizing s fuel' with
  | zero =>
      have hnone : diskAnnSearchCtxHasUnvisited s.1 = false := by
        have hzero : s.1.nUnvisited = 0 := by
          unfold stateMeasure searchMeasure at hfuel
          omega
        simp [diskAnnSearchCtxHasUnvisited, hzero]
      rcases fuel' with - | fuel'
      · rfl
      · unfold diskAnnSearchLoop
        rw [if_neg (by simp [hnone])]
  | succ fuel ih =>
      obtain ⟨fuel', rfl⟩ : ∃ k, fuel' = k + 1 := ⟨fuel' - 1, by omega⟩
      unfold diskAnnSearchLoop
      split_ifs with hmore
      · rcases hidx : diskAnnSearchCtxFindClosestCandidateIdx s.1 with - | i
        · rfl
        rcases hp : s.1.aCandidates[i]? with - | ⟨node, d⟩
        · simp only [hp]
        rcases hstep : diskAnnSearchStep math pIndex kv s.1 s.2 i node d with e | s'
        · simp only [hp, hstep]
        · simp only [hp, hstep]
          obtain ⟨h', hlt⟩ := h.turn (.turn hmore hidx hp hstep)
          exact ih h' (by omega) (by omega)
      · rfl

/-- **A search ends**: from its start no run of rounds is infinite, whatever is stored,
and more rounds than `searchFuel` allows would not change its answer; without an
error it ends because no candidate is left. -/
theorem diskAnnSearchInternal_terminates {pQuery : Vector} {maxCandidates topCandidates : ℕ}
    {blobMode : BlobMode} {pCtx : DiskAnnSearchCtx D} {nStartRowid : UInt64}
    (hinit : diskAnnSearchCtxInit math pIndex pQuery maxCandidates topCandidates blobMode =
      some pCtx)
    (hstart : searchStart math pIndex kv pCtx nStartRowid = .ok s) :
    Acc (fun t s => ∃ i, SearchTurn math pIndex kv s i t) s ∧
      (∀ fuel, searchFuel kv ≤ fuel → diskAnnSearchLoop math pIndex kv fuel s.1 s.2 =
        diskAnnSearchInternal math pIndex kv pCtx nStartRowid) ∧
      ∀ pCtx', diskAnnSearchInternal math pIndex kv pCtx nStartRowid = .ok pCtx' →
        diskAnnSearchCtxHasUnvisited pCtx' = false := by
  obtain ⟨hinv, hfuel⟩ := StateInv.start hinit hstart
  have hinternal : diskAnnSearchInternal math pIndex kv pCtx nStartRowid =
      diskAnnSearchLoop math pIndex kv (searchFuel kv) s.1 s.2 := by
    rw [diskAnnSearchInternal_eq, hstart]
  refine ⟨?_, ?_, ?_⟩
  · refine acc_of_measure (I := StateInv pIndex kv (loadVectorPair math pIndex pQuery))
      (stateMeasure kv) ?_ hinv
    rintro s t h ⟨i, hturn⟩
    exact h.turn hturn
  · intro fuel hle
    rw [hinternal, diskAnnSearchLoop_fuel hinv hfuel hle]
  · intro pCtx' hdone
    rw [hinternal] at hdone
    exact (diskAnnSearchLoop_run (weightsOk_true math pIndex _ _) visitInv_true hinv.ctx trivial
      hinv.reusable hfuel hdone).2.2.2.2

theorem diskAnnSearchInternal_terminates_twoRows :
    ∃ s : SearchState ℕ, Acc (fun t s => ∃ i, SearchTurn wholeMath smallIndex twoRows s i t) s := by
  obtain ⟨pCtx, hinit⟩ : ∃ pCtx : DiskAnnSearchCtx ℕ,
      diskAnnSearchCtxInit wholeMath smallIndex (wholeVector 10) 200 1 .readonly = some pCtx :=
    ⟨_, rfl⟩
  have hsome : ((diskAnnSearchCtxInit wholeMath smallIndex (wholeVector 10) 200 1 .readonly).bind
      fun pCtx => (searchStart wholeMath smallIndex twoRows pCtx 1).toOption).isSome = true := by
    decide +kernel
  rw [hinit, Option.bind_some] at hsome
  rcases hstart : searchStart wholeMath smallIndex twoRows pCtx 1 with e | s
  · rw [hstart] at hsome
    cases hsome
  · exact ⟨s, (diskAnnSearchInternal_terminates hinit hstart).1⟩

end Termination

/-! ### Assertions -/

section Asserts

variable {D : Type} [LT D] [DecidableLT D] (math : VectorMath D) (pIndex : DiskAnnIndex) (kv : Kv)

/-- A call of `diskAnnSearchCtxInsertCandidate`. -/
structure Insertion (D : Type) where
  pCtx : DiskAnnSearchCtx D
  iInsert : ℕ
  pCandidate : DiskAnnNode
  distance : D

/-- What falls out of the list. -/
def Insertion.pLast (ins : Insertion D) : Option (DiskAnnNode × D) :=
  (bufferInsert ins.pCtx.aCandidates ins.pCtx.maxCandidates ins.iInsert
    (ins.pCandidate, ins.distance)).2

/-- The insertion that one edge leads to. -/
def edgeInsertion (pCtx : DiskAnnSearchCtx D) (edge : NodeEdge) : Option (Insertion D) :=
  if diskAnnSearchCtxIsVisited pCtx edge.rowid || diskAnnSearchCtxHasCandidate pCtx edge.rowid then
    none
  else
    let distance := diskAnnVectorDistance math pIndex pCtx.query.pEdge edge.vector
    (diskAnnSearchCtxShouldAddCandidate pCtx distance).map fun iInsert =>
      ⟨pCtx, iInsert, diskAnnNodeAlloc edge.rowid, distance⟩

/-- The insertions of the loop over edges. -/
def edgeInsertions : List NodeEdge → DiskAnnSearchCtx D → List (Insertion D)
  | [], _ => []
  | edge :: edges, pCtx =>
      (edgeInsertion math pIndex pCtx edge).toList ++
        edgeInsertions edges (diskAnnSearchEdge math pIndex pCtx edge)

/-- The candidate of a round, and its distance. -/
def roundCandidate (s : SearchState D) : Option (ℕ × DiskAnnNode × D) :=
  if diskAnnSearchCtxHasUnvisited s.1 then
    (diskAnnSearchCtxFindClosestCandidateIdx s.1).bind fun i =>
      s.1.aCandidates[i]?.map fun p => (i, p.1, p.2)
  else none

/-- The node that `diskAnnSearchCtxDeleteCandidate` finds in a round, with the blob that it
has by then. -/
def roundRemoved (s : SearchState D) : Option DiskAnnNode :=
  (roundCandidate s).bind fun c =>
    match loadCandidate pIndex kv s.2 c.2.1 with
    | (some .rowNotFound, node, _, _) => some node
    | _ => none

/-- The node that `diskAnnSearchCtxMarkVisited` finds in a round. -/
def roundMarked (s : SearchState D) : Option DiskAnnNode :=
  (roundCandidate s).bind fun c =>
    match loadCandidate pIndex kv s.2 c.2.1 with
    | (none, node, _, _) => some node
    | _ => none

/-- The insertions of a round. -/
def roundInsertions (s : SearchState D) : List (Insertion D) :=
  match roundCandidate s with
  | none => []
  | some (i, node, d) =>
      match loadCandidate pIndex kv s.2 node with
      | (none, node, _, buf) =>
          edgeInsertions math pIndex (edgesOf pIndex buf)
            (diskAnnSearchCtxMarkVisited s.1 i node (visitDistance math pIndex s.1 buf d))
      | _ => []

end Asserts

/-! ### The arrays -/

section Arrays

variable {D : Type} (pCtx : DiskAnnSearchCtx D)

/-- The four arrays of a context, apart as the source keeps them. -/
@[ext] structure SearchArrays (D : Type) where
  aCandidates : List DiskAnnNode
  aDistances : List D
  aTopCandidates : List UInt64
  aTopDistances : List D

def DiskAnnSearchCtx.arrays : SearchArrays D where
  aCandidates := pCtx.aCandidates.map Prod.fst
  aDistances := pCtx.aCandidates.map Prod.snd
  aTopCandidates := pCtx.aTopCandidates.map Prod.fst
  aTopDistances := pCtx.aTopCandidates.map Prod.snd

/-- The two `bufferInsert`s of `diskAnnSearchCtxInsertCandidate`. -/
def SearchArrays.insertCandidate (a : SearchArrays D) (maxCandidates iInsert : ℕ)
    (pCandidate : DiskAnnNode) (distance : D) : SearchArrays D :=
  { a with
    aCandidates := (bufferInsert a.aCandidates maxCandidates iInsert pCandidate).1
    aDistances := (bufferInsert a.aDistances maxCandidates iInsert distance).1 }

/-- The two `bufferDelete`s of `diskAnnSearchCtxDeleteCandidate`. -/
def SearchArrays.deleteCandidate (a : SearchArrays D) (iDelete : ℕ) : SearchArrays D :=
  { a with
    aCandidates := bufferDelete a.aCandidates iDelete
    aDistances := bufferDelete a.aDistances iDelete }

/-- `diskAnnSearchCtxMarkVisited`: the node that entry `iCandidate` points to changes, and
the two arrays of top candidates get a new entry. -/
def SearchArrays.markVisited [LT D] [DecidableLT D] (a : SearchArrays D) (maxTopCandidates : ℕ)
    (iCandidate : ℕ) (pNode : DiskAnnNode) (distance : D) : SearchArrays D :=
  let a := { a with
    aCandidates := a.aCandidates.modify iCandidate fun _ => { pNode with visited := true } }
  match distanceBufferInsertIdx a.aTopDistances maxTopCandidates distance with
  | none => a
  | some iInsert =>
      { a with
        aTopCandidates := (bufferInsert a.aTopCandidates maxTopCandidates iInsert pNode.nRowid).1
        aTopDistances := (bufferInsert a.aTopDistances maxTopCandidates iInsert distance).1 }

theorem insertCandidate_arrays (iInsert : ℕ) (pCandidate : DiskAnnNode) (distance : D) :
    (diskAnnSearchCtxInsertCandidate pCtx iInsert pCandidate distance).arrays =
      pCtx.arrays.insertCandidate pCtx.maxCandidates iInsert pCandidate distance := by
  have hnodes := bufferInsert_map Prod.fst pCtx.aCandidates pCtx.maxCandidates iInsert
    (pCandidate, distance)
  have hdistances := bufferInsert_map Prod.snd pCtx.aCandidates pCtx.maxCandidates iInsert
    (pCandidate, distance)
  apply SearchArrays.ext
  · exact (congrArg Prod.fst hnodes).symm
  · exact (congrArg Prod.fst hdistances).symm
  · rfl
  · rfl

/-- Marking a node leaves the distances alone. -/
theorem modify_map_snd (l : List (DiskAnnNode × D)) (i : ℕ) (pNode : DiskAnnNode) :
    (l.modify i fun p => (({ pNode with visited := true } : DiskAnnNode), p.2)).map Prod.snd =
      l.map Prod.snd := by
  apply List.ext_getElem?
  intro j
  simp only [List.getElem?_map, List.getElem?_modify]
  rcases l[j]? with - | q
  · rfl
  · simp only [Option.map_some]
    split_ifs <;> rfl

end Arrays

section Order

variable {D : Type} [LinearOrder D] {math : VectorMath D} {pIndex : DiskAnnIndex} {kv : Kv}
  {query : VectorPair} {pCtx : DiskAnnSearchCtx D} {s s' : SearchState D}

/-- The distances of the candidates are in order. -/
def SortedCandidates (pCtx : DiskAnnSearchCtx D) : Prop :=
  (pCtx.aCandidates.map Prod.snd).Pairwise (· ≤ ·)

/-- Candidates that are not visited own no blob. -/
def BareCandidates {D : Type} (pCtx : DiskAnnSearchCtx D) : Prop :=
  ∀ p ∈ pCtx.aCandidates, p.1.visited = false → p.1.pBlobSpot = none

/-- What is asserted of an insertion, and of what falls out. -/
structure InsertionOk (ins : Insertion D) : Prop where
  count : ins.pCtx.nUnvisited = ins.pCtx.aCandidates.countP fun p => !p.1.visited
  sorted : SortedCandidates ins.pCtx
  bounded : ins.pCtx.aCandidates.length ≤ ins.pCtx.maxCandidates
  place : ins.iInsert ≤ ins.pCtx.aCandidates.length ∧ ins.iInsert < ins.pCtx.maxCandidates
  evicted : ∀ p ∈ ins.pLast, p.1.visited = false → p.1.pBlobSpot = none
  parallel : (diskAnnSearchCtxInsertCandidate ins.pCtx ins.iInsert ins.pCandidate
      ins.distance).arrays =
    ins.pCtx.arrays.insertCandidate ins.pCtx.maxCandidates ins.iInsert ins.pCandidate ins.distance

/-- What is asserted in front of a round and in it. -/
structure RoundOk (math : VectorMath D) (pIndex : DiskAnnIndex) (kv : Kv) (s : SearchState D) :
    Prop where
  count : s.1.nUnvisited = s.1.aCandidates.countP fun p => !p.1.visited
  sorted : SortedCandidates s.1
  topSorted : (s.1.aTopCandidates.map Prod.snd).Pairwise (· ≤ ·)
  topPlace : ∀ distance i,
    distanceBufferInsertIdx (s.1.aTopCandidates.map Prod.snd) s.1.maxTopCandidates distance =
        some i →
      s.1.aTopCandidates.length ≤ s.1.maxTopCandidates ∧ i ≤ s.1.aTopCandidates.length ∧
        i < s.1.maxTopCandidates
  found : diskAnnSearchCtxHasUnvisited s.1 = true → (roundCandidate s).isSome = true
  marked : ∀ node ∈ roundMarked pIndex kv s, 0 < s.1.nUnvisited ∧ node.visited = false
  removed : ∀ node ∈ roundRemoved pIndex kv s, 0 < s.1.nUnvisited ∧ node.visited = false ∧
    (s.1.blobMode = .readonly → node.pBlobSpot = none)
  inserted : ∀ ins ∈ roundInsertions math pIndex kv s, InsertionOk ins
  parallelDelete : ∀ i, (diskAnnSearchCtxDeleteCandidate s.1 i).arrays =
    s.1.arrays.deleteCandidate i
  parallelMark : ∀ i node d, (diskAnnSearchCtxMarkVisited s.1 i node d).arrays =
    s.1.arrays.markVisited s.1.maxTopCandidates i node d

/-! ### Insertions -/

theorem mem_bufferInsert {α : Type} {l : List α} {nMaxSize i : ℕ} {x : α} (hi : i ≤ l.length)
    (hmax : i < nMaxSize) {p : α} (hp : p ∈ (bufferInsert l nMaxSize i x).1) :
    p = x ∨ p ∈ l := by
  have hmem : p ∈ l.take i ++ x :: l.drop i := by
    rw [← bufferInsert_eq l x hi hmax]
    exact List.mem_append_left _ hp
  rcases List.mem_append.mp hmem with hp | hp
  · exact .inr (List.mem_of_mem_take hp)
  · exact (List.mem_cons.mp hp).imp_right List.mem_of_mem_drop

theorem mem_of_bufferInsert_last {α : Type} {l : List α} {nMaxSize i : ℕ} {x p : α}
    (hp : p ∈ (bufferInsert l nMaxSize i x).2) : p ∈ l := by
  unfold bufferInsert at hp
  split_ifs at hp
  · exact List.mem_of_getLast? hp
  · cases hp

/-- An insertion at the place that `distanceBufferInsertIdx` finds keeps the order. -/
theorem SortedCandidates.insert (h : SortedCandidates pCtx)
    (hlen : pCtx.aCandidates.length ≤ pCtx.maxCandidates) {i : ℕ} {d : D} (node : DiskAnnNode)
    (hidx : diskAnnSearchCtxShouldAddCandidate pCtx d = some i) :
    SortedCandidates (diskAnnSearchCtxInsertCandidate pCtx i node d) := by
  obtain ⟨hle, hmax, hnear, hfar⟩ :=
    distanceBufferInsertIdx_some (by rw [List.length_map]; exact hlen) hidx
  have hlist := (bufferInsert_eq_take pCtx.aCandidates (node, d)
    (by rwa [List.length_map] at hle) hmax hlen)
  unfold SortedCandidates diskAnnSearchCtxInsertCandidate
  simp only [hlist, List.map_take, List.map_append, List.map_cons, List.map_drop]
  refine List.Pairwise.sublist (List.take_sublist _ _) ?_
  unfold SortedCandidates at h
  generalize pCtx.aCandidates.map Prod.snd = l at h hle hnear hfar ⊢
  -- everything behind the place is farther, since the first of it is
  have hbehind : ∀ b ∈ l.drop i, d ≤ b := by
    intro b hb
    rcases Nat.lt_or_ge i l.length with hlt | hge
    · have hhead := (hfar hlt).le
      have hsorted := h.sublist (List.drop_sublist i l)
      rw [List.drop_eq_getElem_cons hlt] at hb hsorted
      rcases List.mem_cons.mp hb with rfl | hb
      · exact hhead
      · exact hhead.trans ((List.pairwise_cons.mp hsorted).1 b hb)
    · rw [List.drop_eq_nil_of_le hge] at hb
      cases hb
  have hbefore : ∀ a ∈ l.take i, a ≤ d := fun a ha => not_lt.mp (hnear a ha)
  refine List.pairwise_append.mpr ⟨h.sublist (List.take_sublist i l),
    List.pairwise_cons.mpr ⟨hbehind, h.sublist (List.drop_sublist i l)⟩, ?_⟩
  intro a ha b hb
  rcases List.mem_cons.mp hb with rfl | hb
  · exact hbefore a ha
  · exact (hbefore a ha).trans (hbehind b hb)

/-- What the loop over edges keeps, besides the context's own invariant. -/
structure EdgeInv (pIndex : DiskAnnIndex) (kv : Kv) (query : VectorPair)
    (pCtx : DiskAnnSearchCtx D) : Prop where
  ctx : CtxInv (blobSpotRead pIndex kv) (SpotOk pIndex kv) query (fun _ _ => True) pCtx
  sorted : SortedCandidates pCtx
  bare : BareCandidates pCtx

/-- **One edge**: the insertion that it leads to is as asserted. -/
theorem EdgeInv.searchEdge (math : VectorMath D) (h : EdgeInv pIndex kv query pCtx)
    (edge : NodeEdge) :
    EdgeInv pIndex kv query (diskAnnSearchEdge math pIndex pCtx edge) ∧
      ∀ ins ∈ edgeInsertion math pIndex pCtx edge, InsertionOk ins := by
  have hctx : CtxInv (blobSpotRead pIndex kv) (SpotOk pIndex kv) query (fun _ _ => True)
      (diskAnnSearchEdge math pIndex pCtx edge) :=
    (h.ctx.searchEdge math trivial).1
  refine ⟨⟨hctx, ?_, ?_⟩, ?_⟩
  · unfold diskAnnSearchEdge
    split_ifs
    · exact h.sorted
    · simp only
      split
      · exact h.sorted
      · rename_i hidx
        exact h.sorted.insert h.ctx.bounded _ hidx
  · unfold diskAnnSearchEdge
    split_ifs
    · exact h.bare
    · simp only
      split
      · exact h.bare
      · rename_i i hidx
        obtain ⟨hle, hmax, -, -⟩ :=
          distanceBufferInsertIdx_some (by rw [List.length_map]; exact h.ctx.bounded) hidx
        rw [List.length_map] at hle
        intro p hp hv
        rcases mem_bufferInsert hle hmax hp with rfl | hp
        · rfl
        · exact h.bare p hp hv
  · intro ins hins
    unfold edgeInsertion at hins
    split_ifs at hins
    · cases hins
    · obtain ⟨i, hidx, rfl⟩ := Option.map_eq_some_iff.mp hins
      obtain ⟨hle, hmax, -, -⟩ :=
        distanceBufferInsertIdx_some (by rw [List.length_map]; exact h.ctx.bounded) hidx
      rw [List.length_map] at hle
      refine ⟨h.ctx.count, h.sorted, h.ctx.bounded, ⟨hle, hmax⟩, ?_,
        insertCandidate_arrays _ _ _ _⟩
      intro p hp
      exact h.bare p (mem_of_bufferInsert_last hp)

theorem EdgeInv.searchEdges (math : VectorMath D) (edges : List NodeEdge)
    (h : EdgeInv pIndex kv query pCtx) :
    EdgeInv pIndex kv query (edges.foldl (diskAnnSearchEdge math pIndex) pCtx) ∧
      ∀ ins ∈ edgeInsertions math pIndex edges pCtx, InsertionOk ins := by
  induction edges generalizing pCtx with
  | nil => exact ⟨h, fun ins hins => absurd hins List.not_mem_nil⟩
  | cons edge edges ih =>
      obtain ⟨hnext, hone⟩ := h.searchEdge math edge
      obtain ⟨hlast, hrest⟩ := ih hnext
      refine ⟨hlast, ?_⟩
      intro ins hins
      rcases List.mem_append.mp hins with hins | hins
      · exact hone ins (Option.mem_toList.mp hins)
      · exact hrest ins hins

theorem diskAnnSearchEdges_eq (math : VectorMath D) (pIndex : DiskAnnIndex) (buf : List UInt8)
    (pCtx : DiskAnnSearchCtx D) :
    diskAnnSearchEdges math pIndex buf pCtx =
      (edgesOf pIndex buf).foldl (diskAnnSearchEdge math pIndex) pCtx := by
  rw [edgesOf, List.foldl_map]
  rfl

/-! ### Rounds -/

omit [LinearOrder D] in
theorem roundCandidate_some {i : ℕ} {node : DiskAnnNode} {d : D}
    (h : roundCandidate s = some (i, node, d)) :
    diskAnnSearchCtxHasUnvisited s.1 = true ∧
      diskAnnSearchCtxFindClosestCandidateIdx s.1 = some i ∧
      s.1.aCandidates[i]? = some (node, d) ∧ node.visited = false := by
  unfold roundCandidate at h
  split_ifs at h with hmore
  obtain ⟨j, hidx, hmap⟩ := Option.bind_eq_some_iff.mp h
  obtain ⟨p, hp, heq⟩ := Option.map_eq_some_iff.mp hmap
  obtain ⟨rfl, rfl⟩ : j = i ∧ p = (node, d) := by simpa using heq
  exact ⟨hmore, hidx, hp, findClosest_some hidx hp⟩

omit [LinearOrder D] in
theorem roundRemoved_some {node : DiskAnnNode} (hnode : node ∈ roundRemoved pIndex kv s) :
    ∃ i cand d re buf, roundCandidate s = some (i, cand, d) ∧
      loadCandidate pIndex kv s.2 cand = (some .rowNotFound, node, re, buf) := by
  obtain ⟨⟨i, cand, d⟩, hcand, hmatch⟩ := Option.bind_eq_some_iff.mp hnode
  rcases hload : loadCandidate pIndex kv s.2 cand with ⟨rc, node', re, buf⟩
  simp only [hload] at hmatch
  split at hmatch
  · rename_i heq
    simp only [Prod.mk.injEq] at heq
    obtain ⟨rfl, rfl, -⟩ := heq
    obtain rfl := Option.some.inj hmatch
    exact ⟨i, cand, d, re, buf, hcand, hload⟩
  · cases hmatch

omit [LinearOrder D] in
/-- Without a reusable spot, a candidate gets a blob before its row is found missing. -/
theorem roundRemoved_owns (hre : s.2 = none) {node : DiskAnnNode}
    (hnode : node ∈ roundRemoved pIndex kv s) : node.pBlobSpot.isSome = true := by
  obtain ⟨_, cand, _, _, _, _, hload⟩ := roundRemoved_some hnode
  unfold loadCandidate at hload
  rw [hre] at hload
  simp only [Prod.mk.injEq] at hload
  rw [← hload.2.1]
  rfl

theorem SearchTurn.candidate {i : ℕ} (hturn : SearchTurn math pIndex kv s i s') :
    ∃ node d, roundCandidate s = some (i, node, d) ∧
      diskAnnSearchStep math pIndex kv s.1 s.2 i node d = .ok s' := by
  obtain ⟨hmore, hidx, hp, hstep⟩ := hturn
  refine ⟨_, _, ?_, hstep⟩
  unfold roundCandidate
  rw [if_pos hmore, hidx, Option.bind_some, hp, Option.map_some]

/-- What holds in front of every round.  In a search that writes, the start node has a
blob before it is visited; it is the only candidate then. -/
structure LoopInv (pIndex : DiskAnnIndex) (kv : Kv) (query : VectorPair) (s : SearchState D) :
    Prop where
  state : StateInv pIndex kv query s
  top : TopOk s.1
  sorted : SortedCandidates s.1
  bare : BareCandidates s.1 ∨ s.1.blobMode = .writable ∧ s.1.aCandidates.length ≤ 1
  reusable : s.1.blobMode = .readonly → s.2.isSome = true

/-- A candidate that is not visited, with a blob, is the start node. -/
theorem LoopInv.bare_others (h : LoopInv pIndex kv query s) {i j : ℕ}
    {p : DiskAnnNode × D} (hi : i < s.1.aCandidates.length) (hji : j ≠ i)
    (hp : s.1.aCandidates[j]? = some p) (hv : p.1.visited = false) : p.1.pBlobSpot = none := by
  rcases h.bare with hbare | ⟨-, hlen⟩
  · exact hbare p (List.mem_of_getElem? hp) hv
  · have hj := (List.getElem?_eq_some_iff.mp hp).1
    omega

/-- Marking a candidate that was loaded. -/
theorem LoopInv.mark (h : LoopInv pIndex kv query s) {i : ℕ} {node node' : DiskAnnNode} {d : D}
    {re : Option BlobSpot} {buf : List UInt8} (hp : s.1.aCandidates[i]? = some (node, d))
    (hv : node.visited = false)
    (hload : loadCandidate pIndex kv s.2 node = (none, node', re, buf)) (d' : D) :
    EdgeInv pIndex kv query (diskAnnSearchCtxMarkVisited s.1 i node' d') := by
  obtain ⟨rc, node₁, re₁, buf₁, hload₁, -, -, hrow, hspots, hread⟩ :=
    loadCandidate_spec h.state.reusable.holds
      (h.state.ctx.spots (node, d) (List.mem_of_getElem? hp))
  rw [hload] at hload₁
  simp only [Prod.mk.injEq] at hload₁
  obtain ⟨rfl, rfl, rfl, rfl⟩ := hload₁
  have hi := (List.getElem?_eq_some_iff.mp hp).1
  refine ⟨?_, ?_, ?_⟩
  · rcases he : blobSpotRead pIndex kv node.nRowid with e | block
    · rw [he] at hread
      cases hread
    · rw [he] at hread
      obtain ⟨-, rfl, hown⟩ := hread
      refine h.state.ctx.markVisited hp hv hrow hspots ⟨buf, hrow ▸ he, ?_⟩ trivial
      intro hmode
      rw [hrow]
      exact hown (h.state.reusable.own hmode)
  · have hdist : (diskAnnSearchCtxMarkVisited s.1 i node' d').aCandidates.map Prod.snd =
        s.1.aCandidates.map Prod.snd := modify_map_snd s.1.aCandidates i node'
    unfold SortedCandidates
    rw [hdist]
    exact h.sorted
  · intro p hmem hpv
    obtain ⟨j, hj⟩ := List.mem_iff_getElem?.mp hmem
    simp only [diskAnnSearchCtxMarkVisited, List.getElem?_modify] at hj
    obtain ⟨q, hq, rfl⟩ := Option.map_eq_some_iff.mp hj
    rcases Decidable.em (i = j) with rfl | hij
    · simp at hpv
    · simp only [if_neg hij] at hpv ⊢
      exact h.bare_others hi (Ne.symm hij) hq hpv

/-- **A round keeps the invariant.** -/
theorem LoopInv.turn (h : LoopInv pIndex kv query s) {i : ℕ}
    (hturn : SearchTurn math pIndex kv s i s') : LoopInv pIndex kv query s' := by
  have hstate := (h.state.turn hturn).1
  obtain ⟨node, d, hcand, hstep⟩ := hturn.candidate
  obtain ⟨-, hidx, hp, hv⟩ := roundCandidate_some hcand
  obtain ⟨-, hround⟩ := diskAnnSearchStep_round h.state.ctx h.state.reusable hp hstep
  have htop := (h.state.ctx.step (weightsOk_true math pIndex _ query) TopOk.visitInv h.top
    (rowsLe_kv pIndex kv) hp hv hround).2.1
  unfold diskAnnSearchStep at hstep
  rcases hload : loadCandidate pIndex kv s.2 node with ⟨rc, node', re, buf⟩
  rw [hload] at hstep
  have hre : s.2.isSome = true → re.isSome = true := by
    intro hsome
    obtain ⟨spot, hspot⟩ := Option.isSome_iff_exists.mp hsome
    unfold loadCandidate at hload
    rw [hspot] at hload
    simp only [Prod.mk.injEq] at hload
    rw [← hload.2.2.1]
    rfl
  rcases rc with - | rc
  · obtain rfl := Except.ok.inj hstep
    have hedge := h.mark hp hv hload (visitDistance math pIndex s.1 buf d)
    have hmode : (diskAnnSearchEdges math pIndex buf (diskAnnSearchCtxMarkVisited s.1 i node'
        (visitDistance math pIndex s.1 buf d))).blobMode = s.1.blobMode :=
      (hedge.ctx.searchEdges math fun _ _ => trivial).2.1.mode
    have hafter := (hedge.searchEdges math (edgesOf pIndex buf)).1
    rw [← diskAnnSearchEdges_eq] at hafter
    exact ⟨hstate, htop, hafter.sorted, .inl hafter.bare,
      fun hread => hre (h.reusable (hmode.symm.trans hread))⟩
  · cases rc with
    | rowNotFound =>
        obtain rfl := Except.ok.inj hstep
        refine ⟨hstate, htop, ?_, ?_, fun hread => hre (h.reusable hread)⟩
        · exact h.sorted.sublist ((List.eraseIdx_sublist _ _).map _)
        · rcases h.bare with hbare | ⟨hmode, hlen⟩
          · exact .inl fun p hmem => hbare p (List.mem_of_mem_eraseIdx hmem)
          · exact .inr ⟨hmode, (List.eraseIdx_sublist _ _).length_le.trans hlen⟩
    | done => cases hstep
    | notFound => cases hstep
    | nomem => cases hstep
    | error => cases hstep

/-- The state in front of the first round. -/
theorem LoopInv.start {pQuery : Vector} {maxCandidates topCandidates : ℕ} {blobMode : BlobMode}
    {nStartRowid : UInt64}
    (hinit : diskAnnSearchCtxInit math pIndex pQuery maxCandidates topCandidates blobMode =
      some pCtx)
    (hstart : searchStart math pIndex kv pCtx nStartRowid = .ok s) :
    LoopInv pIndex kv (loadVectorPair math pIndex pQuery) s := by
  have hstate := (StateInv.start hinit hstart).1
  have htop := TopOk.init hinit
  obtain ⟨-, hcand, -, -, hmax, -, -⟩ :=
    CtxInv.init (blobSpotRead pIndex kv) (SpotOk pIndex kv) (fun _ _ => True) hinit
  -- the list of candidates is the start node alone
  have hone : ∀ (node : DiskAnnNode) (d : D),
      (diskAnnSearchCtxInsertCandidate pCtx 0 node d).aCandidates = [(node, d)] := by
    intro node d
    show (bufferInsert pCtx.aCandidates pCtx.maxCandidates 0 (node, d)).1 = [(node, d)]
    rw [hcand, bufferInsert, if_neg (by simp; omega)]
    rfl
  unfold searchStart at hstart
  generalize blobSpotReload pIndex kv (blobSpotCreate pIndex nStartRowid) nStartRowid = r
    at hstart
  obtain ⟨code, spot⟩ := r
  rcases code with - | rc
  swap
  · cases hstart
  simp only at hstart
  split at hstart
  · obtain rfl := Except.ok.inj hstart
    refine ⟨hstate, htop, ?_, .inl ?_, fun _ => rfl⟩
    · unfold SortedCandidates
      rw [hone]
      exact List.pairwise_singleton _ _
    · intro p hp _
      simp only [hone, List.mem_singleton] at hp
      rw [hp]
      rfl
  · rename_i hmode
    obtain rfl := Except.ok.inj hstart
    refine ⟨hstate, htop, ?_, .inr ⟨hmode, ?_⟩, fun hread => ?_⟩
    · unfold SortedCandidates
      rw [hone]
      exact List.pairwise_singleton _ _
    · rw [hone]
      exact le_rfl
    · cases hmode.symm.trans hread

/-- A candidate keeps its mark when it is loaded, and gets no blob in a search that reads. -/
theorem LoopInv.loaded (h : LoopInv pIndex kv query s) {i : ℕ} {cand node : DiskAnnNode} {d : D}
    {rc : Option Rc} {re : Option BlobSpot} {buf : List UInt8}
    (hcand : roundCandidate s = some (i, cand, d))
    (hload : loadCandidate pIndex kv s.2 cand = (rc, node, re, buf)) :
    0 < s.1.nUnvisited ∧ node.visited = false ∧
      (s.1.blobMode = .readonly → node.pBlobSpot = none) := by
  obtain ⟨hmore, -, hp, hv⟩ := roundCandidate_some hcand
  refine ⟨by simpa [diskAnnSearchCtxHasUnvisited] using hmore, ?_⟩
  unfold loadCandidate at hload
  rcases hre : s.2 with - | spot
  · rw [hre] at hload
    simp only [Prod.mk.injEq] at hload
    refine ⟨hload.2.1 ▸ hv, fun hread => ?_⟩
    have hsome := h.reusable hread
    rw [hre] at hsome
    cases hsome
  · rw [hre] at hload
    simp only [Prod.mk.injEq] at hload
    obtain ⟨-, rfl, -⟩ := hload
    refine ⟨hv, fun hread => ?_⟩
    rcases h.bare with hbare | ⟨hwrite, -⟩
    · exact hbare _ (List.mem_of_getElem? hp) hv
    · cases hwrite.symm.trans hread

/-- While the count is positive there is a candidate for the round. -/
theorem LoopInv.found (h : LoopInv pIndex kv query s)
    (hmore : diskAnnSearchCtxHasUnvisited s.1 = true) : (roundCandidate s).isSome = true := by
  have hunv : 0 < s.1.nUnvisited := by simpa [diskAnnSearchCtxHasUnvisited] using hmore
  rw [h.state.ctx.count, List.countP_pos_iff] at hunv
  obtain ⟨p, hmem, hv⟩ := hunv
  rcases hidx : diskAnnSearchCtxFindClosestCandidateIdx s.1 with - | i
  · have hnone := List.findIdx?_eq_none_iff.mp hidx p hmem
    rw [hv] at hnone
    cases hnone
  · obtain ⟨hi, -⟩ := List.findIdx?_eq_some_iff_getElem.mp hidx
    unfold roundCandidate
    rw [if_pos hmore, hidx, Option.bind_some, List.getElem?_eq_getElem hi]
    rfl

end Order

end MoVeBench
