/-
MoVeBench/Lsm/TreeHistory.lean

Runs of the in-memory tree against runs of a sorted map.

Deleting a range removes the entries in it one by one and marks its ends.  Where the
end of a range is a key of the tree, its entry is copied with all its flags,
`LSM_CONTIGUOUS` included, and the copy need not be contiguous: the tree holds the map as
long as that does not happen (`lsmTree_history`).
-/
import MoVeBench.Lsm.TreeEntry

namespace MoVeBench

namespace Lsm

open TreeNode

section DeleteRange

variable {t : Tree} {beyond : ℕ → Byte} {k k1 k2 : Bytes} {m : TreeMap} {n : ℕ}

variable (beyond k) in
/-- The cursor is at the first entry after the key. -/
theorem seekAfter_spec (hinv : TreeInv t) : ∃ l r, t.iRoot.toList = l ++ r ∧
    (∀ e ∈ l, e.pKey ≤ k) ∧ (∀ e ∈ r, k < e.pKey) ∧
    LeadsTo t.iRoot t.nHeight l r (seekAfter beyond k t) := by
  cases hnull : t.iRoot.isNull with
  | true =>
      refine ⟨[], [], by rw [isNull_iff.mp hnull]; rfl, nofun, nofun, ?_⟩
      show seekAfter beyond k t = []
      rw [seekAfter, lsmTreeCursorSeek, if_pos hnull]
      rfl
  | false =>
      have hne : t.iRoot ≠ null := fun h => by
        rw [isNull_iff.mpr h] at hnull
        cases hnull
      have hseek := lsmTreeCursorSeek_spec (k := k) hinv.balanced hne (hinv.readKey_increasing beyond)
      have hincr := hinv.increasing
      have hread := hinv.readKey beyond
      unfold seekAfter
      generalize lsmTreeCursorSeek (TreeKey.readKey beyond) k t = s at hseek ⊢
      obtain ⟨pCsr, res⟩ := s
      -- at the key the cursor moves on, else it may stand on either side
      rcases hseek with ⟨l, e, r, hc, hk, rfl⟩ | ⟨p, i, path, rfl, hs⟩
      · have hlist := hc.toList
        rw [hlist] at hincr hread
        obtain ⟨-, hright, hcross⟩ := List.pairwise_append.mp hincr
        have hek : e.pKey = k := (hread e (by simp)).symm.trans hk
        refine ⟨l ++ [e], r, by rw [hlist, List.append_assoc]; rfl, fun x hx => ?_, fun x hx => ?_,
          lsmTreeCursorNext_spec hinv.balanced hc⟩
        · rcases List.mem_append.mp hx with hx | hx
          · exact (hcross x hx e List.mem_cons_self).le.trans hek.le
          · rw [List.mem_singleton.mp hx]
            exact hek.le
        · rw [← hek]
          exact (List.pairwise_cons.mp hright).1 x hx
      · obtain ⟨l, e, r, hc, hside⟩ := hs.cursorAt hinv.balanced
        have hlist := hc.toList
        have hleft := hs.left
        have hright := hs.right
        rw [hlist] at hread
        rcases hside with ⟨rfl, hl, hr⟩ | ⟨rfl, hl, hr⟩
        · rw [hl] at hleft
          rw [hr] at hright
          refine ⟨l ++ [e], r, by rw [hlist, List.append_assoc]; rfl, fun x hx => ?_,
            fun x hx => ?_, lsmTreeCursorNext_spec hinv.balanced hc⟩
          · rw [← hread x (by simpa [or_assoc] using Or.inl (List.mem_append.mp hx))]
            exact (hleft x hx).le
          · rw [← hread x (by simp [hx])]
            exact hright x hx
        · rw [hl] at hleft
          rw [hr] at hright
          refine ⟨l, e :: r, hlist, fun x hx => ?_, fun x hx => ?_, hc⟩
          · rw [← hread x (by simp [hx])]
            exact (hleft x hx).le
          · rw [← hread x (List.mem_append_right _ hx)]
            exact hright x hx

/-- The keys outside the range. -/
def outside (k1 k2 : Bytes) (k : Bytes) : Bool := !(k1 < k && k < k2)

/-- The entry that a cursor is at. -/
theorem TreeNode.CursorAt.csrKeyPtr {l r : List TreeKey} {e : TreeKey} {pCsr : Path TreeKey}
    (hc : CursorAt t.iRoot t.nHeight l e r pCsr) : TreeNode.csrKeyPtr pCsr = some e := by
  match pCsr, hc with
  | (p, i) :: path, hc => exact hc.2.1

variable (beyond) in
/-- An entry is deleted. -/
theorem TreeInv.deleteCurrent (hinv : TreeInv t) {l r : List TreeKey} {e : TreeKey}
    {pCsr : Path TreeKey} (hlist : t.iRoot.toList = l ++ e :: r)
    (hc : CursorAt t.iRoot t.nHeight l e r pCsr) :
    TreeInv (treeDeleteCurrent (TreeKey.readKey beyond) TreeKey.pKey t pCsr) ∧
      (treeDeleteCurrent (TreeKey.readKey beyond) TreeKey.pKey t pCsr).iRoot.toList = l ++ r := by
  obtain ⟨hdel, hbal⟩ := treeDeleteCurrent_spec hinv.balanced
    (hinv.readKey_increasing beyond)
    (show ∀ x ∈ t.iRoot.toList, x.pKey = x.readKey beyond from
      fun x hx => (hinv.readKey beyond x hx).symm) hc
  have hsub : (l ++ r).Sublist t.iRoot.toList := by
    rw [hlist]
    exact (List.sublist_cons_self e r).append_left l
  refine ⟨⟨hbal, ?_, fun x hx => hinv.sound x (hsub.subset (hdel ▸ hx))⟩, hdel⟩
  show Increasing _ (treeDeleteCurrent _ _ ⟨t.iRoot, t.nHeight⟩ _).iRoot.toList
  rw [hdel]
  exact List.Pairwise.sublist hsub hinv.increasing

variable (beyond k1 k2) in
/-- **All entries of the range are deleted**, and no others. -/
theorem treeDeleteRange_spec (hinv : TreeInv t) (hn : t.iRoot.toList.length ≤ n) :
    TreeInv (treeDeleteRange beyond k1 k2 n t) ∧
      (treeDeleteRange beyond k1 k2 n t).iRoot.toList =
        t.iRoot.toList.filter fun e => outside k1 k2 e.pKey := by
  induction n generalizing t with
  | zero =>
      have hnil : t.iRoot.toList = [] := List.eq_nil_of_length_eq_zero (Nat.le_zero.mp hn)
      refine ⟨hinv, ?_⟩
      rw [treeDeleteRange, hnil]
      rfl
  | succ n ih =>
      obtain ⟨l, r, hlist, hl, hr, hat⟩ := seekAfter_spec beyond k1 hinv
      have hout : l.filter (fun e => outside k1 k2 e.pKey) = l := by
        refine List.filter_eq_self.mpr fun e he => ?_
        have := not_lt.mpr (hl e he)
        simp [outside, this]
      -- no entry of the range is before the cursor
      cases r with
      | nil =>
          have hnil : seekAfter beyond k1 t = [] := hat
          have heq : treeDeleteRange beyond k1 k2 (n + 1) t = t := by
            rw [treeDeleteRange, hnil]
            rfl
          rw [heq, hlist, List.append_nil, hout]
          exact ⟨hinv, rfl⟩
      | cons e r =>
          have hc : CursorAt t.iRoot t.nHeight l e r (seekAfter beyond k1 t) := hat
          have hmem : e ∈ t.iRoot.toList := by rw [hlist]; simp
          rw [treeDeleteRange]
          simp only [hc.csrKeyPtr, hinv.readKey beyond e hmem]
          split_ifs with hlt
          · -- the entry goes
            obtain ⟨hinv', hdel⟩ := hinv.deleteCurrent beyond hlist hc
            have hlen : (l ++ r).length ≤ n := by
              rw [hlist] at hn
              simp only [List.length_append, List.length_cons] at hn ⊢
              omega
            obtain ⟨hinv'', hfilter⟩ := ih hinv' (by rw [hdel]; exact hlen)
            refine ⟨hinv'', ?_⟩
            have hin : outside k1 k2 e.pKey = false := by
              simp [outside, hr e List.mem_cons_self, hlt]
            rw [hfilter, hdel, hlist, List.filter_append, List.filter_append, List.filter_cons,
              hin]
            rfl
          · -- nothing of the range is left
            have hincr := hinv.increasing
            rw [hlist] at hincr
            obtain ⟨her, -⟩ := List.pairwise_cons.mp (List.pairwise_append.mp hincr).2.1
            have hout' : (e :: r).filter (fun e => outside k1 k2 e.pKey) = e :: r := by
              refine List.filter_eq_self.mpr fun x hx => ?_
              have hge : k2 ≤ x.pKey := by
                rcases List.mem_cons.mp hx with rfl | hx
                · exact not_lt.mp hlt
                · exact (not_lt.mp hlt).trans (her x hx).le
              simp [outside, not_lt.mpr hge]
            rw [hlist, List.filter_append, hout, hout']
            exact ⟨hinv, rfl⟩

theorem TreeMap.insertMark_startDelete (side : Bool) (k : Bytes) (m : TreeMap) :
    m.insertMark side .startDelete k = m.insertMark true .startDelete k := by
  unfold insertMark markFor
  cases m.get? k <;> rfl

theorem TreeMap.insertMark_endDelete (side : Bool) (k : Bytes) (m : TreeMap) :
    m.insertMark side .endDelete k = m.insertMark true .endDelete k := by
  unfold insertMark markFor
  cases m.get? k <;> rfl

/-- **A range is deleted**, if the copies of the entries at its ends fit. -/
theorem lsmTreeDelete_spec {iWrite1 iWrite2 : ℕ} (hinv : TreeInv t)
    (hm : t.entries beyond = m.entries) (hlt : k1 < k2)
    (hok1 : BoundaryOk iWrite1 .startDelete k1 t) (hok2 : BoundaryOk iWrite2 .endDelete k2 t) :
    TreeInv (lsmTreeDelete beyond iWrite1 iWrite2 k1 k2 t) ∧
      (lsmTreeDelete beyond iWrite1 iWrite2 k1 k2 t).entries beyond =
        (m.deleteRange k1 k2).entries := by
  obtain ⟨hinv', hlist⟩ := treeDeleteRange_spec beyond k1 k2 hinv
    (Nat.le_refl _)
  have hsub : ∀ e ∈ (treeDeleteRange beyond k1 k2 t.iRoot.toList.length t).iRoot.toList,
      e ∈ t.iRoot.toList := fun e he => by
    rw [hlist] at he
    exact List.mem_of_mem_filter he
  have hm' : (treeDeleteRange beyond k1 k2 t.iRoot.toList.length t).entries beyond =
      (m.restrict (outside k1 k2)).entries := by
    show _ = m.entries.filter _
    rw [hinv'.entries, hlist, ← hm, hinv.entries, List.filter_map]
    rfl
  obtain ⟨hinv1, ⟨side1, hm1⟩, hmem1, -⟩ := treeInsertEntry_spec (f := .startDelete) hinv' hm'
    fun e he hek hneed => hok1 e (hsub e he) hek hneed
  obtain ⟨hinv2, ⟨side2, hm2⟩, -, -⟩ := treeInsertEntry_spec (f := .endDelete) hinv1 hm1
    fun e he hek hneed => by
      rcases hmem1 e he with hin | hk
      · exact hok2 e (hsub e hin) hek hneed
      · exact absurd (hk.symm.trans hek) hlt.ne
  refine ⟨hinv2, ?_⟩
  rw [TreeMap.insertMark_endDelete, TreeMap.insertMark_startDelete] at hm2
  exact hm2

end DeleteRange

/-! ### Runs -/

/-- An operation on the tree, with the places of the new entries. -/
inductive TreeOp
  | treeInsertEntry (iWrite : ℕ) (f : EntryFlag) (pKey : Bytes)
  | lsmTreeInsert (iWrite : ℕ) (pKey : Bytes) (pVal : Option Bytes)
  | lsmTreeDelete (iWrite1 iWrite2 : ℕ) (pKey1 pKey2 : Bytes)

namespace TreeOp

def run (beyond : ℕ → Byte) (t : Tree) : TreeOp → Tree
  | treeInsertEntry iWrite f pKey => Lsm.treeInsertEntry beyond iWrite f pKey t
  | lsmTreeInsert iWrite pKey pVal => Lsm.lsmTreeInsert beyond iWrite pKey pVal t
  | lsmTreeDelete iWrite1 iWrite2 pKey1 pKey2 =>
      Lsm.lsmTreeDelete beyond iWrite1 iWrite2 pKey1 pKey2 t

/-- `lsm_delete_range` does nothing for any other range. -/
def Allowed : TreeOp → Prop
  | lsmTreeDelete _ _ pKey1 pKey2 => pKey1 < pKey2
  | _ => True

/-- The copies of entries that get a mark fit where they are written. -/
def CopiesFit (t : Tree) : TreeOp → Prop
  | treeInsertEntry iWrite f pKey => BoundaryOk iWrite f pKey t
  | lsmTreeInsert _ _ _ => True
  | lsmTreeDelete iWrite1 iWrite2 pKey1 pKey2 =>
      BoundaryOk iWrite1 .startDelete pKey1 t ∧ BoundaryOk iWrite2 .endDelete pKey2 t

end TreeOp

/-- The tree after some operations. -/
def treeAfter (beyond : ℕ → Byte) (ops : List TreeOp) : Tree :=
  ops.foldl (TreeOp.run beyond) ⟨null, 0⟩

/-- What an operation does to a map. -/
inductive MapStep : TreeOp → TreeMap → TreeMap → Prop
  | treeInsertEntry (side : Bool) {iWrite : ℕ} {f : EntryFlag} {pKey : Bytes} {m : TreeMap} :
      MapStep (.treeInsertEntry iWrite f pKey) m (m.insertMark side f pKey)
  | lsmTreeInsert (side : Bool) {iWrite : ℕ} {pKey : Bytes} {pVal : Option Bytes} {m : TreeMap} :
      MapStep (.lsmTreeInsert iWrite pKey pVal) m
        (m.insertMark side (.ofValue pVal) pKey)
  | lsmTreeDelete {iWrite1 iWrite2 : ℕ} {pKey1 pKey2 : Bytes} {m : TreeMap} :
      MapStep (.lsmTreeDelete iWrite1 iWrite2 pKey1 pKey2) m (m.deleteRange pKey1 pKey2)

/-- The map after some operations. -/
inductive MapAfter : List TreeOp → TreeMap → Prop
  | nil : MapAfter [] SortedMap.empty
  | snoc {ops : List TreeOp} {op : TreeOp} {m m' : TreeMap} :
      MapAfter ops m → MapStep op m m' → MapAfter (ops ++ [op]) m'

/-- A balanced tree with the entries of the map. -/
structure TreeHolds (beyond : ℕ → Byte) (t : Tree) (m : TreeMap) : Prop where
  balanced : Balanced t.nHeight t.iRoot
  increasing : Increasing (TreeKey.readKey beyond) t.iRoot.toList
  entries : t.entries beyond = m.entries

/-- One operation. -/
theorem TreeOp.run_spec (beyond : ℕ → Byte) {t : Tree} {m : TreeMap} (op : TreeOp)
    (hinv : TreeInv t) (hm : t.entries beyond = m.entries) (hallowed : op.Allowed)
    (hfit : op.CopiesFit t) : TreeInv (op.run beyond t) ∧
      ∃ m', MapStep op m m' ∧ (op.run beyond t).entries beyond = m'.entries := by
  cases op with
  | treeInsertEntry iWrite f pKey =>
      obtain ⟨hinv', ⟨side, hm'⟩, -, -⟩ := treeInsertEntry_spec hinv hm hfit
      exact ⟨hinv', _, .treeInsertEntry side, hm'⟩
  | lsmTreeInsert iWrite pKey pVal =>
      have hok : ∀ f : EntryFlag, f.isStart = false → f.isEnd = false → BoundaryOk iWrite f pKey t :=
        fun f hs he e _ _ hneed => by
          rw [hs, he] at hneed
          rcases hneed with ⟨h, -⟩ | ⟨h, -⟩ <;> cases h
      obtain ⟨hinv', ⟨side, hm'⟩, -, -⟩ := treeInsertEntry_spec (f := .ofValue pVal) hinv hm
        (hok _ (by cases pVal <;> rfl) (by cases pVal <;> rfl))
      exact ⟨hinv', _, .lsmTreeInsert side, hm'⟩
  | lsmTreeDelete iWrite1 iWrite2 pKey1 pKey2 =>
      obtain ⟨hinv', hm'⟩ := lsmTreeDelete_spec hinv hm hallowed hfit.1 hfit.2
      exact ⟨hinv', _, .lsmTreeDelete, hm'⟩

/-- The invariant of the tree over a run. -/
theorem treeAfter_inv (beyond : ℕ → Byte) (ops : List TreeOp)
    (hallowed : ∀ op ∈ ops, op.Allowed)
    (hfit : ∀ pre op post, ops = pre ++ op :: post → op.CopiesFit (treeAfter beyond pre)) :
    TreeInv (treeAfter beyond ops) ∧
      ∃ m, MapAfter ops m ∧ (treeAfter beyond ops).entries beyond = m.entries := by
  induction ops using List.reverseRecOn with
  | nil => exact ⟨⟨rfl, List.Pairwise.nil, nofun⟩, _, .nil, rfl⟩
  | append_singleton ops op ih =>
      obtain ⟨hinv, m, hafter, hm⟩ := ih (fun a ha => hallowed a (List.mem_append_left _ ha))
        fun pre a post h => hfit pre a (post ++ [op]) (by rw [h]; simp)
      have hrun : treeAfter beyond (ops ++ [op]) = op.run beyond (treeAfter beyond ops) := by
        rw [treeAfter, List.foldl_append]
        rfl
      obtain ⟨hinv', m', hstep, hm'⟩ := TreeOp.run_spec beyond op hinv hm (hallowed op (by simp))
        (hfit ops op [] rfl)
      rw [hrun]
      exact ⟨hinv', m', hafter.snoc hstep, hm'⟩

/-- **The in-memory tree over any run**: as long as the copies of entries that get a mark
fit into their chunks, the tree is balanced, its keys increase, and it holds what the same
operations make of a sorted map. -/
theorem lsmTree_history (beyond : ℕ → Byte) (ops : List TreeOp)
    (hallowed : ∀ op ∈ ops, op.Allowed)
    (hfit : ∀ pre op post, ops = pre ++ op :: post → op.CopiesFit (treeAfter beyond pre)) :
    ∃ m, MapAfter ops m ∧ TreeHolds beyond (treeAfter beyond ops) m := by
  obtain ⟨hinv, m, hafter, hm⟩ := treeAfter_inv beyond ops hallowed hfit
  exact ⟨m, hafter, hinv.balanced, hinv.readKey_increasing beyond, hm⟩

/-- A value is inserted and the range after its key deleted. -/
def copyOps : List TreeOp :=
  [.lsmTreeInsert 8 [107] (some [1, 2]), .lsmTreeDelete 64 128 [107] [122]]

theorem copyOps_allowed : ∀ op ∈ copyOps, op.Allowed := fun op hop => by
  rcases List.mem_cons.mp hop with rfl | hop
  · trivial
  · rw [List.mem_singleton.mp hop]
    show ([107] : Bytes) < [122]
    decide

theorem copyOps_fit (pre : List TreeOp) (op : TreeOp) (post : List TreeOp)
    (h : copyOps = pre ++ op :: post) : op.CopiesFit (treeAfter (fun _ => 0) pre) := by
  match pre, h with
  | [], h =>
      obtain ⟨rfl, -⟩ := List.cons.inj h
      trivial
  | [_], h =>
      obtain ⟨rfl, h'⟩ := List.cons.inj h
      obtain ⟨rfl, -⟩ := List.cons.inj h'
      refine ⟨fun e he _ _ => ?_, fun e he _ _ => ?_⟩
      · have he' : e ∈ [newTreeKey 8 [107] (.insert [1, 2]) false false false] := he
        rw [List.mem_singleton.mp he']
        exact fun _ => by decide
      · have he' : e ∈ [newTreeKey 8 [107] (.insert [1, 2]) false false false] := he
        rw [List.mem_singleton.mp he']
        exact fun _ => by decide
  | _ :: _ :: pre, h =>
      have := congrArg List.length h
      simp [copyOps] at this

/-- The copy of the entry is contiguous too. -/
theorem lsmTree_history_copy : ∃ m, MapAfter [.lsmTreeInsert 8 [107] (some [1, 2]),
      .lsmTreeDelete 64 128 [107] [122]] m ∧
    TreeHolds (fun _ => 0) (treeAfter (fun _ => 0) [.lsmTreeInsert 8 [107] (some [1, 2]),
      .lsmTreeDelete 64 128 [107] [122]]) m :=
  lsmTree_history _ _ copyOps_allowed copyOps_fit

/-! ### A copy that does not fit -/

section Spill

variable {m m' : TreeMap} {ops : List TreeOp} {op : TreeOp} {f : EntryFlag} {side : Bool}
  {k k' : Bytes}

variable (ops op) in
theorem MapAfter.last (h : MapAfter (ops ++ [op]) m') : ∃ m, MapAfter ops m ∧ MapStep op m m' := by
  generalize hops : ops ++ [op] = l at h
  cases h with
  | nil => exact absurd hops (by simp)
  | snoc hm hstep =>
      obtain ⟨rfl, h⟩ := List.append_inj' hops rfl
      obtain ⟨rfl, -⟩ := List.cons.inj h
      exact ⟨_, hm, hstep⟩

/-- The data of a key. -/
def TreeMap.dataOf (m : TreeMap) (k : Bytes) : Option (Data Bytes) := (m.get? k).map Mark.data

theorem TreeMap.dataOf_insert {v : Bytes} :
    (m.insertMark side (.insert v) k).dataOf k = some (.insert v) := by
  rcases hget : m.get? k with - | r
  · have hmark := markFor_none (.insert v) side hget
    rw [insertMark, hmark]
    simp [EntryFlag.isStart, EntryFlag.isEnd, EntryFlag.data, dataOf]
  · have hmark := markFor_some (.insert v) side hget
    rw [insertMark, hmark]
    simp [EntryFlag.isStart, EntryFlag.isEnd, EntryFlag.isBoundary, EntryFlag.data, dataOf]

/-- A mark leaves the data of the keys alone. -/
theorem TreeMap.dataOf_boundary (hf : f.isBoundary = true) {d : Data Bytes}
    (h : m.dataOf k = some d) : (m.insertMark side f k').dataOf k = some d := by
  obtain ⟨r, hr, rfl⟩ := Option.map_eq_some_iff.mp h
  rcases hget : m.get? k' with - | r'
  · have hne : k ≠ k' := by
      rintro rfl
      rw [hget] at hr
      cases hr
    have hmark := markFor_none f side hget
    by_cases hskip : ((f.isStart && (m.pred k').any Mark.startDelete) ||
        (f.isEnd && (m.succ k').any Mark.endDelete)) = true
    · rw [insertMark, hmark.trans (if_pos hskip)]
      exact h
    · rw [insertMark, hmark.trans (if_neg hskip)]
      show ((m.insert k' _).get? k).map Mark.data = _
      rw [SortedMap.get?_insert_of_ne _ hne]
      exact h
  · have hmark := markFor_some f side hget
    by_cases hskip : ((f.isStart && r'.startDelete) || (f.isEnd && r'.endDelete)) = true
    · rw [insertMark, hmark.trans (if_pos hskip)]
      exact h
    · rw [insertMark, hmark.trans (if_neg hskip), hf, if_pos rfl]
      show ((m.insert k' _).get? k).map Mark.data = _
      rw [SortedMap.get?_insert]
      split_ifs with hk
      · rw [hk, hget] at hr
        rw [← Option.some.inj hr]
        rfl
      · exact h

theorem TreeMap.dataOf_deleteRange {k1 k2 : Bytes} (hk : outside k1 k2 k = true) {d : Data Bytes}
    (h : m.dataOf k = some d) : (m.deleteRange k1 k2).dataOf k = some d := by
  refine dataOf_boundary rfl (dataOf_boundary rfl ?_)
  show ((m.restrict (outside k1 k2)).get? k).map Mark.data = some d
  rw [SortedMap.get?_restrict, if_pos hk]
  exact h

/-- A copy with the flag `LSM_CONTIGUOUS` of an entry that fitted, beyond the end of its
chunk. -/
theorem read_spill {e : TreeKey} {b : Byte} {v : Bytes} (hc : e.contiguous = true)
    (hd : e.data = .insert v) (havail : e.pKey.length ≤ e.nAvail)
    (hspill : e.nAvail < e.pKey.length + v.length) :
    ∃ w, (e.read fun _ => b).entry = (e.pKey, ⟨.insert w, e.startDelete, e.endDelete⟩) ∧ b ∈ w := by
  have hplace : e.bytesInPlace (fun _ => b) = e.pKey ++ (v.take (e.nAvail - e.pKey.length) ++
      (List.range (e.pKey.length + v.length - e.nAvail)).map fun _ => b) := by
    simp only [TreeKey.bytesInPlace, hd, Data.bytes, List.length_append]
    rw [List.take_append, List.take_of_length_le havail, List.append_assoc]
  have hread : e.read (fun _ => b) = { e with
      pKey := e.pKey
      data := .insert (v.take (e.nAvail - e.pKey.length) ++
        (List.range (e.pKey.length + v.length - e.nAvail)).map fun _ => b) } := by
    rw [TreeKey.read, if_pos hc, hplace, List.take_left, List.drop_left, hd]
    rfl
  refine ⟨_, by rw [hread]; rfl, List.mem_append_right _ (List.mem_map.mpr ⟨0, ?_, rfl⟩)⟩
  exact List.mem_range.mpr (by omega)

variable (beyond : ℕ → Byte) (iWrite : ℕ) in
/-- The end of a range is marked at a key: a copy of its entry takes its place. -/
theorem endDelete_copy {t : Tree} {e : TreeKey} (hinv : TreeInv t) (he : e ∈ t.iRoot.toList)
    (hend : e.endDelete = false) : ∃ l r, t.iRoot.toList = l ++ e :: r ∧
      (treeInsertEntry beyond iWrite .endDelete e.pKey t).iRoot.toList =
        l ++ newTreeKey iWrite e.pKey e.data e.startDelete true e.contiguous :: r := by
  obtain ⟨l, r, pCsr, hat, heq⟩ := treeInsertEntry_found beyond iWrite .endDelete hinv he
  have hex : boundaryExists .endDelete pCsr e .eq = false := by simp [boundaryExists, hend]
  rw [hex] at heq
  obtain ⟨hnew, -⟩ := treeOverwriteKey_spec (entryAt iWrite .endDelete e.pKey e .eq)
    hinv.balanced hat
  refine ⟨l, r, hat.toList, ?_⟩
  rw [heq, if_neg Bool.false_ne_true]
  exact hnew

end Spill

/-- A value is inserted that fits into a chunk, but not after itself, and a range up to
its key is deleted. -/
def spillOps (v : Bytes) : List TreeOp :=
  [.lsmTreeInsert 8 [107] (some v), .lsmTreeDelete 150064 150120 [97] [107]]

theorem spillOps_allowed (v : Bytes) : ∀ op ∈ spillOps v, op.Allowed := fun op hop => by
  rcases List.mem_cons.mp hop with rfl | hop
  · trivial
  · rw [List.mem_singleton.mp hop]
    show ([97] : Bytes) < [107]
    decide

/-- The copy of the entry, with the flag `LSM_CONTIGUOUS` and too long for its chunk. -/
theorem spillOps_copy {v : Bytes} (hlen : v.length = 150000) :
    ∃ l e r, (treeAfter (fun _ => 0) (spillOps v)).iRoot.toList = l ++ e :: r ∧
      (∀ x ∈ l, x.Sound ∧ x.pKey < [107]) ∧ e.pKey = [107] ∧ e.data = .insert v ∧
      e.contiguous = true ∧ e.pKey.length ≤ e.nAvail ∧ e.nAvail < e.pKey.length + v.length := by
  have hinv0 : TreeInv (⟨null, 0⟩ : Tree) := ⟨rfl, List.Pairwise.nil, nofun⟩
  obtain ⟨hinv1, -⟩ := TreeOp.run_spec (fun _ => 0) (.lsmTreeInsert 8 [107] (some v))
    (m := SortedMap.empty) hinv0 rfl trivial trivial
  obtain ⟨t, ht⟩ : ∃ t, (TreeOp.lsmTreeInsert 8 [107] (some v)).run (fun _ => 0) ⟨null, 0⟩ = t :=
    ⟨_, rfl⟩
  obtain ⟨e, he⟩ : ∃ e, newTreeKey 8 [107] (.insert v) false false false = e := ⟨_, rfl⟩
  rw [ht] at hinv1
  have hlist1 : t.iRoot.toList = [e] := by
    rw [← ht, ← he]
    rfl
  obtain ⟨hinv2, hlist2⟩ := treeDeleteRange_spec (fun _ => 0) [97] [107] hinv1 (Nat.le_refl _)
  have hkey : e.pKey = [107] := by rw [← he]; rfl
  replace hlist2 := hlist2.trans (show _ = [e] by rw [hlist1, List.filter_cons, hkey]; rfl)
  -- the entry stays when the first end of the range is marked
  have hm2 := hinv2.entries fun _ => 0
  have hok : BoundaryOk 150064 .startDelete [97]
      (treeDeleteRange (fun _ => 0) [97] [107] t.iRoot.toList.length t) := fun x hx hkey' _ => by
    rw [hlist2] at hx
    rw [List.mem_singleton.mp hx, hkey] at hkey'
    exact absurd hkey' (by decide)
  obtain ⟨hinv3, -, -, hkeeps⟩ := treeInsertEntry_spec
    (m := ⟨[e.entry], List.pairwise_singleton _ _⟩) hinv2 (hm2.trans (by rw [hlist2]; rfl)) hok
  have hmem := hkeeps e (by rw [hlist2]; exact List.mem_singleton_self e)
    (by rw [hkey]; decide)
  have hcont : e.contiguous = true := by
    rw [← he]
    show decide (treeShmalloc 8 sizeofTreeKey + sizeofTreeKey + 1 + v.length <
      LSM_SHM_CHUNK_SIZE) = true
    rw [hlen]
    decide
  obtain ⟨l, r, hlist3, hcopy⟩ := endDelete_copy (fun _ => 0) 150120 hinv3 hmem
    (by rw [← he]; rfl)
  refine ⟨l, newTreeKey 150120 e.pKey e.data e.startDelete true e.contiguous, r, ?_,
    fun x hx => ?_, hkey, by rw [← he]; rfl, by rw [hcont]; rfl, ?_, ?_⟩
  · have hafter : treeAfter (fun _ => 0) (spillOps v) =
        lsmTreeDelete (fun _ => 0) 150064 150120 [97] [107] t := by
      rw [← ht]
      rfl
    rw [hafter, lsmTreeDelete, ← hkey]
    rw [hkey] at hcopy ⊢
    exact hcopy
  · have hincr := hinv3.increasing
    rw [hlist3] at hincr
    refine ⟨hinv3.sound x (by rw [hlist3]; exact List.mem_append_left _ hx), ?_⟩
    rw [← hkey]
    exact (List.pairwise_append.mp hincr).2.2 x hx e List.mem_cons_self
  · show e.pKey.length ≤
      LSM_SHM_CHUNK_SIZE - (treeShmalloc 150120 sizeofTreeKey + sizeofTreeKey)
    rw [hkey]
    decide
  · show LSM_SHM_CHUNK_SIZE - (treeShmalloc 150120 sizeofTreeKey + sizeofTreeKey) <
      e.pKey.length + v.length
    rw [hkey, hlen]
    decide

/-- The value is not read as it was written. -/
theorem spill_of_length {v : Bytes} (hlen : v.length = 150000) (h0 : 0 ∉ v) {m : TreeMap}
    (hafter : MapAfter (spillOps v) m) :
    (treeAfter (fun _ => 0) (spillOps v)).entries (fun _ => 0) ≠ m.entries := by
  intro hentries
  -- what the map says about the key
  have hdata : m.dataOf [107] = some (.insert v) := by
    obtain ⟨m1, hafter1, hstep⟩ := MapAfter.last [.lsmTreeInsert 8 [107] (some v)]
      (.lsmTreeDelete 150064 150120 [97] [107]) hafter
    obtain ⟨m0, -, hstep0⟩ := MapAfter.last [] _ hafter1
    cases hstep0 with
    | lsmTreeInsert side =>
        cases hstep with
        | lsmTreeDelete => exact TreeMap.dataOf_deleteRange (by decide) TreeMap.dataOf_insert
  obtain ⟨l, e, r, hlist, -, hkey, hd, hc, havail, hspill⟩ := spillOps_copy hlen
  obtain ⟨w, hw, h0w⟩ := read_spill (b := 0) hc hd havail hspill
  have hmem : (e.pKey, (⟨.insert w, e.startDelete, e.endDelete⟩ : Mark)) ∈ m.entries := by
    rw [← hentries, ← hw]
    exact List.mem_map.mpr ⟨e, by rw [hlist]; simp, rfl⟩
  have hget := m.get?_eq_some_iff.mpr hmem
  rw [TreeMap.dataOf, ← hkey, hget] at hdata
  have hwv : w = v := Data.insert.inj (Option.some.inj hdata)
  exact h0 (hwv ▸ h0w)

/-- A value of 150000 bytes is inserted as `k`, and the range from `a` to `k` is deleted.
The copy of the entry starts at 150120 of its chunk: most of the value is read in place,
the rest from beyond the chunk. -/
theorem lsmTree_spill :
    let k : Bytes := [107]
    let ops : List TreeOp := [.lsmTreeInsert 8 k (some (List.replicate 150000 1)),
      .lsmTreeDelete 150064 150120 [97] k]
    (∀ op ∈ ops, op.Allowed) ∧
      ¬ ∃ m, MapAfter ops m ∧ TreeHolds (fun _ => 0) (treeAfter (fun _ => 0) ops) m := by
  intro k ops
  refine ⟨spillOps_allowed _, ?_⟩
  rintro ⟨m, hafter, hholds⟩
  refine spill_of_length List.length_replicate (fun h => ?_) hafter hholds.entries
  exact absurd (List.eq_of_mem_replicate h) (by decide)

/-! ### The flag `LSM_CONTIGUOUS` -/

/-- **The flag `LSM_CONTIGUOUS` over any run**: as long as the copies of entries that get a
mark fit into their chunks, an entry has the flag only if its key and its value end in the
chunk it starts in. -/
theorem lsmTree_contiguous (beyond : ℕ → Byte) (ops : List TreeOp)
    (hallowed : ∀ op ∈ ops, op.Allowed)
    (hfit : ∀ pre op post, ops = pre ++ op :: post → op.CopiesFit (treeAfter beyond pre)) :
    ∀ e ∈ (treeAfter beyond ops).iRoot.toList, e.Sound :=
  (treeAfter_inv beyond ops hallowed hfit).1.sound

theorem lsmTree_contiguous_copy :
    (treeAfter (fun _ => 0) copyOps).iRoot.toList.length = 2 ∧
      ∀ e ∈ (treeAfter (fun _ => 0) copyOps).iRoot.toList, e.Sound :=
  ⟨by decide, lsmTree_contiguous _ _ copyOps_allowed copyOps_fit⟩

/-- A value of 150000 bytes is inserted as `k`, and the range from `a` to `k` is deleted:
the entry of `k` has the flag and does not end in its chunk. -/
theorem lsmTree_notContiguous : ∃ ops : List TreeOp, (∀ op ∈ ops, op.Allowed) ∧
    ∃ e ∈ (treeAfter (fun _ => 0) ops).iRoot.toList, e.contiguous = true ∧
      e.nAvail < e.pKey.length + e.data.bytes.length := by
  refine ⟨spillOps (List.replicate 150000 1), spillOps_allowed _, ?_⟩
  obtain ⟨l, e, r, hlist, -, -, hd, hc, -, hspill⟩ := spillOps_copy (List.length_replicate (a := 1))
  refine ⟨e, by rw [hlist]; simp, hc, ?_⟩
  rw [hd]
  exact hspill

end Lsm

end MoVeBench
