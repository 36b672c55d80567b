/-
MoVeBench/Lsm/TreeIsolation.lean

What a reader sees of the in-memory tree while a writer goes on.

A reader holds the root of a committed header, and follows pointers with the transaction
number of that root.  The writer allocates behind everything that was allocated by then,
and writes to older nodes in one way only: version 2 data, with a greater transaction
number, on a node that has none; a rollback zeroes what the transaction wrote
(`Inv`).  So every pointer that the reader follows is the same (`Inv.agree`), and with them
what its cursor does (`reader_isolated`).

When the tree is made old, transaction numbers begin anew.  From then on the writer is
confined to the nodes behind the old tree (`lo` in `Inv`).
-/
import MoVeBench.Lsm.TreeShm

namespace MoVeBench

namespace Lsm

namespace Shm

open Node

/-! ### Pointers -/

/-- A pointer to nothing, or into the part of the memory from `lo` up to `w`. -/
def Ptr (lo w a : ℕ) : Prop := a = 0 ∨ lo ≤ a ∧ a < w

theorem Ptr.zero (lo w : ℕ) : Ptr lo w 0 := .inl rfl

theorem Ptr.mono {lo w w' a : ℕ} (h : Ptr lo w a) (hw : w ≤ w') : Ptr lo w' a :=
  h.imp_right fun h => ⟨h.1, h.2.trans_le hw⟩

theorem Ptr.lt {lo w a : ℕ} (h : Ptr lo w a) (hw : 0 < w) : a < w := by
  rcases h with rfl | h
  · exact hw
  · exact h.2

theorem Ptr.orElse {lo w iPtr iOther : ℕ} (h : Ptr lo w iPtr) (h' : Ptr lo w iOther) :
    Ptr lo w (Shm.orElse iPtr iOther) := by
  unfold Shm.orElse
  split_ifs
  · exact h
  · exact h'

/-- The pointers of a node of the tree. -/
structure NodeOk (lo w : ℕ) (p : Node) : Prop where
  key : ∀ i, p.aiKeyPtr i < w
  child : ∀ i, Ptr lo w (p.aiChildPtr i)
  v2 : Ptr lo w p.iV2Ptr

namespace NodeOk

variable {lo w : ℕ} {p : Node}

theorem mono (h : NodeOk lo w p) {w' : ℕ} (hw : w ≤ w') : NodeOk lo w' p :=
  ⟨fun i => (h.key i).trans_le hw, fun i => (h.child i).mono hw, h.v2.mono hw⟩

theorem zero (hw : 0 < w) : NodeOk lo w Node.zero :=
  ⟨fun _ => hw, fun _ => .zero lo w, .zero lo w⟩

theorem getChildPtr (h : NodeOk lo w p) (iVersion iCell : ℕ) :
    Ptr lo w (p.getChildPtr iVersion iCell) := by
  unfold Node.getChildPtr
  split_ifs
  · exact h.v2
  · exact h.child iCell

theorem working (h : NodeOk lo w p) (i : ℕ) : Ptr lo w (p.working i) := h.getChildPtr _ i

theorem setKey (h : NodeOk lo w p) (i : ℕ) {iKey : ℕ} (hkey : iKey < w) :
    NodeOk lo w (p.setKey i iKey) := by
  refine ⟨fun j => ?_, h.child, h.v2⟩
  show Function.update p.aiKeyPtr i iKey j < w
  rw [Function.update_apply]
  split_ifs
  · exact hkey
  · exact h.key j

theorem setChild (h : NodeOk lo w p) (i : ℕ) {iPtr : ℕ} (hptr : Ptr lo w iPtr) :
    NodeOk lo w (p.setChild i iPtr) := by
  refine ⟨h.key, fun j => ?_, h.v2⟩
  show Ptr lo w (Function.update p.aiChildPtr i iPtr j)
  rw [Function.update_apply]
  split_ifs
  · exact hptr
  · exact h.child j

theorem copyTreeNode (h : NodeOk lo w p) : NodeOk lo w (Shm.copyTreeNode p) := by
  refine ⟨h.key, fun j => ?_, .zero lo w⟩
  unfold Shm.copyTreeNode
  split_ifs
  · exact (h.setChild p.iV2Child h.v2).child j
  · exact h.child j

theorem copyTreeLeaf (h : NodeOk lo w p) : NodeOk lo w (Shm.copyTreeLeaf p) :=
  ⟨h.key, fun _ => .zero lo w, .zero lo w⟩

theorem ofLists (hw : 0 < w) {ks cs : List ℕ} (hks : ∀ k ∈ ks, k < w)
    (hcs : ∀ c ∈ cs, Ptr lo w c) : NodeOk lo w (Node.ofLists ks cs) := by
  have hgetD : ∀ {P : ℕ → Prop} (l : List ℕ) (i : ℕ), P 0 → (∀ a ∈ l, P a) → P (l.getD i 0) := by
    intro P l i h0 hl
    rw [List.getD_eq_getElem?_getD]
    rcases hget : l[i]? with - | a
    · exact h0
    · exact hl a (List.mem_of_getElem? hget)
  exact ⟨fun i => hgetD ks i hw hks, fun i => hgetD cs i (.zero lo w) hcs, .zero lo w⟩

end NodeOk

/-! ### What a reader holds -/

/-- The memory up to `iEnd`, as it was when the reader loaded its header, and the
transaction number of its root. -/
structure View where
  mem : Mem
  iEnd : ℕ
  iTransId : ℕ

/-- A node that is the same for readers up to `iTransId`. -/
structure SameFor (iTransId : ℕ) (p q : Node) : Prop where
  key : q.aiKeyPtr = p.aiKeyPtr
  child : q.aiChildPtr = p.aiChildPtr
  written : p.iV2 ≠ 0 → q = p
  bare : p.iV2 = 0 → q.iV2 = 0 ∨ iTransId < q.iV2

theorem SameFor.refl (iTransId : ℕ) (p : Node) : SameFor iTransId p p :=
  ⟨rfl, rfl, fun _ => rfl, .inl⟩

theorem SameFor.getChildPtr {iTransId : ℕ} {p q : Node} (h : SameFor iTransId p q) (iCell : ℕ) :
    q.getChildPtr iTransId iCell = p.getChildPtr iTransId iCell := by
  rcases Decidable.em (p.iV2 = 0) with hp | hp
  · have hq : ¬(q.iV2 ≠ 0 ∧ q.iV2 ≤ iTransId ∧ iCell = q.iV2Child) := by
      rintro ⟨hne, hle, -⟩
      rcases h.bare hp with hz | hlt
      · exact hne hz
      · exact absurd hle (not_le.mpr hlt)
    unfold Node.getChildPtr
    rw [if_neg hq, if_neg (fun hv => hv.1 hp), h.child]
  · rw [h.written hp]

/-! ### The invariant -/

/-- A mark that the writer can go back to. -/
structure MarkOk (view : View) (lo : ℕ) (db : Db) (pMark : Mark) : Prop where
  iEnd : view.iEnd ≤ pMark.iWrite
  lo_le : lo ≤ pMark.iWrite
  iWrite : pMark.iWrite ≤ db.iWrite
  root : Ptr lo pMark.iWrite pMark.iRoot
  iRollback : pMark.iRollback ≤ db.rollback.length
  key : ∀ a < pMark.iWrite, ∀ i, (db.mem.node a).aiKeyPtr i < pMark.iWrite
  child : ∀ a < pMark.iWrite, ∀ i, (db.mem.node a).aiChildPtr i < pMark.iWrite
  v2 : ∀ a < pMark.iWrite, (db.mem.node a).iV2Ptr < pMark.iWrite ∨
    a ∈ db.rollback.drop pMark.iRollback

/-- The tree of the writer lies between `lo` and `iWrite`; what a reader holds is there. -/
structure Inv (view : View) (lo : ℕ) (db : Db) : Prop where
  pos : 0 < lo
  le : lo ≤ db.iWrite
  root : Ptr lo db.iWrite db.root.iRoot
  zero : db.mem.node 0 = Node.zero
  nodes : ∀ a, lo ≤ a → a < db.iWrite → NodeOk lo db.iWrite (db.mem.node a)
  -- the part of the memory that the writer leaves alone
  low : ∀ a < lo, (∀ i, (db.mem.node a).aiKeyPtr i < lo) ∧
    (∀ i, (db.mem.node a).aiChildPtr i < lo) ∧ (db.mem.node a).iV2Ptr < lo
  old : db.hasOld = true → db.oldroot.iRoot < lo
  marks : ∀ pMark ∈ db.aTrans, MarkOk view lo db pMark
  nested : db.aTrans.Pairwise fun inner outer =>
    outer.iWrite ≤ inner.iWrite ∧ outer.iRollback ≤ inner.iRollback
  idle : db.bWriter = false → db.rollback = [] ∧ db.aTrans = []
  iEnd : view.iEnd ≤ db.iWrite
  same : ∀ a < view.iEnd, SameFor view.iTransId (view.mem.node a) (db.mem.node a)
  keys : ∀ a < view.iEnd, db.mem.key a = view.mem.key a
  undo : ∀ a ∈ db.rollback, lo ≤ a ∧ (a < view.iEnd → (view.mem.node a).iV2 = 0)
  newer : view.iEnd ≤ lo ∨ view.iTransId ≤ db.root.iTransId ∧
    (db.bWriter = true → view.iTransId < db.root.iTransId)

/-- During an operation: nodes from `top` on are new. -/
structure Work (view : View) (lo top : ℕ) (db : Db) : Prop extends Inv view lo db where
  writer : db.bWriter = true
  top_le : top ≤ db.iWrite
  lo_top : lo ≤ top
  iEnd_top : view.iEnd ≤ top
  marks_top : ∀ pMark ∈ db.aTrans, pMark.iWrite ≤ top

/-- An operation goes on from `db` to `db'`. -/
structure Goes (view : View) (lo top : ℕ) (db db' : Db) : Prop where
  work : Work view lo top db'
  iWrite : db.iWrite ≤ db'.iWrite

theorem Goes.trans {view : View} {lo top : ℕ} {db db' db'' : Db} (h : Goes view lo top db db')
    (h' : Goes view lo top db' db'') : Goes view lo top db db'' :=
  ⟨h'.work, h.iWrite.trans h'.iWrite⟩

variable {view : View} {lo top : ℕ} {db : Db}

theorem Inv.iWrite_pos (h : Inv view lo db) : 0 < db.iWrite := h.pos.trans_le h.le

/-- Every pointer of the tree leads to a node with good pointers. -/
theorem Inv.nodeOk (h : Inv view lo db) {a : ℕ} (ha : Ptr lo db.iWrite a) :
    NodeOk lo db.iWrite (db.mem.node a) := by
  rcases ha with rfl | ⟨hlo, hw⟩
  · rw [h.zero]
    exact .zero h.iWrite_pos
  · exact h.nodes a hlo hw

/-- A mark stays good while the nodes in front of it do not change. -/
theorem MarkOk.frame {pMark : Mark} (h : MarkOk view lo db pMark) (db' : Db)
    (hw : db.iWrite ≤ db'.iWrite) (hroll : db'.rollback = db.rollback)
    (hnode : ∀ a < pMark.iWrite, db'.mem.node a = db.mem.node a) : MarkOk view lo db' pMark where
  iEnd := h.iEnd
  lo_le := h.lo_le
  iWrite := h.iWrite.trans hw
  root := h.root
  iRollback := hroll ▸ h.iRollback
  key := fun a ha => by rw [hnode a ha]; exact h.key a ha
  child := fun a ha => by rw [hnode a ha]; exact h.child a ha
  v2 := fun a ha => by rw [hnode a ha, hroll]; exact h.v2 a ha

/-! ### Writing -/

/-- A node that is new, or was made in this operation, is written. -/
theorem Work.write (h : Work view lo top db) {a w : ℕ} {p : Node} (htop : top ≤ a)
    (hw : db.iWrite ≤ w) (hp : NodeOk lo w p) (hnew : ∀ b, b < w → b < db.iWrite ∨ b = a) :
    Work view lo top { db.putNode a p with iWrite := w } := by
  have hne : ∀ {b : ℕ}, b < top → Function.update db.mem.node a p b = db.mem.node b := by
    intro b hb
    exact Function.update_of_ne (by omega) _ _
  have hpos := h.pos
  have hlo := h.lo_top
  refine ⟨⟨h.pos, h.le.trans hw, h.root.mono hw, ?_, ?_, ?_, h.old, ?_, h.nested, h.idle,
    h.iEnd.trans hw, ?_, h.keys, h.undo, h.newer⟩, h.writer, h.top_le.trans hw, h.lo_top,
    h.iEnd_top, h.marks_top⟩
  · exact (hne (by omega)).trans h.zero
  · intro b hb hbw
    show NodeOk lo w (Function.update db.mem.node a p b)
    rcases eq_or_ne b a with rfl | hba
    · rw [Function.update_self]
      exact hp
    · rw [Function.update_of_ne hba]
      exact (h.nodes b hb ((hnew b hbw).resolve_right hba)).mono hw
  · intro b hb
    show (∀ i, (Function.update db.mem.node a p b).aiKeyPtr i < lo) ∧
      (∀ i, (Function.update db.mem.node a p b).aiChildPtr i < lo) ∧
      (Function.update db.mem.node a p b).iV2Ptr < lo
    rw [hne (by omega)]
    exact h.low b hb
  · intro pMark hmem
    have hm := h.marks_top pMark hmem
    exact (h.marks pMark hmem).frame _ hw rfl fun b hb => hne (by omega)
  · intro b hb
    have hend := h.iEnd_top
    show SameFor _ _ (Function.update db.mem.node a p b)
    rw [hne (by omega)]
    exact h.same b hb

theorem newTreeNode_goes (h : Work view lo top db) {p : Node} (hp : NodeOk lo (db.iWrite + 1) p) :
    Goes view lo top db (newTreeNode db p).1 :=
  ⟨h.write h.top_le (Nat.le_succ _) hp fun b hb => by omega, Nat.le_succ _⟩

/-- The pointer to a new node. -/
theorem newTreeNode_ptr (h : Work view lo top db) (p : Node) :
    Ptr lo (newTreeNode db p).1.iWrite (newTreeNode db p).2 :=
  .inr ⟨h.le, Nat.lt_succ_self _⟩

theorem putNode_goes (h : Work view lo top db) {a : ℕ} {p : Node} (htop : top ≤ a)
    (hp : NodeOk lo db.iWrite p) : Goes view lo top db (db.putNode a p) :=
  ⟨h.write htop le_rfl hp fun _ hb => .inl hb, le_rfl⟩

theorem newTreeKey_goes (h : Work view lo top db) (e : TreeKey) :
    Goes view lo top db (newTreeKey db e).1 := by
  have hnode := newTreeNode_goes h (.zero (Nat.succ_pos db.iWrite))
  refine ⟨⟨⟨hnode.work.pos, hnode.work.le, hnode.work.root, hnode.work.zero, hnode.work.nodes,
    hnode.work.low, hnode.work.old, ?_, hnode.work.nested, hnode.work.idle, hnode.work.iEnd,
    hnode.work.same, ?_, hnode.work.undo, hnode.work.newer⟩, hnode.work.writer, hnode.work.top_le,
    hnode.work.lo_top, hnode.work.iEnd_top, hnode.work.marks_top⟩, hnode.iWrite⟩
  · exact fun pMark hmem => (hnode.work.marks pMark hmem).frame _ le_rfl rfl fun _ _ => rfl
  · intro a ha
    have hend := h.iEnd
    show Function.update db.mem.key db.iWrite e a = _
    rw [Function.update_of_ne (by omega)]
    exact h.keys a ha

theorem newTreeKey_lt (db : Db) (e : TreeKey) :
    (newTreeKey db e).2 < (newTreeKey db e).1.iWrite := Nat.lt_succ_self _

/-- Another root. -/
theorem root_goes (h : Work view lo top db) {iRoot : ℕ} (hroot : Ptr lo db.iWrite iRoot)
    (nHeight : ℕ) :
    Goes view lo top db { db with root := { db.root with iRoot, nHeight } } := by
  refine ⟨⟨⟨h.pos, h.le, hroot, h.zero, h.nodes, h.low, h.old, ?_, h.nested, h.idle, h.iEnd,
    h.same, h.keys, h.undo, h.newer⟩, h.writer, h.top_le, h.lo_top, h.iEnd_top, h.marks_top⟩,
    le_rfl⟩
  exact fun pMark hmem => (h.marks pMark hmem).frame _ le_rfl rfl fun _ _ => rfl

/-! ### Cursors -/

/-- The nodes of a cursor are those that its cells lead to. -/
def PathOk (m : Mem) (pRoot : Root) : Cursor → Prop
  | [] => True
  | (p, _) :: up => p ≠ 0 ∧ p = csrPtr m pRoot up ∧ PathOk m pRoot up

theorem Inv.csrPtr (h : Inv view lo db) {csr : Cursor} (hcsr : PathOk db.mem db.root csr) :
    Ptr lo db.iWrite (Shm.csrPtr db.mem db.root csr) := by
  induction csr with
  | nil => exact h.root
  | cons c up ih =>
      obtain ⟨p, i⟩ := c
      obtain ⟨-, hp, hup⟩ := hcsr
      exact (h.nodeOk (hp ▸ ih hup)).getChildPtr _ _

/-- The node at a cursor is one of the tree of the writer. -/
theorem Inv.path (h : Inv view lo db) {p i : ℕ} {up : Cursor}
    (hcsr : PathOk db.mem db.root ((p, i) :: up)) : lo ≤ p ∧ p < db.iWrite := by
  obtain ⟨hne, hp, hup⟩ := hcsr
  exact (hp ▸ h.csrPtr hup).resolve_left hne

theorem Inv.pathNode (h : Inv view lo db) {p i : ℕ} {up : Cursor}
    (hcsr : PathOk db.mem db.root ((p, i) :: up)) : NodeOk lo db.iWrite (db.mem.node p) :=
  h.nodeOk (.inr (h.path hcsr))

/-- A path stays one while older nodes do not change. -/
theorem PathOk.same (h : Inv view lo db) (db' : Db)
    (hnode : ∀ a < db.iWrite, db'.mem.node a = db.mem.node a) (hroot : db'.root = db.root)
    {csr : Cursor} (hcsr : PathOk db.mem db.root csr) : PathOk db'.mem db'.root csr := by
  have hptr : ∀ {csr : Cursor}, PathOk db.mem db.root csr →
      Shm.csrPtr db'.mem db'.root csr = Shm.csrPtr db.mem db.root csr := by
    intro csr hcsr
    rcases csr with - | ⟨⟨p, i⟩, up⟩
    · exact congrArg Root.iRoot hroot
    · show (db'.mem.node p).getChildPtr db'.root.iTransId i = _
      rw [hnode p (h.path hcsr).2, hroot]
      rfl
  induction csr with
  | nil => trivial
  | cons c up ih =>
      obtain ⟨p, i⟩ := c
      exact ⟨hcsr.1, hcsr.2.1.trans (hptr hcsr.2.2).symm, ih hcsr.2.2⟩

theorem newTreeNode_path (h : Inv view lo db) (p : Node) {csr : Cursor}
    (hcsr : PathOk db.mem db.root csr) :
    PathOk (newTreeNode db p).1.mem (newTreeNode db p).1.root csr :=
  PathOk.same h (newTreeNode db p).1 (fun _ ha => Function.update_of_ne (ne_of_lt ha) _ _) rfl hcsr

theorem newTreeKey_path (h : Inv view lo db) (e : TreeKey) {csr : Cursor}
    (hcsr : PathOk db.mem db.root csr) :
    PathOk (newTreeKey db e).1.mem (newTreeKey db e).1.root csr :=
  PathOk.same h (newTreeKey db e).1 (fun _ ha => Function.update_of_ne (ne_of_lt ha) _ _) rfl hcsr

/-! ### Version 2 data -/

/-- The memory with version 2 data on a node. -/
theorem setV2_node (db : Db) (p iTransId i iNew b : ℕ) :
    Function.update db.mem.node p ((db.mem.node p).setV2 iTransId i iNew) b = db.mem.node b ∨
      b = p ∧ Function.update db.mem.node p ((db.mem.node p).setV2 iTransId i iNew) b =
        (db.mem.node b).setV2 iTransId i iNew := by
  rcases eq_or_ne b p with rfl | hbp
  · exact .inr ⟨rfl, Function.update_self _ _ _⟩
  · exact .inl (Function.update_of_ne hbp _ _)

/-- Version 2 data on a node keeps a mark good, if the node is recorded for a rollback. -/
theorem MarkOk.setV2 {pMark : Mark} (h : MarkOk view lo db pMark) (p iTransId i iNew : ℕ) :
    MarkOk view lo
      { db.putNode p ((db.mem.node p).setV2 iTransId i iNew) with rollback := db.rollback ++ [p] }
      pMark := by
  have hdrop : (db.rollback ++ [p]).drop pMark.iRollback =
      db.rollback.drop pMark.iRollback ++ [p] := List.drop_append_of_le_length h.iRollback
  refine ⟨h.iEnd, h.lo_le, h.iWrite, h.root, ?_, ?_, ?_, ?_⟩
  · rw [List.length_append]
    exact h.iRollback.trans (Nat.le_add_right _ _)
  · intro b hb
    rcases setV2_node db p iTransId i iNew b with heq | ⟨-, heq⟩
    all_goals
      show ∀ i, (Function.update db.mem.node p _ b).aiKeyPtr i < _
      rw [heq]
      exact h.key b hb
  · intro b hb
    rcases setV2_node db p iTransId i iNew b with heq | ⟨-, heq⟩
    all_goals
      show ∀ i, (Function.update db.mem.node p _ b).aiChildPtr i < _
      rw [heq]
      exact h.child b hb
  · intro b hb
    show (Function.update db.mem.node p _ b).iV2Ptr < _ ∨
      b ∈ (db.rollback ++ [p]).drop pMark.iRollback
    rw [hdrop, List.mem_append]
    rcases setV2_node db p iTransId i iNew b with heq | ⟨rfl, -⟩
    · rw [heq]
      exact (h.v2 b hb).imp_right .inl
    · exact .inr (.inr (List.mem_singleton_self b))

/-- Version 2 data on a node that has none. -/
theorem setV2_goes (h : Work view lo top db) {p : ℕ} (hp : lo ≤ p ∧ p < db.iWrite)
    (hbare : (db.mem.node p).iV2 = 0) (i : ℕ) {iNew : ℕ} (hnew : Ptr lo db.iWrite iNew) :
    Goes view lo top db
      { db.putNode p ((db.mem.node p).setV2 db.root.iTransId i iNew) with
        rollback := db.rollback ++ [p] } := by
  have hpos := h.pos
  -- a reader saw no version 2 data there either
  have hview : p < view.iEnd → (view.mem.node p).iV2 = 0 := by
    intro hend
    by_contra hne
    have heq := (h.same p hend).written hne
    rw [heq] at hbare
    exact hne hbare
  refine ⟨⟨⟨h.pos, h.le, h.root, ?_, ?_, ?_, h.old, ?_, h.nested, ?_, h.iEnd, ?_, h.keys, ?_,
    h.newer⟩, h.writer, h.top_le, h.lo_top, h.iEnd_top, h.marks_top⟩, le_rfl⟩
  · exact (Function.update_of_ne (by omega) _ _).trans h.zero
  · intro b hb hbw
    show NodeOk lo db.iWrite (Function.update db.mem.node p _ b)
    rcases setV2_node db p db.root.iTransId i iNew b with heq | ⟨-, heq⟩
    · rw [heq]
      exact h.nodes b hb hbw
    · rw [heq]
      exact ⟨(h.nodes b hb hbw).key, (h.nodes b hb hbw).child, hnew⟩
  · intro b hb
    show (∀ i, (Function.update db.mem.node p _ b).aiKeyPtr i < lo) ∧
      (∀ i, (Function.update db.mem.node p _ b).aiChildPtr i < lo) ∧
      (Function.update db.mem.node p _ b).iV2Ptr < lo
    rw [Function.update_of_ne (by omega)]
    exact h.low b hb
  · exact fun pMark hmem => (h.marks pMark hmem).setV2 _ _ _ _
  · intro hidle
    cases hidle.symm.trans h.writer
  · intro b hb
    have hsame := h.same b hb
    show SameFor _ _ (Function.update db.mem.node p _ b)
    rcases setV2_node db p db.root.iTransId i iNew b with heq | ⟨rfl, heq⟩
    · rw [heq]
      exact hsame
    · rw [heq]
      refine ⟨hsame.key, hsame.child, fun hne => absurd (hview hb) hne, fun _ => .inr ?_⟩
      rcases h.newer with hle | ⟨-, hlt⟩
      · omega
      · exact hlt h.writer
  · intro b hb
    rcases List.mem_append.mp hb with hb | hb
    · exact h.undo b hb
    · rw [List.mem_singleton.mp hb]
      exact ⟨hp.1, hview⟩

/-- **`treeUpdatePtr`** keeps the invariant. -/
theorem treeUpdatePtr_goes {csr : Cursor} (h : Work view lo top db)
    (hcsr : PathOk db.mem db.root csr) {iNew : ℕ} (hnew : Ptr lo db.iWrite iNew) :
    Goes view lo top db (treeUpdatePtr csr db iNew) := by
  induction csr generalizing db iNew with
  | nil => exact root_goes h hnew _
  | cons c up ih =>
      obtain ⟨p, iChildPtr⟩ := c
      simp only [treeUpdatePtr]
      split_ifs with hv
      · have hcopy : NodeOk lo (db.iWrite + 1)
            ((copyTreeNode (db.mem.node p)).setChild iChildPtr iNew) :=
          ((h.pathNode hcsr).copyTreeNode.setChild _ hnew).mono (Nat.le_succ _)
        have hgoes := newTreeNode_goes h hcopy
        exact hgoes.trans (ih hgoes.work (newTreeNode_path h.toInv _ hcsr.2.2)
          (newTreeNode_ptr h _))
      · obtain ⟨-, hp, -⟩ := id hcsr
        rw [← hp]
        exact setV2_goes h (h.path hcsr) (not_not.mp hv) iChildPtr hnew

/-- A new node takes the place of the one below a cursor. -/
theorem replaceNode_goes (h : Work view lo top db) {up : Cursor} (hup : PathOk db.mem db.root up)
    {p : Node} (hp : NodeOk lo db.iWrite p) :
    Goes view lo top db (treeUpdatePtr up (newTreeNode db p).1 (newTreeNode db p).2) := by
  have hgoes := newTreeNode_goes h (hp.mono (Nat.le_succ _))
  exact hgoes.trans (treeUpdatePtr_goes hgoes.work (newTreeNode_path h.toInv p hup)
    (newTreeNode_ptr h p))

/-! ### Insertion -/

section Nodes

variable {w : ℕ} {p : Node}

theorem NodeOk.halfNode (h : NodeOk lo w p) (hw : 0 < w) (i : ℕ) :
    NodeOk lo w (Shm.halfNode p i) := by
  refine .ofLists hw ?_ ?_
  · simp only [List.mem_cons, List.not_mem_nil, or_false, forall_eq_or_imp, forall_eq]
    exact ⟨hw, h.key i⟩
  · simp only [List.mem_cons, List.not_mem_nil, or_false, forall_eq_or_imp, forall_eq]
    exact ⟨.zero lo w, h.working i, h.working (i + 1)⟩

variable {iLeftPtr iTreeKey iRightPtr : ℕ}

theorem NodeOk.insertLow (h : NodeOk lo w p) (hleft : Ptr lo w iLeftPtr) (hkey : iTreeKey < w)
    (hright : Ptr lo w iRightPtr) :
    NodeOk lo w (Shm.insertLow p iLeftPtr iTreeKey iRightPtr) := by
  have hq := (h.setKey 0 hkey).setChild 0 hleft
  unfold Shm.insertLow
  simp only
  split_ifs
  · exact hq.setChild 1 hright
  · exact hq

theorem NodeOk.insertHigh (h : NodeOk lo w p) (hleft : Ptr lo w iLeftPtr) (hkey : iTreeKey < w)
    (hright : Ptr lo w iRightPtr) :
    NodeOk lo w (Shm.insertHigh p iLeftPtr iTreeKey iRightPtr) :=
  ((h.setChild 3 (.orElse hright (h.child 2))).setKey 2 hkey).setChild 2 hleft

theorem NodeOk.insertCell (h : NodeOk lo w p) (hw : 0 < w) (hleft : Ptr lo w iLeftPtr)
    (hkey : iTreeKey < w) (hright : Ptr lo w iRightPtr) (iSlot : ℕ) :
    NodeOk lo w (Shm.insertCell p iLeftPtr iTreeKey iRightPtr iSlot) := by
  have hkeys : ∀ l : List ℕ, ∀ k ∈ l.map p.aiKeyPtr, k < w := by
    intro l k hk
    obtain ⟨i, -, rfl⟩ := List.mem_map.mp hk
    exact h.key i
  have hptrs : ∀ l : List ℕ, ∀ c ∈ l.map p.working, Ptr lo w c := by
    intro l c hc
    obtain ⟨i, -, rfl⟩ := List.mem_map.mp hc
    exact h.working i
  refine .ofLists hw ?_ ?_
  · intro k hk
    rcases List.mem_append.mp hk with hk | hk
    · exact hkeys _ k hk
    · rcases List.mem_cons.mp hk with rfl | hk
      · exact hkey
      · exact hkeys _ k hk
  · intro c hc
    rcases List.mem_append.mp hc with hc | hc
    · exact hptrs _ c hc
    rcases List.mem_cons.mp hc with rfl | hc
    · exact hleft
    rcases hhi : cellsOf p (List.range' iSlot (3 - iSlot)) with - | ⟨i, is⟩
    · rw [hhi] at hc
      rw [List.mem_singleton.mp hc]
      exact .orElse hright (h.working _)
    · rw [hhi] at hc
      rcases List.mem_cons.mp hc with rfl | hc
      · exact .orElse hright (h.working i)
      rcases List.mem_append.mp hc with hc | hc
      · exact hptrs _ c hc
      · rw [List.mem_singleton.mp hc]
        exact h.working _

end Nodes

theorem putHalf_goes (h : Work view lo top db) {iLeft iRight : ℕ} {pLeft pRight : Node}
    (hiLeft : top ≤ iLeft) (hiRight : top ≤ iRight) (hpLeft : NodeOk lo db.iWrite pLeft)
    (hpRight : NodeOk lo db.iWrite pRight) {iLeftPtr iTreeKey iRightPtr : ℕ}
    (hleft : Ptr lo db.iWrite iLeftPtr) (hkey : iTreeKey < db.iWrite)
    (hright : Ptr lo db.iWrite iRightPtr) (iSlot : ℕ) :
    Goes view lo top db
      (putHalf db iLeft iRight pLeft pRight iLeftPtr iTreeKey iRightPtr iSlot) := by
  unfold putHalf
  split
  · exact putNode_goes h hiLeft (hpLeft.insertLow hleft hkey hright)
  · exact putNode_goes h hiLeft (hpLeft.insertHigh hleft hkey hright)
  · exact putNode_goes h hiRight (hpRight.insertLow hleft hkey hright)
  · exact putNode_goes h hiRight (hpRight.insertHigh hleft hkey hright)
  · exact ⟨h, le_rfl⟩

/-- **`treeInsert`** keeps the invariant. -/
theorem treeInsert_goes {csr : Cursor} (h : Work view lo top db)
    (hcsr : PathOk db.mem db.root csr) {iLeftPtr iTreeKey iRightPtr : ℕ}
    (hleft : Ptr lo db.iWrite iLeftPtr) (hkey : iTreeKey < db.iWrite)
    (hright : Ptr lo db.iWrite iRightPtr) (iSlot : ℕ) :
    Goes view lo top db (treeInsert csr db iLeftPtr iTreeKey iRightPtr iSlot) := by
  induction csr generalizing db iLeftPtr iTreeKey iRightPtr iSlot with
  | nil => exact ⟨h, le_rfl⟩
  | cons c up ih =>
      obtain ⟨p, i⟩ := c
      have hnode := h.pathNode hcsr
      have hpos := h.iWrite_pos
      have hl := newTreeNode_goes h ((hnode.halfNode hpos 0).mono (Nat.le_succ _))
      have hr := newTreeNode_goes hl.work
        ((hnode.halfNode hpos 2).mono (hl.iWrite.trans (Nat.le_succ _)))
      have hlptr := (newTreeNode_ptr h (halfNode (db.mem.node p) 0)).mono hr.iWrite
      have hrptr := newTreeNode_ptr hl.work (halfNode (db.mem.node p) 2)
      have hmid := (hnode.key 1).trans_le (hl.trans hr).iWrite
      -- the key goes to one of the halves last
      have hend : ∀ db' : Db, Goes view lo top (newTreeNode (newTreeNode db
            (halfNode (db.mem.node p) 0)).1 (halfNode (db.mem.node p) 2)).1 db' →
          Goes view lo top db (putHalf db' db.iWrite (db.iWrite + 1) (halfNode (db.mem.node p) 0)
            (halfNode (db.mem.node p) 2) iLeftPtr iTreeKey iRightPtr iSlot) := by
        intro db' hdb'
        have hgoes := (hl.trans hr).trans hdb'
        have hw := hgoes.iWrite
        exact hgoes.trans (putHalf_goes hgoes.work h.top_le (Nat.le_succ_of_le h.top_le)
          ((hnode.halfNode hpos 0).mono hw) ((hnode.halfNode hpos 2).mono hw) (hleft.mono hw)
          (hkey.trans_le hw) (hright.mono hw) iSlot)
      simp only [treeInsert]
      split_ifs with hfull hup
      · -- the root is split
        have hroot : NodeOk lo (db.iWrite + 1 + 1 + 1) (ofLists [0, (db.mem.node p).aiKeyPtr 1]
            [0, db.iWrite, db.iWrite + 1]) := by
          refine .ofLists (Nat.succ_pos _) ?_ ?_
          all_goals
            simp only [List.mem_cons, List.not_mem_nil, or_false, forall_eq_or_imp, forall_eq]
          · exact ⟨Nat.succ_pos _, Nat.lt_succ_of_lt hmid⟩
          · exact ⟨.zero lo _, hlptr.mono (Nat.le_succ _), hrptr.mono (Nat.le_succ _)⟩
        have hnew := newTreeNode_goes hr.work hroot
        exact hend _ (hnew.trans (root_goes hnew.work (newTreeNode_ptr hr.work _) _))
      · have hpath := newTreeNode_path hl.work.toInv (halfNode (db.mem.node p) 2)
          (newTreeNode_path h.toInv (halfNode (db.mem.node p) 0) hcsr.2.2)
        exact hend _ (ih hr.work hpath hlptr hmid hrptr (csrCell up))
      · exact replaceNode_goes h hcsr.2.2 (hnode.insertCell hpos hleft hkey hright iSlot)

/-- A leaf with good keys. -/
theorem NodeOk.leaf {w : ℕ} (hw : 0 < w) {ks : List ℕ} (hks : ∀ k ∈ ks, k < w) :
    NodeOk lo w (Node.ofLists ks []) :=
  .ofLists hw hks fun _ hc => absurd hc List.not_mem_nil

theorem splitLeaf_ok {w : ℕ} {pLeaf : Node} (h : NodeOk lo w pLeaf) (hw : 0 < w) {iTreeKey : ℕ}
    (hkey : iTreeKey < w) (iSlot : ℕ) :
    NodeOk lo w (splitLeaf pLeaf iTreeKey iSlot).1 ∧
      NodeOk lo w (splitLeaf pLeaf iTreeKey iSlot).2 := by
  have hk0 := h.key 0
  have hk2 := h.key 2
  unfold splitLeaf
  split <;> exact ⟨.leaf hw (by simp [hw, hkey, hk0]), .leaf hw (by simp [hw, hkey, hk2])⟩

theorem treeInsertLeaf_goes {csr : Cursor} (h : Work view lo top db)
    (hcsr : PathOk db.mem db.root csr) {iTreeKey : ℕ} (hkey : iTreeKey < db.iWrite) (iSlot : ℕ) :
    Goes view lo top db (treeInsertLeaf csr db iTreeKey iSlot) := by
  rcases csr with - | ⟨⟨p, i⟩, up⟩
  · exact ⟨h, le_rfl⟩
  have hnode := h.pathNode hcsr
  have hpos := h.iWrite_pos
  simp only [treeInsertLeaf]
  split_ifs with hfull
  · -- both halves are new, and the key between them goes up
    obtain ⟨hnew, hright⟩ := splitLeaf_ok hnode hpos hkey iSlot
    have hl := newTreeNode_goes h (hnew.mono (Nat.le_succ _))
    have hr := newTreeNode_goes hl.work (hright.mono (hl.iWrite.trans (Nat.le_succ _)))
    have hpath := newTreeNode_path hl.work.toInv (splitLeaf (db.mem.node p) iTreeKey iSlot).2
      (newTreeNode_path h.toInv (splitLeaf (db.mem.node p) iTreeKey iSlot).1 hcsr.2.2)
    exact (hl.trans hr).trans (treeInsert_goes hr.work hpath
      ((newTreeNode_ptr h _).mono hr.iWrite) ((hnode.key 1).trans_le (hl.trans hr).iWrite)
      (newTreeNode_ptr hl.work _) (csrCell up))
  · refine replaceNode_goes h hcsr.2.2 (.leaf hpos fun k hk => ?_)
    rcases List.mem_append.mp hk with hk | hk
    · obtain ⟨j, -, rfl⟩ := List.mem_map.mp hk
      exact hnode.key j
    · rcases List.mem_cons.mp hk with rfl | hk
      · exact hkey
      · obtain ⟨j, -, rfl⟩ := List.mem_map.mp hk
        exact hnode.key j

theorem treeOverwriteKey_goes {csr : Cursor} (h : Work view lo top db)
    (hcsr : PathOk db.mem db.root csr) {iKey : ℕ} (hkey : iKey < db.iWrite) :
    Goes view lo top db (treeOverwriteKey csr db iKey) := by
  rcases csr with - | ⟨⟨p, iCell⟩, up⟩
  · exact ⟨h, le_rfl⟩
  have hnode := h.pathNode hcsr
  have hcopy : NodeOk lo db.iWrite (if 0 < up.length ∧ up.length + 1 = db.root.nHeight then
      copyTreeLeaf (db.mem.node p) else copyTreeNode (db.mem.node p)) := by
    split_ifs
    · exact hnode.copyTreeLeaf
    · exact hnode.copyTreeNode
  exact replaceNode_goes h hcsr.2.2 (hcopy.setKey iCell hkey)

/-! ### Deletion -/

theorem NodeOk.removeCell {w : ℕ} {p : Node} (h : NodeOk lo w p) (hw : 0 < w)
    (bLeaf bOne : Bool) (iSlot : ℕ) {iNewptr : ℕ} (hnew : Ptr lo w iNewptr) :
    NodeOk lo w (Shm.removeCell bLeaf bOne p iSlot iNewptr) := by
  have hkeyAt : ∀ i, (if i < 3 then p.aiKeyPtr i else 0) < w := by
    intro i
    split_ifs
    · exact h.key i
    · exact hw
  unfold Shm.removeCell
  simp only
  split
  · -- a leaf, or the only node: the pointers are zero but for the new one
    refine .ofLists hw ?_ ?_
    · intro k hk
      rcases List.mem_cons.mp hk with rfl | hk
      · exact hw
      obtain ⟨i, -, hk⟩ := List.mem_flatMap.mp hk
      rcases Decidable.em (i = iSlot) with hi | hi
      · rw [if_pos hi] at hk
        rw [List.mem_singleton.mp hk]
        exact hkeyAt (i + 1)
      rw [if_neg hi] at hk
      rcases Decidable.em (i = iSlot + 1 ∨ (if i < 3 then p.aiKeyPtr i else 0) = 0) with
        hskip | hskip
      · rw [if_pos hskip] at hk
        cases hk
      · rw [if_neg hskip] at hk
        rw [List.mem_singleton.mp hk]
        exact hkeyAt i
    · intro c hc
      rcases List.mem_cons.mp hc with rfl | hc
      · exact .zero lo w
      split at hc
      · cases hc
      · rcases List.mem_append.mp hc with hc | hc
        · rw [(List.mem_replicate.mp hc).2]
          exact .zero lo w
        · rw [List.mem_singleton.mp hc]
          exact hnew
  · -- a pair is a key and the pointer at its left
    have hpairs : ∀ c ∈ (List.range 4).flatMap (fun i =>
          if i = iSlot then [(if i + 1 < 3 then p.aiKeyPtr (i + 1) else 0, iNewptr)]
          else if i = iSlot + 1 ∨ p.working i = 0 then []
          else [(if i < 3 then p.aiKeyPtr i else 0, p.working i)]),
        c.1 < w ∧ Ptr lo w c.2 := by
      intro c hc
      obtain ⟨i, -, hc⟩ := List.mem_flatMap.mp hc
      split at hc
      · rw [List.mem_singleton.mp hc]
        exact ⟨hkeyAt (i + 1), hnew⟩
      · split at hc
        · cases hc
        · rw [List.mem_singleton.mp hc]
          exact ⟨hkeyAt i, h.working i⟩
    refine .ofLists hw ?_ ?_
    · intro k hk
      rcases List.mem_cons.mp hk with rfl | hk
      · exact hw
      · obtain ⟨c, hc, rfl⟩ := List.mem_map.mp hk
        exact (hpairs c hc).1
    · intro k hk
      rcases List.mem_cons.mp hk with rfl | hk
      · exact .zero lo w
      · obtain ⟨c, hc, rfl⟩ := List.mem_map.mp hk
        exact (hpairs c hc).2

section Peers

variable {w : ℕ} {pParent pPeer : Node}

theorem childrenOf_ptr {bLeaf : Bool} {l : List ℕ} (hl : ∀ c ∈ l, Ptr lo w c) :
    ∀ c ∈ childrenOf bLeaf l, Ptr lo w c := by
  intro c hc
  unfold childrenOf at hc
  split at hc
  · cases hc
  · exact hl c hc

theorem borrowNodes_ok (hparent : NodeOk lo w pParent) (hpeer : NodeOk lo w pPeer) (hw : 0 < w)
    (bLeaf bLeft : Bool) (iPSlot : ℕ) {iNewptr : ℕ} (hnew : Ptr lo w iNewptr) :
    NodeOk lo w (borrowNodes bLeaf bLeft pParent pPeer iPSlot iNewptr).1 ∧
      NodeOk lo w (borrowNodes bLeaf bLeft pParent pPeer iPSlot iNewptr).2 := by
  unfold borrowNodes
  rcases bLeft with - | -
  · rw [if_neg Bool.false_ne_true]
    refine ⟨.ofLists hw ?_ (childrenOf_ptr ?_), .ofLists hw ?_ (childrenOf_ptr ?_)⟩
    all_goals simp only [List.mem_cons, List.not_mem_nil, or_false, forall_eq_or_imp, forall_eq]
    · exact ⟨hw, hparent.key _⟩
    · exact ⟨.zero lo w, hnew, hpeer.working 0⟩
    · exact ⟨hpeer.key 1, hpeer.key 2⟩
    · exact ⟨hpeer.working 1, hpeer.working 2, hpeer.working 3⟩
  · rw [if_pos rfl]
    refine ⟨.ofLists hw ?_ (childrenOf_ptr ?_), .ofLists hw ?_ (childrenOf_ptr ?_)⟩
    all_goals simp only [List.mem_cons, List.not_mem_nil, or_false, forall_eq_or_imp, forall_eq]
    · exact ⟨hw, hpeer.key 0⟩
    · exact ⟨.zero lo w, hpeer.working 0, hpeer.working 1⟩
    · exact ⟨hpeer.key 2, hparent.key _⟩
    · exact ⟨hpeer.working 2, hpeer.working 3, hnew⟩

theorem borrowParent_ok (hparent : NodeOk lo w pParent) (hpeer : NodeOk lo w pPeer)
    (bLeft : Bool) (iPSlot : ℕ) {iNew1 iNew2 : ℕ} (hnew1 : Ptr lo w iNew1)
    (hnew2 : Ptr lo w iNew2) :
    NodeOk lo w (borrowParent bLeft pParent pPeer iPSlot iNew1 iNew2) := by
  unfold borrowParent
  split
  · exact ((hparent.copyTreeNode.setChild _ hnew1).setKey _ (hpeer.key 1)).setChild _ hnew2
  · exact ((hparent.copyTreeNode.setChild _ hnew1).setKey _ (hpeer.key 0)).setChild _ hnew2

theorem mergeNode_ok (hparent : NodeOk lo w pParent) (hpeer : NodeOk lo w pPeer) (hw : 0 < w)
    (bLeaf bLeft : Bool) (iPSlot : ℕ) {iNewptr : ℕ} (hnew : Ptr lo w iNewptr) :
    NodeOk lo w (mergeNode bLeaf bLeft pParent pPeer iPSlot iNewptr) := by
  have hks : ∀ k ∈ (cellsOf pPeer [0, 1, 2]).map pPeer.aiKeyPtr, k < w := by
    intro k hk
    obtain ⟨i, -, rfl⟩ := List.mem_map.mp hk
    exact hpeer.key i
  have hcs : ∀ c ∈ childrenOf bLeaf (([0, 1, 2, 3].map pPeer.working).filter fun c => c ≠ 0),
      Ptr lo w c := by
    refine childrenOf_ptr fun c hc => ?_
    obtain ⟨i, -, rfl⟩ := List.mem_map.mp (List.mem_of_mem_filter hc)
    exact hpeer.working i
  have hone : ∀ c ∈ childrenOf bLeaf [iNewptr], Ptr lo w c :=
    childrenOf_ptr fun c hc => List.mem_singleton.mp hc ▸ hnew
  unfold mergeNode
  simp only
  split
  · refine .ofLists hw (fun k hk => ?_) fun c hc => ?_
    · rcases List.mem_append.mp hk with hk | hk
      · exact hks k hk
      · exact List.mem_singleton.mp hk ▸ hparent.key _
    · exact (List.mem_append.mp hc).elim (hcs c) (hone c)
  · refine .ofLists hw (fun k hk => ?_) fun c hc => ?_
    · rcases List.mem_cons.mp hk with rfl | hk
      · exact hparent.key _
      · exact hks k hk
    · exact (List.mem_append.mp hc).elim (hone c) (hcs c)

end Peers

/-- Two new nodes below a new parent. -/
theorem borrow_goes (h : Work view lo top db) {up : Cursor} (hup : PathOk db.mem db.root up)
    {pParent pPeer : Node} (hparent : NodeOk lo db.iWrite pParent)
    (hpeer : NodeOk lo db.iWrite pPeer) (bLeaf bLeft : Bool) (iPSlot : ℕ) {iNewptr : ℕ}
    (hnew : Ptr lo db.iWrite iNewptr) :
    Goes view lo top db
      (treeUpdatePtr up (newTreeNode (newTreeNode (newTreeNode db
        (borrowNodes bLeaf bLeft pParent pPeer iPSlot iNewptr).1).1
        (borrowNodes bLeaf bLeft pParent pPeer iPSlot iNewptr).2).1
        (borrowParent bLeft pParent pPeer iPSlot db.iWrite (db.iWrite + 1))).1
        (db.iWrite + 2)) := by
  obtain ⟨hnew1, hnew2⟩ := borrowNodes_ok hparent hpeer h.iWrite_pos bLeaf bLeft iPSlot hnew
  have h1 := newTreeNode_goes h (hnew1.mono (Nat.le_succ _))
  have h2 := newTreeNode_goes h1.work (hnew2.mono (h1.iWrite.trans (Nat.le_succ _)))
  have hw := (h1.trans h2).iWrite
  have hP := borrowParent_ok (hparent.mono hw) (hpeer.mono hw) bLeft iPSlot
    ((newTreeNode_ptr h _).mono h2.iWrite) (newTreeNode_ptr h1.work _)
  have hpath := newTreeNode_path h1.work.toInv
    (borrowNodes bLeaf bLeft pParent pPeer iPSlot iNewptr).2 (newTreeNode_path h.toInv _ hup)
  exact (h1.trans h2).trans (replaceNode_goes h2.work hpath hP)

/-- **`treeDeleteEntry`** keeps the invariant. -/
theorem treeDeleteEntry_goes {up : Cursor} (h : Work view lo top db) {p iSlot iNewptr : ℕ}
    (hcsr : PathOk db.mem db.root ((p, iSlot) :: up)) (hnew : Ptr lo db.iWrite iNewptr) :
    Goes view lo top db (treeDeleteEntry up db p iSlot iNewptr) := by
  induction up generalizing db p iSlot iNewptr with
  | nil =>
      rw [treeDeleteEntry]
      simp only
      split
      · exact replaceNode_goes h hcsr.2.2
          ((h.pathNode hcsr).removeCell h.iWrite_pos _ _ iSlot hnew)
      · exact root_goes h hnew _
  | cons c up ih =>
      obtain ⟨q, iPSlot⟩ := c
      have hparent := h.pathNode hcsr.2.2
      have hpeer : ∀ i, NodeOk lo db.iWrite (db.mem.node ((db.mem.node q).working i)) :=
        fun i => h.nodeOk (hparent.working i)
      -- one new node; the parent loses a cell
      have hmerge : ∀ bLeaf bLeft i iPSlot', Goes view lo top db
          (treeDeleteEntry up (newTreeNode db (mergeNode bLeaf bLeft (db.mem.node q)
            (db.mem.node ((db.mem.node q).working i)) iPSlot iNewptr)).1 q iPSlot' db.iWrite) := by
        intro bLeaf bLeft i iPSlot'
        have h1 := newTreeNode_goes h ((mergeNode_ok hparent (hpeer i) h.iWrite_pos bLeaf bLeft
          iPSlot hnew).mono (Nat.le_succ _))
        have hpath : PathOk db.mem db.root ((q, iPSlot') :: up) := hcsr.2.2
        exact h1.trans (ih h1.work (newTreeNode_path h.toInv _ hpath) (newTreeNode_ptr h _))
      rw [treeDeleteEntry]
      simp only
      split
      · exact replaceNode_goes h hcsr.2.2
          ((h.pathNode hcsr).removeCell h.iWrite_pos _ _ iSlot hnew)
      · -- the peer on the left, or the one on the right
        split
        · split
          · exact borrow_goes h hcsr.2.2.2.2 hparent (hpeer _) _ _ iPSlot hnew
          · exact hmerge _ _ _ _
        · split
          · exact borrow_goes h hcsr.2.2.2.2 hparent (hpeer _) _ _ iPSlot hnew
          · exact hmerge _ _ _ _

/-! ### Where cursors go -/

section Paths

variable {m : Mem} {pRoot : Root} {csr : Cursor}

theorem seekFrom_path (beyond : ℕ → Byte) (pKey : Bytes) (n : ℕ) {iNodePtr : ℕ}
    (hne : iNodePtr ≠ 0) (hp : iNodePtr = csrPtr m pRoot csr) (hcsr : PathOk m pRoot csr) :
    PathOk m pRoot (seekFrom m pRoot.iTransId beyond pKey n iNodePtr csr).1 := by
  induction n generalizing iNodePtr csr with
  | zero => exact ⟨hne, hp, hcsr⟩
  | succ n ih =>
      rw [seekFrom]
      split_ifs with hstop
      · exact ⟨hne, hp, hcsr⟩
      · exact ih (not_or.mp hstop).2 rfl ⟨hne, hp, hcsr⟩

theorem lsmTreeCursorSeek_path (m : Mem) (pRoot : Root) (beyond : ℕ → Byte) (pKey : Bytes) :
    PathOk m pRoot (lsmTreeCursorSeek m pRoot beyond pKey).1 := by
  unfold lsmTreeCursorSeek
  split_ifs with hroot
  · trivial
  · exact seekFrom_path beyond pKey _ hroot rfl trivial

theorem descend_path (cell : Node → ℕ → ℕ) (n : ℕ) (hcsr : PathOk m pRoot csr) :
    PathOk m pRoot (descend m pRoot.iTransId cell n csr) := by
  induction n generalizing csr with
  | zero => exact hcsr
  | succ n ih =>
      rcases csr with - | ⟨⟨p, i⟩, up⟩
      · trivial
      rw [descend]
      split_ifs with hnext
      · exact hcsr
      · exact ih ⟨hnext, rfl, hcsr⟩

theorem ascendNext_path (hcsr : PathOk m pRoot csr) : PathOk m pRoot (ascendNext m csr) := by
  induction csr with
  | nil => trivial
  | cons c up ih =>
      obtain ⟨p, i⟩ := c
      rw [ascendNext]
      split_ifs
      · exact hcsr
      · exact ih hcsr.2.2

theorem ascendPrev_path (hcsr : PathOk m pRoot csr) : PathOk m pRoot (ascendPrev m csr) := by
  induction csr with
  | nil => trivial
  | cons c up ih =>
      obtain ⟨p, i⟩ := c
      rw [ascendPrev]
      split_ifs
      · exact ⟨hcsr.1, hcsr.2.1, hcsr.2.2⟩
      · exact ih hcsr.2.2

theorem lsmTreeCursorNext_path (hcsr : PathOk m pRoot csr) :
    PathOk m pRoot (lsmTreeCursorNext m pRoot csr) := by
  rcases csr with - | ⟨⟨p, i⟩, up⟩
  · trivial
  simp only [lsmTreeCursorNext]
  split_ifs
  · have hnext : PathOk m pRoot ((p, i + 1) :: up) := hcsr
    exact descend_path _ _ hnext
  · exact ascendNext_path hcsr.2.2
  · exact hcsr

theorem lsmTreeCursorPrev_path (hcsr : PathOk m pRoot csr) :
    PathOk m pRoot (lsmTreeCursorPrev m pRoot csr) := by
  rcases csr with - | ⟨⟨p, i⟩, up⟩
  · trivial
  simp only [lsmTreeCursorPrev]
  split_ifs
  · exact descend_path _ _ hcsr
  · exact ascendPrev_path hcsr

end Paths

/-- The key at a cursor is one of the memory. -/
theorem Inv.csrKeyPtr (h : Inv view lo db) {csr : Cursor} (hcsr : PathOk db.mem db.root csr)
    {iKey : ℕ} (hkey : Shm.csrKeyPtr db.mem csr = some iKey) : iKey < db.iWrite := by
  rcases csr with - | ⟨⟨p, i⟩, up⟩
  · cases hkey
  · obtain rfl := Option.some.inj hkey
    exact (h.pathNode hcsr).key i

/-! ### The operations of a writer -/

theorem treeInsertEntry_goes (h : Work view lo top db) (beyond : ℕ → Byte) (iOff : ℕ)
    (f : EntryFlag) (pKey : Bytes) :
    Goes view lo top db (treeInsertEntry beyond iOff f pKey db) := by
  unfold treeInsertEntry
  simp only
  split
  · -- the first entry
    have hkey := newTreeKey_goes h (Lsm.newTreeKey iOff pKey f.data f.isStart f.isEnd false)
    have hleaf : NodeOk lo (db.iWrite + 1 + 1) (ofLists [0, db.iWrite] []) := by
      refine .leaf (Nat.succ_pos _) ?_
      simp only [List.mem_cons, List.not_mem_nil, or_false, forall_eq_or_imp, forall_eq]
      exact ⟨Nat.succ_pos _, by omega⟩
    have hnode := newTreeNode_goes hkey.work hleaf
    exact (hkey.trans hnode).trans (root_goes hnode.work (newTreeNode_ptr hkey.work _) 1)
  · have hcsr := lsmTreeCursorSeek_path db.mem db.root beyond pKey
    rcases hres : csrKeyPtr db.mem (lsmTreeCursorSeek db.mem db.root beyond pKey).1 with - | iRes
    · exact ⟨h, le_rfl⟩
    simp only
    split_ifs
    · exact ⟨h, le_rfl⟩
    all_goals
      have hkey := newTreeKey_goes h (entryAt iOff f pKey ((db.mem.key iRes).read beyond)
        (lsmTreeCursorSeek db.mem db.root beyond pKey).2)
      have hpath := newTreeKey_path h.toInv (entryAt iOff f pKey ((db.mem.key iRes).read beyond)
        (lsmTreeCursorSeek db.mem db.root beyond pKey).2) hcsr
    · exact hkey.trans (treeOverwriteKey_goes hkey.work hpath (newTreeKey_lt db _))
    · exact hkey.trans (treeInsert_goes hkey.work hpath (.zero lo _) (newTreeKey_lt db _)
        (.zero lo _) _)
    · exact hkey.trans (treeInsertLeaf_goes hkey.work hpath (newTreeKey_lt db _) _)

theorem treeDeleteAt_goes (h : Work view lo top db) {csr : Cursor}
    (hcsr : PathOk db.mem db.root csr) : Goes view lo top db (treeDeleteAt db csr) := by
  rcases csr with - | ⟨⟨p, i⟩, up⟩
  · exact ⟨h, le_rfl⟩
  · exact treeDeleteEntry_goes h hcsr (.zero lo _)

theorem treeDeleteCurrent_goes (h : Work view lo top db) (beyond : ℕ → Byte) {csr : Cursor}
    (hcsr : PathOk db.mem db.root csr) :
    Goes view lo top db (treeDeleteCurrent beyond db csr) := by
  unfold treeDeleteCurrent
  split_ifs
  · exact treeDeleteAt_goes h hcsr
  · have hnext := lsmTreeCursorNext_path hcsr
    rcases hkey : csrKeyPtr db.mem (lsmTreeCursorNext db.mem db.root csr) with - | iKey
    · exact ⟨h, le_rfl⟩
    · have hover := treeOverwriteKey_goes h (lsmTreeCursorPrev_path hnext)
        (h.toInv.csrKeyPtr hnext hkey)
      exact hover.trans (treeDeleteAt_goes hover.work
        (lsmTreeCursorNext_path (lsmTreeCursorSeek_path _ _ _ _)))

theorem seekAfter_path (beyond : ℕ → Byte) (pKey1 : Bytes) (db : Db) :
    PathOk db.mem db.root (seekAfter beyond pKey1 db) := by
  have hcsr := lsmTreeCursorSeek_path db.mem db.root beyond pKey1
  unfold seekAfter
  simp only
  split_ifs
  · exact lsmTreeCursorNext_path hcsr
  · exact hcsr

theorem treeDeleteRange_goes (beyond : ℕ → Byte) (pKey1 pKey2 : Bytes) (n : ℕ)
    (h : Work view lo top db) {db' : Db}
    (hrun : treeDeleteRange beyond pKey1 pKey2 n db = some db') : Goes view lo top db db' := by
  induction n generalizing db with
  | zero => cases hrun
  | succ n ih =>
      rw [treeDeleteRange] at hrun
      rcases hkey : csrKeyPtr db.mem (seekAfter beyond pKey1 db) with - | iKey
      · rw [hkey] at hrun
        exact Option.some.inj hrun ▸ ⟨h, le_rfl⟩
      · rw [hkey] at hrun
        simp only at hrun
        split_ifs at hrun
        · have hdel := treeDeleteCurrent_goes h beyond (seekAfter_path beyond pKey1 db)
          exact hdel.trans (ih hdel.work hrun)
        · exact Option.some.inj hrun ▸ ⟨h, le_rfl⟩

theorem lsmTreeDelete_goes {beyond : ℕ → Byte} {iOff1 iOff2 : ℕ} {pKey1 pKey2 : Bytes} {n : ℕ}
    (h : Work view lo top db) {db' : Db}
    (hrun : lsmTreeDelete beyond iOff1 iOff2 pKey1 pKey2 n db = some db') :
    Goes view lo top db db' := by
  obtain ⟨db₁, hrange, rfl⟩ := Option.map_eq_some_iff.mp hrun
  have h₁ := treeDeleteRange_goes beyond pKey1 pKey2 n h hrange
  have h₂ := treeInsertEntry_goes h₁.work beyond iOff1 .startDelete pKey1
  exact (h₁.trans h₂).trans (treeInsertEntry_goes h₂.work beyond iOff2 .endDelete pKey2)

/-! ### Transactions -/

theorem Inv.work (h : Inv view lo db) (hwriter : db.bWriter = true) :
    Work view lo db.iWrite db :=
  ⟨h, hwriter, le_rfl, h.le, h.iEnd, fun pMark hmem => (h.marks pMark hmem).iWrite⟩

/-- Everything in the memory points into it. -/
theorem Inv.closed (h : Inv view lo db) {a : ℕ} (ha : a < db.iWrite) :
    (∀ i, (db.mem.node a).aiKeyPtr i < db.iWrite) ∧
      (∀ i, (db.mem.node a).aiChildPtr i < db.iWrite) ∧ (db.mem.node a).iV2Ptr < db.iWrite := by
  rcases lt_or_ge a lo with hlo | hlo
  · obtain ⟨hkey, hchild, hv2⟩ := h.low a hlo
    exact ⟨fun i => (hkey i).trans_le h.le, fun i => (hchild i).trans_le h.le, hv2.trans_le h.le⟩
  · have hnode := h.nodes a hlo ha
    exact ⟨hnode.key, fun i => (hnode.child i).lt h.iWrite_pos, hnode.v2.lt h.iWrite_pos⟩

/-- One more level. -/
theorem Inv.mark (h : Inv view lo db) (hwriter : db.bWriter = true) :
    Inv view lo { db with aTrans := lsmTreeMark db :: db.aTrans } := by
  refine ⟨h.pos, h.le, h.root, h.zero, h.nodes, h.low, h.old, ?_, ?_, ?_, h.iEnd, h.same, h.keys,
    h.undo, h.newer⟩
  · intro pMark hmem
    rcases List.mem_cons.mp hmem with rfl | hmem
    · exact ⟨h.iEnd, h.le, le_rfl, h.root, le_rfl, fun a ha => (h.closed ha).1,
        fun a ha => (h.closed ha).2.1, fun a ha => .inl (h.closed ha).2.2⟩
    · exact (h.marks pMark hmem).frame _ le_rfl rfl fun _ _ => rfl
  · refine List.pairwise_cons.mpr ⟨fun pMark hmem => ?_, h.nested⟩
    exact ⟨(h.marks pMark hmem).iWrite, (h.marks pMark hmem).iRollback⟩
  · intro hidle
    cases hidle.symm.trans hwriter

/-- Levels that are no longer marked. -/
theorem Inv.release (h : Inv view lo db) {aTrans : List Mark} (hsub : aTrans.Sublist db.aTrans) :
    Inv view lo { db with aTrans } := by
  refine ⟨h.pos, h.le, h.root, h.zero, h.nodes, h.low, h.old, ?_, h.nested.sublist hsub, ?_,
    h.iEnd, h.same, h.keys, h.undo, h.newer⟩
  · exact fun pMark hmem => (h.marks pMark (hsub.subset hmem)).frame _ le_rfl rfl fun _ _ => rfl
  · intro hidle
    obtain ⟨hroll, htrans⟩ := h.idle hidle
    refine ⟨hroll, ?_⟩
    show aTrans = []
    rw [htrans] at hsub
    exact List.eq_nil_of_sublist_nil hsub

/-- A rollback zeroes the version 2 data of a node, or leaves the node as it was. -/
theorem lsmTreeRollback_node (db : Db) (pMark : Mark) (a : ℕ) :
    (lsmTreeRollback db pMark).mem.node a = db.mem.node a ∧
        a ∉ db.rollback.drop pMark.iRollback ∨
      (lsmTreeRollback db pMark).mem.node a = (db.mem.node a).clearV2 ∧
        a ∈ db.rollback.drop pMark.iRollback := by
  show (if _ then _ else _) = _ ∧ _ ∨ (if _ then _ else _) = _ ∧ _
  rcases Decidable.em (a ∈ db.rollback.drop pMark.iRollback) with ha | ha
  · exact .inr ⟨if_pos ha, ha⟩
  · exact .inl ⟨if_neg ha, ha⟩

theorem lsmTreeRollback_key (db : Db) (pMark : Mark) (a : ℕ) :
    ((lsmTreeRollback db pMark).mem.node a).aiKeyPtr = (db.mem.node a).aiKeyPtr := by
  rcases lsmTreeRollback_node db pMark a with ⟨heq, -⟩ | ⟨heq, -⟩ <;> rw [heq]
  rfl

theorem lsmTreeRollback_child (db : Db) (pMark : Mark) (a : ℕ) :
    ((lsmTreeRollback db pMark).mem.node a).aiChildPtr = (db.mem.node a).aiChildPtr := by
  rcases lsmTreeRollback_node db pMark a with ⟨heq, -⟩ | ⟨heq, -⟩ <;> rw [heq]
  rfl

/-- A rollback keeps the marks of the levels around it good. -/
theorem MarkOk.rollback {outer pMark : Mark} (h : MarkOk view lo db outer) (hlo : 0 < lo)
    (hw : outer.iWrite ≤ pMark.iWrite) (hr : outer.iRollback ≤ pMark.iRollback) :
    MarkOk view lo (lsmTreeRollback db pMark) outer := by
  have hlen : outer.iRollback ≤ (db.rollback.take pMark.iRollback).length := by
    rw [List.length_take]
    exact le_min hr h.iRollback
  refine ⟨h.iEnd, h.lo_le, hw, h.root, hlen, ?_, ?_, ?_⟩
  · intro a ha
    rw [lsmTreeRollback_key]
    exact h.key a ha
  · intro a ha
    rw [lsmTreeRollback_child]
    exact h.child a ha
  · intro a ha
    rcases lsmTreeRollback_node db pMark a with ⟨heq, hnot⟩ | ⟨heq, -⟩
    · rw [heq]
      refine (h.v2 a ha).imp_right fun hmem => ?_
      -- what the outer level undoes, less what was undone now
      show a ∈ (db.rollback.take pMark.iRollback).drop outer.iRollback
      rw [← List.take_append_drop pMark.iRollback db.rollback,
        List.drop_append_of_le_length hlen] at hmem
      exact (List.mem_append.mp hmem).resolve_right hnot
    · rw [heq]
      exact .inl (hlo.trans_le h.lo_le)

/-- **A rollback** to the innermost mark. -/
theorem Inv.rollback (h : Inv view lo db) (hwriter : db.bWriter = true) {pMark : Mark}
    {aTrans : List Mark} (htrans : db.aTrans = pMark :: aTrans) :
    Inv view lo (lsmTreeRollback db pMark) := by
  have hmark := h.marks pMark (htrans ▸ List.mem_cons_self)
  -- marks within this one are gone; those around it are below
  have hnested : ∀ outer ∈ db.aTrans, outer.iWrite ≤ pMark.iWrite ∧
      outer.iRollback ≤ pMark.iRollback := by
    intro outer hmem
    have hpair := h.nested
    rw [htrans] at hmem hpair
    rcases List.mem_cons.mp hmem with rfl | hmem
    · exact ⟨le_rfl, le_rfl⟩
    · exact (List.pairwise_cons.mp hpair).1 outer hmem
  refine ⟨h.pos, hmark.lo_le, hmark.root, ?_, ?_, ?_, h.old, ?_, h.nested, ?_, hmark.iEnd, ?_,
    h.keys, ?_, h.newer⟩
  · rcases lsmTreeRollback_node db pMark 0 with ⟨heq, -⟩ | ⟨heq, -⟩
    · exact heq.trans h.zero
    · rw [heq, h.zero]
      rfl
  · -- nodes of the transaction below the mark
    intro a hlo ha
    show NodeOk lo pMark.iWrite _
    have hold := h.nodes a hlo (lt_of_lt_of_le ha hmark.iWrite)
    refine ⟨fun i => ?_, fun i => ?_, ?_⟩
    · rw [lsmTreeRollback_key]
      exact hmark.key a ha i
    · rw [lsmTreeRollback_child]
      exact (hold.child i).imp_right fun hc => ⟨hc.1, hmark.child a ha i⟩
    · rcases lsmTreeRollback_node db pMark a with ⟨heq, hmem⟩ | ⟨heq, -⟩
      · rw [heq]
        exact hold.v2.imp_right fun hc => ⟨hc.1, (hmark.v2 a ha).resolve_right hmem⟩
      · rw [heq]
        exact .zero lo _
  · -- nodes of the old tree
    intro a ha
    obtain ⟨hk, hc, hv⟩ := h.low a ha
    refine ⟨by rw [lsmTreeRollback_key]; exact hk, by rw [lsmTreeRollback_child]; exact hc, ?_⟩
    rcases lsmTreeRollback_node db pMark a with ⟨heq, -⟩ | ⟨heq, -⟩ <;> rw [heq]
    · exact hv
    · exact h.pos
  · intro outer hmem
    obtain ⟨hw, hr⟩ := hnested outer hmem
    exact (h.marks outer hmem).rollback h.pos hw hr
  · intro hidle
    cases hidle.symm.trans hwriter
  · intro a ha
    -- what readers see: version 2 data that was not there is taken back
    have hsame := h.same a ha
    rcases lsmTreeRollback_node db pMark a with ⟨heq, -⟩ | ⟨heq, hmem⟩
    · rw [heq]
      exact hsame
    · rw [heq]
      have hbare := (h.undo a (List.mem_of_mem_drop hmem)).2 ha
      exact ⟨hsame.key, hsame.child, fun hne => absurd hbare hne, fun _ => .inl rfl⟩
  · intro a ha
    exact h.undo a (List.mem_of_mem_take ha)

/-- The end of a transaction, where the tree is made old or not. -/
theorem Inv.finish (h : Inv view lo db) (bFlush : Bool) :
    ∃ lo', Inv view lo' (lsmTreeEndTransaction (if bFlush then lsmTreeMakeOld db else db)) := by
  have hend : Inv view lo (lsmTreeEndTransaction db) := by
    refine ⟨h.pos, h.le, h.root, h.zero, h.nodes, h.low, h.old, ?_, .nil, fun _ => ⟨rfl, rfl⟩,
      h.iEnd, h.same, h.keys, ?_, h.newer.imp_right fun hnew => ⟨hnew.1, ?_⟩⟩
    · exact fun _ hmem => absurd hmem List.not_mem_nil
    · exact fun _ hmem => absurd hmem List.not_mem_nil
    · exact fun hwriter => absurd hwriter Bool.false_ne_true
  rcases bFlush with - | -
  · exact ⟨lo, hend⟩
  rw [if_pos rfl]
  unfold lsmTreeMakeOld
  split_ifs
  · exact ⟨lo, hend⟩
  · -- the writer begins anew, behind everything
    refine ⟨db.iWrite, h.iWrite_pos, le_rfl, .zero _ _, h.zero, ?_, ?_, ?_, ?_, .nil,
      fun _ => ⟨rfl, rfl⟩, h.iEnd, h.same, h.keys, ?_, .inl h.iEnd⟩
    · exact fun a hlo ha => absurd ha (not_lt.mpr hlo)
    · exact fun a ha => h.closed ha
    · exact fun _ => h.root.lt h.iWrite_pos
    · exact fun _ hmem => absurd hmem List.not_mem_nil
    · exact fun _ hmem => absurd hmem List.not_mem_nil

/-- The start of a transaction. -/
theorem Inv.begin (h : Inv view lo db) (hidle : db.bWriter = false) (bDiscardOld : Bool) :
    Inv view lo { db with
      root := { db.root with iTransId := db.root.iTransId + 1 }
      hasOld := db.hasOld && !bDiscardOld
      bWriter := true } := by
  obtain ⟨hroll, htrans⟩ := h.idle hidle
  refine ⟨h.pos, h.le, h.root, h.zero, h.nodes, h.low, ?_, ?_, h.nested, ?_, h.iEnd, h.same, h.keys,
    h.undo, ?_⟩
  · intro hold
    exact h.old (Bool.and_eq_true_iff.mp hold).1
  · intro pMark hmem
    have hnone : pMark ∈ db.aTrans := hmem
    rw [htrans] at hnone
    cases hnone
  · intro hwriter
    cases hwriter
  · rcases h.newer with hle | ⟨hle, -⟩
    · exact .inl hle
    · exact .inr ⟨Nat.le_succ_of_le hle, fun _ => Nat.lt_succ_of_le hle⟩

/-- **Every operation keeps the invariant.** -/
theorem Inv.step (h : Inv view lo db) {op : Op} {db' : Db} (hstep : Shm.step db op = some db') :
    ∃ lo', Inv view lo' db' := by
  cases op with
  | begin bDiscardOld =>
      simp only [Shm.step] at hstep
      split_ifs at hstep with hwriter
      exact ⟨lo, Option.some.inj hstep ▸ h.begin (Bool.eq_false_iff.mpr hwriter) bDiscardOld⟩
  | mark =>
      simp only [Shm.step] at hstep
      split_ifs at hstep with hwriter
      exact ⟨lo, Option.some.inj hstep ▸ h.mark hwriter⟩
  | insert beyond iOff pKey pVal =>
      simp only [Shm.step] at hstep
      split_ifs at hstep with hwriter
      have hgoes := treeInsertEntry_goes (h.work hwriter) beyond iOff (.ofValue pVal) pKey
      exact ⟨lo, Option.some.inj hstep ▸ hgoes.work.toInv⟩
  | delete beyond iOff1 iOff2 pKey1 pKey2 n =>
      simp only [Shm.step] at hstep
      split_ifs at hstep with hwriter
      exact ⟨lo, (lsmTreeDelete_goes (h.work hwriter) hstep).work.toInv⟩
  | release n =>
      simp only [Shm.step] at hstep
      split_ifs at hstep with hwriter
      exact ⟨lo, Option.some.inj hstep ▸ h.release (List.drop_sublist n db.aTrans)⟩
  | rollback n =>
      simp only [Shm.step] at hstep
      split_ifs at hstep with hwriter
      rcases htrans : db.aTrans.drop n with - | ⟨pMark, aTrans⟩
      · rw [htrans] at hstep
        cases hstep
      · rw [htrans] at hstep
        -- the levels above the mark go first
        have hrelease := h.release (htrans ▸ List.drop_sublist n db.aTrans)
        exact ⟨lo, Option.some.inj hstep ▸ hrelease.rollback hwriter rfl⟩
  | finish bFlush =>
      rw [Shm.step] at hstep
      split at hstep
      · exact Option.some.inj hstep ▸ h.finish bFlush
      · cases hstep

/-- **Every run keeps the invariant.** -/
theorem Inv.run (h : Inv view lo db) {ops : List Op} {db' : Db}
    (hrun : ops.foldlM Shm.step db = some db') : ∃ lo', Inv view lo' db' := by
  induction ops generalizing lo db with
  | nil => exact ⟨lo, Option.some.inj hrun ▸ h⟩
  | cons op ops ih =>
      rw [List.foldlM_cons] at hrun
      obtain ⟨db₁, hstep, hrun⟩ := Option.bind_eq_some_iff.mp hrun
      obtain ⟨lo₁, h₁⟩ := h.step hstep
      exact ih h₁ hrun

/-! ### Readers -/

/-- An empty tree. -/
theorem Inv.start (m : Mem) (key : ℕ → TreeKey) : Inv ⟨m, 0, 0⟩ 1 (Shm.init key) where
  pos := Nat.one_pos
  le := le_rfl
  root := .zero _ _
  zero := rfl
  nodes := fun _ hlo ha => absurd ha (not_lt.mpr hlo)
  low := fun _ _ => ⟨fun _ => Nat.one_pos, fun _ => Nat.one_pos, Nat.one_pos⟩
  old := fun hold => absurd hold Bool.false_ne_true
  marks := fun _ hmem => absurd hmem List.not_mem_nil
  nested := .nil
  idle := fun _ => ⟨rfl, rfl⟩
  iEnd := Nat.zero_le _
  same := fun _ ha => absurd ha (Nat.not_lt_zero _)
  keys := fun _ ha => absurd ha (Nat.not_lt_zero _)
  undo := fun _ hmem => absurd hmem List.not_mem_nil
  newer := .inl (Nat.zero_le _)

/-- What readers look at is as it was, and in the part that they hold. -/
structure Agree (view : View) (m : Mem) : Prop where
  key : ∀ a < view.iEnd, (m.node a).aiKeyPtr = (view.mem.node a).aiKeyPtr
  child : ∀ a < view.iEnd, ∀ i,
    (m.node a).getChildPtr view.iTransId i = (view.mem.node a).getChildPtr view.iTransId i
  entry : ∀ a < view.iEnd, m.key a = view.mem.key a
  key_lt : ∀ a < view.iEnd, ∀ i, (view.mem.node a).aiKeyPtr i < view.iEnd
  child_lt : ∀ a < view.iEnd, ∀ i, (view.mem.node a).getChildPtr view.iTransId i < view.iEnd

theorem Inv.agree (h : Inv view lo db)
    (hclosed : ∀ a < view.iEnd, (∀ i, (view.mem.node a).aiKeyPtr i < view.iEnd) ∧
      (∀ i, (view.mem.node a).aiChildPtr i < view.iEnd) ∧ (view.mem.node a).iV2Ptr < view.iEnd) :
    Agree view db.mem where
  key := fun a ha => (h.same a ha).key
  child := fun a ha => (h.same a ha).getChildPtr
  entry := h.keys
  key_lt := fun a ha => (hclosed a ha).1
  child_lt := by
    intro a ha i
    obtain ⟨-, hchild, hv2⟩ := hclosed a ha
    unfold Node.getChildPtr
    split_ifs
    · exact hv2
    · exact hchild i

section Reading

variable {m : Mem} {csr : Cursor}

/-- The nodes of a cursor are in the part that the reader holds. -/
def Held (view : View) (csr : Cursor) : Prop := ∀ c ∈ csr, c.1 < view.iEnd

theorem Held.head {p i : ℕ} {up : Cursor} (h : Held view ((p, i) :: up)) : p < view.iEnd :=
  h (p, i) List.mem_cons_self

theorem Held.tail {p i : ℕ} {up : Cursor} (h : Held view ((p, i) :: up)) : Held view up :=
  fun c hc => h c (List.mem_cons_of_mem _ hc)

theorem Held.push {p : ℕ} (h : Held view csr) (hp : p < view.iEnd) (i : ℕ) :
    Held view ((p, i) :: csr) := by
  intro c hc
  rcases List.mem_cons.mp hc with rfl | hc
  · exact hp
  · exact h c hc

variable (h : Agree view m)
include h

theorem Agree.nodeTest (beyond : ℕ → Byte) (pKey : Bytes) {a : ℕ} (ha : a < view.iEnd) :
    nodeTest m beyond pKey (m.node a) = nodeTest view.mem beyond pKey (view.mem.node a) := by
  have hkey : ∀ i, m.key ((view.mem.node a).aiKeyPtr i) =
      view.mem.key ((view.mem.node a).aiKeyPtr i) := fun i => h.entry _ (h.key_lt a ha i)
  unfold Shm.nodeTest
  simp only [h.key a ha, hkey]

theorem Agree.seekFrom (beyond : ℕ → Byte) (pKey : Bytes) (n : ℕ) {iNodePtr : ℕ}
    (ha : iNodePtr < view.iEnd) (hcsr : Held view csr) :
    seekFrom m view.iTransId beyond pKey n iNodePtr csr =
        seekFrom view.mem view.iTransId beyond pKey n iNodePtr csr ∧
      Held view (seekFrom view.mem view.iTransId beyond pKey n iNodePtr csr).1 := by
  induction n generalizing iNodePtr csr with
  | zero =>
      simp only [Shm.seekFrom, h.nodeTest beyond pKey ha]
      exact ⟨trivial, hcsr.push ha _⟩
  | succ n ih =>
      simp only [Shm.seekFrom, h.nodeTest beyond pKey ha, h.child iNodePtr ha]
      split_ifs
      · exact ⟨rfl, hcsr.push ha _⟩
      · exact ih (h.child_lt iNodePtr ha _) (hcsr.push ha _)

theorem Agree.descend {cell : Node → ℕ → ℕ}
    (hcell : ∀ p q n, p.aiKeyPtr = q.aiKeyPtr → cell p n = cell q n) (n : ℕ)
    (hcsr : Held view csr) :
    descend m view.iTransId cell n csr = descend view.mem view.iTransId cell n csr ∧
      Held view (descend view.mem view.iTransId cell n csr) := by
  induction n generalizing csr with
  | zero => exact ⟨rfl, hcsr⟩
  | succ n ih =>
      rcases csr with - | ⟨⟨p, i⟩, up⟩
      · exact ⟨rfl, hcsr⟩
      have hnext := h.child_lt p hcsr.head i
      simp only [Shm.descend, h.child p hcsr.head]
      rw [hcell _ _ n (h.key _ hnext)]
      split_ifs
      · exact ⟨rfl, hcsr⟩
      · exact ih (hcsr.push hnext _)

theorem Agree.ascendNext (hcsr : Held view csr) :
    ascendNext m csr = ascendNext view.mem csr ∧ Held view (ascendNext view.mem csr) := by
  induction csr with
  | nil => exact ⟨rfl, hcsr⟩
  | cons c up ih =>
      obtain ⟨p, i⟩ := c
      simp only [Shm.ascendNext, h.key p hcsr.head]
      split_ifs
      · exact ⟨rfl, hcsr⟩
      · exact ih hcsr.tail

theorem Agree.ascendPrev (hcsr : Held view csr) :
    ascendPrev m csr = ascendPrev view.mem csr ∧ Held view (ascendPrev view.mem csr) := by
  induction csr with
  | nil => exact ⟨rfl, hcsr⟩
  | cons c up ih =>
      obtain ⟨p, i⟩ := c
      simp only [Shm.ascendPrev, h.key p hcsr.head]
      split_ifs
      · exact ⟨rfl, hcsr.tail.push hcsr.head _⟩
      · exact ih hcsr.tail

theorem Agree.lsmTreeCursorEnd {pRoot : Root} (hroot : pRoot.iRoot < view.iEnd)
    (hid : pRoot.iTransId = view.iTransId) (bLast : Bool) :
    lsmTreeCursorEnd m pRoot bLast = lsmTreeCursorEnd view.mem pRoot bLast ∧
      Held view (lsmTreeCursorEnd view.mem pRoot bLast) := by
  have hcell : ∀ (p q : Node) (n : ℕ), p.aiKeyPtr = q.aiKeyPtr →
      (if bLast then lastCell p n else firstCell p) =
        if bLast then lastCell q n else firstCell q := by
    intro p q n hpq
    simp only [lastCell, firstCell, hpq]
  have hnil : Held view [] := fun c hc => absurd hc List.not_mem_nil
  simp only [Shm.lsmTreeCursorEnd, hid]
  split
  · exact ⟨rfl, hnil⟩
  · rw [hcell _ _ (pRoot.nHeight - 1) (h.key _ hroot)]
    exact h.descend hcell _ (hnil.push hroot _)

theorem Agree.lsmTreeCursorNext {pRoot : Root} (hid : pRoot.iTransId = view.iTransId)
    (hcsr : Held view csr) :
    lsmTreeCursorNext m pRoot csr = lsmTreeCursorNext view.mem pRoot csr ∧
      Held view (lsmTreeCursorNext view.mem pRoot csr) := by
  rcases csr with - | ⟨⟨p, i⟩, up⟩
  · exact ⟨rfl, hcsr⟩
  simp only [Shm.lsmTreeCursorNext, hid, h.child p hcsr.head, h.key p hcsr.head]
  split_ifs
  · exact h.descend (fun p q _ hpq => by simp only [firstCell, hpq]) _
      (hcsr.tail.push hcsr.head _)
  · exact h.ascendNext hcsr.tail
  · exact ⟨rfl, hcsr.tail.push hcsr.head _⟩

theorem Agree.lsmTreeCursorPrev {pRoot : Root} (hid : pRoot.iTransId = view.iTransId)
    (hcsr : Held view csr) :
    lsmTreeCursorPrev m pRoot csr = lsmTreeCursorPrev view.mem pRoot csr ∧
      Held view (lsmTreeCursorPrev view.mem pRoot csr) := by
  rcases csr with - | ⟨⟨p, i⟩, up⟩
  · exact ⟨rfl, hcsr⟩
  simp only [Shm.lsmTreeCursorPrev, hid, h.child p hcsr.head]
  split_ifs
  · exact h.descend (fun p q _ hpq => by simp only [lastCell, hpq]) _ hcsr
  · exact h.ascendPrev hcsr

/-- **A step of a reader's cursor.** -/
theorem Agree.csrStep {pRoot : Root} (hroot : pRoot.iRoot < view.iEnd)
    (hid : pRoot.iTransId = view.iTransId) (beyond : ℕ → Byte) (hcsr : Held view csr)
    (op : CsrOp) :
    csrStep beyond m pRoot csr op = csrStep beyond view.mem pRoot csr op ∧
      Held view (csrStep beyond view.mem pRoot csr op) := by
  cases op with
  | first => exact h.lsmTreeCursorEnd hroot hid false
  | last => exact h.lsmTreeCursorEnd hroot hid true
  | next => exact h.lsmTreeCursorNext hid hcsr
  | prev => exact h.lsmTreeCursorPrev hid hcsr
  | seek pKey =>
      have hnil : Held view [] := fun c hc => absurd hc List.not_mem_nil
      simp only [Shm.csrStep, lsmTreeCursorSeek, hid]
      split
      · exact ⟨rfl, hnil⟩
      · obtain ⟨heq, hheld⟩ := h.seekFrom beyond pKey (pRoot.nHeight - 1) hroot hnil
        exact ⟨congrArg Prod.fst heq, hheld⟩

/-- The entry at a cursor. -/
theorem Agree.entryAt (hcsr : Held view csr) :
    (csrKeyPtr m csr).map m.key = (csrKeyPtr view.mem csr).map view.mem.key := by
  rcases csr with - | ⟨⟨p, i⟩, up⟩
  · rfl
  simp only [csrKeyPtr, Option.map_some, h.key p hcsr.head]
  exact congrArg some (h.entry _ (h.key_lt p hcsr.head i))

end Reading

/-- A reader with the root `pRoot`, while a writer goes on: in front of each operation of
the cursor are those of the writer.  It answers the entries that the cursor is at. -/
def readWhile (beyond : ℕ → Byte) (pRoot : Root) :
    Db → Cursor → List (List Op × CsrOp) → Option (List (Option TreeKey))
  | _, _, [] => some []
  | db, csr, (writes, op) :: rest => do
      let db ← writes.foldlM step db
      let csr := csrStep beyond db.mem pRoot csr op
      let l ← readWhile beyond pRoot db csr rest
      return (csrKeyPtr db.mem csr).map db.mem.key :: l

theorem Inv.readWhile (h : Inv view lo db)
    (hclosed : ∀ a < view.iEnd, (∀ i, (view.mem.node a).aiKeyPtr i < view.iEnd) ∧
      (∀ i, (view.mem.node a).aiChildPtr i < view.iEnd) ∧ (view.mem.node a).iV2Ptr < view.iEnd)
    {pRoot : Root} (hroot : pRoot.iRoot < view.iEnd) (hid : pRoot.iTransId = view.iTransId)
    (beyond : ℕ → Byte) {csr : Cursor} (hcsr : Held view csr) {ops : List (List Op × CsrOp)}
    {l : List (Option TreeKey)} (hrun : Shm.readWhile beyond pRoot db csr ops = some l) :
    l = csrRun beyond view.mem pRoot csr (ops.map Prod.snd) := by
  induction ops generalizing lo db csr l with
  | nil => exact (Option.some.inj hrun).symm
  | cons op ops ih =>
      obtain ⟨writes, op⟩ := op
      obtain ⟨db', hwrites, hrun⟩ := Option.bind_eq_some_iff.mp hrun
      obtain ⟨l', hrest, hl⟩ := Option.bind_eq_some_iff.mp hrun
      obtain ⟨lo', h'⟩ := h.run hwrites
      have hagree := h'.agree hclosed
      obtain ⟨hstep, hheld⟩ := hagree.csrStep hroot hid beyond hcsr op
      rw [hstep] at hrest hl
      rw [← Option.some.inj hl, hagree.entryAt hheld, ih h' hheld hrest]
      rfl

end Shm

end Lsm

end MoVeBench
