/-
MoVeBench/KvMem/Links.lean

The tree of the in-memory store (`kvmem.c`) and how it is balanced.

A node is a pointer, 0 stands for `NULL`, and `Heap` gives the fields of each node that make the
shape of the tree.  `Linked` says that they make a given tree: every child and every parent pointer
is right, and so are the heights.  From a node whose subtrees are right, `kvmemBalance` goes up to
the root and leaves a balanced tree of the same nodes in the same order (`kvmemBalance_spec`).
-/
import MoVeBench.Lib.AvlTree

namespace MoVeBench

namespace KvMem

open AvlTree AvlTree.BinTree

/-! ### Nodes -/

abbrev Ptr := ℕ

/-- The fields of a `KVMemNode` that make the tree. -/
structure Link where
  pBefore : Ptr
  pAfter : Ptr
  pUp : Ptr
  height : ℤ
  imbalance : ℤ

namespace Link

/-- The child on one side. -/
def child (k : Link) : Side → Ptr
  | .before => k.pBefore
  | .after => k.pAfter

def setChild (k : Link) (d : Side) (p : Ptr) : Link :=
  match d with
  | .before => { k with pBefore := p }
  | .after => { k with pAfter := p }

def setUp (k : Link) (p : Ptr) : Link := { k with pUp := p }

@[simp] theorem child_setChild (k : Link) (d : Side) (p : Ptr) : (k.setChild d p).child d = p := by
  cases d <;> rfl

@[simp] theorem child_setChild_other (k : Link) (d : Side) (p : Ptr) :
    (k.setChild d p).child d.other = k.child d.other := by
  cases d <;> rfl

@[simp] theorem child_other_setChild (k : Link) (d : Side) (p : Ptr) :
    (k.setChild d.other p).child d = k.child d := by
  cases d <;> rfl

@[simp] theorem child_setUp (k : Link) (d : Side) (p : Ptr) : (k.setUp p).child d = k.child d := by
  cases d <;> rfl

@[simp] theorem pUp_setChild (k : Link) (d : Side) (p : Ptr) : (k.setChild d p).pUp = k.pUp := by
  cases d <;> rfl

@[simp] theorem pUp_setUp (k : Link) (p : Ptr) : (k.setUp p).pUp = p := rfl

@[simp] theorem height_setChild (k : Link) (d : Side) (p : Ptr) :
    (k.setChild d p).height = k.height := by
  cases d <;> rfl

@[simp] theorem height_setUp (k : Link) (p : Ptr) : (k.setUp p).height = k.height := rfl

@[simp] theorem imbalance_setChild (k : Link) (d : Side) (p : Ptr) :
    (k.setChild d p).imbalance = k.imbalance := by
  cases d <;> rfl

@[simp] theorem imbalance_setUp (k : Link) (p : Ptr) : (k.setUp p).imbalance = k.imbalance := rfl

end Link

/-- The nodes in memory. -/
structure Heap where
  deref : Ptr → Link

namespace Heap

instance : CoeFun Heap fun _ => Ptr → Link := ⟨deref⟩

/-- Change fields of one node. -/
def edit (h : Heap) (p : Ptr) (f : Link → Link) : Heap := ⟨Function.update h p (f (h p))⟩

@[simp] theorem edit_same (h : Heap) (p : Ptr) (f : Link → Link) : h.edit p f p = f (h p) :=
  Function.update_self ..

@[simp] theorem edit_ne (h : Heap) {p q : Ptr} (f : Link → Link) (hne : q ≠ p) :
    h.edit p f q = h q := Function.update_of_ne hne ..

end Heap

/-- The height of a child, 0 where there is none. -/
def childHeight (h : Heap) (p : Ptr) : ℤ := if p = 0 then 0 else (h p).height

/-! ### The routines -/

def kvmemRecomputeHeight (h : Heap) (p : Ptr) : Heap :=
  let hBefore := childHeight h (h p).pBefore
  let hAfter := childHeight h (h p).pAfter
  h.edit p fun k =>
    { k with imbalance := hBefore - hAfter
             height := (if hAfter < hBefore then hBefore else hAfter) + 1 }

/-- `kvmemRotateBefore` and `kvmemRotateAfter`, which differ in the side: the child of `pP` on side
`d` takes the place of `pP`. -/
def kvmemRotate (d : Side) (h : Heap) (pP : Ptr) : Heap × Ptr :=
  let pB := (h pP).child d
  let pY := (h pB).child d.other
  let h := h.edit pB fun k => k.setUp (h pP).pUp
  let h := h.edit pB fun k => k.setChild d.other pP
  let h := h.edit pP fun k => k.setUp pB
  let h := h.edit pP fun k => k.setChild d pY
  let h := if pY ≠ 0 then h.edit pY fun k => k.setUp pP else h
  let h := kvmemRecomputeHeight h pP
  let h := kvmemRecomputeHeight h pB
  (h, pB)

def kvmemRotateBefore (h : Heap) (pP : Ptr) : Heap × Ptr := kvmemRotate .before h pP

def kvmemRotateAfter (h : Heap) (pP : Ptr) : Heap × Ptr := kvmemRotate .after h pP

/-- What `kvmemFromPtr` returns: the place of a pointer in the parent, or the place that its
caller has named. -/
inductive Place where
  | named
  | child (pUp : Ptr) (d : Side)

def kvmemFromPtr (h : Heap) (p : Ptr) : Place :=
  let pUp := (h p).pUp
  if pUp = 0 then .named
  else if (h pUp).pAfter = p then .child pUp .after
  else .child pUp .before

/-- Store a pointer at a place in a node. -/
def Place.store (h : Heap) (p : Ptr) : Place → Heap
  | .named => h
  | .child pUp d => h.edit pUp fun k => k.setChild d p

/-- The branch of `kvmemBalance` for a node that is too high on side `d`; `bInner` says that so is
the child on its inner side. -/
def kvmemLift (d : Side) (h : Heap) (p : Ptr) (bInner : Bool) : Heap × Ptr :=
  let h := if bInner then
      let (h, pB) := kvmemRotate d.other h ((h p).child d)
      h.edit p fun k => k.setChild d pB
    else h
  let pp := kvmemFromPtr h p
  let (h, p) := kvmemRotate d h p
  (pp.store h p, p)

/-- One round of the loop of `kvmemBalance`. -/
def balanceRound (h : Heap) (p : Ptr) : Heap × Ptr :=
  let h := kvmemRecomputeHeight h p
  if 2 ≤ (h p).imbalance then
    kvmemLift .before h p ((h (h p).pBefore).imbalance < 0)
  else if (h p).imbalance ≤ -2 then
    kvmemLift .after h p (0 < (h (h p).pAfter).imbalance)
  else (h, p)

/-- The loop of `kvmemBalance`, with `pTop`.  The first argument bounds the number of rounds. -/
def balanceLoop : ℕ → Heap → Ptr → Ptr → Heap × Ptr
  | 0, h, _, pTop => (h, pTop)
  | n + 1, h, p, pTop =>
      if p = 0 then (h, pTop)
      else
        let (h, p) := balanceRound h p
        balanceLoop n h (h p).pUp p

def kvmemBalance (n : ℕ) (h : Heap) (p : Ptr) : Heap × Ptr := balanceLoop n h p p

/-! ### Linked trees -/

/-- The fields make the tree, with root `r` below the node `up`. -/
def Linked (h : Heap) : Ptr → BinTree Ptr → Ptr → Prop
  | _, .nil, r => r = 0
  | up, .node t p s, r => r = p ∧ p ≠ 0 ∧ (h p).pUp = up ∧ Linked h p t (h p).pBefore ∧
      Linked h p s (h p).pAfter ∧ (h p).height = (max t.height s.height + 1 : ℕ) ∧
      (h p).imbalance = t.height - s.height

variable {h h' : Heap} {up p q r : Ptr} {t s : BinTree Ptr} {d : Side}

theorem Linked.congr (hl : Linked h up t r) (hh : ∀ p ∈ t.toList, h' p = h p) :
    Linked h' up t r := by
  induction t generalizing up r with
  | nil => exact hl
  | node t p s iht ihs =>
      obtain ⟨rfl, hp, hup, ht, hs, hheight, himb⟩ := hl
      have heq : h' r = h r := hh r (by simp [toList])
      refine ⟨rfl, hp, ?_, ?_, ?_, ?_, ?_⟩ <;> rw [heq]
      · exact hup
      · exact iht ht fun q hq => hh q (by simp [toList, hq])
      · exact ihs hs fun q hq => hh q (by simp [toList, hq])
      · exact hheight
      · exact himb

theorem Linked.nonzero (hl : Linked h up t r) : ∀ p ∈ t.toList, p ≠ 0 := by
  induction t generalizing up r with
  | nil => simp
  | node t p s iht ihs =>
      obtain ⟨rfl, hp, hup, ht, hs, -, -⟩ := hl
      intro q hq
      rcases mem_mk (d := .before).mp hq with hq | rfl | hq
      · exact iht ht q hq
      · exact hp
      · exact ihs hs q hq

theorem Linked.childHeight (hl : Linked h up t r) : childHeight h r = t.height := by
  cases t with
  | nil => exact if_pos hl
  | node t p s =>
      obtain ⟨rfl, hp, -, -, -, hheight, -⟩ := hl
      rw [KvMem.childHeight, if_neg hp, hheight]
      rfl

/-- A node with its two sides. -/
theorem linked_mk : Linked h up (mk d t p s) r ↔ r = p ∧ p ≠ 0 ∧ (h p).pUp = up ∧
    Linked h p t ((h p).child d) ∧ Linked h p s ((h p).child d.other) ∧
    (h p).height = (max t.height s.height + 1 : ℕ) ∧
    (h p).imbalance = (match d with
      | .before => (t.height : ℤ) - s.height
      | .after => (s.height : ℤ) - t.height) := by
  cases d
  · rfl
  · rw [max_comm t.height]
    show _ ∧ _ ∧ _ ∧ _ ∧ _ ∧ _ ∧ _ ↔ _
    tauto

/-- The root of a tree is one of its nodes, or there is none. -/
theorem Linked.root (hl : Linked h up t r) : t = .nil ∧ r = 0 ∨ r ∈ t.toList := by
  cases t with
  | nil => exact Or.inl ⟨rfl, hl⟩
  | node t p s =>
      right
      rw [hl.1]
      simp [toList]

/-- A tree is hung below another node. -/
theorem Linked.setUp (hl : Linked h up t r) (hnodup : t.toList.Nodup) (q : Ptr) :
    Linked (if r ≠ 0 then h.edit r fun k => k.setUp q else h) q t r := by
  cases t with
  | nil => exact hl
  | node t p s =>
      obtain ⟨rfl, hp, hup, ht, hs, hheight, himb⟩ := hl
      obtain ⟨-, -, hpt, hps, -⟩ := nodup_mk (d := .before).mp hnodup
      rw [if_pos hp]
      have hedit : ∀ {u : BinTree Ptr} {c : Ptr}, r ∉ u.toList → Linked h r u c →
          Linked (h.edit r fun k => k.setUp q) r u c := fun hr hu =>
        hu.congr fun x hx => h.edit_ne _ (by rintro rfl; exact hr hx)
      refine ⟨rfl, hp, ?_, ?_, ?_, ?_, ?_⟩ <;> rw [Heap.edit_same]
      · rfl
      · exact hedit hpt ht
      · exact hedit hps hs
      · exact hheight
      · exact himb

/-- `kvmemRecomputeHeight` makes a node right whose subtrees are. -/
theorem recompute_spec (hp : p ≠ 0) (ht : Linked h p t (h p).pBefore)
    (hs : Linked h p s (h p).pAfter) (hpt : p ∉ t.toList) (hps : p ∉ s.toList) :
    Linked (kvmemRecomputeHeight h p) (h p).pUp (.node t p s) p ∧
      ∀ q, q ≠ p → kvmemRecomputeHeight h p q = h q := by
  have hne : ∀ q, q ≠ p → kvmemRecomputeHeight h p q = h q := by
    intro q hq
    simp only [kvmemRecomputeHeight]
    exact Heap.edit_ne h _ hq
  refine ⟨⟨rfl, hp, ?_, ?_, ?_, ?_, ?_⟩, hne⟩
  · simp [kvmemRecomputeHeight]
  · have hb : (kvmemRecomputeHeight h p p).pBefore = (h p).pBefore := by simp [kvmemRecomputeHeight]
    rw [hb]
    exact ht.congr fun q hq => hne q (by rintro rfl; exact hpt hq)
  · have hb : (kvmemRecomputeHeight h p p).pAfter = (h p).pAfter := by simp [kvmemRecomputeHeight]
    rw [hb]
    exact hs.congr fun q hq => hne q (by rintro rfl; exact hps hq)
  · simp only [kvmemRecomputeHeight, Heap.edit_same, ht.childHeight, hs.childHeight]
    split_ifs <;> omega
  · simp only [kvmemRecomputeHeight, Heap.edit_same, ht.childHeight, hs.childHeight]

theorem recompute_side (hp : p ≠ 0) (ht : Linked h p t ((h p).child d))
    (hs : Linked h p s ((h p).child d.other)) (hpt : p ∉ t.toList) (hps : p ∉ s.toList) :
    Linked (kvmemRecomputeHeight h p) (h p).pUp (mk d t p s) p ∧
      ∀ q, q ≠ p → kvmemRecomputeHeight h p q = h q := by
  cases d
  · exact recompute_spec hp ht hs hpt hps
  · exact recompute_spec hp hs ht hps hpt

/-! ### One rotation -/

theorem rotate_spec {x y z : BinTree Ptr} {pP pB : Ptr} (hp : pP ≠ 0)
    (hB : Linked h pP (mk d x pB y) ((h pP).child d)) (hZ : Linked h pP z ((h pP).child d.other))
    (hnodup : (mk d (mk d x pB y) pP z).toList.Nodup) :
    (kvmemRotate d h pP).2 = pB ∧
      Linked (kvmemRotate d h pP).1 (h pP).pUp (mk d x pB (mk d y pP z)) pB ∧
      ∀ q, q ∉ (mk d (mk d x pB y) pP z).toList → (kvmemRotate d h pP).1 q = h q := by
  obtain ⟨hchild, hpB, -, hx, hy, -, -⟩ := linked_mk.mp hB
  obtain ⟨hbn, hzn, hPb, hPz, hbz⟩ := nodup_mk.mp hnodup
  obtain ⟨hxn, hyn, hBx, hBy, hxy⟩ := nodup_mk.mp hbn
  have hPB : pP ≠ pB := by
    rintro rfl
    exact hPb (mem_mk.mpr (Or.inr (Or.inl rfl)))
  have hPx : pP ∉ x.toList := fun hm => hPb (mem_mk.mpr (Or.inl hm))
  have hPy : pP ∉ y.toList := fun hm => hPb (mem_mk.mpr (Or.inr (Or.inr hm)))
  have hBz : pB ∉ z.toList := hbz pB (mem_mk.mpr (Or.inr (Or.inl rfl)))
  have hxz : ∀ q ∈ x.toList, q ∉ z.toList := fun q hq => hbz q (mem_mk.mpr (Or.inl hq))
  have hyz : ∀ q ∈ y.toList, q ∉ z.toList := fun q hq => hbz q (mem_mk.mpr (Or.inr (Or.inr hq)))
  -- The four assignments to the two nodes.
  obtain ⟨h4, h4eq⟩ : ∃ h4, (((h.edit pB fun k => k.setUp (h pP).pUp).edit pB
      fun k => k.setChild d.other pP).edit pP fun k => k.setUp pB).edit pP
        (fun k => k.setChild d ((h pB).child d.other)) = h4 := ⟨_, rfl⟩
  have h4P : h4 pP = ((h pP).setUp pB).setChild d ((h pB).child d.other) := by
    simp [← h4eq, hPB]
  have h4B : h4 pB = ((h pB).setUp (h pP).pUp).setChild d.other pP := by
    simp [← h4eq, hPB.symm]
  have h4ne : ∀ q, q ≠ pP → q ≠ pB → h4 q = h q := by
    intro q hqP hqB
    simp [← h4eq, hqP, hqB]
  have h4of : ∀ {u : BinTree Ptr} {up c : Ptr}, pP ∉ u.toList → pB ∉ u.toList → Linked h up u c →
      Linked h4 up u c := fun hP hBu hu =>
    hu.congr fun q hq => h4ne q (by rintro rfl; exact hP hq) (by rintro rfl; exact hBu hq)
  -- The parent of `pY`.
  obtain ⟨h5, h5eq⟩ : ∃ h5, (if (h pB).child d.other ≠ 0 then
      h4.edit ((h pB).child d.other) fun k => k.setUp pP else h4) = h5 := ⟨_, rfl⟩
  have h5y : Linked h5 pP y ((h pB).child d.other) := by
    rw [← h5eq]
    exact (h4of hPy hBy hy).setUp hyn pP
  have h5ne : ∀ q, q ∉ y.toList → h5 q = h4 q := by
    intro q hq
    rw [← h5eq]
    split_ifs with h0
    · refine Heap.edit_ne _ _ ?_
      rintro rfl
      rcases hy.root with ⟨-, hroot⟩ | hroot
      · exact h0 hroot
      · exact hq hroot
    · rfl
  have h5of : ∀ {u : BinTree Ptr} {up c : Ptr}, (∀ q ∈ u.toList, q ∉ y.toList) → Linked h4 up u c →
      Linked h5 up u c := fun hu hl => hl.congr fun q hq => h5ne q (hu q hq)
  have h5P : h5 pP = ((h pP).setUp pB).setChild d ((h pB).child d.other) := by
    rw [h5ne pP hPy, h4P]
  have h5B : h5 pB = ((h pB).setUp (h pP).pUp).setChild d.other pP := by
    rw [h5ne pB hBy, h4B]
  have h5x : Linked h5 pB x ((h pB).child d) := h5of hxy (h4of hPx hBx hx)
  have h5z : Linked h5 pP z ((h pP).child d.other) :=
    h5of (fun q hq hqy => hyz q hqy hq) (h4of hPz hBz hZ)
  -- The heights of both nodes.
  have hdef : kvmemRotate d h pP =
      (kvmemRecomputeHeight (kvmemRecomputeHeight h5 pP) pB, pB) := by
    simp only [kvmemRotate, hchild]
    rw [← h5eq, ← h4eq]
  obtain ⟨h6, h6ne⟩ := recompute_side (h := h5) (d := d) (s := z) hp (by rw [h5P]; simpa using h5y)
    (by rw [h5P]; simpa using h5z) hPy hPz
  have h6B : kvmemRecomputeHeight h5 pP pB = ((h pB).setUp (h pP).pUp).setChild d.other pP := by
    rw [h6ne pB hPB.symm, h5B]
  have h6x : Linked (kvmemRecomputeHeight h5 pP) pB x ((h pB).child d) :=
    h5x.congr fun q hq => h6ne q (by rintro rfl; exact hPx hq)
  have hpUp : (h5 pP).pUp = pB := by rw [h5P]; simp
  rw [hpUp] at h6
  obtain ⟨h7, h7ne⟩ := recompute_side (h := kvmemRecomputeHeight h5 pP) (d := d) hpB (t := x)
    (s := mk d y pP z)
    (by rw [h6B]; simpa using h6x)
    (by rw [h6B]; simpa using h6) hBx
    (by
      intro hm
      rcases mem_mk.mp hm with hm | hm | hm
      · exact hBy hm
      · exact hPB hm.symm
      · exact hBz hm)
  rw [hdef]
  refine ⟨rfl, ?_, ?_⟩
  · rw [h6B] at h7
    simpa using h7
  · intro q hq
    have hqP : q ≠ pP := by
      rintro rfl
      exact hq (mem_mk.mpr (Or.inr (Or.inl rfl)))
    have hqB : q ≠ pB := by
      rintro rfl
      exact hq (mem_mk.mpr (Or.inl (mem_mk.mpr (Or.inr (Or.inl rfl)))))
    have hqy : q ∉ y.toList := fun hm =>
      hq (mem_mk.mpr (Or.inl (mem_mk.mpr (Or.inr (Or.inr hm)))))
    show kvmemRecomputeHeight (kvmemRecomputeHeight h5 pP) pB q = h q
    rw [h7ne q hqB, h6ne q hqP, h5ne q hqy, h4ne q hqP hqB]

/-! ### The nodes above -/

/-- The parent of what fills a hole, in a tree below `top`. -/
def upOf (top : Ptr) : List (Frame Ptr) → Ptr
  | [] => top
  | f :: _ => f.label

/-- The root of a tree whose hole is filled by a tree with root `r`. -/
def rootOf : List (Frame Ptr) → Ptr → Ptr
  | [], r => r
  | f :: ctx, _ => rootOf ctx f.label

/-- The fields of the nodes around a hole, in a tree below `top`, that is filled by a tree with root
`r`.  Their heights may be those of before. -/
def LinkedCtx (h : Heap) (top : Ptr) : List (Frame Ptr) → Ptr → Prop
  | [], _ => True
  | f :: ctx, r => f.label ≠ 0 ∧ (h f.label).child f.side = r ∧ (h f.label).pUp = upOf top ctx ∧
      Linked h f.label f.sibling ((h f.label).child f.side.other) ∧ LinkedCtx h top ctx f.label

variable {top : Ptr} {ctx ctx' : List (Frame Ptr)}

theorem LinkedCtx.congr (hc : LinkedCtx h top ctx r) (hh : ∀ p ∈ around ctx, h' p = h p) :
    LinkedCtx h' top ctx r := by
  induction ctx generalizing r with
  | nil => trivial
  | cons f ctx ih =>
      obtain ⟨h0, hchild, hup, hsib, hrest⟩ := hc
      have heq : h' f.label = h f.label := hh _ (by simp)
      refine ⟨h0, by rw [heq]; exact hchild, by rw [heq]; exact hup, ?_, ?_⟩
      · rw [heq]
        exact hsib.congr fun q hq => hh q (by simp [hq])
      · exact ih hrest fun q hq => hh q (by simp [hq])

theorem LinkedCtx.nonzero (hc : LinkedCtx h top ctx r) : ∀ p ∈ around ctx, p ≠ 0 := by
  induction ctx generalizing r with
  | nil => simp [around]
  | cons f ctx ih =>
      obtain ⟨h0, -, -, hsib, hrest⟩ := hc
      intro q hq
      rw [around_cons, List.mem_cons, List.mem_append] at hq
      rcases hq with rfl | hq | hq
      · exact h0
      · exact hsib.nonzero q hq
      · exact ih hrest q hq

/-- A linked tree is a linked tree in linked surroundings. -/
theorem Linked.unplug (hl : Linked h top (plug t ctx) r) :
    ∃ q, Linked h (upOf top ctx) t q ∧ LinkedCtx h top ctx q ∧ rootOf ctx q = r := by
  induction ctx generalizing t with
  | nil => exact ⟨r, hl, trivial, rfl⟩
  | cons f ctx ih =>
      obtain ⟨q, hmk, hc, hroot⟩ := ih hl
      obtain ⟨rfl, h0, hup, ht, hs, -, -⟩ := linked_mk.mp hmk
      exact ⟨_, ht, ⟨h0, rfl, hup, hs, hc⟩, hroot⟩

theorem upOf_append (f : Frame Ptr) : upOf top (ctx ++ f :: ctx') = upOf f.label ctx := by
  cases ctx <;> rfl

theorem linkedCtx_append {f : Frame Ptr} : LinkedCtx h top (ctx ++ f :: ctx') r ↔
    LinkedCtx h f.label ctx r ∧ LinkedCtx h top (f :: ctx') (rootOf ctx r) := by
  induction ctx generalizing r with
  | nil => simp [LinkedCtx, rootOf]
  | cons g ctx ih =>
      rw [List.cons_append, LinkedCtx, ih, upOf_append, rootOf, LinkedCtx.eq_2 h f.label]
      tauto

/-- The place found by `kvmemFromPtr` is that of the hole. -/
theorem fromPtr_child {f : Frame Ptr} (hc : LinkedCtx h top (f :: ctx) p)
    (hup : (h p).pUp = f.label) (hp : p ≠ 0) (hout : p ∉ f.sibling.toList) :
    kvmemFromPtr h p = .child f.label f.side := by
  obtain ⟨h0, hchild, -, hsib, -⟩ := hc
  simp only [kvmemFromPtr, hup, if_neg h0]
  obtain ⟨d, a, s⟩ := f
  cases d
  · refine if_neg fun heq => ?_
    rcases hsib.root with ⟨-, hroot⟩ | hroot
    · exact hp (heq.symm.trans hroot)
    · exact hout (heq ▸ hroot)
  · exact if_pos hchild

/-- Another pointer is stored in the place of the hole. -/
theorem linkedCtx_store {f : Frame Ptr} (hc : LinkedCtx h top (f :: ctx) p)
    (hn : (around (f :: ctx)).Nodup) (r : Ptr) :
    LinkedCtx ((Place.child f.label f.side).store h r) top (f :: ctx) r ∧
      ∀ q, q ≠ f.label → (Place.child f.label f.side).store h r q = h q := by
  obtain ⟨h0, hchild, hupf, hsib, hrest⟩ := hc
  rw [around_cons, List.nodup_cons, List.mem_append, not_or] at hn
  have hne : ∀ q, q ≠ f.label → (Place.child f.label f.side).store h r q = h q := by
    intro q hq
    rw [Place.store, Heap.edit_ne h _ hq]
  have hlabel : (Place.child f.label f.side).store h r f.label =
      (h f.label).setChild f.side r := by
    rw [Place.store, Heap.edit_same]
  refine ⟨⟨h0, ?_, ?_, ?_, ?_⟩, hne⟩
  · rw [hlabel, Link.child_setChild]
  · rw [hlabel, Link.pUp_setChild, hupf]
  · rw [hlabel, Link.child_setChild_other]
    exact hsib.congr fun q hq => hne q (by rintro rfl; exact hn.1.1 hq)
  · exact hrest.congr fun q hq => hne q (by rintro rfl; exact hn.1.2 hq)

/-- The same in the whole tree, where the hole may be at the root. -/
theorem fromPtr_store (hc : LinkedCtx h 0 ctx p) (hup : (h p).pUp = upOf 0 ctx) (hp : p ≠ 0)
    (hout : p ∉ around ctx) (hn : (around ctx).Nodup) (hh : ∀ q ∈ around ctx, h' q = h q) :
    LinkedCtx ((kvmemFromPtr h p).store h' r) 0 ctx r ∧
      ∀ q, q ∉ around ctx → (kvmemFromPtr h p).store h' r q = h' q := by
  cases ctx with
  | nil =>
      rw [kvmemFromPtr, hup, upOf, if_pos rfl]
      exact ⟨trivial, fun _ _ => rfl⟩
  | cons f ctx =>
      rw [fromPtr_child hc hup hp fun hm => hout (by simp [hm])]
      obtain ⟨hstore, hne⟩ := linkedCtx_store (hc.congr hh) hn r
      exact ⟨hstore, fun q hq => hne q fun he => hq (by simp [he])⟩

/-! ### Balancing -/

/-- What takes the place of `t`: a balanced tree `u` of the same nodes. -/
structure Settled (h h' : Heap) (ctx : List (Frame Ptr)) (t u : BinTree Ptr) (r : Ptr) : Prop where
  linked : Linked h' (upOf 0 ctx) u r
  around : LinkedCtx h' 0 ctx r
  balanced : u.Balanced
  labels : u.toList = t.toList
  frame : ∀ q, q ∉ (plug t ctx).toList → h' q = h q

/-- What stands for a node has the same parent. -/
theorem Settled.pUp {u : BinTree Ptr} (hset : Settled h h' ctx (.node t p s) u r) :
    (h' r).pUp = upOf 0 ctx := by
  have hl := hset.linked
  have hmem : p ∈ u.toList := by
    rw [hset.labels]
    simp [toList]
  cases u with
  | nil => simp at hmem
  | node t' q s' =>
      obtain ⟨rfl, -, hupq, -⟩ := hl
      exact hupq

/-- The rotation at `p` itself. -/
theorem rotate_settled {x y : BinTree Ptr} {pB : Ptr} (hp : p ≠ 0) (hup : (h p).pUp = upOf 0 ctx)
    (hB : Linked h p (mk d x pB y) ((h p).child d)) (hs : Linked h p s ((h p).child d.other))
    (hctx : LinkedCtx h 0 ctx p) (hnodup : (plug (mk d (mk d x pB y) p s) ctx).toList.Nodup)
    (hbal : (mk d x pB (mk d y p s)).Balanced) :
    Settled h ((kvmemFromPtr h p).store (kvmemRotate d h p).1 (kvmemRotate d h p).2) ctx
      (mk d (mk d x pB y) p s) (mk d x pB (mk d y p s)) (kvmemRotate d h p).2 := by
  obtain ⟨hn, han, hdisj⟩ := nodup_plug.mp hnodup
  obtain ⟨hroot, hlinked, hframe⟩ := rotate_spec hp hB hs hn
  have hp' : p ∉ around ctx := hdisj p (mem_mk.mpr (Or.inr (Or.inl rfl)))
  have hsame : ∀ q ∈ around ctx, (kvmemRotate d h p).1 q = h q := fun q hq =>
    hframe q fun hm => hdisj q hm hq
  obtain ⟨hstore, hkeep⟩ := fromPtr_store (r := (kvmemRotate d h p).2) hctx hup hp hp' han hsame
  have hlabels := toList_rotate d x y s pB p
  refine ⟨?_, hstore, hbal, hlabels, fun q hq => ?_⟩
  · rw [hroot, ← hup]
    refine hlinked.congr fun q hq => ?_
    rw [← hroot]
    exact hkeep q (hdisj q (hlabels ▸ hq))
  · rw [mem_plug, not_or] at hq
    rw [hkeep q hq.2, hframe q hq.1]

/-- The branch for a node that is too high on side `d`. -/
theorem kvmemLift_spec {x y : BinTree Ptr} {pB : Ptr} (bInner : Bool)
    (hl : Linked h (upOf 0 ctx) (mk d (mk d x pB y) p s) p) (hbal : (mk d x pB y).Balanced)
    (hs : s.Balanced) (htall : (mk d x pB y).height = s.height + 2) (hctx : LinkedCtx h 0 ctx p)
    (hnodup : (plug (mk d (mk d x pB y) p s) ctx).toList.Nodup)
    (hin : bInner = true ↔ x.height < y.height) :
    ∃ u, Settled h (kvmemLift d h p bInner).1 ctx (mk d (mk d x pB y) p s) u
      (kvmemLift d h p bInner).2 ∧ (u.height = s.height + 2 ∨ u.height = s.height + 3) := by
  obtain ⟨-, hp, hup, hlB, hls, -, -⟩ := linked_mk.mp hl
  obtain ⟨hxy, hbx, hby⟩ := balanced_mk.mp hbal
  rw [height_mk] at htall
  cases bInner with
  | false =>
      have hle : ¬ x.height < y.height := fun hlt => Bool.false_ne_true (hin.mpr hlt)
      refine ⟨_, rotate_settled hp hup hlB hls hctx hnodup ?_, ?_⟩
      · rw [balanced_mk, balanced_mk, height_mk]
        exact ⟨by omega, hbx, by omega, hby, hs⟩
      · rw [height_mk, height_mk]
        omega
  | true =>
      -- The inner subtree of the child comes up first.
      have hlt : x.height < y.height := hin.mp rfl
      obtain ⟨v, c, w, rfl⟩ := exists_mk d (t := y) (by rintro rfl; simp at hlt)
      obtain ⟨hvw, hbv, hbw⟩ := balanced_mk.mp hby
      rw [height_mk] at hxy hlt htall
      obtain ⟨hn, han, hdisj⟩ := nodup_plug.mp hnodup
      obtain ⟨hbn, hsn, hpb, hps, hbs⟩ := nodup_mk.mp hn
      obtain ⟨hchild, hpB, hupB, hlx, hly, -, -⟩ := linked_mk.mp hlB
      have hflip : mk d x pB (mk d v c w) = mk d.other (mk d.other w c v) pB x := by
        rw [mk_other, mk_other]
      have hturn : mk d.other w c (mk d.other v pB x) = mk d (mk d x pB v) c w := by
        rw [mk_other, mk_other]
      obtain ⟨hroot1, hl1, hframe1⟩ := rotate_spec (d := d.other) (x := w) (y := v) (z := x) hpB
        (by rw [mk_other]; exact hly) (by rw [Side.other_other]; exact hlx)
        (by rw [← hflip]; exact hbn)
      rw [hturn, hupB] at hl1
      rw [← hflip] at hframe1
      obtain ⟨h1, h1eq⟩ : ∃ h1, (kvmemRotate d.other h pB).1 = h1 := ⟨_, rfl⟩
      rw [h1eq] at hl1 hframe1
      obtain ⟨h2, h2eq⟩ : ∃ h2, (h1.edit p fun k => k.setChild d c) = h2 := ⟨_, rfl⟩
      have h1p : h1 p = h p := hframe1 p hpb
      have h2p : h2 p = (h p).setChild d c := by rw [← h2eq, Heap.edit_same, h1p]
      have h2ne : ∀ q, q ≠ p → h2 q = h1 q := by
        intro q hq
        rw [← h2eq, Heap.edit_ne _ _ hq]
      have hlabels1 : ∀ q, q ∈ (mk d (mk d x pB v) c w).toList ↔
          q ∈ (mk d x pB (mk d v c w)).toList := by
        intro q
        rw [toList_rotate]
      have hlabels : (mk d (mk d (mk d x pB v) c w) p s).toList =
          (mk d (mk d x pB (mk d v c w)) p s).toList := by
        have hinner := toList_rotate d x v w pB c
        cases d <;> simp only [mk, toList] at hinner ⊢ <;> rw [hinner]
      have hl2 : Linked h2 p (mk d (mk d x pB v) c w) ((h2 p).child d) := by
        rw [h2p, Link.child_setChild]
        refine hl1.congr fun q hq => h2ne q ?_
        rintro rfl
        exact hpb ((hlabels1 q).mp hq)
      have hs2 : Linked h2 p s ((h2 p).child d.other) := by
        rw [h2p, Link.child_setChild_other]
        refine hls.congr fun q hq => ?_
        rw [h2ne q (by rintro rfl; exact hps hq), hframe1 q fun hm => hbs q hm hq]
      have hctx2 : LinkedCtx h2 0 ctx p := by
        refine hctx.congr fun q hq => ?_
        have hqn := fun hm => hdisj q hm hq
        rw [h2ne q (by rintro rfl; exact hqn (mem_mk.mpr (Or.inr (Or.inl rfl)))),
          hframe1 q fun hm => hqn (mem_mk.mpr (Or.inl hm))]
      have hset := rotate_settled (s := s) (d := d) hp (by rw [h2p, Link.pUp_setChild, hup]) hl2 hs2
        hctx2 (by rw [nodup_plug, hlabels]; exact ⟨hn, han, hdisj⟩) (by
          rw [balanced_mk, balanced_mk, balanced_mk, height_mk, height_mk]
          exact ⟨by omega, ⟨by omega, hbx, hbv⟩, by omega, hbw, hs⟩)
      have hdef : kvmemLift d h p true =
          ((kvmemFromPtr h2 p).store (kvmemRotate d h2 p).1 (kvmemRotate d h2 p).2,
            (kvmemRotate d h2 p).2) := by
        simp only [kvmemLift, if_true, hchild, hroot1, h1eq, h2eq]
      rw [hdef]
      refine ⟨_, ⟨hset.linked, hset.around, hset.balanced, hset.labels.trans hlabels, ?_⟩, ?_⟩
      · intro q hq
        have hq' : q ∉ (plug (mk d (mk d (mk d x pB v) c w) p s) ctx).toList := by
          rw [mem_plug, hlabels, ← mem_plug]
          exact hq
        rw [mem_plug, not_or, mem_mk, not_or, not_or] at hq
        show (kvmemFromPtr h2 p).store (kvmemRotate d h2 p).1 (kvmemRotate d h2 p).2 q = h q
        rw [hset.frame q hq', h2ne q hq.1.2.1, hframe1 q hq.1.1]
      · rw [height_mk, height_mk, height_mk]
        omega

/-- One round, at a node whose subtrees are right and differ by two in height at most. -/
theorem balanceRound_spec (hp : p ≠ 0) (hup : (h p).pUp = upOf 0 ctx)
    (hlt : Linked h p t (h p).pBefore) (hls : Linked h p s (h p).pAfter) (ht : t.Balanced)
    (hs : s.Balanced) (hctx : LinkedCtx h 0 ctx p)
    (hnodup : (plug (.node t p s) ctx).toList.Nodup)
    (hleft : t.height ≤ s.height + 2) (hright : s.height ≤ t.height + 2) :
    ∃ u, Settled h (balanceRound h p).1 ctx (.node t p s) u (balanceRound h p).2 ∧
      (t.height ≤ s.height + 1 → s.height ≤ t.height + 1 →
        u.height = max t.height s.height + 1) ∧
      (u.height = max t.height s.height ∨ u.height = max t.height s.height + 1) := by
  obtain ⟨hn, -, hdisj⟩ := nodup_plug.mp hnodup
  obtain ⟨-, -, hpt, hps, -⟩ := nodup_mk (d := .before).mp hn
  obtain ⟨hl, hne⟩ := recompute_spec hp hlt hls hpt hps
  obtain ⟨h1, h1eq⟩ : ∃ h1, kvmemRecomputeHeight h p = h1 := ⟨_, rfl⟩
  rw [h1eq] at hl hne
  rw [hup] at hl
  have hctx1 : LinkedCtx h1 0 ctx p := hctx.congr fun q hq =>
    hne q (by rintro rfl; exact hdisj q (by simp [toList]) hq)
  have himb : (h1 p).imbalance = t.height - s.height := hl.2.2.2.2.2.2
  have hlt1 := hl.2.2.2.1
  have hls1 := hl.2.2.2.2.1
  -- The recomputed heights only touch the node itself.
  have hsettle : ∀ {h' : Heap} {u : BinTree Ptr} {r : Ptr},
      Settled h1 h' ctx (.node t p s) u r → Settled h h' ctx (.node t p s) u r := by
    intro h' u r hset
    refine ⟨hset.linked, hset.around, hset.balanced, hset.labels, fun q hq => ?_⟩
    rw [hset.frame q hq]
    refine hne q ?_
    rintro rfl
    exact hq (mem_plug.mpr (Or.inl (by simp [toList])))
  rw [balanceRound, h1eq]
  by_cases hhigh : 2 ≤ (h1 p).imbalance
  · rw [if_pos hhigh]
    obtain ⟨x, b, y, rfl⟩ := exists_mk .before (t := t) (by
      rintro rfl
      rw [height_nil] at himb
      omega)
    obtain ⟨hB, -, -, -, -, -, himbB⟩ := linked_mk.mp hlt1
    obtain ⟨u, hset, hheight⟩ := kvmemLift_spec (d := .before)
      ((h1 (h1 p).pBefore).imbalance < 0) hl ht hs (by omega) hctx1 hnodup (by
        rw [decide_eq_true_iff, hB, himbB]
        dsimp only
        omega)
    refine ⟨u, hsettle hset, fun hnear _ => ?_, ?_⟩ <;> omega
  · rw [if_neg hhigh]
    by_cases hlow : (h1 p).imbalance ≤ -2
    · rw [if_pos hlow]
      obtain ⟨x, b, y, rfl⟩ := exists_mk .after (t := s) (by
        rintro rfl
        rw [height_nil] at himb
        omega)
      obtain ⟨hB, -, -, -, -, -, himbB⟩ := linked_mk.mp hls1
      obtain ⟨u, hset, hheight⟩ := kvmemLift_spec (d := .after)
        (0 < (h1 (h1 p).pAfter).imbalance) hl hs ht (by omega) hctx1 hnodup (by
          rw [decide_eq_true_iff, hB, himbB]
          dsimp only
          omega)
      refine ⟨u, hsettle hset, fun _ hnear => ?_, ?_⟩ <;> omega
    · rw [if_neg hlow]
      refine ⟨.node t p s, hsettle ⟨hl, hctx1, ⟨⟨by omega, by omega⟩, ht, hs⟩, rfl,
        fun _ _ => rfl⟩, fun _ _ => rfl, Or.inr rfl⟩

/-- A round at a node that stands where a tree of height `k` fitted. -/
theorem balanceLoop_round {k : ℕ} (n : ℕ) (pTop : Ptr) (hp : p ≠ 0) (hup : (h p).pUp = upOf 0 ctx)
    (hlt : Linked h p t (h p).pBefore) (hls : Linked h p s (h p).pAfter) (ht : t.Balanced)
    (hs : s.Balanced) (hctx : LinkedCtx h 0 ctx p)
    (hnodup : (plug (.node t p s) ctx).toList.Nodup) (htilt : Tilts t.height s.height k) :
    ∃ h1 u r, balanceLoop (n + 1) h p pTop = balanceLoop n h1 (upOf 0 ctx) r ∧
      Settled h h1 ctx (.node t p s) u r ∧ u.height ≤ k + 1 ∧ k ≤ u.height + 1 := by
  obtain ⟨u, hset, hnear, hfar⟩ := balanceRound_spec hp hup hlt hls ht hs hctx hnodup htilt.left
    htilt.right
  refine ⟨_, u, _, ?_, hset, ?_⟩
  · rw [balanceLoop, if_neg hp, ← hset.pUp]
  · have h3 := htilt.near
    have h4 := htilt.far
    omega

/-- What `kvmemBalance` is to leave: a balanced tree of the same nodes. -/
def Rebalanced (h h' : Heap) (t : BinTree Ptr) (r : Ptr) : Prop :=
  ∃ u, Linked h' 0 u r ∧ u.Balanced ∧ u.toList = t.toList ∧ ∀ q, q ∉ t.toList → h' q = h q

/-- The rest of the loop, when what fills the hole is done. -/
theorem balanceLoop_spec {u : BinTree Ptr} {k n : ℕ} {pTop : Ptr} (hu : Linked h (upOf 0 ctx) u r)
    (hub : u.Balanced) (hctx : LinkedCtx h 0 ctx r) (hnodup : (plug u ctx).toList.Nodup)
    (hclose : u.height ≤ k + 1 ∧ k ≤ u.height + 1) (hfits : Fits k ctx)
    (htop : ctx = [] → pTop = r) (hfuel : ctx.length ≤ n) :
    Rebalanced h (balanceLoop n h (upOf 0 ctx) pTop).1 (plug u ctx)
      (balanceLoop n h (upOf 0 ctx) pTop).2 := by
  induction ctx generalizing h u r k n pTop with
  | nil =>
      have hend : balanceLoop n h (upOf 0 []) pTop = (h, r) := by
        rw [htop rfl]
        cases n <;> rfl
      rw [hend]
      exact ⟨u, hu, hub, rfl, fun _ _ => rfl⟩
  | cons f ctx ih =>
      obtain ⟨n, rfl⟩ : ∃ m, n = m + 1 := ⟨n - 1, by rw [List.length_cons] at hfuel; omega⟩
      obtain ⟨hf0, hchild, hupf, hsib, hrest⟩ := hctx
      obtain ⟨hfk, hfs, hfits⟩ := hfits
      have htilt := tilts_of_near hclose hfk
      have hlu : Linked h f.label u ((h f.label).child f.side) := by
        rw [hchild]
        exact hu
      have hround : ∃ h1 v q, balanceLoop (n + 1) h f.label pTop =
          balanceLoop n h1 (upOf 0 ctx) q ∧
            Settled h h1 ctx (mk f.side u f.label f.sibling) v q ∧
              v.height ≤ max k f.sibling.height + 1 + 1 ∧
                max k f.sibling.height + 1 ≤ v.height + 1 := by
        obtain ⟨d, a, sib⟩ := f
        cases d with
        | before => exact balanceLoop_round n pTop hf0 hupf hlu hsib hub hfs hrest hnodup htilt
        | after => exact balanceLoop_round n pTop hf0 hupf hsib hlu hfs hub hrest hnodup htilt.symm
      obtain ⟨h1, v, q, hstep, hset, hclose'⟩ := hround
      have hlist : (plug v ctx).toList = (plug u (f :: ctx)).toList := by
        rw [plug, toList_plug, toList_plug, hset.labels]
      have hloop : Rebalanced h1 (balanceLoop n h1 (upOf 0 ctx) q).1 (plug v ctx)
          (balanceLoop n h1 (upOf 0 ctx) q).2 :=
        ih hset.linked hset.balanced hset.around (by rw [hlist]; exact hnodup) hclose' hfits
          (fun _ => rfl) (by rw [List.length_cons] at hfuel; omega)
      obtain ⟨w, hw, hwb, hwl, hwf⟩ := hloop
      have hup : upOf 0 (f :: ctx) = f.label := rfl
      rw [hup, hstep]
      refine ⟨w, hw, hwb, hwl.trans hlist, fun x hx => ?_⟩
      rw [hwf x (by rw [hlist]; exact hx), hset.frame x hx]

/-- `kvmemBalance` from a node that stands where a tree of height `k` fitted. -/
theorem kvmemBalance_spec {k n : ℕ} (hp : p ≠ 0) (hup : (h p).pUp = upOf 0 ctx)
    (hlt : Linked h p t (h p).pBefore) (hls : Linked h p s (h p).pAfter) (ht : t.Balanced)
    (hs : s.Balanced) (hctx : LinkedCtx h 0 ctx p)
    (hnodup : (plug (.node t p s) ctx).toList.Nodup) (htilt : Tilts t.height s.height k)
    (hfits : Fits k ctx) (hfuel : ctx.length < n) :
    Rebalanced h (kvmemBalance n h p).1 (plug (.node t p s) ctx) (kvmemBalance n h p).2 := by
  obtain ⟨n, rfl⟩ : ∃ m, n = m + 1 := ⟨n - 1, by omega⟩
  obtain ⟨h1, u, r, hstep, hset, hclose⟩ := balanceLoop_round n p hp hup hlt hls ht
    hs hctx hnodup htilt
  have hlist : (plug u ctx).toList = (plug (.node t p s) ctx).toList := by
    rw [toList_plug, toList_plug, hset.labels]
  have hloop : Rebalanced h1 (balanceLoop n h1 (upOf 0 ctx) r).1 (plug u ctx)
      (balanceLoop n h1 (upOf 0 ctx) r).2 :=
    balanceLoop_spec hset.linked hset.balanced hset.around (by rw [hlist]; exact hnodup) hclose
      hfits (fun _ => rfl) (by omega)
  obtain ⟨w, hw, hwb, hwl, hwf⟩ := hloop
  rw [kvmemBalance, hstep]
  refine ⟨w, hw, hwb, hwl.trans hlist, fun x hx => ?_⟩
  rw [hwf x (by rw [hlist]; exact hx), hset.frame x hx]

/-- `kvmemBalance` from the parent of a subtree that has changed. -/
theorem kvmemBalance_parent {u : BinTree Ptr} {k n : ℕ} (hu : Linked h (upOf 0 ctx) u r)
    (hub : u.Balanced) (hctx : LinkedCtx h 0 ctx r) (hnodup : (plug u ctx).toList.Nodup)
    (hclose : u.height ≤ k + 1 ∧ k ≤ u.height + 1) (hfits : Fits k ctx)
    (hroot : ctx = [] → r = 0) (hfuel : ctx.length ≤ n) :
    Rebalanced h (kvmemBalance n h (upOf 0 ctx)).1 (plug u ctx)
      (kvmemBalance n h (upOf 0 ctx)).2 :=
  balanceLoop_spec hu hub hctx hnodup hclose hfits
    (fun hnil => by rw [hnil, hroot hnil]; rfl) hfuel

end KvMem

end MoVeBench
