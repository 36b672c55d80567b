/-
MoVeBench/KvMem/Nodes.lean

The routines of `kvmem.c` that walk the tree and take nodes out of it.

The loops that follow pointers have a bound on the rounds as their first argument.  For a linked
tree the walks end at a node of the tree or at `NULL` (`Closed`), and `kvmemRemoveNode` leaves a
balanced tree of the other nodes (`removeNode_spec`), from whichever node it has the tree balanced.
-/
import MoVeBench.KvMem.Links

namespace MoVeBench

namespace KvMem

open AvlTree AvlTree.BinTree

/-! ### Walks -/

/-- `kvmemFirst` and `kvmemLast`, which differ in the side. -/
def kvmemEnd (d : Side) : ℕ → Heap → Ptr → Ptr
  | 0, _, p => p
  | n + 1, h, p => if p ≠ 0 ∧ (h p).child d ≠ 0 then kvmemEnd d n h ((h p).child d) else p

def kvmemFirst (n : ℕ) (h : Heap) (p : Ptr) : Ptr := kvmemEnd .before n h p

def kvmemLast (n : ℕ) (h : Heap) (p : Ptr) : Ptr := kvmemEnd .after n h p

/-- The first loop of `kvmemNext` and `kvmemPrev`, with `pPrev` and `p`. -/
def climb (d : Side) : ℕ → Heap → Ptr → Ptr → Ptr × Ptr
  | 0, _, pPrev, p => (pPrev, p)
  | n + 1, h, pPrev, p =>
      if p ≠ 0 ∧ (h p).child d = pPrev then climb d n h p (h p).pUp else (pPrev, p)

/-- `kvmemNext` and `kvmemPrev`, which differ in the side. -/
def kvmemStep (d : Side) (n : ℕ) (h : Heap) (p : Ptr) : Ptr :=
  let (pPrev, p) := climb d n h 0 p
  if p ≠ 0 ∧ pPrev = 0 then kvmemEnd d.other n h ((h p).child d) else p

def kvmemNext (n : ℕ) (h : Heap) (p : Ptr) : Ptr := kvmemStep .after n h p

def kvmemPrev (n : ℕ) (h : Heap) (p : Ptr) : Ptr := kvmemStep .before n h p

/-! ### Taking a node out -/

/-- The part of `kvmemRemoveNode` that takes `pX`, which is below the right child of `pOld`, out of
its place. -/
def detach (h : Heap) (pOld pX : Ptr) : Heap × Ptr :=
  let h := (kvmemFromPtr h pX).store h (h pX).pAfter
  let h := if (h pX).pAfter ≠ 0 then h.edit (h pX).pAfter fun k => k.setUp (h pX).pUp else h
  let pBalance := (h pX).pUp
  let h := h.edit pX fun k => k.setChild .after (h pOld).pAfter
  if (h pX).pAfter ≠ 0 then (h.edit (h pX).pAfter fun k => k.setUp pX, pBalance)
  else (h, pX)

/-- The pointers of `kvmemRemoveNode` before `kvmemBalance`, with `pBalance`. -/
def unlink (n : ℕ) (h : Heap) (pOld : Ptr) : Heap × Ptr :=
  let ppParent := kvmemFromPtr h pOld
  let pBefore := (h pOld).pBefore
  let pAfter := (h pOld).pAfter
  if pBefore = 0 ∧ pAfter = 0 then (ppParent.store h 0, (h pOld).pUp)
  else if pBefore ≠ 0 ∧ pAfter ≠ 0 then
    let pX := kvmemFirst n h pAfter
    let (h, pBalance) := if pX = pAfter then (h, pX) else detach h pOld pX
    let pY := (h pOld).pBefore
    let h := h.edit pX fun k => k.setChild .before pY
    let h := if pY ≠ 0 then h.edit pY fun k => k.setUp pX else h
    let h := h.edit pX fun k => k.setUp (h pOld).pUp
    (ppParent.store h pX, pBalance)
  else if pBefore = 0 then
    let h := ppParent.store h pAfter
    (h.edit pAfter fun k => k.setUp (h pOld).pUp, pAfter)
  else
    let h := ppParent.store h pBefore
    (h.edit pBefore fun k => k.setUp (h pOld).pUp, pBefore)

/-- What `kvmemRemoveNode` does to the tree. -/
def removeLinks (n : ℕ) (h : Heap) (pOld : Ptr) : Heap × Ptr :=
  let (h, pBalance) := unlink n h pOld
  kvmemBalance n h pBalance

variable {h h' : Heap} {up top p q r : Ptr} {t s : BinTree Ptr} {d : Side}
  {ctx lctx : List (Frame Ptr)} {n : ℕ}

/-! ### Walks stay in the tree -/

/-- The pointers of these nodes lead to these nodes or nowhere. -/
def Closed (h : Heap) (l : List Ptr) : Prop :=
  ∀ p ∈ l, ((h p).pUp = 0 ∨ (h p).pUp ∈ l) ∧ ∀ d, (h p).child d = 0 ∨ (h p).child d ∈ l

theorem Linked.closed_or (hl : Linked h up t r) : ∀ p ∈ t.toList,
    ((h p).pUp = up ∨ (h p).pUp ∈ t.toList) ∧
      ∀ d, (h p).child d = 0 ∨ (h p).child d ∈ t.toList := by
  induction t generalizing up r with
  | nil => simp
  | node t p s iht ihs =>
      obtain ⟨rfl, -, hup, ht, hs, -, -⟩ := hl
      have hbefore : ∀ {q}, q ∈ t.toList → q ∈ (node t r s).toList := fun hq =>
        mem_mk (d := .before).mpr (Or.inl hq)
      have hafter : ∀ {q}, q ∈ s.toList → q ∈ (node t r s).toList := fun hq =>
        mem_mk (d := .before).mpr (Or.inr (Or.inr hq))
      have hself : r ∈ (node t r s).toList := mem_mk (d := .before).mpr (Or.inr (Or.inl rfl))
      intro q hq
      rcases mem_mk (d := .before).mp hq with hq | rfl | hq
      · obtain ⟨h1, h2⟩ := iht ht q hq
        exact ⟨Or.inr (h1.elim (fun h => h ▸ hself) hbefore), fun d => (h2 d).imp_right hbefore⟩
      · refine ⟨Or.inl hup, fun d => ?_⟩
        cases d
        · exact ht.root.imp And.right hbefore
        · exact hs.root.imp And.right hafter
      · obtain ⟨h1, h2⟩ := ihs hs q hq
        exact ⟨Or.inr (h1.elim (fun h => h ▸ hself) hafter), fun d => (h2 d).imp_right hafter⟩

theorem Linked.closed (hl : Linked h 0 t r) : Closed h t.toList := hl.closed_or

variable {l : List Ptr}

theorem Closed.end (hc : Closed h l) (hp : p = 0 ∨ p ∈ l) :
    kvmemEnd d n h p = 0 ∨ kvmemEnd d n h p ∈ l := by
  induction n generalizing p with
  | zero => exact hp
  | succ n ih =>
      rw [kvmemEnd]
      split_ifs with hif
      · exact ih ((hc p (hp.resolve_left hif.1)).2 d)
      · exact hp

theorem Closed.climb (hc : Closed h l) (pPrev : Ptr) (hp : p = 0 ∨ p ∈ l) :
    (climb d n h pPrev p).2 = 0 ∨ (climb d n h pPrev p).2 ∈ l := by
  induction n generalizing pPrev p with
  | zero => exact hp
  | succ n ih =>
      rw [KvMem.climb]
      split_ifs with hif
      · exact ih _ (hc p (hp.resolve_left hif.1)).1
      · exact hp

theorem Closed.step (hc : Closed h l) (hp : p = 0 ∨ p ∈ l) :
    kvmemStep d n h p = 0 ∨ kvmemStep d n h p ∈ l := by
  have hclimb := hc.climb (d := d) (n := n) 0 hp
  obtain ⟨⟨q, r⟩, heq⟩ : ∃ x, KvMem.climb d n h 0 p = x := ⟨_, rfl⟩
  rw [heq] at hclimb
  simp only [kvmemStep, heq]
  split_ifs with hif
  · exact hc.end ((hc _ (hclimb.resolve_left hif.1)).2 d)
  · exact hclimb

/-- The first node of a tree has nothing before it, in the tree and in its place. -/
theorem kvmemFirst_spec (hl : Linked h up s r) (hs : s ≠ .nil) (hn : s.toList.length ≤ n) :
    ∃ lctx s', s = plug (.node .nil (kvmemFirst n h r) s') lctx ∧
      ∀ f ∈ lctx, f.side = .before := by
  induction s generalizing up r n with
  | nil => exact absurd rfl hs
  | node t p s iht _ =>
      obtain ⟨rfl, hp, -, ht, -, -, -⟩ := hl
      rw [toList, List.length_append, List.length_cons] at hn
      obtain ⟨n, rfl⟩ : ∃ m, n = m + 1 := ⟨n - 1, by omega⟩
      cases t with
      | nil =>
          refine ⟨[], s, ?_, by simp⟩
          have hb : (h r).pBefore = 0 := ht
          have hfirst : kvmemFirst (n + 1) h r = r := by
            rw [kvmemFirst, kvmemEnd, if_neg]
            rintro ⟨-, hne⟩
            exact hne hb
          rw [hfirst]
          rfl
      | node t1 b t2 =>
          obtain ⟨lctx, s', heq, hside⟩ := iht ht (by simp) (by omega : _ ≤ n)
          have hb : (h r).pBefore ≠ 0 := by
            rw [ht.1]
            exact ht.2.1
          have hfirst : kvmemFirst (n + 1) h r = kvmemFirst n h (h r).pBefore := by
            rw [kvmemFirst, kvmemEnd]
            exact if_pos ⟨hp, hb⟩
          refine ⟨lctx ++ [⟨.before, r, s⟩], s', ?_, ?_⟩
          · rw [plug_append, hfirst, ← heq]
            rfl
          · intro f hf
            rcases List.mem_append.mp hf with hf | hf
            · exact hside f hf
            · rw [List.mem_singleton.mp hf]

/-! ### The tree without a node -/

theorem rootOf_mem (hctx : ctx ≠ []) : rootOf ctx r ∈ around ctx := by
  induction ctx generalizing r with
  | nil => exact absurd rfl hctx
  | cons f ctx ih =>
      cases ctx with
      | nil => simp [rootOf]
      | cons g ctx =>
          have hm := ih (r := f.label) (by simp)
          rw [rootOf, around_cons]
          exact List.mem_cons_of_mem _ (List.mem_append_right _ hm)

/-- The surroundings of a hole are hung below another node. -/
theorem LinkedCtx.setTop (hc : LinkedCtx h top ctx r) (hn : (around ctx).Nodup) (hctx : ctx ≠ [])
    (q : Ptr) : LinkedCtx (h.edit (rootOf ctx r) fun k => k.setUp q) q ctx r := by
  induction ctx generalizing r with
  | nil => exact absurd rfl hctx
  | cons f ctx ih =>
      obtain ⟨h0, hchild, hup, hsib, hrest⟩ := hc
      rw [around_cons, List.nodup_cons, List.mem_append, not_or, List.nodup_append] at hn
      obtain ⟨⟨hfs, hfc⟩, hsn, hcn, hdisj⟩ := hn
      cases ctx with
      | nil =>
          refine ⟨h0, ?_, ?_, ?_, trivial⟩
          · rw [rootOf, rootOf, Heap.edit_same, Link.child_setUp, hchild]
          · rw [rootOf, rootOf, Heap.edit_same]
            rfl
          · rw [rootOf, rootOf, Heap.edit_same, Link.child_setUp]
            exact hsib.congr fun x hx => h.edit_ne _ (by rintro rfl; exact hfs hx)
      | cons g ctx =>
          have hmem : rootOf (f :: g :: ctx) r ∈ around (g :: ctx) :=
            rootOf_mem (r := f.label) (by simp)
          have hne : f.label ≠ rootOf (f :: g :: ctx) r := fun he => hfc (he ▸ hmem)
          refine ⟨h0, ?_, ?_, ?_, ih hrest hcn (by simp)⟩
          · rw [h.edit_ne _ hne, hchild]
          · rw [h.edit_ne _ hne, hup]
            rfl
          · rw [h.edit_ne _ hne]
            refine hsib.congr fun x hx => h.edit_ne _ ?_
            rintro rfl
            exact hdisj _ hx _ hmem rfl

/-- What the tree is when `kvmemBalance` is called: the node is out, and at some place near the
subtrees have another height than before. -/
def Loose (n : ℕ) (h h' : Heap) (pBalance p : Ptr) (l : List Ptr) : Prop :=
  ∃ t : BinTree Ptr, t.toList = l.erase p ∧
    Rebalanced h' (kvmemBalance n h' pBalance).1 t (kvmemBalance n h' pBalance).2 ∧
      ∀ q, q ∉ l → h' q = h q

/-- A leaf. -/
theorem unlink_leaf (hl : Linked h 0 (plug (.node .nil p .nil) ctx) r)
    (hbal : (plug (.node .nil p .nil) ctx).Balanced)
    (hnodup : (plug (.node .nil p .nil) ctx).toList.Nodup) (hn : ctx.length ≤ n) :
    Loose n h (unlink n h p).1 (unlink n h p).2 p (plug (.node .nil p .nil) ctx).toList := by
  obtain ⟨q, ⟨rfl, hp, hup, hbefore, hafter, -, -⟩, hc, -⟩ := hl.unplug
  obtain ⟨-, han, hdisj⟩ := nodup_plug.mp hnodup
  have hout : q ∉ around ctx := hdisj q (by simp [toList])
  obtain ⟨hstore, hframe⟩ := fromPtr_store (r := 0) hc hup hp hout han (fun _ _ => rfl)
  have hdef : unlink n h q = ((kvmemFromPtr h q).store h 0, upOf 0 ctx) := by
    have hb : (h q).pBefore = 0 := hbefore
    have ha : (h q).pAfter = 0 := hafter
    simp only [unlink, hb, ha, and_self, if_true, hup]
  rw [hdef]
  have hlist : (plug .nil ctx).toList = ((plug (.node .nil q .nil) ctx).toList).erase q := by
    rw [erase_plug hnodup, toList_plug]
    simp
  refine ⟨_, hlist, kvmemBalance_parent (k := 1) rfl trivial hstore ?_ (by simp)
    (balanced_plug.mp hbal).2 (fun _ => rfl) hn, fun x hx => hframe x fun hm => hx ?_⟩
  · rw [nodup_plug]
    exact ⟨List.nodup_nil, han, by simp⟩
  · exact mem_plug.mpr (Or.inr hm)

/-- A node with one child. -/
theorem unlink_single {c : BinTree Ptr} (hc : c ≠ .nil) (hl : Linked h 0 (plug (mk d c p .nil) ctx) r)
    (hbal : (plug (mk d c p .nil) ctx).Balanced)
    (hnodup : (plug (mk d c p .nil) ctx).toList.Nodup) (hn : ctx.length < n) :
    Loose n h (unlink n h p).1 (unlink n h p).2 p (plug (mk d c p .nil) ctx).toList := by
  obtain ⟨q, hmk, hctx, -⟩ := hl.unplug
  obtain ⟨rfl, hp, hup, hchild, hother, -, -⟩ := linked_mk.mp hmk
  obtain ⟨hmn, han, hdisj⟩ := nodup_plug.mp hnodup
  obtain ⟨hcn, -, hpc, -, -⟩ := nodup_mk.mp hmn
  have hout : q ∉ around ctx := hdisj q (mem_mk.mpr (Or.inr (Or.inl rfl)))
  have hcout : ∀ x ∈ c.toList, x ∉ around ctx := fun x hx => hdisj x (mem_mk.mpr (Or.inl hx))
  have hlist : (plug c ctx).toList = ((plug (mk d c q .nil) ctx).toList).erase q := by
    rw [toList_plug]
    cases d
    · exact Eq.trans (by simp) (erase_plug (t := c) (s := .nil) hnodup).symm
    · exact Eq.trans (by simp) (erase_plug (t := .nil) (s := c) hnodup).symm
  obtain ⟨t, x, s, rfl⟩ := exists_mk .before hc
  obtain ⟨hx, hx0, -, ht, hs, hheight, himb⟩ := linked_mk.mp hchild
  obtain ⟨-, -, hxt, hxs, -⟩ := nodup_mk.mp hcn
  have hxm : x ∈ (mk .before t x s).toList := mem_mk.mpr (Or.inr (Or.inl rfl))
  -- Both branches for a single child do the same, each on its side.
  obtain ⟨h1, h1eq⟩ : ∃ h1, (kvmemFromPtr h q).store h x = h1 := ⟨_, rfl⟩
  have hdef : unlink n h q = (h1.edit x fun k => k.setUp (h1 q).pUp, x) := by
    cases d
    · have ha : (h q).pAfter = 0 := hother
      have hb : (h q).pBefore = x := hx
      simp only [unlink, ha, hb, hx0, h1eq, false_and, and_false, if_false, ne_eq,
        not_true_eq_false]
    · have ha : (h q).pAfter = x := hx
      have hb : (h q).pBefore = 0 := hother
      simp only [unlink, ha, hb, hx0, h1eq, and_false, false_and, if_false, if_true, ne_eq,
        not_true_eq_false]
  obtain ⟨hstore, hframe⟩ := fromPtr_store (r := x) hctx hup hp hout han (fun _ _ => rfl)
  rw [h1eq] at hstore hframe
  obtain ⟨h2, h2eq⟩ : ∃ h2, (h1.edit x fun k => k.setUp (h1 q).pUp) = h2 := ⟨_, rfl⟩
  rw [hdef, h2eq]
  have h1q : (h1 q).pUp = upOf 0 ctx := by rw [hframe q hout, hup]
  have h2x : h2 x = (h x).setUp (upOf 0 ctx) := by
    rw [← h2eq, Heap.edit_same, h1q, hframe x (hcout x hxm)]
  have h2ne : ∀ y, y ≠ x → y ∉ around ctx → h2 y = h y := by
    intro y hy hyo
    rw [← h2eq, Heap.edit_ne _ _ hy, hframe y hyo]
  have hside : ∀ {u : BinTree Ptr} {v : Ptr}, x ∉ u.toList →
      (∀ y ∈ u.toList, y ∈ (mk .before t x s).toList) → Linked h x u v → Linked h2 x u v :=
    fun hxu hsub hu => hu.congr fun y hy =>
      h2ne y (by rintro rfl; exact hxu hy) (hcout y (hsub y hy))
  obtain ⟨hmb, hfits⟩ := balanced_plug.mp hbal
  obtain ⟨⟨hle, -⟩, hcb, -⟩ := balanced_mk.mp hmb
  obtain ⟨hts, htb, hsb⟩ := balanced_mk.mp hcb
  rw [height_mk, height_mk, height_nil] at hfits
  have hup2 : (h2 x).pUp = upOf 0 ctx := by rw [h2x]; rfl
  have ht2 : Linked h2 x t (h2 x).pBefore := by
    rw [h2x]
    exact hside hxt (fun y hy => mem_mk.mpr (Or.inl hy)) ht
  have hs2 : Linked h2 x s (h2 x).pAfter := by
    rw [h2x]
    exact hside hxs (fun y hy => mem_mk.mpr (Or.inr (Or.inr hy))) hs
  have hc2 : LinkedCtx h2 0 ctx x := by
    refine hstore.congr fun y hy => ?_
    rw [← h2eq, Heap.edit_ne]
    rintro rfl
    exact hcout _ hxm hy
  refine ⟨_, hlist, kvmemBalance_spec hx0 hup2 ht2 hs2 htb hsb hc2 ?_ ?_ hfits hn, fun y hy => ?_⟩
  · exact nodup_plug.mpr ⟨hcn, han, hcout⟩
  · constructor <;> omega
  · rw [mem_plug, not_or, mem_mk, not_or] at hy
    exact h2ne y (by rintro rfl; exact hy.1.1 hxm) hy.2

/-- The first node of the right subtree is out of its place, with what was below it there. -/
structure Detached (h h' : Heap) (pOld pX : Ptr) (lctx : List (Frame Ptr)) (s : BinTree Ptr)
    (r : Ptr) : Prop where
  linked : Linked h' (upOf pX lctx) s r
  around : LinkedCtx h' pX lctx r
  root : (h' pX).pAfter = rootOf lctx r
  frame : ∀ q, q ∉ (plug (.node .nil pX s) lctx).toList → h' q = h q

theorem detach_spec {pOld pX : Ptr} {f : Frame Ptr}
    (hl : Linked h pOld (plug (.node .nil pX s) (f :: lctx)) (h pOld).pAfter)
    (hnodup : (plug (.node .nil pX s) (f :: lctx)).toList.Nodup)
    (hOld : pOld ∉ (plug (.node .nil pX s) (f :: lctx)).toList) :
    (detach h pOld pX).2 = f.label ∧
      ∃ r, Detached h (detach h pOld pX).1 pOld pX (f :: lctx) s r := by
  obtain ⟨q, ⟨rfl, hX, hup, -, hs, -, -⟩, hc, hroot⟩ := hl.unplug
  obtain ⟨hn, han, hdisj⟩ := nodup_plug.mp hnodup
  obtain ⟨-, hsn, -, hXs, -⟩ := nodup_mk (d := .before).mp hn
  have hqm : q ∈ (node .nil q s).toList := by simp [toList]
  have hsm : ∀ x ∈ s.toList, x ∈ (node .nil q s).toList := fun x hx => by simp [toList, hx]
  have hqout : q ∉ around (f :: lctx) := hdisj q hqm
  have hupf : (h q).pUp = f.label := hup
  have hfm : f.label ∈ around (f :: lctx) := by simp
  have hqf : q ≠ f.label := fun he => hqout (he ▸ hfm)
  rw [mem_plug, not_or] at hOld
  obtain ⟨hOldn, hOlda⟩ := hOld
  have hOldq : pOld ≠ q := fun he => hOldn (he ▸ hqm)
  obtain ⟨r, hr⟩ : ∃ r, (h q).pAfter = r := ⟨_, rfl⟩
  rw [hr] at hs
  -- The parent takes what is below.
  obtain ⟨h1, h1eq⟩ : ∃ h1, (Place.child f.label f.side).store h r = h1 := ⟨_, rfl⟩
  obtain ⟨hstore, hne1⟩ := linkedCtx_store hc han r
  rw [h1eq] at hstore hne1
  have hplace : kvmemFromPtr h q = .child f.label f.side :=
    fromPtr_child hc hupf hX fun hm => hqout (by simp [hm])
  have h1q : h1 q = h q := hne1 q hqf
  -- Its parent pointer.
  obtain ⟨h2, h2eq⟩ : ∃ h2, (if r ≠ 0 then h1.edit r fun k => k.setUp f.label else h1) = h2 :=
    ⟨_, rfl⟩
  have hs1 : Linked h1 q s r := hs.congr fun x hx =>
    hne1 x fun he => hdisj x (hsm x hx) (he ▸ hfm)
  have hs2 : Linked h2 f.label s r := by
    rw [← h2eq]
    exact hs1.setUp hsn f.label
  have hne2 : ∀ x, x ∉ s.toList → h2 x = h1 x := by
    intro x hx
    rw [← h2eq]
    split_ifs with hr0
    · refine h1.edit_ne _ ?_
      rintro rfl
      rcases hs1.root with ⟨-, h0⟩ | hm
      · exact hr0 h0
      · exact hx hm
    · rfl
  have h2q : h2 q = h q := by rw [hne2 q hXs, h1q]
  have h2Old : h2 pOld = h pOld := by
    rw [hne2 pOld fun hm => hOldn (hsm _ hm), hne1 pOld fun he => hOlda (he ▸ hfm)]
  have hc2 : LinkedCtx h2 pOld (f :: lctx) r := hstore.congr fun x hx =>
    hne2 x fun hm => hdisj x (hsm x hm) hx
  -- The right subtree is hung below the node.
  obtain ⟨a, ha⟩ : ∃ a, (h pOld).pAfter = a := ⟨_, rfl⟩
  rw [ha] at hroot
  have hroot' : rootOf (f :: lctx) r = a := hroot
  have ham : a ∈ around (f :: lctx) := by
    rw [← hroot']
    exact rootOf_mem (by simp)
  have ha0 : a ≠ 0 := hc.nonzero a ham
  have hqa : q ≠ a := fun he => hqout (he ▸ ham)
  obtain ⟨h3, h3eq⟩ : ∃ h3, (h2.edit q fun k => k.setChild .after a) = h3 := ⟨_, rfl⟩
  have h3q : h3 q = (h q).setChild .after a := by rw [← h3eq, Heap.edit_same, h2q]
  have hne3 : ∀ x, x ≠ q → h3 x = h2 x := by
    intro x hx
    rw [← h3eq, Heap.edit_ne _ _ hx]
  have hdef : detach h pOld q = (h3.edit a fun k => k.setUp q, f.label) := by
    have h3a : (h3 q).pAfter = a := by rw [h3q]; rfl
    simp only [detach, hplace, hr, h1eq, h1q, hupf, h2eq, h2q, h2Old, ha, h3eq, h3a, ha0, ne_eq,
      not_false_eq_true, if_true]
  have hc3 : LinkedCtx h3 pOld (f :: lctx) r := hc2.congr fun x hx =>
    hne3 x (by rintro rfl; exact hqout hx)
  have hc4 := hc3.setTop han (by simp) q
  rw [hroot'] at hc4
  rw [hdef]
  refine ⟨rfl, r, ?_, hc4, ?_, fun x hx => ?_⟩
  · refine hs2.congr fun x hx => ?_
    have hxq : x ≠ q := by rintro rfl; exact hXs hx
    have hxa : x ≠ a := by rintro rfl; exact hdisj _ (hsm _ hx) ham
    show (h3.edit a fun k => k.setUp q) x = h2 x
    rw [Heap.edit_ne _ _ hxa, hne3 x hxq]
  · show ((h3.edit a fun k => k.setUp q) q).pAfter = rootOf (f :: lctx) r
    rw [Heap.edit_ne _ _ hqa, h3q, hroot']
    rfl
  · rw [mem_plug, not_or] at hx
    have hxq : x ≠ q := by rintro rfl; exact hx.1 hqm
    have hxa : x ≠ a := by rintro rfl; exact hx.2 ham
    have hxf : x ≠ f.label := by rintro rfl; exact hx.2 hfm
    show (h3.edit a fun k => k.setUp q) x = h x
    rw [Heap.edit_ne _ _ hxa, hne3 x hxq, hne2 x fun hm => hx.1 (hsm _ hm), hne1 x hxf]

/-- A node with two children, whose place `pX` takes. -/
theorem unlink_double {pX : Ptr} (ht : t ≠ .nil)
    (hl : Linked h 0 (plug (.node t p (plug (.node .nil pX s) lctx)) ctx) r)
    (hbal : (plug (.node t p (plug (.node .nil pX s) lctx)) ctx).Balanced)
    (hnodup : (plug (.node t p (plug (.node .nil pX s) lctx)) ctx).toList.Nodup)
    (hfirst : kvmemFirst n h (h p).pAfter = pX) (hside : ∀ f ∈ lctx, f.side = .before)
    (hn : lctx.length + ctx.length + 1 ≤ n) :
    Loose n h (unlink n h p).1 (unlink n h p).2 p
      (plug (.node t p (plug (.node .nil pX s) lctx)) ctx).toList := by
  obtain ⟨q, ⟨rfl, hp, hup, hbefore, hafter, -, -⟩, hctx, -⟩ := hl.unplug
  obtain ⟨hmn, han, hdisj⟩ := nodup_plug.mp hnodup
  obtain ⟨htn, hrn, hpt, hpr, htr⟩ := nodup_mk (d := .before).mp hmn
  obtain ⟨hXn, hln, hXl⟩ := nodup_plug.mp hrn
  obtain ⟨-, hsn, -, hXs, -⟩ := nodup_mk (d := .before).mp hXn
  have hXm : pX ∈ (plug (.node .nil pX s) lctx).toList := mem_plug.mpr (Or.inl (by simp [toList]))
  have hsm : ∀ x ∈ s.toList, x ∈ (plug (.node .nil pX s) lctx).toList := fun x hx =>
    mem_plug.mpr (Or.inl (by simp [toList, hx]))
  have hlm : ∀ x ∈ around lctx, x ∈ (plug (.node .nil pX s) lctx).toList := fun x hx =>
    mem_plug.mpr (Or.inr hx)
  have hrout : ∀ x ∈ (plug (.node .nil pX s) lctx).toList, x ∉ around ctx := fun x hx =>
    hdisj x (mem_mk (d := .before).mpr (Or.inr (Or.inr hx)))
  have htout : ∀ x ∈ t.toList, x ∉ around ctx := fun x hx =>
    hdisj x (mem_mk (d := .before).mpr (Or.inl hx))
  have hout : q ∉ around ctx := hdisj q (mem_mk (d := .before).mpr (Or.inr (Or.inl rfl)))
  have hXq : pX ≠ q := fun he => hpr (he ▸ hXm)
  have hb0 : (h q).pBefore ≠ 0 := by
    rcases hbefore.root with ⟨h0, -⟩ | hm
    · exact absurd h0 ht
    · exact hbefore.nonzero _ hm
  have ha0 : (h q).pAfter ≠ 0 := by
    rcases hafter.root with ⟨h0, -⟩ | hm
    · rw [h0] at hXm
      exact absurd hXm (by simp)
    · exact hafter.nonzero _ hm
  -- The first node of the right subtree is out of its place.
  obtain ⟨h3, h3eq⟩ : ∃ h3, (if pX = (h q).pAfter then (h, pX) else detach h q pX) = h3 := ⟨_, rfl⟩
  obtain ⟨hbalance, r', hdet⟩ : h3.2 = upOf pX lctx ∧ ∃ r, Detached h h3.1 q pX lctx s r := by
    obtain ⟨x, ⟨rfl, hX0, hupX, -, hs, -, -⟩, hc, hroot⟩ := hafter.unplug
    cases lctx with
    | nil =>
        have hroot' : x = (h q).pAfter := hroot
        rw [← h3eq, if_pos hroot']
        exact ⟨rfl, _, hs, trivial, rfl, fun _ _ => rfl⟩
    | cons f lctx =>
        have hne : x ≠ (h q).pAfter := by
          rw [← hroot]
          intro he
          exact hXl x (by simp [toList]) (he ▸ rootOf_mem (by simp))
        rw [← h3eq, if_neg hne]
        exact detach_spec hafter hrn hpr
  have hX0 : pX ≠ 0 := hafter.nonzero pX hXm
  have hbn : (h q).pBefore ∈ t.toList := (hbefore.root).resolve_left fun h0 => ht h0.1
  have h3q : h3.1 q = h q := hdet.frame q hpr
  obtain ⟨b, hb⟩ : ∃ b, (h q).pBefore = b := ⟨_, rfl⟩
  rw [hb] at hb0 hbn hbefore
  have hXt : pX ∉ t.toList := fun hm => htr _ hm hXm
  have hqb : q ≠ b := by rintro rfl; exact hpt hbn
  have hXb : pX ≠ b := by rintro rfl; exact hXt hbn
  -- The assignments to it and to the left child.
  obtain ⟨h4, h4eq⟩ : ∃ h4, (h3.1.edit pX fun k => k.setChild .before b) = h4 := ⟨_, rfl⟩
  obtain ⟨h5, h5eq⟩ : ∃ h5, (if b ≠ 0 then h4.edit b fun k => k.setUp pX else h4) = h5 := ⟨_, rfl⟩
  obtain ⟨h6, h6eq⟩ : ∃ h6, (h5.edit pX fun k => k.setUp (upOf 0 ctx)) = h6 := ⟨_, rfl⟩
  have hne4 : ∀ x, x ≠ pX → h4 x = h3.1 x := by
    intro x hx
    rw [← h4eq, Heap.edit_ne _ _ hx]
  have hne5 : ∀ x, x ≠ b → h5 x = h4 x := by
    intro x hx
    rw [← h5eq, if_pos hb0, Heap.edit_ne _ _ hx]
  have hne6 : ∀ x, x ≠ pX → h6 x = h5 x := by
    intro x hx
    rw [← h6eq, Heap.edit_ne _ _ hx]
  have h5q : h5 q = h q := by rw [hne5 q hqb, hne4 q hXq.symm, h3q]
  have h6X : h6 pX = ((h3.1 pX).setChild .before b).setUp (upOf 0 ctx) := by
    rw [← h6eq, Heap.edit_same, hne5 pX hXb, ← h4eq, Heap.edit_same]
  have ht4 : Linked h4 q t b := hbefore.congr fun x hx => by
    rw [hne4 x (by rintro rfl; exact hXt hx), hdet.frame x (htr x hx)]
  have ht5 : Linked h5 pX t b := by
    rw [← h5eq]
    exact ht4.setUp htn pX
  have ht6 : Linked h6 pX t b := ht5.congr fun x hx => hne6 x (by rintro rfl; exact hXt hx)
  have h6of : ∀ x, x ≠ pX → x ≠ b → h6 x = h3.1 x := by
    intro x hxX hxb
    rw [hne6 x hxX, hne5 x hxb, hne4 x hxX]
  have hdef : unlink n h q = ((kvmemFromPtr h q).store h6 pX, upOf pX lctx) := by
    have hdef3 : (if pX = (h q).pAfter then (h, pX) else detach h q pX) = (h3.1, h3.2) := h3eq
    rw [if_pos hb0] at h5eq
    simp only [unlink, hb, hb0, ha0, ne_eq, not_false_eq_true, and_self, if_true, if_false,
      hfirst, hdef3, h3q, hbalance, h4eq, h5eq, h5q, hup, h6eq]
  -- The place of the old node.
  have hsame : ∀ x ∈ around ctx, h6 x = h x := by
    intro x hx
    rw [h6of x (by rintro rfl; exact hrout _ hXm hx) (by rintro rfl; exact htout _ hbn hx)]
    exact hdet.frame x fun hm => hrout x hm hx
  obtain ⟨hstore, hframe⟩ := fromPtr_store (r := pX) hctx hup hp hout han hsame
  obtain ⟨h7, h7eq⟩ : ∃ h7, (kvmemFromPtr h q).store h6 pX = h7 := ⟨_, rfl⟩
  rw [h7eq] at hstore hframe
  rw [hdef, h7eq]
  have h7of : ∀ x ∈ (plug (.node .nil pX s) lctx).toList, x ≠ pX → h7 x = h3.1 x := by
    intro x hx hxX
    rw [hframe x (hrout x hx), h6of x hxX (by rintro rfl; exact htr _ hbn hx)]
  have h7X : h7 pX = ((h3.1 pX).setChild .before b).setUp (upOf 0 ctx) := by
    rw [hframe pX (hrout pX hXm), h6X]
  have hs7 : Linked h7 (upOf pX lctx) s r' := hdet.linked.congr fun x hx =>
    h7of x (hsm x hx) (by rintro rfl; exact hXs hx)
  have hl7 : LinkedCtx h7 pX lctx r' := hdet.around.congr fun x hx =>
    h7of x (hlm x hx) (by rintro rfl; exact hXl _ (by simp [toList]) hx)
  have hall : LinkedCtx h7 0 (lctx ++ ⟨.after, pX, t⟩ :: ctx) r' := by
    rw [linkedCtx_append]
    refine ⟨hl7, hX0, ?_, ?_, ?_, hstore⟩
    · rw [h7X]
      exact hdet.root
    · rw [h7X]
      rfl
    · rw [h7X]
      exact ht6.congr fun x hx => hframe x (htout x hx)
  have hassoc : ∀ (u : BinTree Ptr) (a : Ptr), plug (.node t a (plug u lctx)) ctx =
      plug u (lctx ++ ⟨.after, a, t⟩ :: ctx) := fun u a => by
    rw [plug_append]
    rfl
  rw [hassoc] at hbal
  obtain ⟨hXbal, hfits⟩ := balanced_plug.mp hbal
  have hlist : (plug (.node t pX (plug s lctx)) ctx).toList =
      ((plug (.node t q (plug (.node .nil pX s) lctx)) ctx).toList).erase q := by
    rw [erase_plug hnodup, toList_first hside, toList_plug]
    rfl
  have hnodup' : (plug (.node t pX (plug s lctx)) ctx).toList.Nodup := by
    rw [hlist]
    exact hnodup.sublist List.erase_sublist
  have hheight : (node nil pX s).height = s.height + 1 := by simp [height]
  rw [hheight] at hfits
  rw [hassoc] at hnodup'
  have hresult := kvmemBalance_parent (n := n) (u := s) (by rw [upOf_append]; exact hs7) hXbal.2.2
    hall hnodup' (k := s.height + 1) (by omega) (fits_relabel pX hfits) (by simp) (by
      rw [List.length_append, List.length_cons]
      omega)
  rw [upOf_append, ← hassoc] at hresult
  refine ⟨_, hlist, hresult, fun x hx => ?_⟩
  rw [mem_plug, not_or] at hx
  have hxr : x ∉ (plug (.node .nil pX s) lctx).toList := fun hm =>
    hx.1 (mem_mk (d := .before).mpr (Or.inr (Or.inr hm)))
  have hxt : x ∉ t.toList := fun hm => hx.1 (mem_mk (d := .before).mpr (Or.inl hm))
  show h7 x = h x
  rw [hframe x hx.2, h6of x (by rintro rfl; exact hxr hXm) (by rintro rfl; exact hxt hbn),
    hdet.frame x hxr]

/-- `kvmemRemoveNode` leaves a balanced tree of the other nodes. -/
theorem removeLinks_spec (hl : Linked h 0 t r) (hbal : t.Balanced) (hnodup : t.toList.Nodup)
    (hp : p ∈ t.toList) (hn : t.toList.length ≤ n) :
    ∃ u, Linked (removeLinks n h p).1 0 u (removeLinks n h p).2 ∧ u.Balanced ∧
      u.toList = t.toList.erase p ∧ ∀ q, q ∉ t.toList → (removeLinks n h p).1 q = h q := by
  obtain ⟨b, a, ctx, rfl⟩ := exists_plug hp
  have hlen := (perm_plug (.node b p a) ctx).length_eq
  rw [List.length_append, toList, List.length_append, List.length_cons] at hlen
  have haround := length_le_around ctx
  have hloose : Loose n h (unlink n h p).1 (unlink n h p).2 p
      (plug (.node b p a) ctx).toList := by
    by_cases hb : b = .nil
    · subst hb
      by_cases ha : a = .nil
      · subst ha
        exact unlink_leaf hl hbal hnodup (by omega)
      · exact unlink_single (d := .after) ha hl hbal hnodup (by omega)
    · by_cases ha : a = .nil
      · subst ha
        exact unlink_single (d := .before) hb hl hbal hnodup (by omega)
      · obtain ⟨q, ⟨rfl, -, -, -, hafter, -, -⟩, -, -⟩ := hl.unplug
        obtain ⟨lctx, s, heq, hside⟩ := kvmemFirst_spec (n := n) hafter ha (by omega)
        have hlen' := (perm_plug (.node .nil (kvmemFirst n h (h q).pAfter) s) lctx).length_eq
        have haround' := length_le_around lctx
        rw [← heq, List.length_append, toList, List.length_append, List.length_cons] at hlen'
        rw [heq] at hl hbal hnodup ⊢
        exact unlink_double hb hl hbal hnodup rfl hside (by omega)
  obtain ⟨v, hlist, ⟨u, hu, hub, hul, huf⟩, hframe⟩ := hloose
  refine ⟨u, hu, hub, hul.trans hlist, fun q hq => ?_⟩
  have hqv : q ∉ v.toList := by
    rw [hlist]
    exact fun hm => hq (List.mem_of_mem_erase hm)
  show (kvmemBalance n (unlink n h p).1 (unlink n h p).2).1 q = h q
  rw [huf q hqv, hframe q hq]

end KvMem

end MoVeBench
