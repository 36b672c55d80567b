/-
MoVeBench/KvMem/Close.lean

Closing the store.

`kvmemClose` commits what is open and gives back the nodes of the tree.  A node lives as long as the
tree or a cursor refers to it, so after the last cursor has been closed every node that was ever
allocated has been freed, and none of them twice (`kvmemClose_frees`).
-/
import MoVeBench.KvMem.Run

namespace MoVeBench

namespace KvMem

open AvlTree AvlTree.BinTree UndoLog Runs
open Lsm (Bytes)

/-! ### The calls -/

/-- `kvmemClearTree`; the first argument bounds the depth. -/
def kvmemClearTree : ℕ → KVMem → Ptr → KVMem
  | 0, p, _ => p
  | n + 1, p, pNode =>
      if pNode = 0 then p
      else
        let p := kvmemClearTree n p (p.links pNode).pBefore
        let p := kvmemClearTree n p (p.links pNode).pAfter
        kvmemNodeUnref p pNode

/-- `kvmemClose`, for the nodes. -/
def kvmemClose (p : KVMem) : KVMem :=
  let p := if p.iTransLevel ≠ 0 then kvmemCommitPhaseTwo p 0 else p
  kvmemClearTree p.pFresh p p.pRoot

variable {p p' : KVMem} {t t' : BinTree Ptr} {x : Ptr} {n : ℕ} {s : Session}

/-! ### Cursors in a commit -/

theorem unref_cursors (p : KVMem) (x : Ptr) : (kvmemNodeUnref p x).cursors = p.cursors := by
  rw [kvmemNodeUnref]
  dsimp only
  split_ifs <;> rfl

theorem commitRecord_cursors (p : KVMem) (c : KVMemChng) :
    (commitRecord p c).cursors = p.cursors := by
  rw [commitRecord]
  split_ifs
  · rfl
  · exact unref_cursors _ _

theorem closeLog_cursors {f : KVMem → KVMemChng → KVMem}
    (hf : ∀ p c, (f p c).cursors = p.cursors) (i : ℕ) (log : List KVMemChng) (p : KVMem) :
    (closeLog f i log p).cursors = p.cursors := by
  induction log generalizing p with
  | nil => rfl
  | cons c log ih => rw [closeLog, ih, hf]; rfl

/-- A final commit leaves the cursors alone. -/
theorem commitLoop_cursors {iLevel : ℕ} (hlow : iLevel < 2) (n : ℕ) (p : KVMem) :
    (commitLoop iLevel n p).cursors = p.cursors := by
  induction n generalizing p with
  | zero => rfl
  | succ n ih =>
      rw [commitLoop]
      split_ifs
      · rw [ih]
        exact closeLog_cursors commitRecord_cursors _ _ _
      · rfl

/-! ### Clearing the tree -/

/-- Only the tree refers to its nodes. -/
structure Single (p : KVMem) (t : BinTree Ptr) : Prop where
  one : ∀ x ∈ t.toList, (p.rows x).nRef = 1 ∧ x ∉ p.freed
  records : p.records = []
  cursors : ∀ c ∈ p.cursors, c.pNode = 0
  good : p.badFree = false

/-- What clearing a tree changes. -/
structure Cleared (p p' : KVMem) (l : List Ptr) : Prop where
  links : p'.links = p.links
  records : p'.records = p.records
  cursors : p'.cursors = p.cursors
  good : p'.badFree = false
  rows : ∀ x ∉ l, p'.rows x = p.rows x
  freed : p'.freed.Perm (l ++ p.freed)

theorem Single.mono (hs : Single p t) (h : ∀ x ∈ t'.toList, x ∈ t.toList) : Single p t' :=
  ⟨fun x hx => hs.one x (h x hx), hs.records, hs.cursors, hs.good⟩

theorem Cleared.trans {p'' : KVMem} {l l' : List Ptr} (h : Cleared p p' l)
    (h' : Cleared p' p'' l') :
    Cleared p p'' (l ++ l') := by
  refine ⟨h'.links.trans h.links, h'.records.trans h.records, h'.cursors.trans h.cursors, h'.good,
    fun x hx => ?_, h'.freed.trans ((h.freed.append_left l').trans ?_)⟩
  · rw [List.mem_append, not_or] at hx
    exact (h'.rows x hx.2).trans (h.rows x hx.1)
  · rw [List.append_assoc]
    exact List.perm_append_comm_assoc l' l p.freed

/-- The nodes that have not been cleared still have their reference. -/
theorem Single.cleared {l : List Ptr} (hs : Single p t) (h : Cleared p p' l)
    (hsub : ∀ x ∈ t'.toList, x ∈ t.toList ∧ x ∉ l) : Single p' t' := by
  refine ⟨fun x hx => ?_, h.records.trans hs.records, h.cursors.symm ▸ hs.cursors, h.good⟩
  obtain ⟨hx, hxl⟩ := hsub x hx
  obtain ⟨hone, hfree⟩ := hs.one x hx
  rw [h.rows x hxl, h.freed.mem_iff, List.mem_append, not_or]
  exact ⟨hone, hxl, hfree⟩

theorem Single.unref (hs : Single p t) (hx : x ∈ t.toList) (h0 : x ≠ 0) :
    Cleared p (kvmemNodeUnref p x) [x] := by
  obtain ⟨hone, hfree⟩ := hs.one x hx
  obtain ⟨q, hq⟩ : ∃ q, (p.setRow x fun r => { r with nRef := toShort (r.nRef - 1) }) = q :=
    ⟨_, rfl⟩
  have hle : (q.rows x).nRef ≤ 0 := by
    rw [← hq, KVMem.setRow_same]
    show toShort ((p.rows x).nRef - 1) ≤ 0
    rw [hone]
    decide
  have hlinks : q.links = p.links := by rw [← hq]; rfl
  have hrecords : q.records = p.records := by rw [← hq]; rfl
  have hcursors : q.cursors = p.cursors := by rw [← hq]; rfl
  have hfreed : q.freed = p.freed := by rw [← hq]; rfl
  have hgood : q.badFree = p.badFree := by rw [← hq]; rfl
  have hrefers : q.refersTo x = false := by
    rw [KVMem.refersTo, hrecords, hcursors, hs.records, List.any_nil, Bool.false_or,
      List.any_eq_false]
    intro c hc hcx
    exact h0 ((beq_iff_eq.mp hcx).symm.trans (hs.cursors c hc))
  have hcontains : q.freed.contains x = false := by
    rw [hfreed]
    simpa using hfree
  rw [kvmemNodeUnref, if_neg h0]
  simp only [hq]
  rw [if_pos hle, hrefers, hcontains]
  refine ⟨hlinks, hrecords, hcursors, ?_, fun y hy => ?_, ?_⟩
  · show ((q.badFree || false) || false) = false
    rw [hgood, hs.good]
    rfl
  · rw [List.mem_singleton] at hy
    show q.rows y = p.rows y
    rw [← hq, KVMem.setRow_ne _ _ hy]
  · show (x :: q.freed).Perm _
    rw [hfreed]
    exact List.Perm.refl _

/-- **`kvmemClearTree`** frees the nodes of the tree. -/
theorem clearTree_spec {up r : Ptr} (hl : Linked p.links up t r) (hnodup : t.toList.Nodup)
    (hs : Single p t) (hn : t.toList.length ≤ n) :
    Cleared p (kvmemClearTree n p r) t.toList := by
  induction t generalizing p up r n with
  | nil =>
      obtain rfl : r = 0 := hl
      have hclear : kvmemClearTree n p 0 = p := by
        cases n with
        | zero => rfl
        | succ n => exact if_pos rfl
      rw [hclear]
      exact ⟨rfl, rfl, rfl, hs.good, fun _ _ => rfl, List.Perm.refl _⟩
  | node l x u ihl ihu =>
      obtain ⟨rfl, h0, -, hlb, hla, -, -⟩ := hl
      rw [toList] at hnodup hn ⊢
      rw [List.length_append, List.length_cons] at hn
      obtain ⟨n, rfl⟩ : ∃ m, n = m + 1 := ⟨n - 1, by omega⟩
      obtain ⟨hnl, hnu, hdisj⟩ := List.nodup_append.mp hnodup
      obtain ⟨hru, hnu⟩ := List.nodup_cons.mp hnu
      have hmem : ∀ y, y ∈ l.toList ∨ y = r ∨ y ∈ u.toList → y ∈ (node l r u).toList :=
        fun y hy => mem_mk (d := .before).mpr hy
      -- the left subtree, the right one, the node
      have h1 := ihl hlb hnl (hs.mono fun y hy => hmem y (Or.inl hy)) (by omega : _ ≤ n)
      obtain ⟨p1, hp1⟩ : ∃ p1, kvmemClearTree n p (p.links r).pBefore = p1 := ⟨_, rfl⟩
      rw [hp1] at h1
      have hs1 : Single p1 (node .nil r u) := hs.cleared h1 fun y hy =>
        ⟨hmem y (Or.inr (List.mem_cons.mp hy)), fun hyl => hdisj y hyl y hy rfl⟩
      have hla1 : Linked p1.links r u (p.links r).pAfter := by
        rw [h1.links]
        exact hla
      have h2 := ihu hla1 hnu
        (hs1.mono fun y hy => List.mem_cons_of_mem _ hy) (by omega : _ ≤ n)
      obtain ⟨p2, hp2⟩ : ∃ p2, kvmemClearTree n p1 (p.links r).pAfter = p2 := ⟨_, rfl⟩
      rw [hp2] at h2
      have hs2 : Single p2 (node .nil r .nil) := hs1.cleared h2 fun y hy => by
        obtain rfl : y = r := by simpa [toList] using hy
        exact ⟨List.mem_cons_self, hru⟩
      have h3 := hs2.unref (x := r) List.mem_cons_self h0
      rw [kvmemClearTree, if_neg h0]
      simp only [hp1, h1.links, hp2]
      have h := (h1.trans h2).trans h3
      have hperm : (l.toList ++ u.toList ++ [r]).Perm (l.toList ++ r :: u.toList) := by
        rw [List.append_assoc]
        exact (List.perm_append_singleton r u.toList).append_left _
      exact ⟨h.links, h.records, h.cursors, h.good, fun y hy => h.rows y fun hm =>
        hy (hperm.mem_iff.mp hm), h.freed.trans (hperm.append_right _)⟩

/-! ### Closing -/

/-- What is open is committed first. -/
theorem closing_spec (hs : Sound p t) (honce : DeletedOnce p) :
    ∃ t', let q := if p.iTransLevel ≠ 0 then kvmemCommitPhaseTwo p 0 else p
      Sound q t' ∧ q.pFresh = p.pFresh ∧ q.cursors = p.cursors ∧ q.iTransLevel = 0 := by
  split_ifs with h0
  · obtain ⟨t', h1, h2, -⟩ := committed_spec hs Nat.two_pos (Nat.zero_le _) honce
    exact ⟨t', h1, h2.pFresh, commitLoop_cursors Nat.two_pos _ p, rfl⟩
  · exact ⟨t, hs, rfl, rfl, not_not.mp h0⟩

/-- Without cursors and records only the tree refers to nodes. -/
theorem Sound.single (hs : Sound p t) (hclosed : ∀ c ∈ p.cursors, c.pNode = 0)
    (h0 : p.iTransLevel = 0) : Single p t ∧ ∀ x ≠ 0, p.refs x = 0 := by
  have hrefs : ∀ x ≠ 0, p.refs x = 0 := by
    intro x hx
    rw [KVMem.refs, List.countP_eq_zero]
    intro c hc hcx
    exact hx ((beq_iff_eq.mp hcx).symm.trans (hclosed c hc))
  refine ⟨⟨fun x hx => ?_, ?_, hclosed, hs.shaped.good⟩, hrefs⟩
  · have hx0 := hs.shaped.nonzero hx
    obtain ⟨hlt, hfree⟩ := hs.shaped.inTree x hx
    have hcount := hs.shaped.count x hx0 hlt hfree
    rw [if_pos hx, hrefs x hx0, if_neg hx0] at hcount
    exact ⟨hcount, hfree⟩
  · rw [KVMem.records, h0]
    rfl

/-- **Every node is freed once**: when the last cursor has been closed, `kvmemClose` leaves no node
behind and frees none of them again. -/
theorem kvmemClose_frees (hrun : FittingRun s) (hclosed : ∀ c ∈ s.store.cursors, c.pNode = 0)
    (honce : DeletedOnce s.store) :
    (kvmemClose s.store).badFree = false ∧ (kvmemClose s.store).freed.Nodup ∧
      ∀ x, x ≠ 0 → (x ∈ (kvmemClose s.store).freed ↔ x < s.store.pFresh) := by
  obtain ⟨t, hk⟩ := hrun.kept
  obtain ⟨t', hs, hfresh, hcursors, hlevel⟩ := closing_spec hk.sound honce
  obtain ⟨q, hq⟩ : ∃ q, (if s.store.iTransLevel ≠ 0 then kvmemCommitPhaseTwo s.store 0
      else s.store) = q := ⟨_, rfl⟩
  simp only [hq] at hs hfresh hcursors hlevel
  obtain ⟨hsingle, hrefs⟩ := hs.single (hcursors ▸ hclosed) hlevel
  have h := clearTree_spec hs.shaped.linked hs.shaped.nodup hsingle hs.shaped.length_lt.le
  rw [kvmemClose, hq]
  refine ⟨h.good, ?_, fun x hx => ?_⟩
  · rw [h.freed.nodup_iff, List.nodup_append]
    exact ⟨hs.shaped.nodup, hs.shaped.freed.1, fun y hy z hz heq =>
      (hs.shaped.inTree y hy).2 (heq ▸ hz)⟩
  · rw [h.freed.mem_iff, List.mem_append, ← hfresh]
    constructor
    · rintro (hxt | hxf)
      · exact (hs.shaped.inTree x hxt).1
      · exact hs.shaped.freed.2 x hxf
    · intro hlt
      by_contra hno
      rw [not_or] at hno
      rcases hs.shaped.held x hx hlt hno.2 with hxt | hpos | h0
      · exact hno.1 hxt
      · exact Nat.lt_irrefl 0 (hrefs x hx ▸ hpos)
      · exact hx h0

/-- A row has been written and deleted, another one is left. -/
theorem kvmemClose_frees_both : ∃ s, FittingRun s ∧ s.store.freed = [] ∧
    (kvmemClose s.store).freed.Nodup ∧ (kvmemClose s.store).freed.length = 2 := by
  have hrun := reach_calls (C := fun s c => Allowed s.store c ∧ Fitting s.store c) (.init rfl)
    [.begin 2 true, .replace [1] [7] fun _ => true, .replace [3] [8] fun _ => true,
      .openCursor true, .seek 0 [3] 0, .delete 0 true, .reset 0] (by decide +kernel)
  exact ⟨_, hrun, by decide +kernel,
    (kvmemClose_frees hrun (by decide +kernel) (by decide +kernel)).2.1, by decide +kernel⟩

end KvMem

end MoVeBench
