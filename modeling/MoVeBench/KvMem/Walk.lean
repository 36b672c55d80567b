/-
MoVeBench/KvMem/Walk.lean

Walking through the tree in the order of its nodes.

`kvmemNext` and `kvmemPrev` first climb as long as they come from their own side and then go down to
the end of a subtree.  From a node of the tree they lead to the next one on that side, or nowhere
(`kvmemStep_spec`), and their loop in `kvmemNextEntry` and `kvmemPrevEntry` to the next one that is
not deleted (`skipDeleted_spec`).
-/
import MoVeBench.KvMem.Cursors

namespace MoVeBench

namespace KvMem

open AvlTree AvlTree.BinTree
open Lsm (Bytes)

variable {h : Heap} {up p q r x : Ptr} {t s : BinTree Ptr} {d : Side} {ctx : List (Frame Ptr)}
  {n : ℕ}

/-! ### One step -/

theorem Linked.root_ne (hl : Linked h up t r) (ht : t ≠ .nil) : r ≠ 0 := by
  rcases hl.root with ⟨hnil, -⟩ | hm
  · exact absurd hnil ht
  · exact hl.nonzero r hm

/-- `kvmemFirst` and `kvmemLast` lead to the end of a tree. -/
theorem kvmemEnd_spec (hl : Linked h up s r) (hn : s.toList.length ≤ n) :
    kvmemEnd d.other n h r = ((listTo d s).head?).getD 0 := by
  induction n generalizing s up r with
  | zero =>
      have hnil : s = .nil := by
        cases s with
        | nil => rfl
        | node l x u => simp [toList] at hn
      subst hnil
      obtain rfl : r = 0 := hl
      cases d <;> rfl
  | succ n ih =>
      by_cases hs : s = .nil
      · subst hs
        obtain rfl : r = 0 := hl
        rw [kvmemEnd, if_neg (by simp)]
        cases d <;> rfl
      · obtain ⟨u, x, v, rfl⟩ := exists_mk d hs
        obtain ⟨rfl, hx, -, -, hv, -, -⟩ := linked_mk.mp hl
        rw [listTo_mk, kvmemEnd]
        by_cases hnil : v = .nil
        · subst hnil
          have hzero : (h r).child d.other = 0 := hv
          rw [if_neg fun hif => hif.2 hzero]
          cases d <;> rfl
        · rw [if_pos ⟨hx, hv.root_ne hnil⟩, ih hv ?_]
          · have hne : listTo d v ≠ [] := by
              intro he
              have hm := hv.root.resolve_left fun hr => hnil hr.1
              rw [← mem_listTo (d := d), he] at hm
              exact List.not_mem_nil hm
            rw [List.head?_append_of_ne_nil _ hne]
          · have hlen := length_listTo d (mk d u r v)
            rw [listTo_mk, List.length_append, List.length_cons, length_listTo] at hlen
            omega

/-- The climb from a hole ends above the first node behind it. -/
theorem climb_spec (hc : LinkedCtx h 0 ctx q) (hq : q ≠ 0) (hout : q ∉ around ctx)
    (hnodup : (around ctx).Nodup) (hn : ctx.length ≤ n) :
    ∃ y, climb d n h q (upOf 0 ctx) = (y, ((onward d ctx).head?).getD 0) ∧ y ≠ 0 := by
  induction ctx generalizing q n with
  | nil =>
      refine ⟨q, ?_, hq⟩
      cases n with
      | zero => rfl
      | succ n => exact if_neg (by simp [upOf])
  | cons f ctx ih =>
      obtain ⟨h0, hchild, hup, hsib, hrest⟩ := hc
      obtain ⟨n, rfl⟩ : ∃ m, n = m + 1 := ⟨n - 1, by rw [List.length_cons] at hn; omega⟩
      rw [around_cons, List.mem_cons, List.mem_append, not_or, not_or] at hout
      rw [around_cons, List.nodup_cons, List.mem_append, not_or] at hnodup
      show ∃ y, climb d (n + 1) h q f.label = _ ∧ _
      rw [climb, onward]
      by_cases hside : f.side = d
      · rw [if_pos ⟨h0, by rw [← hside]; exact hchild⟩, hup, if_pos hside]
        exact ih hrest h0 hnodup.1.2 (List.nodup_append.mp hnodup.2).2.1
          (by rw [List.length_cons] at hn; omega)
      · obtain hd : d = f.side.other := by
          cases hf : f.side <;> cases d <;> simp_all [Side.other]
        rw [if_neg, if_neg hside]
        · exact ⟨q, rfl, hq⟩
        · rintro ⟨-, heq⟩
          rw [hd] at heq
          rcases hsib.root with ⟨-, hroot⟩ | hroot
          · exact hq (heq.symm.trans hroot)
          · exact hout.2.1 (heq ▸ hroot)

/-- From a node of the tree one step leads to the next one, or nowhere. -/
theorem kvmemStep_spec {l l' : List Ptr} (hl : Linked h 0 t r) (hnodup : t.toList.Nodup)
    (hn : t.toList.length ≤ n) (hsplit : listTo d t = l ++ x :: l') :
    kvmemStep d n h x = (l'.head?).getD 0 := by
  obtain ⟨v, w, ctx, rfl⟩ : ∃ v w ctx, t = plug (mk d v x w) ctx := by
    have hx : x ∈ t.toList := by
      rw [← mem_listTo (d := d), hsplit]
      simp
    obtain ⟨v, w, ctx, rfl⟩ := exists_plug hx
    cases d
    · exact ⟨v, w, ctx, rfl⟩
    · exact ⟨w, v, ctx, rfl⟩
  obtain ⟨q, hmk, hc, -⟩ := hl.unplug
  obtain ⟨rfl, hx, hup, hv, hw, -, -⟩ := linked_mk.mp hmk
  have hrest : l' = listTo d v ++ onward d ctx := by
    obtain ⟨l1, hl1⟩ := listTo_plug d (mk d v q w) ctx
    have hn' := nodup_listTo (d := d).mpr hnodup
    rw [listTo_mk, List.append_assoc, List.append_assoc, List.cons_append, ← List.append_assoc,
      hsplit] at hl1
    rw [hsplit] at hn'
    obtain ⟨hnot, -⟩ := List.nodup_cons.mp (List.nodup_middle.mp hn')
    rw [List.mem_append, not_or] at hnot
    exact ((List.append_cons_inj_of_notMem hnot.1 hnot.2).mp hl1).2.2
  obtain ⟨-, haround, hout⟩ := nodup_plug.mp hnodup
  have hqout : q ∉ around ctx := hout q (mem_mk.mpr (Or.inr (Or.inl rfl)))
  have hlen := (perm_plug (mk d v q w) ctx).length_eq
  have hlen' := length_listTo d (mk d v q w)
  rw [listTo_mk, List.length_append, List.length_cons, length_listTo, length_listTo] at hlen'
  rw [List.length_append, ← hlen'] at hlen
  have hctx := length_le_around ctx
  obtain ⟨n, rfl⟩ : ∃ m, n = m + 1 := ⟨n - 1, by omega⟩
  rw [kvmemStep, climb, hrest]
  by_cases hnil : v = .nil
  · subst hnil
    have hzero : (h q).child d = 0 := hv
    obtain ⟨y, hy, hy0⟩ := climb_spec (d := d) hc hx hqout haround (show ctx.length ≤ n by omega)
    rw [if_pos ⟨hx, hzero⟩, hup, hy]
    simp only [hy0, and_false, if_false]
    cases d <;> rfl
  · have hne : (h q).child d ≠ 0 := hv.root_ne hnil
    rw [if_neg fun hif => hne hif.2]
    simp only [hx, ne_eq, not_false_eq_true, true_and, if_true]
    rw [kvmemEnd_spec hv (by omega)]
    have hne' : listTo d v ≠ [] := by
      intro he
      have hm := hv.root.resolve_left fun hr => hnil hr.1
      rw [← mem_listTo (d := d), he] at hm
      exact List.not_mem_nil hm
    rw [List.head?_append_of_ne_nil _ hne']

/-! ### Over the deleted nodes -/

/-- The loop of `kvmemNextEntry` and `kvmemPrevEntry` leads to the next node with content. -/
theorem skipDeleted_spec {p : KVMem} {l l' : List Ptr} (hs : Shaped p t 0)
    (hsplit : listTo d t = l ++ x :: l') (hn : l'.length < n) :
    skipDeleted (kvmemStep d) n p x =
      (l'.find? fun y => (p.rows y).pData.isSome).getD 0 := by
  induction l' generalizing l x n with
  | nil =>
      obtain ⟨n, rfl⟩ : ∃ m, n = m + 1 := ⟨n - 1, by omega⟩
      have hstep := kvmemStep_spec hs.linked hs.nodup hs.length_lt.le hsplit
      rw [skipDeleted, hstep]
      exact if_neg fun hif => hif.1 rfl
  | cons y l' ih =>
      obtain ⟨n, rfl⟩ : ∃ m, n = m + 1 := ⟨n - 1, by rw [List.length_cons] at hn; omega⟩
      have hstep := kvmemStep_spec hs.linked hs.nodup hs.length_lt.le hsplit
      have hy0 : y ≠ 0 := hs.nonzero (mem_listTo.mp (hsplit ▸ by simp : y ∈ listTo d t))
      rw [skipDeleted, hstep]
      show (if y ≠ 0 ∧ (p.rows y).pData = none then skipDeleted (kvmemStep d) n p y else y) = _
      rw [List.find?_cons]
      rcases hd : (p.rows y).pData with - | e
      · rw [if_pos ⟨hy0, rfl⟩]
        exact ih (l := l ++ [x]) (by rw [hsplit, List.append_assoc]; rfl)
          (by rw [List.length_cons] at hn; omega)
      · exact if_neg (by simp)

end KvMem

end MoVeBench
