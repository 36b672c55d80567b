/-
MoVeBench/KvMem/Cursors.lean

Cursors and deleting through them.

A cursor holds a reference to its node, which may have been taken out of the tree; it goes on only
from a node of the tree.  Moving a cursor changes the references and nothing else (`Quiet`).
-/
import MoVeBench.KvMem.Writes

namespace MoVeBench

namespace KvMem

open AvlTree AvlTree.BinTree UndoLog
open Lsm (Bytes)

variable {p p' p'' : KVMem} {t : BinTree Ptr} {x : Ptr} {i n : ℕ} {aKey : Bytes}

/-! ### References of cursors -/

/-- A call that moves a cursor. -/
structure Moved (p p' : KVMem) (t : BinTree Ptr) : Prop where
  sound : Sound p' t
  quiet : Quiet p p'
  length : p'.cursors.length = p.cursors.length

theorem Moved.trans (h : Moved p p' t) (h' : Moved p' p'' t) : Moved p p'' t :=
  ⟨h'.sound, h.quiet.trans h'.quiet, h'.length.trans h.length⟩

theorem Quiet.restored (hq : Quiet p p') (k : ℕ) : restored p' t k = restored p t k := by
  rw [KvMem.restored, KvMem.restored, hq.apLog, hq.iTransLevel, hq.view]

theorem Quiet.sound (hq : Quiet p p') (hs : Sound p t) (hs' : Shaped p' t 0) : Sound p' t := by
  refine ⟨hs', ?_, hq.iTransLevel ▸ hs.level⟩
  rw [LogsNested, hq.apLog, hq.iTransLevel, hq.view]
  exact hs.nested

/-- The references after a cursor has been set. -/
theorem refs_setCursor (c : KVMemCursor) (hi : i < p.cursors.length) (x : Ptr) :
    (p.setCursor i c).refs x + (if (p.cursor i).pNode = x then 1 else 0) =
      p.refs x + if c.pNode = x then 1 else 0 := by
  have hget : p.cursor i = p.cursors[i] := by
    simp [KVMem.cursor, hi]
  have hle : (if (p.cursors[i].pNode == x) = true then 1 else 0) ≤
      p.cursors.countP (·.pNode == x) := by
    split_ifs with h
    · exact List.countP_pos_iff.mpr ⟨_, List.getElem_mem hi, h⟩
    · exact Nat.zero_le _
  have hset := List.countP_set (p := fun c : KVMemCursor => c.pNode == x) (a := c) hi
  have hrefs : (p.setCursor i c).refs x = (p.cursors.set i c).countP (·.pNode == x) := rfl
  rw [hrefs, hset, hget, KVMem.refs]
  simp only [beq_iff_eq] at hle ⊢
  omega

theorem quiet_setCursor (c : KVMemCursor) : Quiet p (p.setCursor i c) :=
  ⟨rfl, rfl, rfl, rfl, rfl, fun _ => rfl, fun _ => rfl, fun _ => rfl⟩

theorem cursor_mem (hi : i < p.cursors.length) : p.cursor i ∈ p.cursors := by
  have hget : p.cursor i = p.cursors[i] := by
    simp [KVMem.cursor, hi]
  rw [hget]
  exact List.getElem_mem hi

/-- A cursor lets go of its node, which is then to be given back. -/
theorem Shaped.letGo (hs : Shaped p t 0) (i : ℕ) :
    Shaped (p.setCursor i ⟨0, none⟩) t (p.cursor i).pNode := by
  by_cases hi : i < p.cursors.length
  · refine ⟨⟨hs.linked, hs.balanced, hs.sorted, hs.fresh, hs.inTree, hs.gone, hs.freed,
      fun c hc hc0 => ?_, ?_, fun x hx0 hx hxf => ?_, hs.good⟩, fun x hx0 hx hxf => ?_⟩
    · rcases List.mem_or_eq_of_mem_set hc with hc | rfl
      · exact hs.cursors c hc hc0
      · exact absurd rfl hc0
    · show (p.cursors.set i _).length ≤ 32766
      rw [List.length_set]
      exact hs.few
    · have hrefs := refs_setCursor (p := p) ⟨0, none⟩ hi x
      have hcount := hs.count x hx0 hx hxf
      rw [if_neg hx0, add_zero] at hcount
      rw [if_neg (Ne.symm hx0), Nat.add_zero] at hrefs
      show (p.rows x).nRef = _
      rw [hcount, ← hrefs]
      simp only [eq_comm (a := x), Int.natCast_add, add_assoc]
      congr 2
      split_ifs <;> rfl
    · have hrefs := refs_setCursor (p := p) ⟨0, none⟩ hi x
      rw [if_neg (Ne.symm hx0), Nat.add_zero] at hrefs
      refine (hs.held x hx0 hx hxf).imp_right fun h => ?_
      have hpos : 0 < p.refs x := h.resolve_right hx0
      by_cases hxc : x = (p.cursor i).pNode
      · exact Or.inr hxc
      · rw [if_neg (Ne.symm hxc), Nat.add_zero] at hrefs
        exact Or.inl (hrefs ▸ hpos)
  · have hset : p.setCursor i ⟨0, none⟩ = p := by
      rw [KVMem.setCursor, List.set_eq_of_length_le (Nat.le_of_not_lt hi)]
    have hcur : p.cursor i = ⟨0, none⟩ := by
      simp [KVMem.cursor, Nat.le_of_not_lt hi]
    rw [hset, hcur]
    exact hs

theorem reset_spec (hs : Sound p t) (i : ℕ) : Moved p (kvmemReset p i) t ∧
    (kvmemReset p i).cursors = p.cursors.set i ⟨0, none⟩ := by
  have hletGo := hs.shaped.letGo i
  have hcur : (p.cursor i).pNode ≠ 0 →
      (p.cursor i).pNode < p.pFresh ∧ (p.cursor i).pNode ∉ p.freed := by
    intro h0
    by_cases hi : i < p.cursors.length
    · exact hs.shaped.cursors _ (cursor_mem hi) h0
    · have hnone : p.cursor i = ⟨0, none⟩ := by simp [KVMem.cursor, Nat.le_of_not_lt hi]
      rw [hnone] at h0
      exact absurd rfl h0
  obtain ⟨h1, h2, h3⟩ := unref_spec hletGo hcur fun hx c hc heq => hx (heq ▸ hs.recorded c hc)
  have hquiet := (quiet_setCursor (p := p) (i := i) ⟨0, none⟩).trans h2
  refine ⟨⟨hquiet.sound hs h1, hquiet, ?_⟩, h3⟩
  show (kvmemNodeUnref _ _).cursors.length = _
  rw [h3]
  exact List.length_set

/-- A cursor that is reset is pointed at a node of the tree. -/
theorem pointAt_spec (hs : Sound p t) (hx : x ∈ t.toList) (hi : i < p.cursors.length)
    (hreset : (p.cursor i).pNode = 0) : Moved p (pointAt p i x) t ∧
      (pointAt p i x).cursors = p.cursors.set i ⟨x, (p.rows x).pData⟩ := by
  have hx0 := hs.shaped.nonzero hx
  obtain ⟨hxlt, hxf⟩ := hs.shaped.inTree x hx
  have hcount := hs.shaped.count x hx0 hxlt hxf
  rw [if_pos hx, if_neg hx0, add_zero] at hcount
  have hfew := hs.shaped.few
  have hrefs : ∀ y, y ≠ 0 → (p.setCursor i ⟨x, (p.rows x).pData⟩).refs y =
      p.refs y + if x = y then 1 else 0 := by
    intro y hy
    have h := refs_setCursor (p := p) ⟨x, (p.rows x).pData⟩ hi y
    rw [hreset, if_neg (Ne.symm hy)] at h
    exact h
  have hbound : p.refs x + 1 ≤ 32766 := by
    have h1 := hrefs x hx0
    have h2 := (p.setCursor i ⟨x, (p.rows x).pData⟩).refs_le x
    have h3 : (p.setCursor i ⟨x, (p.rows x).pData⟩).cursors.length = p.cursors.length :=
      List.length_set
    rw [if_pos rfl] at h1
    omega
  obtain ⟨q, hq⟩ : ∃ q, p.setRow x (fun r => { r with nRef := toShort (r.nRef + 1) }) = q := ⟨_, rfl⟩
  have hdef : pointAt p i x = q.setCursor i ⟨x, (p.rows x).pData⟩ := by
    rw [pointAt, kvmemNodeRef, if_neg hx0, hq]
  have hquiet : Quiet p q := by
    rw [← hq]
    exact quiet_setRow _ fun r => ⟨rfl, rfl, rfl⟩
  have hqx : (q.rows x).nRef = 1 + p.refs x + 1 := by
    rw [← hq, KVMem.setRow_same]
    simp only [hcount]
    rw [toShort_eq] <;> omega
  have hqne : ∀ y, y ≠ x → q.rows y = p.rows y := by
    intro y hy
    rw [← hq, KVMem.setRow_ne _ _ hy]
  have hqf : q.freed = p.freed := by rw [← hq]; rfl
  have hqc : q.cursors = p.cursors := by rw [← hq]; rfl
  have hqb : q.badFree = p.badFree := by rw [← hq]; rfl
  have hcursors : (q.setCursor i ⟨x, (p.rows x).pData⟩).cursors =
      p.cursors.set i ⟨x, (p.rows x).pData⟩ := by
    rw [← hqc]
    rfl
  have hrefsy : ∀ y, (q.setCursor i ⟨x, (p.rows x).pData⟩).refs y =
      (p.setCursor i ⟨x, (p.rows x).pData⟩).refs y := by
    intro y
    rw [KVMem.refs, hcursors]
    rfl
  have hquiet' := hquiet.trans (quiet_setCursor (p := q) (i := i) ⟨x, (p.rows x).pData⟩)
  rw [hdef]
  refine ⟨⟨hquiet'.sound hs ⟨⟨?_, hs.shaped.balanced, ?_, ?_, ?_, ?_, ?_, ?_, ?_, ?_, ?_⟩, ?_⟩,
    hquiet', ?_⟩, hcursors⟩
  · rw [hquiet'.links, hquiet'.pRoot]
    exact hs.shaped.linked
  · simp only [hquiet'.aKey]
    exact hs.shaped.sorted
  · rw [hquiet'.pFresh]
    exact hs.shaped.fresh
  · rw [hquiet'.pFresh]
    show ∀ y ∈ t.toList, y < p.pFresh ∧ y ∉ q.freed
    rw [hqf]
    exact hs.shaped.inTree
  · simp only [hquiet'.pData]
    exact hs.shaped.gone
  · rw [hquiet'.pFresh]
    show q.freed.Nodup ∧ ∀ y ∈ q.freed, y < p.pFresh
    rw [hqf]
    exact hs.shaped.freed
  · rw [hcursors, hquiet'.pFresh]
    show ∀ c : KVMemCursor, c ∈ _ → c.pNode ≠ 0 → c.pNode < p.pFresh ∧ c.pNode ∉ q.freed
    rw [hqf]
    intro c hc hc0
    rcases List.mem_or_eq_of_mem_set hc with hc | rfl
    · exact hs.shaped.cursors c hc hc0
    · exact ⟨hxlt, hxf⟩
  · rw [hcursors, List.length_set]
    exact hfew
  · intro y hy0 hylt hyf
    rw [hquiet'.pFresh] at hylt
    replace hyf : y ∉ p.freed := hqf ▸ hyf
    rw [hrefsy y, hrefs y hy0, if_neg hy0, add_zero]
    show (q.rows y).nRef = _
    by_cases hyx : y = x
    · rw [hyx, hqx, if_pos hx, if_pos rfl]
      rw [Int.natCast_add, add_assoc]
      rfl
    · have hcounty := hs.shaped.count y hy0 hylt hyf
      rw [if_neg hy0, add_zero] at hcounty
      rw [hqne y hyx, hcounty, if_neg (Ne.symm hyx)]
      rfl
  · show q.badFree = false
    rw [hqb]
    exact hs.shaped.good
  · intro y hy0 hylt hyf
    rw [hquiet'.pFresh] at hylt
    rw [hrefsy y, hrefs y hy0]
    exact (hs.shaped.held y hy0 hylt (hqf ▸ hyf)).imp_right fun h =>
      Or.inl (Nat.add_pos_left (h.resolve_right hy0) _)
  · rw [hcursors]
    exact List.length_set

/-! ### Moving -/

/-- The loop ends at a node of the tree, or nowhere. -/
theorem skipDeleted_mem {step : ℕ → Heap → Ptr → Ptr} {y : Ptr}
    (hstep : ∀ y, y = 0 ∨ y ∈ t.toList →
      step p.pFresh p.links y = 0 ∨ step p.pFresh p.links y ∈ t.toList)
    (hy : y = 0 ∨ y ∈ t.toList) :
    skipDeleted step n p y = 0 ∨ skipDeleted step n p y ∈ t.toList := by
  induction n generalizing y with
  | zero => exact Or.inl rfl
  | succ n ih =>
      rw [skipDeleted]
      split_ifs with hif
      · exact ih (hstep y hy)
      · exact hstep y hy

theorem moveEntry_spec {step : ℕ → Heap → Ptr → Ptr} (hs : Sound p t)
    (hstep : ∀ {h : Heap} {n : ℕ} {l : List Ptr}, Closed h l → ∀ y, y = 0 ∨ y ∈ l →
      step n h y = 0 ∨ step n h y ∈ l) (hi : i < p.cursors.length)
    (hon : (p.cursor i).pNode = 0 ∨ (p.cursor i).pNode ∈ t.toList) :
    Moved p (moveEntry step p i).1 t := by
  obtain ⟨hreset, hcur⟩ := reset_spec hs i
  obtain ⟨q, hq⟩ : ∃ q, kvmemReset p i = q := ⟨_, rfl⟩
  rw [hq] at hreset hcur
  have hclosed := hreset.sound.shaped.linked.closed
  have hmem := skipDeleted_mem (p := q) (n := q.pFresh) (t := t) (hstep hclosed) hon
  have hcursor : q.cursor i = ⟨0, none⟩ := by
    rw [KVMem.cursor, hcur]
    simp [hi]
  rw [moveEntry]
  simp only [hq]
  split_ifs with h0
  · exact hreset.trans (pointAt_spec hreset.sound (hmem.resolve_left h0)
      (by rw [hcur]; simpa using hi) (by rw [hcursor])).1
  · exact hreset

theorem nextEntry_spec (hs : Sound p t) (hi : i < p.cursors.length)
    (hon : (p.cursor i).pNode = 0 ∨ (p.cursor i).pNode ∈ t.toList) :
    Moved p (kvmemNextEntry p i).1 t :=
  moveEntry_spec hs (fun hc _ hy => hc.step hy) hi hon

theorem prevEntry_spec (hs : Sound p t) (hi : i < p.cursors.length)
    (hon : (p.cursor i).pNode = 0 ∨ (p.cursor i).pNode ∈ t.toList) :
    Moved p (kvmemPrevEntry p i).1 t :=
  moveEntry_spec hs (fun hc _ hy => hc.step hy) hi hon

theorem seekLoop_mem (aKey : Bytes) (direction : ℤ) (best : Ptr × Rc)
    (hc : Closed p.links t.toList)
    (hx : x = 0 ∨ x ∈ t.toList) (hbest : best.1 = 0 ∨ best.1 ∈ t.toList) :
    (seekLoop p aKey direction n x best).1 = 0 ∨
      (seekLoop p aKey direction n x best).1 ∈ t.toList := by
  induction n generalizing x best with
  | zero => exact hbest
  | succ n ih =>
      rw [seekLoop]
      by_cases h0 : x = 0
      · rw [if_pos h0]
        exact hbest
      · have hxm := hx.resolve_left h0
        have hchild := (hc x hxm).2
        rw [if_neg h0]
        dsimp only
        split_ifs
        · exact Or.inr hxm
        · exact ih _ (hchild .after) (Or.inr hxm)
        · exact ih _ (hchild .after) hbest
        · exact ih _ (hchild .before) (Or.inr hxm)
        · exact ih _ (hchild .before) hbest

theorem seek_moved (hs : Sound p t) (hi : i < p.cursors.length) (aKey : Bytes) (direction : ℤ) :
    Moved p (kvmemSeek p i aKey direction).1 t := by
  obtain ⟨hreset, hcur⟩ := reset_spec hs i
  obtain ⟨q, hq⟩ : ∃ q, kvmemReset p i = q := ⟨_, rfl⟩
  rw [hq] at hreset hcur
  have hroot : q.pRoot = 0 ∨ q.pRoot ∈ t.toList :=
    (hreset.sound.shaped.linked.root).imp_left And.right
  have hmem := seekLoop_mem (n := q.pFresh) aKey direction (0, .notfound)
    hreset.sound.shaped.linked.closed hroot (Or.inl rfl)
  have hqi : i < q.cursors.length := by
    rw [hcur]
    simpa using hi
  have hcursor : q.cursor i = ⟨0, none⟩ := by
    rw [KVMem.cursor, hcur]
    simp [hi]
  rw [kvmemSeek]
  simp only [hq]
  obtain ⟨⟨pBest, rc⟩, hbest⟩ : ∃ r, seekLoop q aKey direction q.pFresh q.pRoot (0, .notfound) = r :=
    ⟨_, rfl⟩
  rw [hbest] at hmem ⊢
  by_cases h0 : pBest = 0
  · simp only [h0, ne_eq, not_true_eq_false, if_false]
    exact hreset
  · have hb := hmem.resolve_left h0
    obtain ⟨hpoint, hpcur⟩ := pointAt_spec hreset.sound hb hqi (by rw [hcursor])
    have hmoved := hreset.trans hpoint
    have hpi : i < (pointAt q i pBest).cursors.length := hpoint.length.symm ▸ hqi
    have hon : ((pointAt q i pBest).cursor i).pNode = 0 ∨
        ((pointAt q i pBest).cursor i).pNode ∈ t.toList := by
      right
      rw [KVMem.cursor, hpcur]
      simpa [hqi] using hb
    simp only [h0, ne_eq, not_false_eq_true, if_true]
    have hnext := hmoved.trans (nextEntry_spec hpoint.sound hpi hon)
    have hprev := hmoved.trans (prevEntry_spec hpoint.sound hpi hon)
    split_ifs <;> first | exact hmoved | exact hnext | exact hprev

theorem openCursor_spec (hs : Sound p t) (hfew : p.cursors.length < 32766) (malloc : Bool) :
    Sound (kvmemOpenCursor p malloc).1 t ∧ Quiet p (kvmemOpenCursor p malloc).1 := by
  cases malloc with
  | false => exact ⟨hs, Quiet.refl p⟩
  | true =>
      have hquiet : Quiet p (kvmemOpenCursor p true).1 :=
        ⟨rfl, rfl, rfl, rfl, rfl, fun _ => rfl, fun _ => rfl, fun _ => rfl⟩
      have hrefs : ∀ x, x ≠ 0 → (kvmemOpenCursor p true).1.refs x = p.refs x := by
        intro x hx0
        show (p.cursors ++ [_]).countP _ = _
        rw [List.countP_append, List.countP_singleton]
        have hne : ((⟨0, none⟩ : KVMemCursor).pNode == x) = false := by
          simpa using Ne.symm hx0
        rw [hne]
        rfl
      refine ⟨hquiet.sound hs ⟨⟨hs.shaped.linked, hs.shaped.balanced, hs.shaped.sorted,
        hs.shaped.fresh, hs.shaped.inTree, hs.shaped.gone, hs.shaped.freed, fun c hc hc0 => ?_, ?_,
        fun x hx0 hx hxf => ?_, hs.shaped.good⟩, fun x hx0 hx hxf => ?_⟩, hquiet⟩
      · rcases List.mem_append.mp hc with hc | hc
        · exact hs.shaped.cursors c hc hc0
        · rw [List.mem_singleton.mp hc] at hc0
          exact absurd rfl hc0
      · show (p.cursors ++ [_]).length ≤ 32766
        rw [List.length_append, List.length_singleton]
        omega
      · rw [hrefs x hx0]
        exact hs.shaped.count x hx0 hx hxf
      · rw [hrefs x hx0]
        exact hs.shaped.held x hx0 hx hxf

/-! ### Deleting -/

/-- **`kvmemDelete`** takes out the content of the row at the cursor, or fails and changes
nothing. -/
theorem delete_spec (hs : Sound p t) (hi : p.iTransLevel = n + 2) (i : ℕ) (malloc : Bool) :
    (kvmemDelete p i malloc).1 = p ∧ ((kvmemDelete p i malloc).2 = .nomem ∨
        (p.rows (p.cursor i).pNode).pData = none ∨ (p.cursor i).pNode = 0) ∨
      (p.rows (p.cursor i).pNode).pData.isSome ∧ (kvmemDelete p i malloc).2 = .ok ∧
        Changed p (kvmemDelete p i malloc).1 t t (p.rows (p.cursor i).pNode).aKey none := by
  obtain ⟨x, hx⟩ : ∃ x, (p.cursor i).pNode = x := ⟨_, rfl⟩
  rw [kvmemDelete]
  simp only [hx]
  by_cases h0 : x = 0
  · rw [if_pos h0]
    exact Or.inl ⟨rfl, Or.inr (Or.inr h0)⟩
  rw [if_neg h0]
  by_cases hd : (p.rows x).pData = none
  · rw [if_pos hd]
    exact Or.inl ⟨rfl, Or.inr (Or.inl hd)⟩
  rw [if_neg hd]
  have hsome : (p.rows x).pData.isSome := Option.isSome_iff_ne_none.mpr hd
  have hxt : x ∈ t.toList := by
    by_contra hn
    exact hd (hs.shaped.gone x hn)
  by_cases hmx : (p.rows x).mxTrans < p.iTransLevel
  · rw [if_pos hmx]
    cases malloc with
    | false => exact Or.inl ⟨rfl, Or.inl rfl⟩
    | true =>
        obtain ⟨hw, hview⟩ := newChng_spec hs hxt hi none
        have hsame : (kvmemNewChng p x true).1.setRow x (fun r => { r with pData := none }) =
            (kvmemNewChng p x true).1 := by
          have hrow : ((kvmemNewChng p x true).1.rows x).pData = none := by
            show (Function.update p.rows x _ x).pData = none
            rw [Function.update_self]
          obtain ⟨q, hq⟩ : ∃ q, (kvmemNewChng p x true).1 = q := ⟨_, rfl⟩
          rw [hq] at hrow ⊢
          have hself : ({ q.rows x with pData := none } : Row) = q.rows x := by
            rw [← hrow]
          rw [KVMem.setRow, hself, Function.update_eq_self]
        rw [hsame] at hw hview
        exact Or.inr ⟨hsome, rfl, changed_of_view hw hs.shaped hxt hview⟩
  · rw [if_neg hmx]
    have hle := ((hs.top hi).2.1 x _ (view_of_mem hxt)).1
    rw [length_logsFrom] at hle
    have hle' : (p.rows x).mxTrans.toNat ≤ n + 2 := hle
    obtain ⟨hw, hview⟩ := setData_spec hs hxt hi (by omega) none
    exact Or.inr ⟨hsome, rfl, changed_of_view hw hs.shaped hxt hview⟩

end KvMem

end MoVeBench
