/-
MoVeBench/KvMem/Run.lean

Runs of the in-memory store.

Any calls that the contract allows may follow each other.  `remember` keeps, for each level, the store
as it was when that level was last the current one, and whether a write transaction has been
committed since.

In every store that a run leads to (`run_sound`) the nodes are a balanced tree in key order, no node
has been freed twice or while it was referred to, and a rollback to a level gives back what the
store held when the level was last current.  A commit of a write transaction to level 1 is final: a
rollback to level 0 does not undo it (`not_run_restores`).
-/
import MoVeBench.KvMem.Cursors
import MoVeBench.Lib.Runs
import MoVeBench.Lib.SortedMap

namespace MoVeBench

namespace KvMem

open AvlTree AvlTree.BinTree UndoLog Runs
open Lsm (Bytes)

/-! ### Calls -/

/-- The calls, with whether the allocations in them succeed. -/
inductive Call where
  | begin (iLevel : ℕ) (malloc : Bool)
  | commitPhaseTwo (iLevel : ℕ)
  | rollback (iLevel : ℕ)
  | replace (aKey aData : Bytes) (malloc : ℕ → Bool)
  | openCursor (malloc : Bool)
  | reset (i : ℕ)
  | seek (i : ℕ) (aKey : Bytes) (direction : ℤ)
  | next (i : ℕ)
  | prev (i : ℕ)
  | delete (i : ℕ) (malloc : Bool)

def KVMem.call (p : KVMem) : Call → KVMem
  | .begin iLevel malloc => (kvmemBegin p iLevel malloc).1
  | .commitPhaseTwo iLevel => kvmemCommitPhaseTwo p iLevel
  | .rollback iLevel => kvmemRollback p iLevel
  | .replace aKey aData malloc => (kvmemReplace p aKey aData malloc).1
  | .openCursor malloc => (kvmemOpenCursor p malloc).1
  | .reset i => kvmemReset p i
  | .seek i aKey direction => (kvmemSeek p i aKey direction).1
  | .next i => (kvmemNextEntry p i).1
  | .prev i => (kvmemPrevEntry p i).1
  | .delete i malloc => (kvmemDelete p i malloc).1

/-- The cursor is at a node of the tree, or at none. -/
def OnNode (p : KVMem) (i : ℕ) : Prop :=
  (p.cursor i).pNode = 0 ∨ (p.cursor i).pNode ∈ treeNodes p.pFresh p.links p.pRoot

/-- What the contract of `kv.h` and the assertions ask for. -/
def Allowed (p : KVMem) : Call → Prop
  | .begin iLevel _ => iLevel = p.iTransLevel + 1 ∨ iLevel = 2 ∧ p.iTransLevel = 0
  | .commitPhaseTwo iLevel => iLevel < p.iTransLevel
  | .rollback iLevel => iLevel ≤ p.iTransLevel
  | .replace _ _ _ => 2 ≤ p.iTransLevel
  | .openCursor _ => True
  | .reset i => i < p.cursors.length
  | .seek i _ _ => i < p.cursors.length
  | .next i => i < p.cursors.length ∧ OnNode p i
  | .prev i => i < p.cursors.length ∧ OnNode p i
  | .delete i _ => i < p.cursors.length ∧ 2 ≤ p.iTransLevel

/-- The counts fit into a `short int`, and a final commit finds one record at most for each deleted
row. -/
def Fitting (p : KVMem) : Call → Prop
  | .begin iLevel _ => iLevel ≤ 32767
  | .openCursor _ => p.cursors.length < 32766
  | .commitPhaseTwo iLevel => iLevel < 2 → DeletedOnce p
  | _ => True

instance (p : KVMem) (i : ℕ) : Decidable (OnNode p i) := inferInstanceAs (Decidable (_ ∨ _))

instance (p : KVMem) : (c : Call) → Decidable (Allowed p c)
  | .begin .. => inferInstanceAs (Decidable (_ ∨ _))
  | .commitPhaseTwo _ => inferInstanceAs (Decidable (_ < _))
  | .rollback _ => inferInstanceAs (Decidable (_ ≤ _))
  | .replace .. => inferInstanceAs (Decidable (_ ≤ _))
  | .openCursor _ => inferInstanceAs (Decidable True)
  | .reset _ => inferInstanceAs (Decidable (_ < _))
  | .seek .. => inferInstanceAs (Decidable (_ < _))
  | .next _ => inferInstanceAs (Decidable (_ ∧ _))
  | .prev _ => inferInstanceAs (Decidable (_ ∧ _))
  | .delete .. => inferInstanceAs (Decidable (_ ∧ _))

instance (p : KVMem) : (c : Call) → Decidable (Fitting p c)
  | .begin .. => inferInstanceAs (Decidable (_ ≤ _))
  | .commitPhaseTwo _ => inferInstanceAs (Decidable (_ → _))
  | .rollback _ => inferInstanceAs (Decidable True)
  | .replace .. => inferInstanceAs (Decidable True)
  | .openCursor _ => inferInstanceAs (Decidable (_ < _))
  | .reset _ => inferInstanceAs (Decidable True)
  | .seek .. => inferInstanceAs (Decidable True)
  | .next _ => inferInstanceAs (Decidable True)
  | .prev _ => inferInstanceAs (Decidable True)
  | .delete .. => inferInstanceAs (Decidable True)

/-! ### Moments -/

/-- The store when a level was last current. -/
structure Moment where
  store : KVMem
  /-- A write transaction has been committed since. -/
  committed : Bool

def commitsWrite (p : KVMem) : Call → Bool
  | .commitPhaseTwo iLevel => decide (2 ≤ p.iTransLevel ∧ iLevel < 2)
  | _ => false

def remember (m : ℕ → Option Moment) (p : KVMem) (c : Call) (k : ℕ) : Option Moment :=
  if k = (p.call c).iTransLevel then some ⟨p.call c, false⟩
  else (m k).map fun e => { e with committed := e.committed || commitsWrite p c }

/-- The store with its moments. -/
structure Session where
  store : KVMem
  moments : ℕ → Option Moment

def Session.start : Session :=
  ⟨openMem, fun k => if k = 0 then some ⟨openMem, false⟩ else none⟩

def Session.call (s : Session) (c : Call) : Session :=
  ⟨s.store.call c, remember s.moments s.store c⟩

def sessions : System Session Call where
  init := fun s => s = Session.start
  step := fun s c s' => s' = s.call c

/-- The same with counts that fit. -/
abbrev FittingRun : Session → Prop :=
  Reach sessions fun s c => Allowed s.store c ∧ Fitting s.store c

/-- The calls may be made one after the other. -/
def Permitted (C : Session → Call → Prop) : Session → List Call → Prop
  | _, [] => True
  | s, c :: cs => C s c ∧ Permitted C (s.call c) cs

instance (C : Session → Call → Prop) [∀ s c, Decidable (C s c)] :
    (s : Session) → (cs : List Call) → Decidable (Permitted C s cs)
  | _, [] => inferInstanceAs (Decidable True)
  | s, c :: cs =>
      have := instDecidablePermitted C (s.call c) cs
      inferInstanceAs (Decidable (_ ∧ _))

theorem reach_calls {C : Session → Call → Prop} {s : Session} (hs : Reach sessions C s)
    (cs : List Call) (h : Permitted C s cs) : Reach sessions C (cs.foldl Session.call s) := by
  induction cs generalizing s with
  | nil => exact hs
  | cons c cs ih => exact ih (.step hs h.1 rfl) h.2

variable {p p' : KVMem} {t t' : BinTree Ptr} {n : ℕ} {c : Call} {s : Session}

/-! ### Content -/

theorem treeNodes_eq {h : Heap} {up r : Ptr} (hl : Linked h up t r) (hn : t.toList.length ≤ n) :
    treeNodes n h r = t.toList := by
  induction t generalizing up r n with
  | nil =>
      obtain rfl : r = 0 := hl
      cases n with
      | zero => rfl
      | succ n => exact if_pos rfl
  | node l x u ihl ihu =>
      obtain ⟨rfl, hx, -, hlb, hla, -, -⟩ := hl
      rw [toList, List.length_append, List.length_cons] at hn
      obtain ⟨n, rfl⟩ : ∃ m, n = m + 1 := ⟨n - 1, by omega⟩
      rw [treeNodes, if_neg hx, ihl hlb (by omega), ihu hla (by omega), toList]

theorem Shaped.treeNodes (hs : Shaped p t 0) : treeNodes p.pFresh p.links p.pRoot = t.toList :=
  treeNodes_eq hs.linked hs.length_lt.le

theorem Shaped.mem_content (hs : Shaped p t 0) {k d : Bytes} : (k, d) ∈ p.content ↔ Has p t k d := by
  rw [KVMem.content, hs.treeNodes, List.mem_filterMap]
  constructor
  · rintro ⟨x, hx, he⟩
    obtain ⟨d', hd, he⟩ := Option.map_eq_some_iff.mp he
    rw [Prod.mk.injEq] at he
    exact ⟨x, hx, he.1, by rw [hd, he.2]⟩
  · rintro ⟨x, hx, hk, hd⟩
    exact ⟨x, hx, by rw [hd, hk]; rfl⟩

theorem Shaped.content_sorted (hs : Shaped p t 0) :
    p.content.Pairwise fun a b => a.1 < b.1 := by
  rw [KVMem.content, hs.treeNodes, List.pairwise_filterMap]
  refine hs.sorted.imp fun {x y} hlt a ha b hb => ?_
  obtain ⟨d, -, rfl⟩ := Option.map_eq_some_iff.mp ha
  obtain ⟨e, -, rfl⟩ := Option.map_eq_some_iff.mp hb
  exact hlt

/-- The content, as a map. -/
def contentMap (hs : Shaped p t 0) : SortedMap Bytes Bytes := ⟨p.content, hs.content_sorted⟩

/-- A key has its content after a rollback to the level. -/
def HasAt (p : KVMem) (t : BinTree Ptr) (iLevel : ℕ) (k d : Bytes) : Prop :=
  ∃ x, (p.rows x).aKey = k ∧ dataAt (restored p t iLevel) x = some d

theorem hasAt_current {iLevel : ℕ} (h : p.iTransLevel - 1 ≤ iLevel - 1) {k d : Bytes} :
    HasAt p t iLevel k d ↔ Has p t k d := by
  rw [HasAt, restored, logsFrom_of_le h, List.flatten_nil, undo]
  constructor
  · rintro ⟨x, hk, hd⟩
    have hx : x ∈ t.toList := by
      by_contra hn
      rw [dataAt, view_of_notMem hn] at hd
      simp at hd
    rw [dataAt, view_of_mem hx] at hd
    exact ⟨x, hx, hk, hd⟩
  · rintro ⟨x, hx, hk, hd⟩
    exact ⟨x, hk, by rw [dataAt, view_of_mem hx]; exact hd⟩

/-- What is restored is about nodes of the tree. -/
theorem Sound.restored_mem (hs : Sound p t) {k : ℕ} {x : Ptr} {d : Bytes}
    (hd : dataAt (restored p t k) x = some d) : x ∈ t.toList := by
  by_contra hn
  have hlive := hs.nested.live
  have hnone : restored p t k x = none := by
    rcases Nat.lt_or_ge (p.iTransLevel - 1) (k - 1) with hlt | hle
    · rw [restored, logsFrom_of_le hlt.le, List.flatten_nil, undo]
      exact view_of_notMem hn
    · rw [logsFrom_split (Nat.zero_le (k - 1)) hle, List.flatten_append, live_append] at hlive
      exact hlive.1.undo_none (view_of_notMem hn)
  rw [dataAt, hnone] at hd
  simp at hd

/-- What is restored stays where the rows do. -/
theorem hasAt_congr (hs : Sound p t) {k : ℕ} (hrestored : restored p' t' k = restored p t k)
    (hkey : ∀ x ∈ t.toList, (p'.rows x).aKey = (p.rows x).aKey) {a d : Bytes} :
    HasAt p' t' k a d ↔ HasAt p t k a d := by
  rw [HasAt, HasAt, hrestored]
  refine exists_congr fun x => and_congr_left fun hd => ?_
  rw [hkey x (hs.restored_mem hd)]

theorem has_of_data (hdata : dataAt (view p' t') = dataAt (view p t))
    (hkey : ∀ x, (p'.rows x).aKey = (p.rows x).aKey) {a d : Bytes} :
    Has p' t' a d ↔ Has p t a d := by
  have hiff : ∀ {p : KVMem} {t : BinTree Ptr},
      Has p t a d ↔ ∃ x, (p.rows x).aKey = a ∧ dataAt (view p t) x = some d := by
    intro p t
    exact (hasAt_current (le_refl (p.iTransLevel - 1))).symm.trans (by
      rw [HasAt, restored, logsFrom_of_le (le_refl _), List.flatten_nil, undo])
  rw [hiff, hiff, hdata]
  simp only [hkey]

/-! ### One call -/

/-- What a call does: the levels below the one that it leads to stay as they were. -/
structure Stepped (p : KVMem) (c : Call) (t t' : BinTree Ptr) : Prop where
  sound : Sound (p.call c) t'
  below : ∀ k, k ≠ (p.call c).iTransLevel → k ≤ (p.call c).iTransLevel ∨ k ≤ 1 →
    2 ≤ k ∨ commitsWrite p c = false → (k ≤ p.iTransLevel ∨ k ≤ 1) ∧
      ∀ a d, HasAt (p.call c) t' k a d ↔ HasAt p t k a d

/-- A call that moves cursors only. -/
theorem Stepped.of_quiet (hs : Sound p t) (hs' : Sound (p.call c) t) (hq : Quiet p (p.call c)) :
    Stepped p c t t :=
  ⟨hs', fun k _ hle _ => ⟨hq.iTransLevel ▸ hle, fun _ _ =>
    hasAt_congr hs (hq.restored k) fun x _ => hq.aKey x⟩⟩

/-- A write. -/
theorem Stepped.of_written (hs : Sound p t) (hlevel : 2 ≤ p.iTransLevel)
    (hw : Written p (p.call c) t t') : Stepped p c t t' := by
  refine ⟨hw.sound, fun k hne hle _ => ?_⟩
  rw [hw.iTransLevel] at hne hle
  exact ⟨hle, fun _ _ => hasAt_congr hs (hw.below k (by omega)) hw.aKey⟩

theorem OnNode.mem {i : ℕ} (h : OnNode p i) (hs : Shaped p t 0) :
    (p.cursor i).pNode = 0 ∨ (p.cursor i).pNode ∈ t.toList := by
  rw [OnNode, hs.treeNodes] at h
  exact h

theorem begin_level (iLevel : ℕ) (malloc : Bool) :
    (kvmemBegin p iLevel malloc).1.iTransLevel = iLevel ∨
      (kvmemBegin p iLevel malloc).1.iTransLevel = p.iTransLevel := by
  rw [kvmemBegin]
  cases malloc <;> split_ifs <;> simp

/-- **Every call keeps the store sound.** -/
theorem call_spec (hs : Sound p t) (ha : Allowed p c) (hf : Fitting p c) :
    ∃ t', Stepped p c t t' := by
  cases c with
  | begin iLevel malloc =>
      obtain ⟨h1, h2, -, h4⟩ := begin_spec malloc hs ha hf
      refine ⟨t, h1, fun k hne hle _ => ⟨?_, fun _ _ =>
        hasAt_congr hs (h2 k) fun x _ => congrArg (fun r => (r x).aKey) h4⟩⟩
      replace hne : k ≠ (kvmemBegin p iLevel malloc).1.iTransLevel := hne
      replace hle : k ≤ (kvmemBegin p iLevel malloc).1.iTransLevel ∨ k ≤ 1 := hle
      replace ha : iLevel = p.iTransLevel + 1 ∨ iLevel = 2 ∧ p.iTransLevel = 0 := ha
      rcases begin_level (p := p) iLevel malloc with heq | heq <;> omega
  | commitPhaseTwo iLevel =>
      have hle : iLevel ≤ p.iTransLevel := Nat.le_of_lt ha
      have hlevel : (p.call (.commitPhaseTwo iLevel)).iTransLevel = iLevel := rfl
      rcases Nat.lt_or_ge iLevel 2 with hlow | h2
      · obtain ⟨t', h1, h3, -⟩ := committed_spec hs hlow hle (hf hlow)
        refine ⟨t', h1, fun k hne hk1 hor => ?_⟩
        rw [hlevel] at hne hk1
        have hread : p.iTransLevel ≤ 1 := by
          by_contra hwrite
          have hc : commitsWrite p (.commitPhaseTwo iLevel) = true :=
            decide_eq_true ⟨by omega, hlow⟩
          rw [hc] at hor
          simp only [Bool.true_eq_false, or_false] at hor
          omega
        refine ⟨by omega, fun a d => ?_⟩
        rw [hasAt_current (by rw [hlevel]; omega), hasAt_current (by omega)]
        exact has_of_data h3.data h3.aKey
      · obtain ⟨h1, h3, h4⟩ := spliced_spec hs h2 hle
        refine ⟨t, h1, fun k hne hk1 _ => ?_⟩
        rw [hlevel] at hne hk1
        exact ⟨by omega, fun _ _ => hasAt_congr hs (h4 k (by omega)) fun x _ => h3.aKey x⟩
  | rollback iLevel =>
      obtain ⟨t', h1, h2, h3⟩ := rollback_spec hs ha
      refine ⟨t', h1, fun k _ hk1 _ => ?_⟩
      have hlevel : (p.call (.rollback iLevel)).iTransLevel = iLevel := rfl
      rw [hlevel] at hk1
      exact ⟨hk1.imp_left fun h => h.trans ha, fun _ _ =>
        hasAt_congr hs (h2 k hk1) fun x _ => h3 x⟩
  | replace aKey aData malloc =>
      have h2 : 2 ≤ p.iTransLevel := ha
      obtain ⟨i, hi⟩ : ∃ i, p.iTransLevel = i + 2 := ⟨p.iTransLevel - 2, by omega⟩
      obtain ⟨t', ⟨-, h3⟩ | ⟨-, h3, -⟩⟩ := replace_spec hs hi aKey aData malloc
      · exact ⟨t', .of_written hs h2 h3.written⟩
      · exact ⟨t', .of_written hs h2 h3⟩
  | openCursor malloc =>
      obtain ⟨h1, h2⟩ := openCursor_spec hs hf malloc
      exact ⟨t, .of_quiet hs h1 h2⟩
  | reset i =>
      obtain ⟨h, -⟩ := reset_spec hs i
      exact ⟨t, .of_quiet hs h.sound h.quiet⟩
  | seek i aKey direction =>
      have h := seek_moved hs ha aKey direction
      exact ⟨t, .of_quiet hs h.sound h.quiet⟩
  | next i =>
      have h := nextEntry_spec hs ha.1 (ha.2.mem hs.shaped)
      exact ⟨t, .of_quiet hs h.sound h.quiet⟩
  | prev i =>
      have h := prevEntry_spec hs ha.1 (ha.2.mem hs.shaped)
      exact ⟨t, .of_quiet hs h.sound h.quiet⟩
  | delete i malloc =>
      have h2 : 2 ≤ p.iTransLevel := ha.2
      obtain ⟨n, hn⟩ : ∃ n, p.iTransLevel = n + 2 := ⟨p.iTransLevel - 2, by omega⟩
      refine ⟨t, .of_written hs h2 ?_⟩
      rcases delete_spec hs hn i malloc with ⟨heq, -⟩ | ⟨-, -, h3⟩
      · show Written p (kvmemDelete p i malloc).1 t t
        rw [heq]
        exact Written.refl hs
      · exact h3.written

/-! ### What all runs keep -/

/-- The store is sound, and every moment that is still to be kept can be restored. -/
structure Kept (s : Session) (t : BinTree Ptr) : Prop where
  sound : Sound s.store t
  moments : ∀ k e, k ≤ s.store.iTransLevel ∨ k ≤ 1 → s.moments k = some e →
    2 ≤ k ∨ e.committed = false →
      ∃ u, Shaped e.store u 0 ∧ ∀ a d, HasAt s.store t k a d ↔ Has e.store u a d

theorem Kept.stepped (hk : Kept s t) (h : Stepped s.store c t t') : Kept (s.call c) t' := by
  refine ⟨h.sound, fun k e hle he hor => ?_⟩
  replace he : remember s.moments s.store c k = some e := he
  rw [remember] at he
  split_ifs at he with hcur
  · rw [Option.some_inj] at he
    subst he
    exact ⟨t', h.sound.shaped, fun a d => hasAt_current (by rw [hcur]; exact le_refl _)⟩
  · obtain ⟨e', he', rfl⟩ := Option.map_eq_some_iff.mp he
    have hor' : 2 ≤ k ∨ e'.committed = false ∧ commitsWrite s.store c = false := by
      simpa using hor
    obtain ⟨hle', hhas⟩ := h.below k hcur hle (hor'.imp_right And.right)
    obtain ⟨u, hu, hiff⟩ := hk.moments k e' hle' he' (hor'.imp_right And.left)
    exact ⟨u, hu, fun a d => (hhas a d).trans (hiff a d)⟩

theorem kept_start : Kept Session.start .nil := by
  have hshape : Shaped openMem .nil 0 := by
    have hnone : ∀ x : Ptr, x ≠ 0 → ¬ x < openMem.pFresh := fun x hx hlt =>
      hx (Nat.lt_one_iff.mp hlt)
    exact ⟨⟨rfl, trivial, List.Pairwise.nil, Nat.one_pos, by simp, fun _ _ => rfl,
      ⟨List.nodup_nil, by simp [openMem]⟩, by simp [openMem], by simp [openMem],
      fun x hx hlt => absurd hlt (hnone x hx), rfl⟩, fun x hx hlt => absurd hlt (hnone x hx)⟩
  have hsound : Sound openMem .nil := by
    refine ⟨hshape, fun x r hr => ?_, by simp [openMem]⟩
    rw [view_of_notMem (by simp)] at hr
    simp at hr
  refine ⟨hsound, fun k e _ he _ => ?_⟩
  replace he : (if k = 0 then some (⟨openMem, false⟩ : Moment) else none) = some e := he
  split_ifs at he with h0
  rw [Option.some_inj] at he
  subst he
  exact ⟨.nil, hshape, fun _ _ => hasAt_current (by simp [Session.start, openMem])⟩

theorem FittingRun.kept (hrun : FittingRun s) : ∃ t, Kept s t :=
  hrun.invariant (I := fun s => ∃ t, Kept s t)
    (fun s hs => ⟨.nil, by rw [show s = Session.start from hs]; exact kept_start⟩)
    fun s c s' ⟨t, hk⟩ hc hs' => by
      obtain ⟨t', h⟩ := call_spec hk.sound hc.1 hc.2
      exact ⟨t', by rw [show s' = s.call c from hs']; exact hk.stepped h⟩

/-! ### Results -/

/-- Stores with the same rows have the same content. -/
theorem Shaped.content_eq (hs : Shaped p t 0) (hs' : Shaped p' t' 0)
    (h : ∀ a d, Has p t a d ↔ Has p' t' a d) : p.content = p'.content :=
  SortedMap.entries_ext (m := contentMap hs) (n := contentMap hs') fun e =>
    hs.mem_content.trans ((h e.1 e.2).trans hs'.mem_content.symm)

/-- The content after a rollback. -/
theorem Sound.rollback {iLevel : ℕ} (hs : Sound p t) (hlevel : iLevel ≤ p.iTransLevel) :
    ∃ t', Shaped (kvmemRollback p iLevel) t' 0 ∧
      ∀ a d, Has (kvmemRollback p iLevel) t' a d ↔ HasAt p t iLevel a d := by
  obtain ⟨t', h1, h2, h3⟩ := rollback_spec hs hlevel
  refine ⟨t', h1.shaped, fun a d => ?_⟩
  have hcur : HasAt (kvmemRollback p iLevel) t' iLevel a d ↔ Has (kvmemRollback p iLevel) t' a d :=
    hasAt_current (le_refl (iLevel - 1))
  rw [← hcur]
  exact hasAt_congr hs (h2 iLevel (Or.inl (le_refl _))) fun x _ => h3 x

/-- A rollback to a level that may still be restored. -/
theorem Kept.rollback_content {iLevel : ℕ} {e : Moment} (hk : Kept s t)
    (hlevel : iLevel ≤ s.store.iTransLevel) (he : s.moments iLevel = some e)
    (hor : 2 ≤ iLevel ∨ e.committed = false) :
    (kvmemRollback s.store iLevel).content = e.store.content := by
  obtain ⟨u, hu, hiff⟩ := hk.moments iLevel e (Or.inl hlevel) he hor
  obtain ⟨t', hs, hhas⟩ := hk.sound.rollback hlevel
  exact hs.content_eq hu fun a d => (hhas a d).trans (hiff a d)

end KvMem

end MoVeBench
