/-
MoVeBench/Lsm/FreeWalk.lean

`lsmWalkFreelist`: the walk of the free-block list, over its three layers.

The entries in the LSM are passed to a callback that first passes on the
entries of the worker's list up to the same block, and the callback that it
calls does the same with the temporary list.  What the two lists still hold at
the end follows in loops of its own.  An index into each list says where the
callback stands; here it stands for the list of the entries that are left.
-/
import MoVeBench.Lib.Visit
import MoVeBench.Lsm.Freelist

namespace MoVeBench

namespace Lsm

namespace FreeWalk

open Visit

variable {τ : Type*}

/-! ### The walk -/

/-- `WalkFreelistCtx`, apart from the list and the callback. -/
structure WalkFreelistCtx where
  iFree : ℤ
  /-- Set after `xUsr()` returns true. -/
  bDone : Bool

/-- `iDir`. -/
def iDir (bReverse : Bool) : ℤ := if bReverse then -1 else 1

/-- The walk gets to block `a` before block `b`. -/
def before : Bool → ℕ → ℕ → Prop
  | false, a, b => a < b
  | true, a, b => b < a

instance : ∀ bReverse a b, Decidable (before bReverse a b)
  | false, a, b => inferInstanceAs (Decidable (a < b))
  | true, a, b => inferInstanceAs (Decidable (b < a))

/-- `aEntry[iFree]`, where `iFree<nEntry` and `iFree>=0`. -/
def entryAt (pFree : List (ℕ × ℤ)) (iFree : ℤ) : Option (ℕ × ℤ) :=
  if 0 ≤ iFree then pFree[iFree.toNat]? else none

section Callback

variable (bReverse : Bool) (pFree : List (ℕ × ℤ)) (xUsr : τ → ℕ × ℤ → τ × Bool)

/-- An entry of a list is passed on, unless it says that the block is not free. -/
def passEntry (t : τ) (pEntry : ℕ × ℤ) : τ × Bool :=
  if 0 ≤ pEntry.2 then xUsr t pEntry else (t, false)

/-- The loop of `walkFreelistCb`, over at most `nEntry` entries: the index and the state of
the callback after it, and what is returned in the loop. -/
def walkFreelistLoop (iBlk : ℕ) : ℕ → ℤ → τ → (ℤ × τ) × Option Bool
  | 0, iFree, t => ((iFree, t), none)
  | nEntry + 1, iFree, t =>
      match entryAt pFree iFree with
      | none => ((iFree, t), none)
      | some pEntry =>
          if before bReverse iBlk pEntry.1 then ((iFree, t), none)
          else
            let called := passEntry xUsr t pEntry
            if called.2 then ((iFree + iDir bReverse, called.1), some true)
            else if pEntry.1 = iBlk then ((iFree + iDir bReverse, called.1), some false)
            else walkFreelistLoop iBlk nEntry (iFree + iDir bReverse) called.1

/-- `walkFreelistCb`, after its loop: unless that returned, the entry itself is passed on. -/
def orCall (e : ℕ × ℤ) (looped : (ℤ × τ) × Option Bool) : (ℤ × τ) × Bool :=
  match looped.2 with
  | some stop => (looped.1, stop)
  | none => ((looped.1.1, (xUsr looped.1.2 e).1), (xUsr looped.1.2 e).2)

/-- `walkFreelistCb`. -/
def walkFreelistCb (s : WalkFreelistCtx × τ) (e : ℕ × ℤ) : (WalkFreelistCtx × τ) × Bool :=
  let called := orCall xUsr e
    (walkFreelistLoop bReverse pFree xUsr e.1 pFree.length s.1.iFree s.2)
  (({ iFree := called.1.1, bDone := s.1.bDone || called.2 }, called.1.2), called.2)

/-- The last loop of `lsmWalkFreelist`, over one of the lists; it returns true if a call
does. -/
def walkFreelistTail : ℕ → ℤ → τ → τ × Bool
  | 0, _, t => (t, false)
  | nEntry + 1, i, t =>
      match entryAt pFree i with
      | none => (t, false)
      | some pEntry =>
          let called := passEntry xUsr t pEntry
          if called.2 then (called.1, true)
          else walkFreelistTail nEntry (i + iDir bReverse) called.1

end Callback

/-- The entries of a layer, in the order of the walk. -/
def dir (bReverse : Bool) (l : List (ℕ × ℤ)) : List (ℕ × ℤ) := if bReverse then l.reverse else l

/-- `lsmSortedWalkFreelist`, for the entries that the LSM holds. -/
def lsmSortedWalkFreelist (stored : SortedMap ℕ ℤ) (bReverse : Bool)
    (x : τ → ℕ × ℤ → τ × Bool) (t : τ) : τ × Bool :=
  visit x t (dir bReverse stored.entries)

/-- The context of a list, before the walk. -/
def newCtx (pFree : List (ℕ × ℤ)) (bReverse : Bool) : WalkFreelistCtx where
  iFree := if bReverse then (pFree.length : ℤ) - 1 else 0
  bDone := false

/-- `lsmWalkFreelist`: the state of the user's callback after it.  Without a temporary list
the code tests for a null pointer where it would find no entry. -/
def lsmWalkFreelist (f : FreeList) (bReverse : Bool) (x : τ → ℕ × ℤ → τ × Bool) (t : τ) : τ :=
  let pFree0 := f.worker.entries
  let pFree1 := (f.temp.map SortedMap.entries).getD []
  let cb1 := walkFreelistCb bReverse pFree1 x
  let s := (lsmSortedWalkFreelist f.stored bReverse (walkFreelistCb bReverse pFree0 cb1)
    (newCtx pFree0 bReverse, newCtx pFree1 bReverse, t)).1
  if s.1.bDone then s.2.2
  else
    let s0 := walkFreelistTail bReverse pFree0 cb1 pFree0.length s.1.iFree s.2
    if s0.2 then s0.1.2
    else (walkFreelistTail bReverse pFree1 x pFree1.length s0.1.1.iFree s0.1.2).1

/-! ### The order of the walk -/

section Order

variable {bReverse : Bool} {a b c : ℕ}

theorem not_before_self : ¬ before bReverse a a := by
  cases bReverse <;> exact lt_irrefl a

theorem before_trans (hab : before bReverse a b) (hbc : before bReverse b c) :
    before bReverse a c := by
  cases bReverse
  · exact Nat.lt_trans hab hbc
  · exact Nat.lt_trans hbc hab

theorem before_of_not_before (h : ¬ before bReverse b a) (hbc : before bReverse b c) :
    before bReverse a c := by
  cases bReverse
  · exact Nat.lt_of_le_of_lt (Nat.not_lt.mp h) hbc
  · exact Nat.lt_of_lt_of_le hbc (Nat.not_lt.mp h)

theorem before_of_ne (hne : a ≠ b) (h : ¬ before bReverse b a) : before bReverse a b := by
  cases bReverse
  · exact lt_of_le_of_ne (Nat.not_lt.mp h) hne
  · exact lt_of_le_of_ne (Nat.not_lt.mp h) hne.symm

end Order

/-- Entries in the order of the walk. -/
def InOrder (bReverse : Bool) (l : List (ℕ × ℤ)) : Prop :=
  l.Pairwise fun a b => before bReverse a.1 b.1

section InOrder

variable {bReverse : Bool} {l l' : List (ℕ × ℤ)} {e : ℕ × ℤ}

@[simp] theorem mem_dir : e ∈ dir bReverse l ↔ e ∈ l := by
  cases bReverse
  · exact Iff.rfl
  · exact List.mem_reverse

theorem inOrder_dir (h : l.Pairwise fun a b => a.1 < b.1) : InOrder bReverse (dir bReverse l) := by
  cases bReverse
  · exact h
  · exact List.pairwise_reverse.mpr h

theorem InOrder.nodup (h : InOrder bReverse l) : l.Nodup :=
  List.Pairwise.imp (fun hab he => by
    rw [he] at hab
    exact not_before_self hab) h

/-- The order leaves no choice: the entries determine the list. -/
theorem InOrder.eq_of_mem (h : InOrder bReverse l) (h' : InOrder bReverse l')
    (hmem : ∀ e, e ∈ l ↔ e ∈ l') : l = l' :=
  ((List.perm_ext_iff_of_nodup h.nodup h'.nodup).mpr hmem).eq_of_pairwise
    (fun _ _ _ _ hab hba => absurd (before_trans hab hba) not_before_self) h h'

/-- What is free, in order. -/
theorem inOrder_walk (f : FreeList) : InOrder bReverse (Lsm.lsmWalkFreelist f bReverse) := by
  have hkeys : f.keys.Pairwise (· < ·) := (Finset.sortedLT_sort _).pairwise
  refine inOrder_dir ?_
  refine List.pairwise_filterMap.mpr (hkeys.imp fun hlt a ha b hb => ?_)
  obtain ⟨x, -, rfl⟩ := Option.map_eq_some_iff.mp ha
  obtain ⟨y, -, rfl⟩ := Option.map_eq_some_iff.mp hb
  exact hlt

end InOrder

/-! ### A list over the entries below it -/

/-- The calls that the call for `e` leads to, with the entries `P` of the list left. -/
def calls (bReverse : Bool) : List (ℕ × ℤ) → ℕ × ℤ → List (ℕ × ℤ)
  | [], e => [e]
  | p :: P, e =>
      if before bReverse e.1 p.1 then [e]
      else (if 0 ≤ p.2 then [p] else []) ++ if p.1 = e.1 then [] else calls bReverse P e

/-- The entries of the list that are left then. -/
def rest (bReverse : Bool) : List (ℕ × ℤ) → ℕ × ℤ → List (ℕ × ℤ)
  | [], _ => []
  | p :: P, e =>
      if before bReverse e.1 p.1 then p :: P
      else if p.1 = e.1 then P else rest bReverse P e

/-- The calls that a walk over `L` leads to, with the list `P` over it. -/
def overlaid (bReverse : Bool) (P L : List (ℕ × ℤ)) : List (ℕ × ℤ) :=
  emitted (calls bReverse) (rest bReverse) P L ++
    (L.foldl (rest bReverse) P).filter fun p => 0 ≤ p.2

section Over

variable {bReverse : Bool} {P L : List (ℕ × ℤ)} {e p q : ℕ × ℤ}

theorem InOrder.head_lt (hP : InOrder bReverse (p :: P)) (hq : q ∈ P) :
    before bReverse p.1 q.1 := (List.pairwise_cons.mp hP).1 q hq

/-- What is left are the entries that the walk has yet to get to. -/
theorem rest_eq (hP : InOrder bReverse P) :
    rest bReverse P e = P.filter fun p => before bReverse e.1 p.1 := by
  induction P with
  | nil => rfl
  | cons p P ih =>
      have hbelow : ∀ q, before bReverse e.1 p.1 → q ∈ P → before bReverse e.1 q.1 :=
        fun q hep hq => before_trans hep (hP.head_lt hq)
      unfold rest
      split_ifs with hep heq
      · rw [List.filter_cons_of_pos (by simpa using hep), List.filter_eq_self.mpr]
        exact fun q hq => by simpa using hbelow q hep hq
      · rw [List.filter_cons_of_neg (by simpa using hep), List.filter_eq_self.mpr]
        exact fun q hq => by simpa using heq ▸ hP.head_lt hq
      · rw [List.filter_cons_of_neg (by simpa using hep), ih (List.pairwise_cons.mp hP).2]

theorem mem_calls (hP : InOrder bReverse P) : q ∈ calls bReverse P e ↔
    (q ∈ P ∧ ¬ before bReverse e.1 q.1 ∧ 0 ≤ q.2) ∨ (q = e ∧ ∀ p ∈ P, p.1 ≠ e.1) := by
  induction P with
  | nil => simp [calls]
  | cons p P ih =>
      have hbelow : ∀ r ∈ P, before bReverse p.1 r.1 := fun r hr => hP.head_lt hr
      unfold calls
      split_ifs with hep hfree heq heq
      · -- the entries left are behind `e`
        have hbehind : ∀ r ∈ p :: P, before bReverse e.1 r.1 := by
          intro r hr
          rcases List.mem_cons.mp hr with rfl | hr
          · exact hep
          · exact before_trans hep (hbelow r hr)
        constructor
        · intro hq
          exact .inr ⟨List.mem_singleton.mp hq, fun r hr h =>
            not_before_self (h ▸ hbehind r hr)⟩
        · rintro (⟨hq, hnot, -⟩ | ⟨rfl, -⟩)
          · exact absurd (hbehind q hq) hnot
          · exact List.mem_singleton_self q
      · rw [List.append_nil, List.mem_singleton]
        constructor
        · rintro rfl
          exact .inl ⟨List.mem_cons_self, hep, hfree⟩
        · rintro (⟨hq, hnot, -⟩ | ⟨-, hne⟩)
          · rcases List.mem_cons.mp hq with rfl | hq
            · rfl
            · exact absurd (heq ▸ hbelow q hq) hnot
          · exact absurd heq (hne p List.mem_cons_self)
      · rw [List.mem_append, ih (List.pairwise_cons.mp hP).2, List.mem_singleton,
          List.mem_cons, List.forall_mem_cons]
        constructor
        · rintro (rfl | ⟨hq, h⟩ | ⟨rfl, h⟩)
          · exact .inl ⟨.inl rfl, hep, hfree⟩
          · exact .inl ⟨.inr hq, h⟩
          · exact .inr ⟨rfl, heq, h⟩
        · rintro (⟨rfl | hq, h⟩ | ⟨rfl, -, h⟩)
          · exact .inl rfl
          · exact .inr (.inl ⟨hq, h⟩)
          · exact .inr (.inr ⟨rfl, h⟩)
      · constructor
        · rintro ⟨⟩
        · rintro (⟨hq, hnot, hq0⟩ | ⟨-, hne⟩)
          · rcases List.mem_cons.mp hq with rfl | hq
            · exact absurd hq0 hfree
            · exact absurd (heq ▸ hbelow q hq) hnot
          · exact absurd heq (hne p List.mem_cons_self)
      · rw [List.nil_append, ih (List.pairwise_cons.mp hP).2, List.mem_cons,
          List.forall_mem_cons]
        constructor
        · rintro (⟨hq, h⟩ | ⟨rfl, h⟩)
          · exact .inl ⟨.inr hq, h⟩
          · exact .inr ⟨rfl, heq, h⟩
        · rintro (⟨rfl | hq, hnot, hq0⟩ | ⟨rfl, -, h⟩)
          · exact absurd hq0 hfree
          · exact .inl ⟨hq, hnot, hq0⟩
          · exact .inr ⟨rfl, h⟩

/-- None of the calls is for a block behind `e`. -/
theorem not_before_of_mem_calls (hP : InOrder bReverse P) (hq : q ∈ calls bReverse P e) :
    ¬ before bReverse e.1 q.1 := by
  rcases (mem_calls hP).mp hq with ⟨-, h, -⟩ | ⟨rfl, -⟩
  · exact h
  · exact not_before_self

theorem inOrder_calls (hP : InOrder bReverse P) : InOrder bReverse (calls bReverse P e) := by
  induction P with
  | nil => exact List.pairwise_singleton _ _
  | cons p P ih =>
      have htail := (List.pairwise_cons.mp hP).2
      unfold calls
      split_ifs with hep hfree heq heq
      · exact List.pairwise_singleton _ _
      · exact List.pairwise_singleton _ _
      · refine List.pairwise_cons.mpr ⟨fun q hq => ?_, ih htail⟩
        rcases (mem_calls htail).mp hq with ⟨hq, -⟩ | ⟨rfl, -⟩
        · exact hP.head_lt hq
        · exact before_of_ne heq hep
      · exact List.Pairwise.nil
      · exact ih htail

theorem over_cons : overlaid bReverse P (e :: L) =
    calls bReverse P e ++ overlaid bReverse (rest bReverse P e) L := by
  rw [overlaid, overlaid, emitted, List.append_assoc]
  rfl

theorem inOrder_rest (hP : InOrder bReverse P) : InOrder bReverse (rest bReverse P e) := by
  rw [rest_eq hP]
  exact hP.filter _

/-- **The overlay**: what the list says, and below it what it does not mention. -/
theorem mem_over (hP : InOrder bReverse P) (hL : InOrder bReverse L) :
    q ∈ overlaid bReverse P L ↔ (q ∈ P ∧ 0 ≤ q.2) ∨ (q ∈ L ∧ ∀ p ∈ P, p.1 ≠ q.1) := by
  induction L generalizing P with
  | nil => simp [overlaid, emitted]
  | cons e L ih =>
      obtain ⟨hhead, hL⟩ := List.pairwise_cons.mp hL
      rw [over_cons, List.mem_append, ih (inOrder_rest hP) hL, mem_calls hP, rest_eq hP,
        List.mem_cons]
      simp only [List.mem_filter, decide_eq_true_eq]
      constructor
      · rintro ((⟨hq, -, h⟩ | ⟨rfl, h⟩) | ⟨⟨hq, -⟩, h⟩ | ⟨hq, h⟩)
        · exact .inl ⟨hq, h⟩
        · exact .inr ⟨.inl rfl, h⟩
        · exact .inl ⟨hq, h⟩
        · exact .inr ⟨.inr hq, fun p hp hpq => h p ⟨hp, hpq ▸ hhead q hq⟩ hpq⟩
      · rintro (⟨hq, h⟩ | ⟨rfl | hq, h⟩)
        · by_cases heq : before bReverse e.1 q.1
          · exact .inr (.inl ⟨⟨hq, heq⟩, h⟩)
          · exact .inl (.inl ⟨hq, heq, h⟩)
        · exact .inl (.inr ⟨rfl, h⟩)
        · exact .inr (.inr ⟨hq, fun p hp => h p hp.1⟩)

theorem inOrder_over (hP : InOrder bReverse P) (hL : InOrder bReverse L) :
    InOrder bReverse (overlaid bReverse P L) := by
  induction L generalizing P with
  | nil => exact hP.filter _
  | cons e L ih =>
      obtain ⟨hhead, hL⟩ := List.pairwise_cons.mp hL
      rw [over_cons]
      refine List.pairwise_append.mpr ⟨inOrder_calls hP, ih (inOrder_rest hP) hL,
        fun a ha b hb => before_of_not_before (not_before_of_mem_calls hP ha) ?_⟩
      rcases (mem_over (inOrder_rest hP) hL).mp hb with ⟨hb, -⟩ | ⟨hb, -⟩
      · rw [rest_eq hP, List.mem_filter] at hb
        exact decide_eq_true_eq.mp hb.2
      · exact hhead b hb

/-- A list over entries is a layer over what they say. -/
theorem mem_over_layer (upper : SortedMap ℕ ℤ) (below : ℕ → Option ℤ) {b : ℕ} {x : ℤ}
    (hL : InOrder bReverse L) (hbelow : ∀ b x, (b, x) ∈ L ↔ below b = some x) :
    (b, x) ∈ overlaid bReverse (dir bReverse upper.entries) L ↔
      layer upper (below b) b = some x := by
  rw [mem_over (inOrder_dir upper.sorted) hL, hbelow, mem_dir, ← upper.get?_eq_some_iff]
  unfold layer
  rcases hget : upper.get? b with - | y
  · have hnone : ∀ p ∈ dir bReverse upper.entries, p.1 ≠ b := fun p hp =>
      upper.get?_eq_none_iff.mp hget p (mem_dir.mp hp)
    simp only [reduceCtorEq, false_and, false_or]
    exact and_iff_left hnone
  · have hsome : ¬ ∀ p ∈ dir bReverse upper.entries, p.1 ≠ b := fun h =>
      h (b, y) (mem_dir.mpr (upper.get?_eq_some_iff.mp hget)) rfl
    simp only [hsome, and_false, or_false, Option.some.injEq]
    split_ifs with hneg
    · constructor
      · rintro ⟨rfl, h⟩
        exact absurd hneg (not_lt.mpr h)
      · rintro ⟨⟩
    · constructor
      · rintro ⟨rfl, -⟩
        rfl
      · intro h
        have hyx := Option.some.inj h
        exact ⟨hyx, hyx ▸ not_lt.mp hneg⟩

end Over


/-! ### The indexes -/

/-- The entries that a context has yet to pass on. -/
def pending (bReverse : Bool) (a : List (ℕ × ℤ)) (iFree : ℤ) : List (ℕ × ℤ) :=
  if bReverse then (a.take (iFree + 1).toNat).reverse else a.drop iFree.toNat

/-- The indexes that a walk can reach: one past either end of the list, at most. -/
def Valid (bReverse : Bool) (a : List (ℕ × ℤ)) (iFree : ℤ) : Prop :=
  if bReverse then -1 ≤ iFree ∧ iFree < a.length else 0 ≤ iFree

section Pending

variable {bReverse : Bool} {a : List (ℕ × ℤ)} {i : ℤ}

/-- The entry at the index is the first one pending. -/
theorem pending_cases (h : Valid bReverse a i) :
    (entryAt a i = none ∧ pending bReverse a i = []) ∨
    ∃ e, entryAt a i = some e ∧ Valid bReverse a (i + iDir bReverse) ∧
      pending bReverse a i = e :: pending bReverse a (i + iDir bReverse) := by
  cases bReverse with
  | false =>
      have h0 : 0 ≤ i := h
      unfold entryAt pending
      rw [if_pos h0]
      by_cases hi : i.toNat < a.length
      · refine .inr ⟨a[i.toNat], List.getElem?_eq_getElem hi, ?_, ?_⟩
        · show 0 ≤ i + 1
          omega
        · have hnext : (i + iDir false).toNat = i.toNat + 1 := by
            show (i + 1).toNat = _
            omega
          rw [hnext]
          exact List.drop_eq_getElem_cons hi
      · exact .inl ⟨List.getElem?_eq_none (not_lt.mp hi), List.drop_eq_nil_of_le (not_lt.mp hi)⟩
  | true =>
      obtain ⟨h0, hlt⟩ : -1 ≤ i ∧ i < a.length := h
      unfold entryAt pending
      by_cases hi : 0 ≤ i
      · have hlen : i.toNat < a.length := by omega
        rw [if_pos hi]
        refine .inr ⟨a[i.toNat], List.getElem?_eq_getElem hlen, ?_, ?_⟩
        · show -1 ≤ i + -1 ∧ i + -1 < a.length
          omega
        · have hsucc : (i + 1).toNat = i.toNat + 1 := by omega
          have hnext : (i + iDir true + 1).toNat = i.toNat := by
            show (i + -1 + 1).toNat = _
            omega
          rw [if_pos rfl, if_pos rfl, hsucc, hnext, List.take_succ_eq_append_getElem hlen,
            List.reverse_concat]
      · refine .inl ⟨if_neg hi, ?_⟩
        have hzero : (i + 1).toNat = 0 := by omega
        rw [if_pos rfl, hzero]
        rfl

theorem valid_newCtx : Valid bReverse a (newCtx a bReverse).iFree := by
  cases bReverse
  · exact le_refl (0 : ℤ)
  · show -1 ≤ (a.length : ℤ) - 1 ∧ (a.length : ℤ) - 1 < a.length
    omega

/-- At the start, every entry is pending. -/
theorem pending_newCtx : pending bReverse a (newCtx a bReverse).iFree = dir bReverse a := by
  cases bReverse
  · rfl
  · have hlen : ((a.length : ℤ) - 1 + 1).toNat = a.length := by omega
    show (a.take ((a.length : ℤ) - 1 + 1).toNat).reverse = a.reverse
    rw [hlen, List.take_length]

theorem length_pending : (pending bReverse a i).length ≤ a.length := by
  unfold pending
  split_ifs
  · rw [List.length_reverse]
    exact List.length_take_le' _ _
  · rw [List.length_drop]
    exact Nat.sub_le _ _

end Pending

/-! ### The callbacks call for the overlay -/

section Callbacks

variable {bReverse : Bool} {a : List (ℕ × ℤ)} {xUsr : τ → ℕ × ℤ → τ × Bool}

/-- An entry that is passed on is a call, if the block is free. -/
theorem visit_entry (t : τ) (e : ℕ × ℤ) :
    visit xUsr t (if 0 ≤ e.2 then [e] else []) = passEntry xUsr t e := by
  unfold passEntry
  split_ifs
  · exact visit_singleton t e
  · rfl

variable (xUsr) in
/-- The loop of the callback, and the call after it. -/
theorem orCall_walkFreelistLoop (e : ℕ × ℤ) {nEntry : ℕ} {i : ℤ} (t : τ)
    (hi : Valid bReverse a i) (hlen : (pending bReverse a i).length ≤ nEntry) :
    ∃ i', orCall xUsr e (walkFreelistLoop bReverse a xUsr e.1 nEntry i t) =
        ((i', (visit xUsr t (calls bReverse (pending bReverse a i) e)).1),
          (visit xUsr t (calls bReverse (pending bReverse a i) e)).2) ∧
      Valid bReverse a i' ∧
        ((visit xUsr t (calls bReverse (pending bReverse a i) e)).2 = false →
          pending bReverse a i' = rest bReverse (pending bReverse a i) e) := by
  induction nEntry generalizing i t with
  | zero =>
      have hnil : pending bReverse a i = [] := List.length_eq_zero_iff.mp (Nat.le_zero.mp hlen)
      rw [hnil]
      exact ⟨i, by rw [calls, visit_singleton]; rfl, hi, fun _ => hnil⟩
  | succ nEntry ih =>
      rcases pending_cases hi with ⟨hnone, hnil⟩ | ⟨p, hsome, hi', hcons⟩
      · rw [hnil]
        refine ⟨i, ?_, hi, fun _ => hnil⟩
        rw [calls, visit_singleton, walkFreelistLoop, hnone]
        rfl
      · rw [hcons, List.length_cons] at hlen
        rw [walkFreelistLoop, hsome, hcons]
        simp only
        unfold calls rest
        by_cases hbefore : before bReverse e.1 p.1
        · simp only [if_pos hbefore, visit_singleton]
          exact ⟨i, rfl, hi, fun _ => hcons⟩
        · simp only [if_neg hbefore]
          cases hstop : (passEntry xUsr t p).2 with
          | true =>
              rw [visit_append_stop (by rw [visit_entry, hstop]), visit_entry, hstop]
              exact ⟨_, rfl, hi', nofun⟩
          | false =>
              rw [visit_append_next (by rw [visit_entry, hstop]), visit_entry]
              by_cases heq : p.1 = e.1
              · simp only [Bool.false_eq_true, if_false, if_pos heq]
                exact ⟨_, rfl, hi', fun _ => rfl⟩
              · simp only [Bool.false_eq_true, if_false, if_neg heq]
                exact ih _ hi' (Nat.le_of_succ_le_succ hlen)

/-- A context stands for the entries that are pending, until a call says to stop. -/
def StandsFor (bReverse : Bool) (a : List (ℕ × ℤ)) (p : WalkFreelistCtx) (P : List (ℕ × ℤ)) :
    Prop :=
  Valid bReverse a p.iFree ∧ pending bReverse a p.iFree = P ∧ p.bDone = false

theorem standsFor_newCtx : StandsFor bReverse a (newCtx a bReverse) (dir bReverse a) :=
  ⟨valid_newCtx, pending_newCtx, rfl⟩

/-- `walkFreelistCb` makes the calls. -/
theorem walkFreelistCb_eq (p : WalkFreelistCtx) (P : List (ℕ × ℤ)) (t : τ) (e : ℕ × ℤ)
    (hp : StandsFor bReverse a p P) :
    ∃ p', walkFreelistCb bReverse a xUsr (p, t) e =
        ((p', (visit xUsr t (calls bReverse P e)).1), (visit xUsr t (calls bReverse P e)).2) ∧
      ((visit xUsr t (calls bReverse P e)).2 = false →
          StandsFor bReverse a p' (rest bReverse P e)) ∧
        ((visit xUsr t (calls bReverse P e)).2 = true → p'.bDone = true) := by
  obtain ⟨hi, rfl, hdone⟩ := hp
  obtain ⟨i', hcall, hi', hrest⟩ :=
    orCall_walkFreelistLoop xUsr e t hi (length_pending (a := a))
  refine ⟨⟨i', p.bDone || (visit xUsr t (calls bReverse (pending bReverse a p.iFree) e)).2⟩,
    ?_, fun h => ⟨hi', hrest h, ?_⟩, fun h => ?_⟩
  · unfold walkFreelistCb
    rw [hcall]
  · rw [hdone, h]
    rfl
  · rw [h]
    exact Bool.or_true _

/-- The last loop passes on what is still pending. -/
theorem walkFreelistTail_eq {nEntry : ℕ} {i : ℤ} (t : τ) (hi : Valid bReverse a i)
    (hlen : (pending bReverse a i).length ≤ nEntry) :
    walkFreelistTail bReverse a xUsr nEntry i t =
      visit xUsr t ((pending bReverse a i).filter fun p => 0 ≤ p.2) := by
  induction nEntry generalizing i t with
  | zero =>
      rw [List.length_eq_zero_iff.mp (Nat.le_zero.mp hlen)]
      rfl
  | succ nEntry ih =>
      rcases pending_cases hi with ⟨hnone, hnil⟩ | ⟨p, hsome, hi', hcons⟩
      · rw [hnil, walkFreelistTail, hnone]
        rfl
      · rw [hcons, List.length_cons] at hlen
        have hsplit : (p :: pending bReverse a (i + iDir bReverse)).filter (fun p => 0 ≤ p.2) =
            (if 0 ≤ p.2 then [p] else []) ++
              (pending bReverse a (i + iDir bReverse)).filter (fun p => 0 ≤ p.2) := by
          rw [List.filter_cons]
          simp only [decide_eq_true_eq]
          split_ifs <;> rfl
        rw [hcons, hsplit, walkFreelistTail, hsome]
        simp only
        cases hstop : (passEntry xUsr t p).2 with
        | true =>
            rw [visit_append_stop (by rw [visit_entry, hstop]), visit_entry, if_pos rfl, ← hstop]
        | false =>
            rw [visit_append_next (by rw [visit_entry, hstop]), visit_entry,
              ih _ hi' (Nat.le_of_succ_le_succ hlen)]
            rfl

variable (bReverse a xUsr) in
/-- **One list over a walk**: the walk below it, and then the last loop, make the calls of
the overlay.  The walk below ends early where `bDone` is set. -/
theorem walk_over (L : List (ℕ × ℤ)) (t : τ) :
    let s := visit (walkFreelistCb bReverse a xUsr) (newCtx a bReverse, t) L
    let P := overlaid bReverse (dir bReverse a) L
    s.2 = s.1.1.bDone ∧ (s.1.1.bDone = true → visit xUsr t P = (s.1.2, true)) ∧
      (s.1.1.bDone = false →
        visit xUsr t P = walkFreelistTail bReverse a xUsr a.length s.1.1.iFree s.1.2) := by
  obtain ⟨p', hvisit, hstand, hdone⟩ := visit_through (y := xUsr) (J := fun p => p.bDone = true)
    (walkFreelistCb_eq (a := a)) L t standsFor_newCtx
  simp only
  rw [hvisit, overlaid]
  cases hstop : (visit xUsr t (emitted (calls bReverse) (rest bReverse) (dir bReverse a) L)).2 with
  | true =>
      refine ⟨(hdone hstop).symm, fun _ => ?_, fun h => ?_⟩
      · rw [visit_append_stop hstop, ← hstop]
      · rw [hdone hstop] at h
        cases h
  | false =>
      obtain ⟨hi, hpending, hfalse⟩ := hstand hstop
      refine ⟨hfalse.symm, fun h => ?_, fun _ => ?_⟩
      · rw [hfalse] at h
        cases h
      · rw [visit_append_next hstop, walkFreelistTail_eq _ hi length_pending, hpending]

end Callbacks


/-! ### The walk of the three layers -/

section Walk

variable (f : FreeList) (bReverse : Bool)

/-- The calls of the walk: the temporary list over the worker's over the LSM. -/
def walked : List (ℕ × ℤ) :=
  overlaid bReverse (dir bReverse ((f.temp.map SortedMap.entries).getD []))
    (overlaid bReverse (dir bReverse f.worker.entries) (dir bReverse f.stored.entries))

/-- `lsmWalkFreelist` makes the calls of the two overlays, up to the first that says to
stop. -/
theorem lsmWalkFreelist_eq (x : τ → ℕ × ℤ → τ × Bool) (t : τ) :
    lsmWalkFreelist f bReverse x t = (visit x t (walked f bReverse)).1 := by
  obtain ⟨-, hdone0, htail0⟩ := walk_over bReverse f.worker.entries
    (walkFreelistCb bReverse ((f.temp.map SortedMap.entries).getD []) x)
    (dir bReverse f.stored.entries)
    (newCtx ((f.temp.map SortedMap.entries).getD []) bReverse, t)
  obtain ⟨hflag, hdone1, htail1⟩ := walk_over bReverse ((f.temp.map SortedMap.entries).getD []) x
    (overlaid bReverse (dir bReverse f.worker.entries) (dir bReverse f.stored.entries)) t
  unfold lsmWalkFreelist lsmSortedWalkFreelist walked
  simp only
  split_ifs with h0 h1
  · -- a call of the walk of the LSM stopped it
    rw [hdone0 h0] at hflag hdone1
    rw [hdone1 hflag.symm]
  · -- a call of the first of the last loops did
    rw [htail0 (by simpa using h0)] at hflag hdone1
    rw [hdone1 (hflag ▸ h1)]
  · rw [htail0 (by simpa using h0)] at hflag htail1
    rw [htail1 (hflag ▸ by simpa using h1)]

variable {f}

theorem inOrder_worker :
    InOrder bReverse
      (overlaid bReverse (dir bReverse f.worker.entries) (dir bReverse f.stored.entries)) :=
  inOrder_over (inOrder_dir f.worker.sorted) (inOrder_dir f.stored.sorted)

theorem mem_walked (hstored : ∀ e ∈ f.stored.entries, 0 ≤ e.2) {b : ℕ} {iId : ℤ} :
    (b, iId) ∈ walked f bReverse ↔ f.iId? b = some iId := by
  have hbottom : ∀ b iId, (b, iId) ∈ dir bReverse f.stored.entries ↔
      layer f.stored none b = some iId := by
    intro b iId
    rw [mem_dir, ← f.stored.get?_eq_some_iff]
    unfold layer
    rcases hget : f.stored.get? b with - | y
    · exact Iff.rfl
    · have hy := hstored (b, y) (f.stored.get?_eq_some_iff.mp hget)
      simp only [if_neg (not_lt.mpr hy)]
  let below := fun b => layer f.worker (layer f.stored none b) b
  have hworker : ∀ b iId,
      (b, iId) ∈ overlaid bReverse (dir bReverse f.worker.entries)
          (dir bReverse f.stored.entries) ↔ below b = some iId := fun b iId =>
    mem_over_layer f.worker _ (inOrder_dir f.stored.sorted) hbottom
  unfold walked FreeList.iId?
  rcases f.temp with - | temp
  · exact mem_over_layer SortedMap.empty below (inOrder_worker bReverse) hworker
  · exact mem_over_layer temp below (inOrder_worker bReverse) hworker

/-- The calls are for what is free in the overlay. -/
theorem walk_visit (hstored : ∀ e ∈ f.stored.entries, 0 ≤ e.2) (bReverse : Bool)
    (x : τ → ℕ × ℤ → τ × Bool) (t : τ) :
    lsmWalkFreelist f bReverse x t = (visit x t (Lsm.lsmWalkFreelist f bReverse)).1 := by
  have hlist : walked f bReverse = Lsm.lsmWalkFreelist f bReverse := by
    refine InOrder.eq_of_mem ?_ (inOrder_walk f) fun e => ?_
    · refine inOrder_over (inOrder_dir ?_) (inOrder_worker bReverse)
      rcases f.temp with - | temp
      · exact List.Pairwise.nil
      · exact temp.sorted
    · exact (mem_walked bReverse hstored).trans mem_lsmWalkFreelist.symm
  rw [lsmWalkFreelist_eq, hlist]

/-- **The walk of the free list**: the callback is called for what is free in the overlay, in
order, with the id of the topmost layer, up to the first call that returns true. -/
theorem lsmWalkFreelist_visits (f : FreeList) (hstored : ∀ e ∈ f.stored.entries, 0 ≤ e.2)
    (bReverse : Bool) (x : τ → ℕ × ℤ → τ × Bool) (t : τ) :
    lsmWalkFreelist f bReverse x t = (visit x t (Lsm.lsmWalkFreelist f bReverse)).1 ∧
      InOrder bReverse (Lsm.lsmWalkFreelist f bReverse) ∧
      ∀ b iId, (b, iId) ∈ Lsm.lsmWalkFreelist f bReverse ↔ f.iId? b = some iId :=
  ⟨walk_visit hstored bReverse x t, inOrder_walk f, fun _ _ => mem_lsmWalkFreelist⟩

/-- Blocks 4 and 9 are free in the LSM, block 7 in the worker's list, which takes back 9; the
temporary list takes back 7 and frees 5. -/
theorem lsmWalkFreelist_visits_layers :
    let f : FreeList := ⟨⟨[(4, 2), (9, 3)], by decide⟩, ⟨[(7, 5), (9, -1)], by decide⟩,
      some ⟨[(5, 6), (7, -1)], by decide⟩⟩
    let x := fun (l : List (ℕ × ℤ)) e => (e :: l, false)
    lsmWalkFreelist f true x [] = [(4, 2), (5, 6)] ∧
      (visit x [] (Lsm.lsmWalkFreelist f true)).1 = [(4, 2), (5, 6)] := by
  intro f x
  have hwalk : lsmWalkFreelist f true x [] = [(4, 2), (5, 6)] := by decide
  exact ⟨hwalk, by rw [← (lsmWalkFreelist_visits f (by decide) true x []).1, hwalk]⟩

end Walk

end FreeWalk

end Lsm

end MoVeBench
