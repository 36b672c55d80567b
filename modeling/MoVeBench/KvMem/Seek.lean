/-
MoVeBench/KvMem/Seek.lean

What cursors find.

The rows are seen in the order of a direction: upwards for `kvmemNextEntry` and a seek to larger
keys, downwards for `kvmemPrevEntry` and a seek to smaller ones.  A step leads to the next row
(`kvmemNextEntry_finds`), a seek to the first row that it accepts (`kvmemSeek_finds`).  Deleted
rows, which are still in the tree, are never seen.
-/
import MoVeBench.KvMem.Walk
import MoVeBench.KvMem.Refine

namespace MoVeBench

namespace KvMem

open AvlTree AvlTree.BinTree UndoLog Runs
open Lsm (Bytes)

/-! ### What a cursor shows -/

/-- `kvmemKey`, `none` for `SQLITE4_DONE`. -/
def kvmemKey (p : KVMem) (i : ℕ) : Option Bytes :=
  if (p.cursor i).pNode = 0 then none else some (p.rows (p.cursor i).pNode).aKey

/-- `kvmemData`, from the byte `ofst` on. -/
def kvmemData (p : KVMem) (i ofst : ℕ) : Option Bytes := (p.cursor i).pData.map (·.drop ofst)

/-- The row that a cursor shows. -/
def shown (p : KVMem) (i : ℕ) : Option (Bytes × Bytes) :=
  (kvmemKey p i).bind fun k => (kvmemData p i 0).map fun d => (k, d)

/-! ### Rows in order -/

/-- The row of a node. -/
def rowOf (p : KVMem) (x : Ptr) : Option (Bytes × Bytes) :=
  (p.rows x).pData.map fun d => ((p.rows x).aKey, d)

/-- The rows in the order of a direction. -/
def KVMem.rowsTo (p : KVMem) (d : Side) : List (Bytes × Bytes) :=
  match d with
  | .before => p.content.reverse
  | .after => p.content

/-- A key lies behind another in the direction. -/
def Beyond (d : Side) (k k' : Bytes) : Prop :=
  match d with
  | .before => k' < k
  | .after => k < k'

instance (d : Side) (k k' : Bytes) : Decidable (Beyond d k k') := by
  cases d <;> exact inferInstanceAs (Decidable (_ < _))

variable {p p' : KVMem} {t : BinTree Ptr} {d : Side} {x y : Ptr} {i n : ℕ} {aKey : Bytes}
  {l l' : List Ptr} {s : Session}

theorem Beyond.ne {k k' : Bytes} (h : Beyond d k k') : k' ≠ k := by
  cases d
  · exact ne_of_lt h
  · exact ne_of_gt h

theorem Beyond.trans {k k' k'' : Bytes} (h : Beyond d k k') (h' : Beyond d k' k'') :
    Beyond d k k'' := by
  cases d
  · exact lt_trans h' h
  · exact lt_trans h h'

theorem Beyond.asymm {k k' : Bytes} (h : Beyond d k k') : ¬ Beyond d k' k := by
  cases d
  · exact lt_asymm h
  · exact lt_asymm h

theorem beyond_total (d : Side) {k k' : Bytes} (hne : k' ≠ k) (h : ¬ Beyond d k k') :
    Beyond d k' k := by
  cases d
  · exact lt_of_le_of_ne (not_lt.mp h) (Ne.symm hne)
  · exact lt_of_le_of_ne (not_lt.mp h) hne

theorem Shaped.rowsTo (hs : Shaped p t 0) (d : Side) :
    p.rowsTo d = (listTo d t).filterMap (rowOf p) := by
  have hcontent : p.content = t.toList.filterMap (rowOf p) := by
    rw [KVMem.content, hs.treeNodes]
    rfl
  cases d
  · rw [KVMem.rowsTo, hcontent, listTo, List.filterMap_reverse]
  · exact hcontent

/-- The nodes lie behind each other. -/
theorem beyond_listTo (hsorted : t.toList.Pairwise fun x y => (p.rows x).aKey < (p.rows y).aKey)
    (d : Side) : (listTo d t).Pairwise fun x y => Beyond d (p.rows x).aKey (p.rows y).aKey := by
  cases d
  · exact List.pairwise_reverse.mpr hsorted
  · exact hsorted

theorem Shaped.beyond (hs : Shaped p t 0) (d : Side) :
    (listTo d t).Pairwise fun x y => Beyond d (p.rows x).aKey (p.rows y).aKey :=
  beyond_listTo hs.sorted d

/-! ### The search -/

/-- The direction in which a seek looks on. -/
def sideOf (direction : ℤ) : Side := if direction < 0 then .before else .after

/-- A seek accepts the key that it looks for, and any key behind it if it has a direction. -/
def Accepts (direction : ℤ) (aKey k : Bytes) : Prop :=
  k = aKey ∨ direction ≠ 0 ∧ Beyond (sideOf direction) aKey k

instance (direction : ℤ) (aKey k : Bytes) : Decidable (Accepts direction aKey k) :=
  inferInstanceAs (Decidable (_ ∨ _))

/-- The row that a seek looks for: the one with the key, or else the first one behind it. -/
def sought (direction : ℤ) (aKey : Bytes) (l : List (Bytes × Bytes)) : Option (Bytes × Bytes) :=
  if direction = 0 then l.find? fun e => e.1 = aKey
  else if 0 < direction then l.find? fun e => aKey ≤ e.1
  else l.reverse.find? fun e => e.1 ≤ aKey

variable {direction : ℤ} {best : Ptr × Rc}

theorem Accepts.onward {k k' : Bytes} (h : Accepts direction aKey k)
    (hb : Beyond (sideOf direction) k k') (h0 : direction ≠ 0) : Accepts direction aKey k' := by
  rcases h with rfl | ⟨-, h⟩
  · exact Or.inr ⟨h0, hb⟩
  · exact Or.inr ⟨h0, h.trans hb⟩

/-- A key in front of the one looked for is not accepted. -/
theorem not_accepts {k : Bytes} (h : Beyond (sideOf direction) k aKey) :
    ¬ Accepts direction aKey k := by
  rintro (rfl | ⟨-, h'⟩)
  · exact h.ne rfl
  · exact h.asymm h'

theorem accepts_up (h : 0 < direction) {k : Bytes} : Accepts direction aKey k ↔ aKey ≤ k := by
  rw [Accepts, sideOf, if_neg (by omega), Beyond, and_iff_right (by omega), le_iff_lt_or_eq,
    or_comm, eq_comm (a := k)]

theorem accepts_down (h : direction < 0) {k : Bytes} : Accepts direction aKey k ↔ k ≤ aKey := by
  rw [Accepts, sideOf, if_pos h, Beyond, and_iff_right (by omega), le_iff_lt_or_eq, or_comm]

theorem sought_eq (p : KVMem) : sought direction aKey p.content =
    (p.rowsTo (sideOf direction)).find? fun e => Accepts direction aKey e.1 := by
  rw [sought]
  split_ifs with h0 hpos
  · rw [sideOf, if_neg (by omega), KVMem.rowsTo]
    simp only [Accepts, h0, ne_eq, not_true_eq_false, false_and, or_false]
  · rw [sideOf, if_neg (by omega), KVMem.rowsTo]
    congr 1
    funext e
    exact decide_eq_decide.mpr (accepts_up hpos).symm
  · rw [sideOf, if_pos (by omega), KVMem.rowsTo]
    congr 1
    funext e
    exact decide_eq_decide.mpr (accepts_down (by omega)).symm

theorem Beyond.reverse {e : Side} {k k' : Bytes} (h : Beyond e k k') : Beyond e.other k' k := by
  cases e <;> exact h

/-- A round of the loop at a node with another key. -/
theorem seekLoop_step {e : Side} (hx : x ≠ 0) (hb : Beyond e (p.rows x).aKey aKey) :
    seekLoop p aKey direction (n + 1) x best = seekLoop p aKey direction n ((p.links x).child e)
      (if direction ≠ 0 ∧ sideOf direction ≠ e then (x, .inexact) else best) := by
  obtain ⟨hneg, hpos⟩ := kvmemKeyCompare_sign aKey (p.rows x).aKey
  rw [seekLoop, if_neg hx]
  dsimp only
  cases e with
  | before =>
      have hc := hneg.mpr hb
      rw [if_neg hc.ne, if_neg (by omega)]
      congr 1
      refine if_congr ?_ rfl rfl
      rw [sideOf]
      split_ifs with hd <;> simp <;> omega
  | after =>
      have hc := hpos.mpr hb
      rw [if_neg hc.ne', if_pos hc]
      congr 1
      refine if_congr ?_ rfl rfl
      rw [sideOf]
      split_ifs with hd <;> simp <;> omega

/-- The first node on the way that the seek accepts, or what had been found before. -/
def firstAccepted (p : KVMem) (direction : ℤ) (aKey : Bytes) (best : Ptr × Rc) (l : List Ptr) :
    Ptr × Rc :=
  match l.find? fun x => Accepts direction aKey (p.rows x).aKey with
  | some x => (x, if (p.rows x).aKey = aKey then .ok else .inexact)
  | none => best

theorem firstAccepted_append (l l' : List Ptr) :
    firstAccepted p direction aKey best (l ++ l') =
      firstAccepted p direction aKey (firstAccepted p direction aKey best l') l := by
  rw [firstAccepted, List.find?_append]
  rcases hl : l.find? fun x => Accepts direction aKey (p.rows x).aKey with - | x
  · conv_rhs => rw [firstAccepted, hl]
    rfl
  · conv_rhs => rw [firstAccepted, hl]
    rfl

theorem firstAccepted_none (h : ∀ x ∈ l, ¬ Accepts direction aKey (p.rows x).aKey) :
    firstAccepted p direction aKey best l = best := by
  rw [firstAccepted, List.find?_eq_none.mpr fun x hx => by simpa using h x hx]

theorem firstAccepted_cons (h : Accepts direction aKey (p.rows x).aKey) :
    firstAccepted p direction aKey best (x :: l) =
      (x, if (p.rows x).aKey = aKey then .ok else .inexact) := by
  rw [firstAccepted, List.find?_cons_of_pos (by simpa using h)]

/-- **The loop of `kvmemSeek`** leads to the first node that it accepts, deleted or not. -/
theorem seekLoop_spec {up r : Ptr} (hl : Linked p.links up t r)
    (hsorted : t.toList.Pairwise fun x y => (p.rows x).aKey < (p.rows y).aKey)
    (hn : t.toList.length ≤ n) : seekLoop p aKey direction n r best =
      firstAccepted p direction aKey best (listTo (sideOf direction) t) := by
  induction n generalizing t up r best with
  | zero =>
      have hnil : t = .nil := by
        cases t with
        | nil => rfl
        | node l x u => simp [toList] at hn
      subst hnil
      rw [seekLoop, firstAccepted_none fun x hx => by simp at hx]
  | succ n ih =>
      by_cases hnil : t = .nil
      · subst hnil
        obtain rfl : r = 0 := hl
        rw [seekLoop, if_pos rfl, firstAccepted_none fun x hx => by simp at hx]
      by_cases hkey : (p.rows r).aKey = aKey
      · -- The key is found; the nodes in front of it are not accepted.
        obtain ⟨u, x, v, rfl⟩ := exists_mk (sideOf direction) hnil
        obtain ⟨rfl, hx, -, -, -, -, -⟩ := linked_mk.mp hl
        have hbeyond := beyond_listTo hsorted (sideOf direction)
        rw [listTo_mk, List.pairwise_append] at hbeyond
        obtain ⟨hneg, hpos⟩ := kvmemKeyCompare_sign aKey (p.rows r).aKey
        rw [hkey] at hneg hpos
        have hc : kvmemKeyCompare aKey aKey = 0 :=
          le_antisymm (not_lt.mp fun h => lt_irrefl _ (hpos.mp h))
            (not_lt.mp fun h => lt_irrefl _ (hneg.mp h))
        rw [seekLoop, if_neg hx]
        dsimp only
        rw [hkey, if_pos hc, listTo_mk, firstAccepted_append, firstAccepted_cons (Or.inl hkey),
          if_pos hkey]
        refine (firstAccepted_none fun y hy => not_accepts ?_).symm
        exact hkey ▸ hbeyond.2.2 y hy r List.mem_cons_self
      · -- The search goes on at the side on which the key lies.
        obtain ⟨e, hb⟩ : ∃ e, Beyond e (p.rows r).aKey aKey := by
          by_cases hb : Beyond .after (p.rows r).aKey aKey
          · exact ⟨_, hb⟩
          · exact ⟨_, (beyond_total .after (Ne.symm hkey) hb).reverse⟩
        obtain ⟨u, x, v, rfl⟩ := exists_mk e hnil
        obtain ⟨rfl, hx, -, hu, -, -, -⟩ := linked_mk.mp hl
        have hbeyond := beyond_listTo hsorted e
        have hlen := length_listTo e (mk e u r v)
        rw [listTo_mk, List.length_append, List.length_cons, length_listTo, length_listTo] at hlen
        rw [listTo_mk, List.pairwise_append, List.pairwise_cons] at hbeyond
        have hv : ∀ y, y = r ∨ y ∈ v.toList → Beyond e (p.rows y).aKey aKey := by
          rintro y (rfl | hy)
          · exact hb
          · exact (hbeyond.2.2 y (mem_listTo.mpr hy) r List.mem_cons_self).trans hb
        have hsub : u.toList.Sublist (mk e u r v).toList := by
          cases e
          · exact List.sublist_append_left _ _
          · exact (List.sublist_cons_self _ _).trans (List.sublist_append_right _ _)
        rw [seekLoop_step hx hb, ih hu (hsorted.sublist hsub) (by omega)]
        by_cases hd : sideOf direction = e
        · -- Nothing on the other side is accepted.
          subst hd
          rw [if_neg fun hif => hif.2 rfl, listTo_mk, List.append_cons, firstAccepted_append,
            firstAccepted_none (l := listTo _ v ++ [r])]
          intro y hy
          refine not_accepts (hv y ?_)
          rw [List.mem_append, List.mem_singleton, mem_listTo, or_comm] at hy
          exact hy
        · -- The node is the first one behind the side on which the search goes on.
          obtain ⟨d, hd'⟩ : ∃ d, sideOf direction = d := ⟨_, rfl⟩
          rw [hd'] at hd ⊢
          obtain rfl : e = d.other := by
            cases e <;> cases d <;> simp_all [Side.other]
          rw [mk_other, listTo_mk, firstAccepted_append]
          congr 1
          by_cases h0 : direction = 0
          · rw [if_neg fun hif => hif.1 h0, firstAccepted_none]
            rintro y hy (heq | ⟨h0', -⟩)
            · rw [List.mem_cons, mem_listTo] at hy
              exact (hv y hy).ne heq.symm
            · exact h0' h0
          · rw [if_pos ⟨h0, hd⟩, firstAccepted_cons, if_neg hkey]
            refine Or.inr ⟨h0, ?_⟩
            have hrev := hb.reverse
            rw [Side.other_other] at hrev
            exact hd' ▸ hrev

/-! ### Moving -/

/-- A cursor is at a node of the tree, with the content of the node. -/
def At (p : KVMem) (t : BinTree Ptr) (i : ℕ) (x : Ptr) : Prop :=
  x ∈ t.toList ∧ p.cursor i = ⟨x, (p.rows x).pData⟩

theorem cursor_set {c : KVMemCursor} (hi : i < p.cursors.length)
    (h : p'.cursors = p.cursors.set i c) : p'.cursor i = c ∧ ∀ j ≠ i, p'.cursor j = p.cursor j := by
  constructor
  · simp [KVMem.cursor, h, hi]
  · intro j hj
    simp [KVMem.cursor, h, List.getElem?_set_ne (Ne.symm hj)]

/-- What a call on a cursor leaves as it is. -/
structure Others (p p' : KVMem) (i : ℕ) : Prop where
  quiet : Quiet p p'
  cursor : ∀ j ≠ i, p'.cursor j = p.cursor j

theorem Others.trans {p'' : KVMem} (h : Others p p' i) (h' : Others p' p'' i) : Others p p'' i :=
  ⟨h.quiet.trans h'.quiet, fun j hj => (h'.cursor j hj).trans (h.cursor j hj)⟩

/-- The other cursors show what they showed. -/
theorem Others.shown (h : Others p p' i) {j : ℕ} (hj : j ≠ i) : shown p' j = shown p j := by
  simp only [KvMem.shown, kvmemKey, kvmemData, h.cursor j hj, h.quiet.aKey]

theorem Quiet.rowsTo (hq : Quiet p p') (d : Side) : p'.rowsTo d = p.rowsTo d := by
  cases d <;> simp only [KVMem.rowsTo, hq.content]

theorem reset_at (hs : Sound p t) (hi : i < p.cursors.length) : Moved p (kvmemReset p i) t ∧
    Others p (kvmemReset p i) i ∧ (kvmemReset p i).cursor i = ⟨0, none⟩ := by
  obtain ⟨h1, h2⟩ := reset_spec hs i
  obtain ⟨h3, h4⟩ := cursor_set hi h2
  exact ⟨h1, ⟨h1.quiet, h4⟩, h3⟩

theorem pointAt_at (hs : Sound p t) (hx : x ∈ t.toList) (hi : i < p.cursors.length)
    (hreset : p.cursor i = ⟨0, none⟩) : Moved p (pointAt p i x) t ∧ Others p (pointAt p i x) i ∧
      At (pointAt p i x) t i x := by
  obtain ⟨h1, h2⟩ := pointAt_spec hs hx hi (by rw [hreset])
  obtain ⟨h3, h4⟩ := cursor_set hi h2
  exact ⟨h1, ⟨h1.quiet, h4⟩, hx, by rw [h3, h1.quiet.pData]⟩

/-- The results of a call that moves a cursor to the first of these nodes that is not deleted. -/
def Leads (p : KVMem) (t : BinTree Ptr) (i : ℕ) (l : List Ptr) (r : KVMem × Rc) : Prop :=
  match l.find? fun y => (p.rows y).pData.isSome with
  | some y => At r.1 t i y ∧ r.2 = .ok
  | none => r.1.cursor i = ⟨0, none⟩ ∧ r.2 = .notfound

/-- **`kvmemNextEntry` and `kvmemPrevEntry`** from a node of the tree. -/
theorem moveEntry_leads (hs : Sound p t) (hi : i < p.cursors.length)
    (hsplit : listTo d t = l ++ (p.cursor i).pNode :: l') :
    Moved p (moveEntry (kvmemStep d) p i).1 t ∧ Others p (moveEntry (kvmemStep d) p i).1 i ∧
      Leads p t i l' (moveEntry (kvmemStep d) p i) := by
  obtain ⟨h1, h2, h3⟩ := reset_at hs hi
  obtain ⟨q, hq⟩ : ∃ q, kvmemReset p i = q := ⟨_, rfl⟩
  rw [hq] at h1 h2 h3
  have hlen := congrArg List.length hsplit
  rw [List.length_append, List.length_cons, length_listTo] at hlen
  have hskip := skipDeleted_spec (n := q.pFresh) h1.sound.shaped hsplit (by
    have := h1.sound.shaped.length_lt
    omega)
  rw [moveEntry, Leads]
  simp only [hq, hskip, h2.quiet.pData]
  rcases hf : l'.find? fun y => (p.rows y).pData.isSome with - | y
  · rw [if_neg (by simp)]
    exact ⟨h1, h2, h3, rfl⟩
  · have hy : y ∈ t.toList := by
      rw [← mem_listTo (d := d), hsplit]
      exact List.mem_append_right _ (List.mem_cons_of_mem _ (List.mem_of_find?_eq_some hf))
    obtain ⟨h4, h5, h6⟩ := pointAt_at h1.sound hy (h1.length ▸ hi) h3
    rw [Option.getD_some, if_pos (hs.shaped.nonzero hy)]
    exact ⟨h1.trans h4, h2.trans h5, h6, rfl⟩

theorem skipDeleted_zero : skipDeleted (kvmemStep d) n p 0 = 0 := by
  have hstep : kvmemStep d p.pFresh p.links 0 = 0 := by
    rw [kvmemStep]
    cases p.pFresh <;> simp [climb]
  cases n with
  | zero => rfl
  | succ n =>
      rw [skipDeleted, hstep]
      exact if_neg fun hif => hif.1 rfl

/-- From a cursor that is nowhere a step leads nowhere. -/
theorem moveEntry_nowhere (hs : Sound p t) (hi : i < p.cursors.length)
    (hcur : (p.cursor i).pNode = 0) :
    Moved p (moveEntry (kvmemStep d) p i).1 t ∧ Others p (moveEntry (kvmemStep d) p i).1 i ∧
      (moveEntry (kvmemStep d) p i).1.cursor i = ⟨0, none⟩ ∧
      (moveEntry (kvmemStep d) p i).2 = .notfound := by
  obtain ⟨h1, h2, h3⟩ := reset_at hs hi
  obtain ⟨q, hq⟩ : ∃ q, kvmemReset p i = q := ⟨_, rfl⟩
  rw [hq] at h1 h2 h3
  rw [moveEntry]
  simp only [hq, hcur, skipDeleted_zero, ne_eq, not_true_eq_false, if_false]
  exact ⟨h1, h2, h3, trivial⟩

/-! ### Rows -/

theorem find?_eq_head? {α : Type*} {P : α → Bool} {l l' : List α} (h : ∀ a ∈ l, ¬ P a)
    (h' : ∀ a ∈ l', P a) : (l ++ l').find? P = l'.head? := by
  rw [List.find?_append, List.find?_eq_none.mpr h, Option.none_or]
  cases l' with
  | nil => rfl
  | cons a l' => rw [List.find?_cons_of_pos (h' a List.mem_cons_self), List.head?_cons]

theorem rowOf_some {e : Bytes × Bytes} (h : rowOf p x = some e) :
    (p.rows x).aKey = e.1 ∧ (p.rows x).pData = some e.2 := by
  obtain ⟨c, hc, rfl⟩ := Option.map_eq_some_iff.mp h
  exact ⟨rfl, hc⟩

/-- A row of a list of nodes comes from one of them. -/
theorem exists_of_rows {e : Bytes × Bytes} (h : e ∈ l.filterMap (rowOf p)) :
    ∃ x ∈ l, (p.rows x).aKey = e.1 := by
  obtain ⟨x, hx, he⟩ := List.mem_filterMap.mp h
  exact ⟨x, hx, (rowOf_some he).1⟩

theorem At.shown (h : At p t i x) (hs : Shaped p t 0) : shown p i = rowOf p x := by
  have hx := hs.nonzero h.1
  rw [KvMem.shown, kvmemKey, kvmemData, h.2, if_neg hx, rowOf]
  cases (p.rows x).pData <;> rfl

theorem shown_nowhere (h : p.cursor i = ⟨0, none⟩) : shown p i = none := by
  rw [KvMem.shown, kvmemKey, h, if_pos rfl]
  rfl

/-- A row is found. -/
def foundRc (o : Option (Bytes × Bytes)) : Rc := if o.isSome then .ok else .notfound

theorem Leads.shown {r : KVMem × Rc} (h : Leads p t i l r) (hq : Quiet p r.1)
    (hs : Shaped r.1 t 0) : shown r.1 i = (l.filterMap (rowOf p)).head? ∧
      r.2 = foundRc (l.filterMap (rowOf p)).head? := by
  rw [Leads] at h
  have hhead : (l.filterMap (rowOf p)).head? =
      (l.find? fun y => (p.rows y).pData.isSome).bind (rowOf p) := by
    clear h
    induction l with
    | nil => rfl
    | cons y l ih =>
        rcases hd : (p.rows y).pData with - | c
        · rw [List.filterMap_cons_none (by rw [rowOf, hd]; rfl), ih,
            List.find?_cons_of_neg (by simp [hd])]
        · have hy : rowOf p y = some ((p.rows y).aKey, c) := by rw [rowOf, hd]; rfl
          rw [List.filterMap_cons_some hy, List.find?_cons_of_pos (by simp [hd]), List.head?_cons,
            Option.bind_some, hy]
  rw [hhead]
  rcases hf : l.find? fun y => (p.rows y).pData.isSome with - | y
  · rw [hf] at h
    exact ⟨shown_nowhere h.1, h.2⟩
  · rw [hf] at h
    have hsome := List.find?_some hf
    obtain ⟨c, hc⟩ := Option.isSome_iff_exists.mp hsome
    have hrow : rowOf r.1 y = rowOf p y := by rw [rowOf, rowOf, hq.pData, hq.aKey]
    rw [h.1.shown hs, hrow, Option.bind_some]
    refine ⟨rfl, h.2.trans ?_⟩
    rw [foundRc, rowOf, hc]
    rfl

/-- The rows behind a node of the tree. -/
theorem Shaped.rows_beyond (hs : Shaped p t 0) (hsplit : listTo d t = l ++ x :: l') :
    ((p.rowsTo d).find? fun e => Beyond d (p.rows x).aKey e.1) =
      (l'.filterMap (rowOf p)).head? := by
  have hbeyond := hs.beyond d
  rw [hsplit, List.pairwise_append, List.pairwise_cons] at hbeyond
  rw [hs.rowsTo, hsplit, List.append_cons, List.filterMap_append]
  refine find?_eq_head? (fun e he => ?_) fun e he => ?_
  · obtain ⟨y, hy, hk⟩ := exists_of_rows he
    rw [← hk, decide_eq_true_iff]
    rcases List.mem_append.mp hy with hy | hy
    · exact (hbeyond.2.2 y hy x List.mem_cons_self).asymm
    · rw [List.mem_singleton.mp hy]
      exact fun h => h.ne rfl
  · obtain ⟨y, hy, hk⟩ := exists_of_rows he
    rw [← hk, decide_eq_true_iff]
    exact hbeyond.2.1.1 y hy

/-- **A step finds the next row.** -/
theorem moveEntry_finds (hs : Sound p t) (hi : i < p.cursors.length) (hon : OnNode p i) :
    Moved p (moveEntry (kvmemStep d) p i).1 t ∧ Others p (moveEntry (kvmemStep d) p i).1 i ∧
      let next := (kvmemKey p i).bind fun k => (p.rowsTo d).find? fun e => Beyond d k e.1
      shown (moveEntry (kvmemStep d) p i).1 i = next ∧
        (moveEntry (kvmemStep d) p i).2 = foundRc next := by
  rcases hon.mem hs.shaped with h0 | hx
  · obtain ⟨h1, h2, h3, h4⟩ := moveEntry_nowhere (d := d) hs hi h0
    refine ⟨h1, h2, ?_⟩
    rw [kvmemKey, if_pos h0]
    exact ⟨shown_nowhere h3, h4⟩
  · obtain ⟨l, l', hsplit⟩ := List.append_of_mem (mem_listTo (d := d).mpr hx)
    obtain ⟨h1, h2, h3⟩ := moveEntry_leads hs hi hsplit
    refine ⟨h1, h2, ?_⟩
    rw [kvmemKey, if_neg (hs.shaped.nonzero hx), Option.bind_some, hs.shaped.rows_beyond hsplit]
    exact h3.shown h1.quiet h1.sound.shaped

/-! ### Seeking -/

/-- What a seek returns. -/
def seekRc (aKey : Bytes) : Option (Bytes × Bytes) → Rc
  | none => .notfound
  | some e => if e.1 = aKey then .ok else .inexact

/-- The nodes on the way of a seek, divided at the first one that it accepts. -/
theorem seekLoop_cases (hs : Sound p t) (direction : ℤ) (aKey : Bytes) :
    (seekLoop p aKey direction p.pFresh p.pRoot (0, .notfound) = (0, .notfound) ∧
      ∀ y ∈ t.toList, ¬ Accepts direction aKey (p.rows y).aKey) ∨
    ∃ l x l', listTo (sideOf direction) t = l ++ x :: l' ∧
      (∀ y ∈ l, ¬ Accepts direction aKey (p.rows y).aKey) ∧
      Accepts direction aKey (p.rows x).aKey ∧
      seekLoop p aKey direction p.pFresh p.pRoot (0, .notfound) =
        (x, if (p.rows x).aKey = aKey then .ok else .inexact) := by
  rw [seekLoop_spec hs.shaped.linked hs.shaped.sorted hs.shaped.length_lt.le, firstAccepted]
  rcases hf : (listTo (sideOf direction) t).find? fun x =>
      Accepts direction aKey (p.rows x).aKey with - | x
  · refine Or.inl ⟨rfl, fun y hy => ?_⟩
    have hy' := List.find?_eq_none.mp hf y (mem_listTo.mpr hy)
    rwa [decide_eq_true_iff] at hy'
  · obtain ⟨hx, l, l', hsplit, hl⟩ := List.find?_eq_some_iff_append.mp hf
    refine Or.inr ⟨l, x, l', hsplit, fun y hy => ?_, of_decide_eq_true hx, rfl⟩
    have hy' := hl y hy
    rwa [Bool.not_eq_true', decide_eq_false_iff_not] at hy'

/-- The rows at and behind the first node that a seek accepts. -/
theorem Shaped.sought (hs : Shaped p t 0) (hsplit : listTo (sideOf direction) t = l ++ x :: l')
    (hl : ∀ y ∈ l, ¬ Accepts direction aKey (p.rows y).aKey)
    (hx : Accepts direction aKey (p.rows x).aKey) :
    sought direction aKey p.content =
      if direction = 0 then rowOf p x else ((x :: l').filterMap (rowOf p)).head? := by
  have hbeyond := hs.beyond (sideOf direction)
  rw [hsplit, List.pairwise_append, List.pairwise_cons] at hbeyond
  have hrows := hs.rowsTo (sideOf direction)
  rw [hsplit] at hrows
  have hfront : ∀ e ∈ l.filterMap (rowOf p), ¬ (decide (Accepts direction aKey e.1)) = true := by
    intro e he
    obtain ⟨y, hy, hk⟩ := exists_of_rows he
    rw [← hk, decide_eq_true_iff]
    exact hl y hy
  rw [sought_eq, hrows]
  split_ifs with h0
  · -- Only the key itself is accepted.
    have hkey : (p.rows x).aKey = aKey := hx.resolve_right fun h => h.1 h0
    have hback : ∀ e ∈ l'.filterMap (rowOf p),
        ¬ (decide (Accepts direction aKey e.1)) = true := by
      intro e he
      obtain ⟨y, hy, hk⟩ := exists_of_rows he
      rw [← hk, decide_eq_true_iff]
      rintro (heq | h)
      · exact (hbeyond.2.1.1 y hy).ne (heq.trans hkey.symm)
      · exact h.1 h0
    rw [List.filterMap_append, List.find?_append, List.find?_eq_none.mpr hfront, Option.none_or]
    rcases hr : rowOf p x with - | e
    · rw [List.filterMap_cons_none hr]
      exact List.find?_eq_none.mpr hback
    · rw [List.filterMap_cons_some hr, List.find?_cons_of_pos]
      rw [decide_eq_true_iff, ← (rowOf_some hr).1]
      exact hx
  · rw [List.filterMap_append]
    refine find?_eq_head? hfront fun e he => ?_
    obtain ⟨y, hy, hk⟩ := exists_of_rows he
    rw [← hk, decide_eq_true_iff]
    rcases List.mem_cons.mp hy with rfl | hy
    · exact hx
    · exact hx.onward (hbeyond.2.1.1 y hy) h0

/-- A cursor is reset or at a node of the tree. -/
def Placed (p : KVMem) (t : BinTree Ptr) (i : ℕ) : Prop :=
  p.cursor i = ⟨0, none⟩ ∨ ∃ x, At p t i x

theorem Leads.placed {r : KVMem × Rc} (h : Leads p t i l r) : Placed r.1 t i := by
  rw [Leads] at h
  rcases hf : l.find? fun y => (p.rows y).pData.isSome with - | y
  · rw [hf] at h
    exact Or.inl h.1
  · rw [hf] at h
    exact Or.inr ⟨y, h.1⟩

/-- A seek that came to a deleted node goes on to the next row. -/
theorem seekOn_finds (hs : Sound p t) (hi : i < p.cursors.length) (hat : At p t i x)
    (hsplit : listTo d t = l ++ x :: l')
    (hne : ∀ y ∈ l', (p.rows y).aKey ≠ aKey) :
    Moved p (moveEntry (kvmemStep d) p i).1 t ∧ Others p (moveEntry (kvmemStep d) p i).1 i ∧
      Placed (moveEntry (kvmemStep d) p i).1 t i ∧
      shown (moveEntry (kvmemStep d) p i).1 i = (l'.filterMap (rowOf p)).head? ∧
      (if (moveEntry (kvmemStep d) p i).2 ≠ .ok then Rc.notfound else .inexact) =
        seekRc aKey (l'.filterMap (rowOf p)).head? := by
  have hsplit' : listTo d t = l ++ (p.cursor i).pNode :: l' := by rw [hat.2, hsplit]
  obtain ⟨h1, h2, h3⟩ := moveEntry_leads hs hi hsplit'
  obtain ⟨h4, h5⟩ := h3.shown h1.quiet h1.sound.shaped
  refine ⟨h1, h2, h3.placed, h4, ?_⟩
  rw [h5]
  rcases hh : (l'.filterMap (rowOf p)).head? with - | e
  · rfl
  · obtain ⟨y, hy, hk⟩ := exists_of_rows (List.mem_of_mem_head? hh)
    exact (if_neg (hk ▸ hne y hy)).symm

/-- **What `kvmemSeek` finds.** -/
theorem seek_finds (hs : Sound p t) (hi : i < p.cursors.length) (aKey : Bytes) (direction : ℤ) :
    Moved p (kvmemSeek p i aKey direction).1 t ∧ Others p (kvmemSeek p i aKey direction).1 i ∧
      Placed (kvmemSeek p i aKey direction).1 t i ∧
      shown (kvmemSeek p i aKey direction).1 i = sought direction aKey p.content ∧
      (kvmemSeek p i aKey direction).2 = seekRc aKey (sought direction aKey p.content) := by
  obtain ⟨h1, h2, h3⟩ := reset_at hs hi
  obtain ⟨q, hq⟩ : ∃ q, kvmemReset p i = q := ⟨_, rfl⟩
  rw [hq] at h1 h2 h3
  have hqi : i < q.cursors.length := h1.length ▸ hi
  rw [kvmemSeek, ← h2.quiet.content]
  simp only [hq]
  rcases seekLoop_cases h1.sound direction aKey with
    ⟨hloop, hnone⟩ | ⟨l, x, l', hsplit, hl, hx, hloop⟩
  · -- No node is accepted.
    have hsought : sought direction aKey q.content = none := by
      rw [sought_eq, List.find?_eq_none]
      intro e he
      rw [h1.sound.shaped.rowsTo] at he
      obtain ⟨y, hy, hk⟩ := exists_of_rows he
      rw [← hk, decide_eq_true_iff]
      exact hnone y (mem_listTo.mp hy)
    simp only [hloop, ne_eq, not_true_eq_false, if_false]
    rw [hsought]
    exact ⟨h1, h2, Or.inl h3, shown_nowhere h3, rfl⟩
  have hxt : x ∈ t.toList := by
    rw [← mem_listTo (d := sideOf direction), hsplit]
    exact List.mem_append_right _ List.mem_cons_self
  have hx0 := h1.sound.shaped.nonzero hxt
  obtain ⟨h4, h5, h6⟩ := pointAt_at h1.sound hxt hqi h3
  have hsought := h1.sound.shaped.sought hsplit hl hx
  obtain ⟨r, hr⟩ : ∃ r, pointAt q i x = r := ⟨_, rfl⟩
  rw [hr] at h4 h5 h6
  have hrow : rowOf r x = rowOf q x := by rw [rowOf, rowOf, h5.quiet.pData, h5.quiet.aKey]
  simp only [hloop, ne_eq, hx0, not_false_eq_true, if_true, hr, h5.quiet.pData]
  rcases hd : (q.rows x).pData with - | c
  · have hnone : rowOf q x = none := by rw [rowOf, hd]; rfl
    rw [hnone, List.filterMap_cons_none hnone] at hsought
    by_cases h0 : direction = 0
    · -- The key is that of a deleted row.
      rw [if_pos h0] at hsought
      rw [if_pos rfl, if_pos h0, hsought]
      refine ⟨h1.trans h4, h2.trans h5, Or.inr ⟨x, h6⟩, ?_, rfl⟩
      rw [h6.shown h4.sound.shaped, hrow, hnone]
    · have hbeyond := h1.sound.shaped.beyond (sideOf direction)
      rw [hsplit, List.pairwise_append, List.pairwise_cons] at hbeyond
      have hne : ∀ y ∈ l', (r.rows y).aKey ≠ aKey := by
        intro y hy
        have hxy := hbeyond.2.1.1 y hy
        rw [h5.quiet.aKey]
        rcases hx with heq | ⟨-, hx⟩
        · exact heq ▸ hxy.ne
        · exact (hx.trans hxy).ne
      have hmove : (if 0 < direction then kvmemNextEntry r i else kvmemPrevEntry r i) =
          moveEntry (kvmemStep (sideOf direction)) r i := by
        split_ifs with hpos
        · rw [sideOf, if_neg (by omega)]
          rfl
        · rw [sideOf, if_pos (by omega)]
          rfl
      have hrows : rowOf r = rowOf q := by
        funext y
        rw [rowOf, rowOf, h5.quiet.pData, h5.quiet.aKey]
      rw [if_neg h0, ← hrows] at hsought
      obtain ⟨h7, h8, h9, h10, h11⟩ := seekOn_finds h4.sound (h4.length ▸ hqi) h6 hsplit hne
      simp only [if_true, h0, if_false, hmove]
      rw [hsought]
      exact ⟨(h1.trans h4).trans h7, (h2.trans h5).trans h8, h9, h10, h11⟩
  · have hsome : rowOf q x = some ((q.rows x).aKey, c) := by rw [rowOf, hd]; rfl
    rw [hsome, List.filterMap_cons_some hsome, List.head?_cons, ite_self] at hsought
    rw [if_neg (by simp), hsought]
    refine ⟨h1.trans h4, h2.trans h5, Or.inr ⟨x, h6⟩, ?_, rfl⟩
    rw [h6.shown h4.sound.shaped, hrow, hsome]

/-! ### Results -/

/-- **A seek finds the row of the key, or else the nearest one in its direction.** -/
theorem kvmemSeek_finds (hrun : FittingRun s) (hi : i < s.store.cursors.length) (aKey : Bytes)
    (direction : ℤ) :
    shown (kvmemSeek s.store i aKey direction).1 i = sought direction aKey s.store.content ∧
      (kvmemSeek s.store i aKey direction).2 =
        seekRc aKey (sought direction aKey s.store.content) ∧
      ∀ j ≠ i, shown (kvmemSeek s.store i aKey direction).1 j = shown s.store j := by
  obtain ⟨t, hk⟩ := hrun.kept
  obtain ⟨-, h2, -, h4, h5⟩ := seek_finds hk.sound hi aKey direction
  exact ⟨h4, h5, fun j hj => h2.shown hj⟩

def rowAfter (l : List (Bytes × Bytes)) (k : Bytes) : Option (Bytes × Bytes) :=
  l.find? fun e => k < e.1

def rowBefore (l : List (Bytes × Bytes)) (k : Bytes) : Option (Bytes × Bytes) :=
  l.reverse.find? fun e => e.1 < k

/-- **A step finds the next row, or the previous one.** -/
theorem kvmemNextEntry_finds (hrun : FittingRun s) (hi : i < s.store.cursors.length)
    (hon : OnNode s.store i) :
    (shown (kvmemNextEntry s.store i).1 i =
        (kvmemKey s.store i).bind (rowAfter s.store.content) ∧
      (kvmemNextEntry s.store i).2 =
        foundRc ((kvmemKey s.store i).bind (rowAfter s.store.content))) ∧
    shown (kvmemPrevEntry s.store i).1 i =
        (kvmemKey s.store i).bind (rowBefore s.store.content) ∧
      (kvmemPrevEntry s.store i).2 =
        foundRc ((kvmemKey s.store i).bind (rowBefore s.store.content)) := by
  obtain ⟨t, hk⟩ := hrun.kept
  exact ⟨(moveEntry_finds (d := .after) hk.sound hi hon).2.2,
    (moveEntry_finds (d := .before) hk.sound hi hon).2.2⟩

local instance byteNeZero : NeZero 256 := ⟨Nat.succ_ne_zero 255⟩

/-- A store with a deleted row between two others, and a cursor. -/
def gapCalls : List Call :=
  [.begin 2 true, .replace [1] [7] fun _ => true, .replace [3] [8] fun _ => true,
    .replace [5] [9] fun _ => true, .openCursor true, .seek 0 [3] 0, .delete 0 true]

def gapStore : Session := gapCalls.foldl Session.call Session.start

theorem fittingRun_gap : FittingRun gapStore :=
  reach_calls (.init rfl) gapCalls (by decide +kernel)

/-- The deleted row is passed over. -/
theorem kvmemSeek_finds_gap :
    shown (kvmemSeek gapStore.store 0 [2] 1).1 0 = sought 1 [2] gapStore.store.content ∧
      sought 1 [2] gapStore.store.content = some ([5], [9]) :=
  ⟨(kvmemSeek_finds fittingRun_gap (by decide +kernel) [2] 1).1, by decide +kernel⟩

theorem kvmemNextEntry_finds_gap : (kvmemNextEntry gapStore.store 0).2 = .ok ∧
    shown (kvmemNextEntry gapStore.store 0).1 0 = some ([5], [9]) := by
  obtain ⟨⟨h1, h2⟩, -⟩ :=
    kvmemNextEntry_finds fittingRun_gap (i := 0) (by decide +kernel) (by decide +kernel)
  exact ⟨h2.trans (by decide +kernel), h1.trans (by decide +kernel)⟩

end KvMem

end MoVeBench
