/-
MoVeBench/Lsm/Merge.lean

Merging runs does not change what they say about a key.

At every moment of a merge the records written so far, followed by the inputs
from their current records on, say about every key what the inputs said at the
start (`lookupThen lhs (view inputs)`).  A merge that makes the oldest run of the
database drops what is deleted, and keeps the values alone.
-/
import MoVeBench.Lsm.MergeCursor

namespace MoVeBench

namespace Lsm

open Run

variable {κ V : Type} [LinearOrder κ]

section Places

variable {a b r : Record κ V} {l : Run κ V} {inputs : Inputs κ V} {p : Cursor κ V} {k : κ}
  {bIgnoreDelete : Bool} {c : κ ×ₗ ℤ}

theorem place_key_le (h : place bIgnoreDelete a ≤ place bIgnoreDelete b) : a.key ≤ b.key := by
  rcases Prod.Lex.toLex_le_toLex.mp h with hlt | ⟨heq, -⟩
  · exact hlt.le
  · exact heq.le

theorem place_lt (h : a.key < b.key) : place bIgnoreDelete a < place bIgnoreDelete b :=
  Prod.Lex.toLex_lt_toLex.mpr (.inl h)

omit [LinearOrder κ] in
theorem place_false : place false a = toLex (a.key, 0) := rfl

omit [LinearOrder κ] in
theorem place_false_eq (h : a.key = b.key) : place false a = place false b := by
  rw [place_false, place_false, h]

theorem place_false_le (h : a.key ≤ b.key) : place false a ≤ place false b :=
  Prod.Lex.toLex_le_toLex.mpr (h.lt_or_eq.imp id fun heq => ⟨heq, le_rfl⟩)

/-- What is left starts behind the place. -/
theorem lt_head_dropTo : ∀ r ∈ (dropTo bIgnoreDelete c l).head?, c < place bIgnoreDelete r := by
  induction l with
  | nil => exact nofun
  | cons r l ih =>
      by_cases h : place bIgnoreDelete r ≤ c
      · rw [dropTo_cons_le h]
        exact ih
      · rw [dropTo_eq_self (by rintro r' ⟨⟩; exact not_le.mp h)]
        rintro r' ⟨⟩
        exact not_le.mp h

/-- Nothing is lost for keys behind the place. -/
theorem lookup_dropTo (h : ∀ r ∈ l, place bIgnoreDelete r ≤ c → r.key < k) :
    (dropTo bIgnoreDelete c l).lookup k = l.lookup k := by
  induction l with
  | nil => rfl
  | cons r l ih =>
      by_cases hr : place bIgnoreDelete r ≤ c
      · rw [dropTo_cons_le hr, ih fun r' h' => h r' (List.mem_cons_of_mem _ h'),
          lookup_cons_after (h r List.mem_cons_self hr)]
      · rw [dropTo_eq_self (by rintro r' ⟨⟩; exact not_le.mp hr)]

theorem view_dropCur_after (h : p.cur.key < k) :
    view (dropCur bIgnoreDelete inputs p) k = view inputs k :=
  view_congr fun _ _ => lookup_dropTo fun _ _ hr => (place_key_le hr).trans_lt h

/-- In a sorted run at most the first record is at the place of the cursor. -/
theorem dropTo_head (hs : Sorted l) (hle : ∀ r ∈ l.head?, c ≤ place bIgnoreDelete r) :
    dropTo bIgnoreDelete c l =
      match l with
      | [] => []
      | r :: l => if place bIgnoreDelete r = c then l else r :: l := by
  cases l with
  | nil => rfl
  | cons r l =>
      by_cases h : place bIgnoreDelete r = c
      · simp only [if_pos h]
        rw [dropTo_cons_le h.le]
        refine dropTo_eq_self fun r' hr' => ?_
        rw [← h]
        exact place_lt (hs.head_lt r' (List.mem_of_mem_head? hr'))
      · simp only [if_neg h]
        exact dropTo_eq_self (by rintro r' ⟨⟩; exact lt_of_le_of_ne (hle r rfl) (Ne.symm h))

/-- So does the whole rest of a sorted run. -/
theorem lt_dropTo (hs : Sorted l) : ∀ r ∈ dropTo bIgnoreDelete c l, c < place bIgnoreDelete r := by
  induction l with
  | nil => exact nofun
  | cons r l ih =>
      by_cases h : place bIgnoreDelete r ≤ c
      · rw [dropTo_cons_le h]
        exact ih hs.tail
      · rw [dropTo_eq_self (by rintro r' ⟨⟩; exact not_le.mp h)]
        intro r' hr'
        rcases List.mem_cons.mp hr' with rfl | hr'
        · exact not_le.mp h
        · exact (not_le.mp h).trans (place_lt (hs.head_lt r' hr'))

theorem sorted_dropTo (hs : Sorted l) : Sorted (dropTo bIgnoreDelete c l) :=
  List.Pairwise.sublist (List.dropWhile_sublist _) hs

theorem matched_dropTo (hm : Matched false l) : Matched false (dropTo bIgnoreDelete c l) := by
  induction l with
  | nil => trivial
  | cons r l ih =>
      by_cases h : place bIgnoreDelete r ≤ c
      · rw [dropTo_cons_le h]
        exact ih hm.2
      · rw [dropTo_eq_self (by rintro r' ⟨⟩; exact not_le.mp h)]
        exact hm

theorem bare_dropTo (hb : Bare l) : Bare (dropTo bIgnoreDelete c l) := fun r hr =>
  hb r ((List.dropWhile_sublist _).subset hr)

end Places

/-! ### Merges that keep deletes -/

/-- Separators are in the last inputs alone. -/
def SepLast (inputs : Inputs κ V) : Prop :=
  inputs.Pairwise fun l m => (∀ r ∈ l, r.separator = false) ∨ ∀ r ∈ m, r.separator = true

structure InputsOk (inputs : Inputs κ V) : Prop where
  sorted : ∀ l ∈ inputs, Sorted l
  matched : ∀ l ∈ inputs, Matched false l
  bare : ∀ l ∈ inputs, Bare l
  sepLast : SepLast inputs

section Keep

variable {inputs : Inputs κ V} {p : Cursor κ V} (bPtr : κ → Bool)

theorem InputsOk.dropCur (h : InputsOk inputs) (p : Cursor κ V) :
    InputsOk (dropCur false inputs p) where
  sorted l hl := by
    obtain ⟨m, hm, rfl⟩ := List.mem_map.mp hl
    exact sorted_dropTo (h.sorted m hm)
  matched l hl := by
    obtain ⟨m, hm, rfl⟩ := List.mem_map.mp hl
    exact matched_dropTo (h.matched m hm)
  bare l hl := by
    obtain ⟨m, hm, rfl⟩ := List.mem_map.mp hl
    exact bare_dropTo (h.bare m hm)
  sepLast := by
    refine List.pairwise_map.mpr (h.sepLast.imp ?_)
    rintro l m (hl | hm)
    · exact .inl fun r hr => hl r ((List.dropWhile_sublist _).subset hr)
    · exact .inr fun r hr => hm r ((List.dropWhile_sublist _).subset hr)

/-- The inputs around a cursor. -/
structure Around (inputs : Inputs κ V) (p : Cursor κ V) : Prop where
  le : ∀ l ∈ inputs, ∀ r ∈ l.head?, p.cur.key ≤ r.key
  newer : ∀ l ∈ p.newer, ∀ r ∈ l.head?, r.key = p.cur.key → r.data.isSome = false
  older : ∀ l ∈ p.older, ∀ r ∈ l.head?, r.key = p.cur.key → r.data.isSome = true →
    p.cur.data.isSome = true
  mem_newer : ∀ l ∈ p.newer, l ∈ inputs
  mem_older : ∀ l ∈ p.older, l ∈ inputs
  mem_cur : p.cur :: p.rest ∈ inputs

theorem Cursor.Spec.around (h : p.Spec false inputs) : Around inputs p where
  le l hl r hr := place_key_le (h.le l hl r hr)
  newer l hl r hr hk := (h.newer l hl r hr (place_false_eq hk)).1
  older l hl r hr hk := h.data l (by rw [h.eq]; simp [hl]) r hr (place_false_eq hk)
  mem_newer l hl := by rw [h.eq]; simp [hl]
  mem_older l hl := by rw [h.eq]; simp [hl]
  mem_cur := by rw [h.eq]; simp

/-- The gaps once the key of the cursor is past. -/
theorem gapAny_dropCur (hok : InputsOk inputs) (h : Around inputs p) :
    gapAny (dropCur false inputs p) = inputs.any (gapAfter p.cur.key) := by
  unfold gapAny dropCur
  rw [List.any_map, Bool.eq_iff_iff, List.any_eq_true, List.any_eq_true]
  refine exists_congr fun l => and_congr_right fun hl => Bool.eq_iff_iff.mp ?_
  show gap false (dropTo false (place false p.cur) l) = gapAfter p.cur.key l
  have hle := h.le l hl
  have hm := hok.matched l hl
  rw [dropTo_head (hok.sorted l hl) fun r hr => place_false_le (hle r hr)]
  cases l with
  | nil => rfl
  | cons r l =>
      show gap false (if place false r = place false p.cur then l else r :: l) =
        if r.key = p.cur.key then r.startDelete else r.endDelete
      by_cases hk : r.key = p.cur.key
      · rw [if_pos (place_false_eq hk), if_pos hk, hm.1]
      · rw [if_neg fun heq => hk (le_antisymm (place_key_le heq.le) (place_key_le heq.ge)),
          if_neg hk]
        rfl

/-- The runs that are newer than the cursor's can only delete its key. -/
theorem view_newer (h : Around inputs p) :
    view p.newer p.cur.key = if p.newer.any (covers p.cur.key) then some none else none :=
  view_deleted fun l hl => lookup_noData (h.le l (h.mem_newer l hl)) (h.newer l hl)

theorem view_older (h : Around inputs p) (hd : p.cur.data.isSome = false) :
    view p.older p.cur.key = if p.older.any (covers p.cur.key) then some none else none := by
  refine view_deleted fun l hl => lookup_noData (h.le l (h.mem_older l hl)) fun r hr hk => ?_
  by_contra hne
  rw [Bool.not_eq_false] at hne
  rw [h.older l hl r hr hk hne] at hd
  cases hd

theorem view_around (hs : p.Spec false inputs) (k : κ) :
    view inputs k = (view p.newer k).or ((lookup (p.cur :: p.rest) k).or (view p.older k)) := by
  rw [hs.eq, view_append]
  congr 1
  unfold view
  rw [List.findSome?_cons]
  rcases lookup (p.cur :: p.rest) k with - | w <;> rfl

/-- Behind the cursor's key nothing changes, and before it the gap decides. -/
theorem view_dropCur {k : κ} (h : Around inputs p)
    (hgap : gapAny (dropCur false inputs p) = gapAny inputs)
    (hkey : view inputs p.cur.key = if gapAny inputs then some none else none) :
    view (dropCur false inputs p) k = view inputs k := by
  have hbefore : ∀ {k}, k ≤ p.cur.key → view (dropCur false inputs p) k =
      if gapAny inputs then some none else none := by
    intro k hk
    rw [← hgap]
    refine view_before fun l hl r hr => ?_
    obtain ⟨m, -, rfl⟩ := List.mem_map.mp hl
    rcases Prod.Lex.toLex_lt_toLex.mp (lt_head_dropTo r hr) with hlt | ⟨-, hlt⟩
    · exact hk.trans_lt hlt
    · exact absurd hlt (lt_irrefl _)
  rcases lt_trichotomy k p.cur.key with hk | rfl | hk
  · rw [hbefore hk.le]
    exact (view_before fun l hl r hr => hk.trans_le (h.le l hl r hr)).symm
  · rw [hbefore le_rfl, hkey]
  · exact view_dropCur_after hk

/-- A record that the cursor does not visit lies in a deleted range. -/
theorem mergeSkip (hok : InputsOk inputs) (hp : multiCursorMin false inputs = some p)
    (hloc : mcursorLocationOk false p = false) :
    gapAny (dropCur false inputs p) = gapAny inputs ∧
      ∀ k, view (dropCur false inputs p) k = view inputs k := by
  have hs := multiCursorMin_spec hp
  have h := hs.around
  have hcov : p.newer.any (covers p.cur.key) = true := by
    by_contra hcov
    refine Bool.eq_false_iff.mp hloc ?_
    show (true && p.newer.all _) = true
    rw [Bool.true_and, List.all_eq_true]
    intro l hl
    cases l with
    | nil => rfl
    | cons r l =>
        have hc : ¬ covers p.cur.key (r :: l) = true := fun hc =>
          hcov (List.any_eq_true.mpr ⟨_, hl, hc⟩)
        by_cases hk : r.key = p.cur.key
        · simp [hk]
        · simp only [covers, ne_eq, hk, not_false_eq_true, decide_true, Bool.true_and] at hc
          simp [hc]
  obtain ⟨hgap, hafter⟩ := covers_any hcov
  have hsub : ∀ g : Run κ V → Bool, p.newer.any g = true → inputs.any g = true := by
    intro g hg
    obtain ⟨l, hl, hgl⟩ := List.any_eq_true.mp hg
    exact List.any_eq_true.mpr ⟨l, h.mem_newer l hl, hgl⟩
  have hg : gapAny inputs = true := hsub _ hgap
  have hg' : gapAny (dropCur false inputs p) = true := by
    rw [gapAny_dropCur hok h]
    exact hsub _ hafter
  refine ⟨hg'.trans hg.symm, fun k => view_dropCur h (hg'.trans hg.symm) ?_⟩
  rw [view_around hs, view_newer h, hcov, hg]
  rfl

/-- No newer input deletes the key that the cursor visits. -/
theorem mcursorLocationOk_covers {b : Bool} (hloc : mcursorLocationOk b p = true) :
    p.newer.any (covers p.cur.key) = false := by
  rw [Bool.eq_false_iff]
  intro hcov
  obtain ⟨l, hl, hc⟩ := List.any_eq_true.mp hcov
  have hall := (Bool.and_eq_true_iff.mp hloc).2
  have hl' := List.all_eq_true.mp hall l hl
  cases l with
  | nil => cases hc
  | cons r l =>
      simp only [covers, ne_eq, decide_not, Bool.and_eq_true, Bool.not_eq_true',
        decide_eq_false_iff_not] at hc
      simp [hc.1, hc.2] at hl'

/-- The gap in front of the cursor's key, input by input. -/
theorem gapAny_around (hs : p.Spec false inputs) :
    gapAny inputs = ((p.cur.endDelete || gapAny p.newer) || gapAny p.older) := by
  rw [hs.eq]
  unfold gapAny
  rw [List.any_append, List.any_cons, ← Bool.or_assoc, Bool.or_comm (p.newer.any _)]
  rfl

/-- The gap behind it. -/
theorem gapAny_dropCur_around (hok : InputsOk inputs) (hs : p.Spec false inputs) :
    gapAny (dropCur false inputs p) =
      ((p.cur.startDelete || p.newer.any (gapAfter p.cur.key)) ||
        p.older.any (gapAfter p.cur.key)) := by
  rw [gapAny_dropCur hok hs.around]
  conv_lhs => rw [hs.eq]
  rw [List.any_append, List.any_cons, ← Bool.or_assoc, Bool.or_comm (p.newer.any _)]
  simp only [gapAfter, if_true]

/-- What the inputs say at the cursor's key, if no newer one deletes it. -/
theorem view_cur (hs : p.Spec false inputs) (hcov : p.newer.any (covers p.cur.key) = false) :
    view inputs p.cur.key = p.cur.data.decides.or (view p.older p.cur.key) := by
  rw [view_around hs, view_newer hs.around, hcov, lookup_cons_self]
  rfl

/-- The record that is written says at its key what the inputs say, and its flags
are the gaps on its two sides; where none is written, the gap goes on. -/
theorem mergeRangeDeletes_spec (hok : InputsOk inputs)
    (hp : multiCursorMin false inputs = some p) (hloc : mcursorLocationOk false p = true) :
    (mergeRangeDeletes false p = none ∧
      gapAny (dropCur false inputs p) = gapAny inputs ∧
      view inputs p.cur.key = if gapAny inputs then some none else none) ∨
    ∃ f, mergeRangeDeletes false p = some f ∧ f.key = p.cur.key ∧
      f.separator = p.cur.separator ∧ f.data = p.cur.data ∧
      f.endDelete = gapAny inputs ∧
      f.startDelete = gapAny (dropCur false inputs p) ∧
      f.data.decides = view inputs p.cur.key ∧
      (p.cur.data.isSome = false → (p.newer ++ p.older).any (covers p.cur.key) = false) := by
  have hs := multiCursorMin_spec hp
  have h := hs.around
  have hcov := mcursorLocationOk_covers hloc
  obtain ⟨hkey, hdata, hsep, hstart, hend⟩ := mergeNewer_spec (f := p.cur) h.newer hcov
  have hgap := gapAny_around hs
  have hafter := gapAny_dropCur_around hok hs
  have hview := view_cur hs hcov
  unfold mergeRangeDeletes
  rw [if_neg (by decide)]
  rcases mergeOlder_spec (f := mergeNewer p.cur.key p.newer p.cur)
    (fun l hl => h.le l (h.mem_older l hl))
    (fun l hl r hr hk hd => by rw [hdata]; exact h.older l hl r hr hk hd) with
    ⟨hnone, hd, hany⟩ | ⟨g, hg, hgk, hgd, hgs, hgst, hge, hgc⟩
  · -- an older input deletes the key, and no input has data for it
    rw [hdata] at hd
    obtain ⟨hog, hoa⟩ := covers_any hany
    refine .inl ⟨by rw [hnone], ?_, ?_⟩
    · rw [hgap, hafter, hog, hoa, Bool.or_true, Bool.or_true]
    · rw [hview, Data.decides_eq_none hd, view_older h hd, hany, hgap, hog, Bool.or_true]
      rfl
  · rw [hg]
    rw [hdata] at hgd hgc
    have hge' : g.endDelete = gapAny inputs := by rw [hge, hend, hgap]
    have hgst' : g.startDelete = gapAny (dropCur false inputs p) := by
      rw [hgst, hstart, hafter]
    have hgv : g.data.decides = view inputs p.cur.key := by
      rw [hview, hgd]
      cases hd : p.cur.data.isSome with
      | false =>
          rw [view_older h hd, hgc hd, Data.decides_eq_none hd]
          rfl
      | true =>
          rcases e : p.cur.data with - | - | v
          · rw [e] at hd
            cases hd
          · rfl
          · rfl
    have hnocov : p.cur.data.isSome = false →
        (p.newer ++ p.older).any (covers p.cur.key) = false := fun hd => by
      rw [List.any_append, hcov, hgc hd]
      rfl
    -- what the merge makes of the record that it would write
    rcases hdd : g.data with - | - | v
    · exact .inr
        ⟨g, by simp only [hdd], hgk.trans hkey, hgs.trans hsep, hgd, hge', hgst', hgv, hnocov⟩
    · by_cases hboth : g.startDelete && g.endDelete
      · -- a point delete inside a range
        rw [Bool.and_eq_true] at hboth
        refine .inl ⟨by simp only [hdd, hboth.1, hboth.2, Bool.and_self, if_true], ?_, ?_⟩
        · rw [← hgst', ← hge', hboth.1, hboth.2]
        · rw [← hgv, hdd, ← hge', hboth.2]
          rfl
      · exact .inr ⟨g, by simp only [hdd, if_neg hboth], hgk.trans hkey, hgs.trans hsep, hgd,
          hge', hgst', hgv, hnocov⟩
    · exact .inr
        ⟨g, by simp only [hdd], hgk.trans hkey, hgs.trans hsep, hgd, hge', hgst', hgv, hnocov⟩

/-- No other record is at the key of a separator. -/
theorem separator_alone (hok : InputsOk inputs) (hp : multiCursorMin false inputs = some p)
    (hsep : p.cur.separator = true) :
    p.cur.data = .none ∧ p.cur.startDelete = false ∧ p.cur.endDelete = false ∧
      ∀ l ∈ p.newer ++ p.older, ∀ r ∈ l.head?, r.key = p.cur.key →
        r.startDelete = false ∧ r.endDelete = false := by
  have hs := multiCursorMin_spec hp
  have h := hs.around
  obtain ⟨hd, hst, he⟩ := hok.bare _ h.mem_cur p.cur List.mem_cons_self hsep
  refine ⟨hd, hst, he, fun l hl r hr hk => ?_⟩
  rcases List.mem_append.mp hl with hl | hl
  · -- a newer input at the key would have been taken
    have hc := (hs.newer l hl r hr (place_false_eq hk)).2
    rw [hd] at hc
    cases hc
  · have hpair := hok.sepLast
    rw [hs.eq] at hpair
    have hlast := (List.pairwise_append.mp hpair).2.1
    rcases (List.pairwise_cons.mp hlast).1 l hl with hno | hall
    · rw [hno p.cur List.mem_cons_self] at hsep
      cases hsep
    · have hrl := List.mem_of_mem_head? hr
      exact (hok.bare l (h.mem_older l hl) r hrl (hall r hrl)).2

/-- There is no gap around a separator that is written. -/
theorem separator_gap (hok : InputsOk inputs) (hp : multiCursorMin false inputs = some p)
    (hsep : p.cur.separator = true)
    (hcov : (p.newer ++ p.older).any (covers p.cur.key) = false) :
    gapAny inputs = false ∧ gapAny (dropCur false inputs p) = false := by
  obtain ⟨-, hst, he, halone⟩ := separator_alone hok hp hsep
  have hs := multiCursorMin_spec hp
  -- no other input is in a deleted range, in front of the key or behind it
  have hother : ∀ l ∈ p.newer ++ p.older,
      gap false l = false ∧ gapAfter p.cur.key l = false := by
    intro l hl
    have hc : covers p.cur.key l = false := by
      rw [Bool.eq_false_iff]
      exact fun hc => Bool.eq_false_iff.mp hcov (List.any_eq_true.mpr ⟨l, hl, hc⟩)
    cases l with
    | nil => exact ⟨rfl, rfl⟩
    | cons r l =>
        by_cases hk : r.key = p.cur.key
        · obtain ⟨hrs, hre⟩ := halone _ hl r rfl hk
          refine ⟨hre, ?_⟩
          show (if r.key = p.cur.key then r.startDelete else r.endDelete) = false
          rw [if_pos hk, hrs]
        · simp only [covers, ne_eq, hk, not_false_eq_true, decide_true, Bool.true_and] at hc
          refine ⟨hc, ?_⟩
          show (if r.key = p.cur.key then r.startDelete else r.endDelete) = false
          rw [if_neg hk, hc]
  have hall : ∀ g : Run κ V → Bool, (∀ l ∈ p.newer ++ p.older, g l = false) →
      g (p.cur :: p.rest) = false → inputs.any g = false := by
    intro g hg hcur
    rw [hs.eq, Bool.eq_false_iff]
    intro hany
    obtain ⟨l, hl, hgl⟩ := List.any_eq_true.mp hany
    rcases List.mem_append.mp hl with hl | hl
    · rw [hg l (List.mem_append_left _ hl)] at hgl
      cases hgl
    · rcases List.mem_cons.mp hl with rfl | hl
      · rw [hcur] at hgl
        cases hgl
      · rw [hg l (List.mem_append_right _ hl)] at hgl
        cases hgl
  refine ⟨hall _ (fun l hl => (hother l hl).1) he, ?_⟩
  rw [gapAny_dropCur hok hs.around]
  refine hall _ (fun l hl => (hother l hl).2) ?_
  show (if p.cur.key = p.cur.key then _ else _) = false
  rw [if_pos rfl, hst]

/-- **A step of a merge that keeps deletes**: the record written, if there is one,
and the inputs behind it say what the inputs said. -/
theorem mergeStep (hok : InputsOk inputs) (hp : multiCursorMin false inputs = some p)
    (hloc : mcursorLocationOk false p = true) :
    (mergeWorkerOutput bPtr false p = none ∧
      gapAny (dropCur false inputs p) = gapAny inputs ∧
      ∀ k, view (dropCur false inputs p) k = view inputs k) ∨
    ∃ f, mergeWorkerOutput bPtr false p = some f ∧ f.key = p.cur.key ∧
      f.endDelete = gapAny inputs ∧ f.startDelete = gapAny (dropCur false inputs p) ∧
      (f.separator = true → f.data = .none ∧ f.startDelete = false ∧ f.endDelete = false) ∧
      ∀ k, lookupThen (view (dropCur false inputs p)) [f] k = view inputs k := by
  have hs := multiCursorMin_spec hp
  have h := hs.around
  unfold mergeWorkerOutput
  rcases mergeRangeDeletes_spec hok hp hloc with
    ⟨hnone, hgap, hview⟩ | ⟨f, hf, hkey, hsep, hdata, hend, hstart, hview, hcov⟩
  · exact .inl ⟨by rw [hnone], hgap, fun k => view_dropCur h hgap hview⟩
  · rw [hf]
    simp only
    -- a record that is not written says nothing
    have hquiet : f.data.isSome = false → f.startDelete = false → f.endDelete = false →
        gapAny (dropCur false inputs p) = gapAny inputs ∧
          ∀ k, view (dropCur false inputs p) k = view inputs k := by
      intro hd hst he
      have hgap : gapAny (dropCur false inputs p) = gapAny inputs := by
        rw [← hstart, ← hend, hst, he]
      refine ⟨hgap, fun k => view_dropCur h hgap ?_⟩
      rw [← hview, Data.decides_eq_none hd, ← hend, he]
      rfl
    have hbare : f.separator = true →
        f.data = .none ∧ f.startDelete = false ∧ f.endDelete = false := by
      intro hfs
      rw [hsep] at hfs
      obtain ⟨hd, -⟩ := separator_alone hok hp hfs
      obtain ⟨hg, hg'⟩ := separator_gap hok hp hfs (hcov (by rw [hd]; rfl))
      exact ⟨hdata.trans hd, hstart.trans hg', hend.trans hg⟩
    by_cases hempty : !f.data.isSome && !f.startDelete && !f.endDelete && !f.separator
    · rw [if_pos hempty]
      simp only [Bool.and_eq_true, Bool.not_eq_true'] at hempty
      obtain ⟨⟨⟨hd, hst⟩, he⟩, -⟩ := hempty
      exact .inl ⟨rfl, hquiet hd hst he⟩
    · rw [if_neg hempty]
      by_cases hptr : f.separator && !bPtr f.key
      · rw [if_pos hptr]
        obtain ⟨hd, hst, he⟩ := hbare (Bool.and_eq_true_iff.mp hptr).1
        exact .inl ⟨rfl, hquiet (by rw [hd]; rfl) hst he⟩
      · rw [if_neg hptr]
        refine .inr ⟨f, rfl, hkey, hend, hstart, hbare, fun k => ?_⟩
        rw [lookupThen]
        rcases lt_trichotomy k f.key with hk | rfl | hk
        · rw [if_pos hk, hend]
          exact (view_before fun l hl r hr => (hkey ▸ hk).trans_le (h.le l hl r hr)).symm
        · rw [if_neg (lt_irrefl _), if_pos rfl, hview, hkey]
        · rw [if_neg (not_lt.mpr hk.le), if_neg hk.ne', lookupThen]
          exact view_dropCur_after (hkey ▸ hk)

/-- A run that is complete. -/
structure RunOk (l : Run κ V) : Prop where
  sorted : Sorted l
  matched : Matched false l
  bare : Bare l
  gap : gap false l = false

/-- A merge in progress: the records written and the inputs say `target`. -/
structure Merging (target : κ → Option (Option V)) (mw : MergeWorker κ V) : Prop where
  inputs : InputsOk mw.inputs
  sorted : Sorted mw.lhs
  bare : Bare mw.lhs
  before : ∀ o ∈ mw.lhs, ∀ l ∈ mw.inputs, ∀ r ∈ l, o.key < r.key
  matched : Matched (gapAny mw.inputs) mw.lhs
  gap : Run.gap (gapAny mw.inputs) mw.lhs = false
  tells : ∀ k, lookupThen (view mw.inputs) mw.lhs k = target k

/-- The cursor is at a record that it visits, or at the end. -/
def Visiting (bIgnoreDelete : Bool) (inputs : Inputs κ V) : Prop :=
  ∀ p, multiCursorMin bIgnoreDelete inputs = some p → mcursorLocationOk bIgnoreDelete p = true

variable {target : κ → Option (Option V)} {mw : MergeWorker κ V} {lhs : Run κ V}

theorem mem_dropCur_key {bIgnoreDelete : Bool} (hs : ∀ l ∈ inputs, Sorted l) {l : Run κ V}
    (hl : l ∈ dropCur bIgnoreDelete inputs p) {r : Record κ V} (hr : r ∈ l) :
    place bIgnoreDelete p.cur < place bIgnoreDelete r ∧ ∃ m ∈ inputs, r ∈ m := by
  obtain ⟨m, hm, rfl⟩ := List.mem_map.mp hl
  exact ⟨lt_dropTo (hs m hm) r hr, m, hm, (List.dropWhile_sublist _).subset hr⟩

/-- Records that the cursor skips. -/
theorem Merging.skip (h : Merging target ⟨lhs, inputs⟩)
    (hp : multiCursorMin false inputs = some p) (hloc : mcursorLocationOk false p = false) :
    Merging target ⟨lhs, dropCur false inputs p⟩ := by
  obtain ⟨hgap, hview⟩ := mergeSkip h.inputs hp hloc
  refine ⟨h.inputs.dropCur p, h.sorted, h.bare, fun o ho l hl r hr => ?_, ?_, ?_, fun k => ?_⟩
  · obtain ⟨-, m, hm, hrm⟩ := mem_dropCur_key h.inputs.sorted hl hr
    exact h.before o ho m hm r hrm
  · show Matched (gapAny (dropCur false inputs p)) lhs
    rw [hgap]
    exact h.matched
  · show Run.gap (gapAny (dropCur false inputs p)) lhs = false
    rw [hgap]
    exact h.gap
  · rw [← h.tells k]
    exact lookupThen_congr (hview k)

theorem Merging.advance (h : Merging target ⟨lhs, inputs⟩) :
    Merging target ⟨lhs, multiCursorAdvance false none inputs⟩ ∧
      Visiting false (multiCursorAdvance false none inputs) := by
  obtain ⟨hm, -, hv⟩ := multiCursorAdvance_induct (P := fun inputs => Merging target ⟨lhs, inputs⟩)
    h fun inputs p h hp hloc => h.skip hp hloc
  exact ⟨hm, hv⟩

omit [LinearOrder κ] in
theorem gap_append {b : Bool} {f : Record κ V} :
    Run.gap b (lhs ++ [f]) = Run.gap f.endDelete lhs := by
  cases lhs with
  | nil => rfl
  | cons r l => rfl

omit [LinearOrder κ] in
theorem matched_append {b : Bool} {f : Record κ V} (h : Matched f.endDelete lhs)
    (hf : f.startDelete = b) : Matched b (lhs ++ [f]) := by
  induction lhs with
  | nil => exact ⟨hf, trivial⟩
  | cons r l ih =>
      refine ⟨h.1.trans ?_, ih h.2⟩
      cases l with
      | nil => rfl
      | cons r' l' => rfl

/-- A record is written. -/
theorem Merging.step (h : Merging target mw) (hp : multiCursorMin false mw.inputs = some p)
    (hloc : mcursorLocationOk false p = true) :
    Merging target
      ⟨mw.lhs ++ (mergeWorkerOutput bPtr false p).toList, dropCur false mw.inputs p⟩ := by
  have hs := multiCursorMin_spec hp
  rcases mergeStep bPtr h.inputs hp hloc with
    ⟨hnone, hgap, hview⟩ | ⟨f, hf, hkey, hend, hstart, hbare, hview⟩
  · -- nothing is written, and the gap goes on
    rw [hnone, Option.toList_none, List.append_nil]
    refine ⟨h.inputs.dropCur p, h.sorted, h.bare, fun o ho l hl r hr => ?_, ?_, ?_, fun k => ?_⟩
    · obtain ⟨-, m, hm, hrm⟩ := mem_dropCur_key h.inputs.sorted hl hr
      exact h.before o ho m hm r hrm
    · show Matched (gapAny (dropCur false mw.inputs p)) mw.lhs
      rw [hgap]
      exact h.matched
    · show Run.gap (gapAny (dropCur false mw.inputs p)) mw.lhs = false
      rw [hgap]
      exact h.gap
    · rw [← h.tells k]
      exact lookupThen_congr (hview k)
  · -- a record is written: its end is the gap so far, its start the new one
    rw [hf, Option.toList_some]
    have hcur : ∀ o ∈ mw.lhs, o.key < p.cur.key := fun o ho =>
      h.before o ho _ hs.around.mem_cur p.cur List.mem_cons_self
    refine ⟨h.inputs.dropCur p, ?_, fun r hr => ?_, fun o ho l hl r hr => ?_, ?_, ?_, fun k => ?_⟩
    · refine List.pairwise_append.mpr ⟨h.sorted, List.pairwise_singleton _ _, fun o ho r hr => ?_⟩
      rw [List.mem_singleton.mp hr, hkey]
      exact hcur o ho
    · rcases List.mem_append.mp hr with hr | hr
      · exact h.bare r hr
      · rw [List.mem_singleton.mp hr]
        exact hbare
    · obtain ⟨hlt, m, hm, hrm⟩ := mem_dropCur_key h.inputs.sorted hl hr
      rcases List.mem_append.mp ho with ho | ho
      · exact h.before o ho m hm r hrm
      · rw [List.mem_singleton.mp ho, hkey]
        rcases Prod.Lex.toLex_lt_toLex.mp hlt with hlt | ⟨-, hlt⟩
        · exact hlt
        · exact absurd hlt (lt_irrefl _)
    · refine matched_append ?_ hstart
      rw [hend]
      exact h.matched
    · rw [gap_append, hend]
      exact h.gap
    · rw [← h.tells k, lookupThen_append]
      exact lookupThen_congr (hview k)

/-- **A merge says at every moment what its inputs said at the start.** -/
theorem Merging.steps (n : ℕ) (h : Merging target mw) (hv : Visiting false mw.inputs) :
    Merging target (mergeWorkerSteps bPtr false n mw) ∧
      Visiting false (mergeWorkerSteps bPtr false n mw).inputs := by
  induction n generalizing mw with
  | zero => exact ⟨h, hv⟩
  | succ n ih =>
      rw [mergeWorkerSteps]
      rcases hp : multiCursorMin false mw.inputs with - | p
      · exact ⟨h, hv⟩
      · simp only
        rw [multiCursorAdvance_next hp]
        obtain ⟨h', hv'⟩ := (h.step bPtr hp (hv p hp)).advance
        exact ih h' hv'

/-- No range is open before complete runs. -/
theorem gapAny_complete (hok : ∀ l ∈ inputs, RunOk l) : gapAny inputs = false := by
  rw [gapAny, Bool.eq_false_iff]
  intro hany
  obtain ⟨l, hl, hgap⟩ := List.any_eq_true.mp hany
  rw [(hok l hl).gap] at hgap
  cases hgap

/-- The start of a merge of complete runs. -/
theorem Merging.start (hok : ∀ l ∈ inputs, RunOk l) (hsep : SepLast inputs) :
    Merging (view inputs) ⟨[], inputs⟩ where
  inputs := ⟨fun l hl => (hok l hl).sorted, fun l hl => (hok l hl).matched,
    fun l hl => (hok l hl).bare, hsep⟩
  sorted := List.Pairwise.nil
  bare := nofun
  before := nofun
  matched := trivial
  gap := gapAny_complete hok
  tells _ := rfl

theorem view_empty {k : κ} (h : ∀ l ∈ inputs, l = []) : view inputs k = none := by
  unfold view
  rw [List.findSome?_eq_none_iff]
  intro l hl
  rw [h l hl]
  rfl

omit [LinearOrder κ] in
theorem gapAny_empty (h : ∀ l ∈ inputs, l = []) : gapAny inputs = false := by
  rw [gapAny, Bool.eq_false_iff]
  intro hany
  obtain ⟨l, hl, hgap⟩ := List.any_eq_true.mp hany
  rw [h l hl] at hgap
  cases hgap

/-- The end of a merge. -/
theorem Merging.done (h : Merging target mw) (hdone : multiCursorMin false mw.inputs = none) :
    RunOk mw.lhs ∧ ∀ k, lookup mw.lhs k = target k := by
  have hempty := multiCursorMin_none hdone
  have hgap := gapAny_empty hempty
  refine ⟨⟨h.sorted, hgap ▸ h.matched, h.bare, hgap ▸ h.gap⟩, fun k => ?_⟩
  rw [← h.tells k]
  exact lookupThen_congr (view_empty hempty).symm

end Keep

/-! ### Merges that drop deletes -/

section Drop

variable {inputs : Inputs κ V} {p : Cursor κ V} (bPtr : κ → Bool) {l : Run κ V} {k : κ}

/-- Runs that are changed so that nothing but the oldest of them says something
else, and that no value. -/
theorem view_join_congr {f : Run κ V → Run κ V}
    (hall : ∀ l ∈ inputs, (lookup (f l) k).join = (lookup l k).join)
    (hnewer : ∀ l ∈ inputs.dropLast, lookup (f l) k = lookup l k) :
    (view (inputs.map f) k).join = (view inputs k).join := by
  unfold view
  induction inputs with
  | nil => rfl
  | cons l inputs ih =>
      rw [List.map_cons, List.findSome?_cons, List.findSome?_cons]
      cases inputs with
      | nil =>
          have hl := hall l List.mem_cons_self
          rcases e : lookup (f l) k with - | w <;> rcases e' : lookup l k with - | w' <;>
            rw [e, e'] at hl <;> exact hl
      | cons m inputs =>
          rw [hnewer l (by simp)]
          rcases lookup l k with - | w
          · exact ih (fun l hl => hall l (List.mem_cons_of_mem _ hl))
              fun l hl => hnewer l (List.mem_cons_of_mem _ hl)
          · rfl

omit [LinearOrder κ] in
theorem place_data {r : Record κ V} (h : r.data.isSome = true) :
    place true r = toLex (r.key, 0) := by
  unfold place
  rw [h]
  rfl

/-- A run that starts behind data of the key has none for it. -/
theorem lookup_join_none (hle : ∀ r ∈ l.head?, k ≤ r.key)
    (hdata : ∀ r ∈ l.head?, r.key = k → r.data.isSome = false) : (lookup l k).join = none := by
  rw [lookup_noData hle hdata]
  split_ifs <;> rfl

theorem lookup_dropTo_none {c : κ ×ₗ ℤ} (hc : toLex (k, 0) ≤ c) :
    (lookup (dropTo true c l) k).join = none := by
  refine lookup_join_none (fun r hr => ?_) fun r hr hk => ?_
  · rcases Prod.Lex.toLex_lt_toLex.mp (hc.trans_lt (lt_head_dropTo r hr)) with hlt | ⟨heq, -⟩
    · exact hlt.le
    · exact heq.le
  · by_contra hd
    rw [Bool.not_eq_false] at hd
    have hlt := hc.trans_lt (lt_head_dropTo r hr)
    rw [place_data hd, hk] at hlt
    exact lt_irrefl _ hlt

/-- Before the key of the cursor there is no value. -/
theorem view_join_before (hs : p.Spec true inputs) (hk : k < p.cur.key) :
    (view inputs k).join = none ∧ (view (dropCur true inputs p) k).join = none := by
  have hlt : ∀ {l : Run κ V}, (∀ r ∈ l.head?, place true p.cur ≤ place true r) →
      (lookup l k).join = none := by
    intro l hl
    rw [lookup_before fun r hr => hk.trans_le (place_key_le (hl r hr))]
    split_ifs <;> rfl
  refine ⟨view_join_none fun l hl => hlt (hs.le l hl), view_join_none fun l hl => ?_⟩
  obtain ⟨m, -, rfl⟩ := List.mem_map.mp hl
  exact hlt fun r hr => (lt_head_dropTo r hr).le

/-- A newer input has no data for a key that the cursor has data for. -/
theorem newer_noData (hs : p.Spec true inputs) (hd : p.cur.data.isSome = true) :
    ∀ l ∈ p.newer, ∀ r ∈ l.head?, r.key = p.cur.key → r.data.isSome = false := by
  intro l hl r hr hk
  by_contra hne
  rw [Bool.not_eq_false] at hne
  have heq : place true r = place true p.cur := by rw [place_data hne, place_data hd, hk]
  rw [(hs.newer l hl r hr heq).1] at hne
  cases hne

/-- The runs newer than the cursor's, at a key that it has data for. -/
theorem view_newer_drop (hs : p.Spec true inputs) (hd : p.cur.data.isSome = true) :
    view p.newer p.cur.key = if p.newer.any (covers p.cur.key) then some none else none :=
  view_deleted fun l hl => lookup_noData
    (fun r hr => place_key_le (hs.le l (by rw [hs.eq]; simp [hl]) r hr))
    (newer_noData hs hd l hl)

theorem view_around_drop (hs : p.Spec true inputs) :
    view inputs p.cur.key =
      (view p.newer p.cur.key).or (p.cur.data.decides.or (view p.older p.cur.key)) := by
  rw [hs.eq, view_append]
  congr 1
  unfold view
  rw [List.findSome?_cons, lookup_cons_self]
  rcases p.cur.data.decides with - | w <;> rfl

/-- A record with data that a merge without deletes skips: nothing older is seen. -/
theorem dropSkip_data (hp : multiCursorMin true inputs = some p)
    (hloc : mcursorLocationOk true p = false) (hd : p.cur.data.isSome = true) :
    (view (dropCur true inputs p) p.cur.key).join = (view inputs p.cur.key).join := by
  have hs := multiCursorMin_spec hp
  have hplace := place_data hd
  have hafter : (view (dropCur true inputs p) p.cur.key).join = none := by
    refine view_join_none fun l hl => ?_
    obtain ⟨m, -, rfl⟩ := List.mem_map.mp hl
    exact lookup_dropTo_none hplace.ge
  rw [hafter, view_around_drop hs, view_newer_drop hs hd]
  cases hcov : p.newer.any (covers p.cur.key) with
  | true => rfl
  | false =>
      -- the record is a point delete, or it would be visited
      rcases e : p.cur.data with - | - | v
      · rw [e] at hd
        cases hd
      · rfl
      · exfalso
        refine Bool.eq_false_iff.mp hloc ?_
        unfold mcursorLocationOk
        rw [e, Bool.and_eq_true_iff, List.all_eq_true]
        refine ⟨rfl, fun l hl => ?_⟩
        cases l with
        | nil => rfl
        | cons r l =>
            by_cases hrk : r.key = p.cur.key
            · -- a boundary alone at the key is behind it or before it
              have hnone := newer_noData hs hd _ hl r rfl hrk
              have hle := hs.le _ (by rw [hs.eq]; simp [hl]) r (rfl : r ∈ (r :: l).head?)
              rw [hplace] at hle
              unfold place at hle
              rw [hnone, hrk] at hle
              have hle' := (Prod.Lex.toLex_le_toLex.mp hle).resolve_left (lt_irrefl _)
              cases hst : r.startDelete <;> cases he : r.endDelete <;>
                simp [hst, he] at hle' ⊢
              exact hrk
            · have hc : covers p.cur.key (r :: l) ≠ true := fun hc =>
                Bool.eq_false_iff.mp hcov (List.any_eq_true.mpr ⟨_, hl, hc⟩)
              simp only [covers, ne_eq, hrk, not_false_eq_true, decide_true,
                Bool.true_and, Bool.not_eq_true] at hc
              simp [hc]

/-- A boundary at its own key: no input has data for the key. -/
theorem dropSkip_bare (hp : multiCursorMin true inputs = some p)
    (hd : p.cur.data.isSome = false) (hzero : toLex (p.cur.key, (0 : ℤ)) ≤ place true p.cur) :
    (view (dropCur true inputs p) p.cur.key).join = (view inputs p.cur.key).join := by
  have hs := multiCursorMin_spec hp
  have hkey : ∀ l ∈ inputs, ∀ r ∈ l.head?, p.cur.key ≤ r.key := fun l hl r hr =>
    place_key_le (hs.le l hl r hr)
  have hall : ∀ l ∈ inputs, (lookup l p.cur.key).join = none := by
    refine fun l hl => lookup_join_none (hkey l hl) fun r hr hrk => ?_
    by_contra hne
    rw [Bool.not_eq_false] at hne
    have heq : place true r = place true p.cur :=
      le_antisymm (by rw [place_data hne, hrk]; exact hzero) (hs.le l hl r hr)
    rw [hs.data l hl r hr heq hne] at hd
    cases hd
  rw [view_join_none hall]
  refine view_join_none fun l hl => ?_
  obtain ⟨m, -, rfl⟩ := List.mem_map.mp hl
  exact lookup_dropTo_none hzero

/-- The end of a range alone says nothing about its key. -/
theorem dropSkip_end (hsort : ∀ l ∈ inputs, Sorted l)
    (hmatch : ∀ l ∈ inputs.dropLast, Matched false l) (hp : multiCursorMin true inputs = some p)
    (hzero : ¬toLex (p.cur.key, (0 : ℤ)) ≤ place true p.cur) :
    (view (dropCur true inputs p) p.cur.key).join = (view inputs p.cur.key).join := by
  have hs := multiCursorMin_spec hp
  have hbound : ∀ r : Record κ V, place true r = place true p.cur →
      r.key = p.cur.key ∧ r.data.isSome = false ∧ r.startDelete = false := by
    intro r hr
    have hrk : r.key = p.cur.key := le_antisymm (place_key_le hr.le) (place_key_le hr.ge)
    have hneg : place true r < toLex (p.cur.key, (0 : ℤ)) := hr ▸ not_le.mp hzero
    unfold place at hneg
    rw [hrk] at hneg
    have hlt := ((Prod.Lex.toLex_lt_toLex.mp hneg).resolve_left (lt_irrefl _)).2
    refine ⟨hrk, ?_⟩
    cases hrd : r.data.isSome <;> cases hst : r.startDelete <;> cases he : r.endDelete <;>
      simp [hrd, hst, he] at hlt ⊢
  have hhead : ∀ l ∈ inputs, dropTo true (place true p.cur) l = l ∨
      ∃ r m, l = r :: m ∧ dropTo true (place true p.cur) l = m ∧
        place true r = place true p.cur := by
    intro l hl
    rw [dropTo_head (hsort l hl) (hs.le l hl)]
    cases l with
    | nil => exact .inl rfl
    | cons r m =>
        by_cases hr : place true r = place true p.cur
        · exact .inr ⟨r, m, rfl, if_pos hr, hr⟩
        · exact .inl (if_neg hr)
  have hrest : ∀ (r : Record κ V) (m : Run κ V), r :: m ∈ inputs →
      place true r = place true p.cur →
      lookup m p.cur.key = if Run.gap false m then some none else none := by
    intro r m hl hr
    exact lookup_before fun r' hr' =>
      (hbound r hr).1 ▸ (hsort _ hl).head_lt r' (List.mem_of_mem_head? hr')
  refine view_join_congr (fun l hl => ?_) fun l hl => ?_
  · rcases hhead l hl with heq | ⟨r, m, rfl, heq, hr⟩
    · rw [heq]
    · obtain ⟨hrk, hrd, -⟩ := hbound r hr
      rw [heq, hrest r m hl hr, ← hrk, lookup_cons_self, Data.decides_eq_none hrd]
      split_ifs <;> rfl
  · have hl' := List.dropLast_subset _ hl
    rcases hhead l hl' with heq | ⟨r, m, rfl, heq, hr⟩
    · rw [heq]
    · obtain ⟨hrk, hrd, hst⟩ := hbound r hr
      have hgap : Run.gap false m = false := (hmatch _ hl).1.symm.trans hst
      rw [heq, hrest r m hl' hr, hgap, ← hrk, lookup_cons_self, Data.decides_eq_none hrd]
      rfl

/-- Records that a merge without deletes skips. -/
theorem dropSkip (hsort : ∀ l ∈ inputs, Sorted l)
    (hmatch : ∀ l ∈ inputs.dropLast, Matched false l)
    (hp : multiCursorMin true inputs = some p) (hloc : mcursorLocationOk true p = false) (k : κ) :
    (view (dropCur true inputs p) k).join = (view inputs k).join := by
  have hs := multiCursorMin_spec hp
  rcases lt_trichotomy k p.cur.key with hk | rfl | hk
  · obtain ⟨hv, hv'⟩ := view_join_before hs hk
    rw [hv, hv']
  · rcases hd : p.cur.data.isSome with - | -
    · by_cases hzero : toLex (p.cur.key, (0 : ℤ)) ≤ place true p.cur
      · exact dropSkip_bare hp hd hzero
      · exact dropSkip_end hsort hmatch hp hzero
    · exact dropSkip_data hp hloc hd
  · rw [view_dropCur_after hk]

/-- A record that such a merge writes is the newest of its key. -/
theorem dropStep (hbare : ∀ l ∈ inputs, Bare l) (hp : multiCursorMin true inputs = some p)
    (hloc : mcursorLocationOk true p = true) :
    ∃ f, mergeWorkerOutput bPtr true p = some f ∧ f.key = p.cur.key ∧
      f.data.isSome = true ∧ f.separator = false ∧ f.startDelete = false ∧ f.endDelete = false ∧
      ∀ k, (lookupThen (view (dropCur true inputs p)) [f] k).join = (view inputs k).join := by
  have hs := multiCursorMin_spec hp
  obtain ⟨hins, hall⟩ := Bool.and_eq_true_iff.mp hloc
  obtain ⟨v, hv⟩ : ∃ v, p.cur.data = .insert v := by
    rcases e : p.cur.data with - | - | v
    · rw [e] at hins
      cases hins
    · rw [e] at hins
      cases hins
    · exact ⟨v, rfl⟩
  have hd : p.cur.data.isSome = true := by rw [hv]; rfl
  have hsep : p.cur.separator = false := by
    rw [Bool.eq_false_iff]
    intro hsep
    have hnone := (hbare (p.cur :: p.rest) (by rw [hs.eq]; simp) p.cur List.mem_cons_self hsep).1
    rw [hv] at hnone
    cases hnone
  have hcov := mcursorLocationOk_covers hloc
  have hout : mergeWorkerOutput bPtr true p =
      some { p.cur with startDelete := false, endDelete := false } := by
    unfold mergeWorkerOutput mergeRangeDeletes
    simp [hd, hsep]
  refine ⟨_, hout, rfl, hd, hsep, rfl, rfl, fun k => ?_⟩
  rw [lookupThen]
  -- keys before the record, its own, and those behind it
  rcases lt_trichotomy k p.cur.key with hk | rfl | hk
  · rw [if_pos hk, (view_join_before hs hk).1]
    rfl
  · rw [if_neg (lt_irrefl _), if_pos rfl, view_around_drop hs, view_newer_drop hs hd, hcov]
    show p.cur.data.decides.join = ((none : Option (Option V)).or _).join
    rw [hv]
    rfl
  · rw [if_neg (not_lt.mpr hk.le), if_neg hk.ne', lookupThen, view_dropCur_after hk]

/-- A run of which only the values matter. -/
structure ValuesOk (l : Run κ V) : Prop where
  sorted : Sorted l
  bare : Bare l

/-- A merge that drops deletes, in progress: its values are those of `target`. -/
structure Dropping (target : κ → Option V) (mw : MergeWorker κ V) : Prop where
  inputs : ∀ l ∈ mw.inputs, ValuesOk l
  matched : ∀ l ∈ mw.inputs.dropLast, Matched false l
  lhs : ValuesOk mw.lhs
  before : ∀ o ∈ mw.lhs, ∀ l ∈ mw.inputs, ∀ r ∈ l, toLex (o.key, (0 : ℤ)) < place true r
  tells : ∀ k, (lookupThen (view mw.inputs) mw.lhs k).join = target k

variable {target : κ → Option V} {mw : MergeWorker κ V} {lhs : Run κ V}

/-- Runs that agree on values behind a run agree with the run before them. -/
theorem lookupThen_join {below below' : κ → Option (Option V)}
    (h : (below k).join = (below' k).join) :
    (lookupThen below lhs k).join = (lookupThen below' lhs k).join := by
  induction lhs with
  | nil => exact h
  | cons r l ih =>
      rw [lookupThen, lookupThen]
      split_ifs
      · rfl
      · rfl
      · rfl
      · exact ih

/-- What is written so far is before the key of the cursor. -/
theorem Dropping.lt_cur (h : Dropping target mw) (hp : multiCursorMin true mw.inputs = some p)
    (hcur : p.cur.data.isSome = true) : ∀ o ∈ mw.lhs, o.key < p.cur.key := by
  intro o ho
  have hmem : p.cur :: p.rest ∈ mw.inputs := by
    rw [(multiCursorMin_spec hp).eq]
    simp
  have hlt := h.before o ho (p.cur :: p.rest) hmem p.cur List.mem_cons_self
  rw [place_data hcur] at hlt
  rcases Prod.Lex.toLex_lt_toLex.mp hlt with hlt | ⟨-, hlt⟩
  · exact hlt
  · exact absurd hlt (lt_irrefl _)

/-- What moving the inputs on keeps. -/
theorem Dropping.dropCur (hin : ∀ l ∈ inputs, ValuesOk l)
    (hm : ∀ l ∈ inputs.dropLast, Matched false l) (p : Cursor κ V) :
    (∀ l ∈ dropCur true inputs p, ValuesOk l) ∧
      ∀ l ∈ (dropCur true inputs p).dropLast, Matched false l := by
  refine ⟨fun l hl => ?_, fun l hl => ?_⟩
  · obtain ⟨m, hm, rfl⟩ := List.mem_map.mp hl
    exact ⟨sorted_dropTo (hin m hm).sorted, bare_dropTo (hin m hm).bare⟩
  · unfold Lsm.dropCur at hl
    rw [← List.map_dropLast] at hl
    obtain ⟨m, hm', rfl⟩ := List.mem_map.mp hl
    exact matched_dropTo (hm m hm')

theorem Dropping.skip (h : Dropping target ⟨lhs, inputs⟩)
    (hp : multiCursorMin true inputs = some p) (hloc : mcursorLocationOk true p = false) :
    Dropping target ⟨lhs, Lsm.dropCur true inputs p⟩ := by
  obtain ⟨hin, hm⟩ := Dropping.dropCur h.inputs h.matched p
  refine ⟨hin, hm, h.lhs, fun o ho l hl r hr => ?_, fun k => ?_⟩
  · obtain ⟨-, m, hm, hrm⟩ := mem_dropCur_key (fun l hl => (h.inputs l hl).sorted) hl hr
    exact h.before o ho m hm r hrm
  · rw [← h.tells k]
    exact lookupThen_join
      (dropSkip (fun l hl => (h.inputs l hl).sorted) h.matched hp hloc k)

theorem Dropping.advance (h : Dropping target ⟨lhs, inputs⟩) :
    Dropping target ⟨lhs, multiCursorAdvance true none inputs⟩ ∧
      Visiting true (multiCursorAdvance true none inputs) := by
  obtain ⟨hm, -, hv⟩ := multiCursorAdvance_induct
    (P := fun inputs => Dropping target ⟨lhs, inputs⟩) h fun inputs p h hp hloc => h.skip hp hloc
  exact ⟨hm, hv⟩

theorem Dropping.step (h : Dropping target mw) (hp : multiCursorMin true mw.inputs = some p)
    (hloc : mcursorLocationOk true p = true) :
    Dropping target
      ⟨mw.lhs ++ (mergeWorkerOutput bPtr true p).toList, Lsm.dropCur true mw.inputs p⟩ := by
  have hs := multiCursorMin_spec hp
  obtain ⟨f, hf, hkey, hd, hsep, -, -, hview⟩ :=
    dropStep bPtr (fun l hl => (h.inputs l hl).bare) hp hloc
  obtain ⟨hin, hm⟩ := Dropping.dropCur h.inputs h.matched p
  rw [hf, Option.toList_some]
  have hcur := Data.isSome_of_isInsert (Bool.and_eq_true_iff.mp hloc).1
  have hbefore := h.lt_cur hp hcur
  -- the record is written without boundaries, so only its value counts
  refine ⟨hin, hm, ⟨?_, fun r hr hrs => ?_⟩, fun o ho l hl r hr => ?_, fun k => ?_⟩
  · refine List.pairwise_append.mpr
      ⟨h.lhs.sorted, List.pairwise_singleton _ _, fun o ho r hr => ?_⟩
    rw [List.mem_singleton.mp hr, hkey]
    exact hbefore o ho
  · rcases List.mem_append.mp hr with hr | hr
    · exact h.lhs.bare r hr hrs
    · rw [List.mem_singleton.mp hr, hsep] at hrs
      cases hrs
  · obtain ⟨hlt, m, hm, hrm⟩ := mem_dropCur_key (fun l hl => (h.inputs l hl).sorted) hl hr
    rcases List.mem_append.mp ho with ho | ho
    · exact h.before o ho m hm r hrm
    · rw [List.mem_singleton.mp ho, hkey, ← place_data hcur]
      exact hlt
  · rw [← h.tells k, lookupThen_append]
    exact lookupThen_join (hview k)

/-- **A merge that drops deletes keeps the values.** -/
theorem Dropping.steps (n : ℕ) (h : Dropping target mw) (hv : Visiting true mw.inputs) :
    Dropping target (mergeWorkerSteps bPtr true n mw) ∧
      Visiting true (mergeWorkerSteps bPtr true n mw).inputs := by
  induction n generalizing mw with
  | zero => exact ⟨h, hv⟩
  | succ n ih =>
      rw [mergeWorkerSteps]
      rcases hp : multiCursorMin true mw.inputs with - | p
      · exact ⟨h, hv⟩
      · simp only
        rw [multiCursorAdvance_next hp]
        obtain ⟨h', hv'⟩ := (h.step bPtr hp (hv p hp)).advance
        exact ih h' hv'

theorem Dropping.done (h : Dropping target mw) (hdone : multiCursorMin true mw.inputs = none) :
    ValuesOk mw.lhs ∧ ∀ k, (lookup mw.lhs k).join = target k := by
  refine ⟨h.lhs, fun k => ?_⟩
  rw [← h.tells k]
  exact lookupThen_join (by rw [view_empty (multiCursorMin_none hdone)])

end Drop

end Lsm

end MoVeBench
