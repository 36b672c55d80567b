/-
MoVeBench/Lsm/Echo.lean

Merges of inputs in which the beginnings of ranges are read twice.

The multi-cursor passes over a record whose key is not larger than the key it was at.  So
an input may give the boundary at which a range begins once more, after a record of the
same key that has `LSM_START_DELETE` already: a merge writes the same records with these
echoes as without them (`echoes_steps`).  Where deletes are ignored the boundary alone has
a place behind its key, and the cursor comes to it, but does not stay.
-/
import MoVeBench.Lsm.Merge

namespace MoVeBench

namespace Lsm

open Run

variable {κ V : Type}

/-- The boundary at which a range begins. -/
def startAt (k : κ) : Record κ V := ⟨k, .none, true, false, false⟩

/-- A record at which a range begins is followed by the boundary of the range, unless it is
that boundary. -/
def echo (l : Run κ V) : Run κ V :=
  l.flatMap fun r =>
    if r.startDelete && (r.data.isSome || r.endDelete) then [r, startAt r.key] else [r]

/-- The run, or its echo. -/
def Echoes (l l' : Run κ V) : Prop := l = l' ∨ l = echo l'

/-- A boundary that is read again may be left at the front; `P` holds of its key. -/
def Behind (P : κ → Prop) (l l' : Run κ V) : Prop :=
  Echoes l l' ∨ ∃ k m, l = startAt k :: m ∧ Echoes m l' ∧ P k

theorem echo_cons (r : Record κ V) (l : Run κ V) :
    echo (r :: l) = (if r.startDelete && (r.data.isSome || r.endDelete) then [r, startAt r.key]
      else [r]) ++ echo l := rfl

theorem head?_echo (l : Run κ V) : (echo l).head? = l.head? := by
  cases l with
  | nil => rfl
  | cons r l =>
      rw [echo_cons]
      split_ifs <;> rfl

section Cursor

variable [LinearOrder κ] {b : Bool} {c : κ ×ₗ ℤ} {l l' : Run κ V} {raw inputs : Inputs κ V}
  {p : Cursor κ V} {k : κ}

omit [LinearOrder κ] in
theorem Echoes.head? (h : Echoes l l') : l.head? = l'.head? := by
  rcases h with rfl | rfl
  · rfl
  · exact head?_echo l'

omit [LinearOrder κ] in
/-- A record that is echoed is at the place of its key, and the echo not before it. -/
theorem place_echoed {r : Record κ V}
    (h : (r.startDelete && (r.data.isSome || r.endDelete)) = true) :
    place b r = toLex (r.key, 0) := by
  rw [Bool.and_eq_true] at h
  unfold place
  cases hd : r.data.isSome with
  | true => simp
  | false =>
      rw [hd, Bool.false_or] at h
      simp [h.1, h.2]

omit [LinearOrder κ] in
theorem place_startAt (b : Bool) (k : κ) :
    place b (startAt k : Record κ V) = toLex (k, if b then 1 else 0) := by
  cases b <;> rfl

/-- Both are moved on: the echo of a record that is past may be left. -/
theorem behind_dropTo (hs : Sorted l') (h : Echoes l l') :
    Behind (fun k => toLex (k, 0) ≤ c) (dropTo b c l) (dropTo b c l') := by
  rcases h with rfl | rfl
  · exact .inl (.inl rfl)
  · induction l' with
    | nil => exact .inl (.inl rfl)
    | cons r l' ih =>
        by_cases hr : place b r ≤ c
        · rw [dropTo_cons_le hr, echo_cons]
          split_ifs with hecho
          · rw [place_echoed hecho] at hr
            rw [List.cons_append, dropTo_cons_le (by rw [place_echoed hecho]; exact hr)]
            by_cases hstart : place b (startAt r.key : Record κ V) ≤ c
            · rw [List.cons_append, dropTo_cons_le hstart]
              exact ih hs.tail
            · -- the echo is left, and what follows is behind it
              have hself : dropTo b c l' = l' := dropTo_eq_self fun r' hr' =>
                (not_le.mp hstart).trans (place_lt (hs.head_lt r' (List.mem_of_mem_head? hr')))
              rw [List.cons_append, List.nil_append, hself,
                dropTo_eq_self (by rintro r' ⟨⟩; exact not_le.mp hstart)]
              exact .inr ⟨r.key, echo l', rfl, .inr rfl, hr⟩
          · rw [List.cons_append, dropTo_cons_le hr]
            exact ih hs.tail
        · have hlt : ∀ r' ∈ (r :: l').head?, c < place b r' := by
            rintro r' ⟨⟩
            exact not_le.mp hr
          rw [dropTo_eq_self hlt, dropTo_eq_self (by rwa [head?_echo])]
          exact .inl (.inr rfl)

/-! ### The cursor -/

/-- Cursors at one record, with inputs that are echoes. -/
structure EchoCursor (p p' : Cursor κ V) : Prop where
  cur : p.cur = p'.cur
  newer : List.Forall₂ Echoes p.newer p'.newer
  older : List.Forall₂ Echoes p.older p'.older

theorem multiCursorMin_echoes (h : List.Forall₂ Echoes raw inputs) :
    (multiCursorMin b raw = none ∧ multiCursorMin b inputs = none) ∨
    ∃ p p', multiCursorMin b raw = some p ∧ multiCursorMin b inputs = some p' ∧
      EchoCursor p p' := by
  induction h with
  | nil => exact .inl ⟨rfl, rfl⟩
  | @cons l l' raw inputs hl hrest ih =>
      have hhead := hl.head?
      rcases l with - | ⟨r, l⟩ <;> rcases l' with - | ⟨r', l'⟩
      · rcases ih with ⟨hp, hp'⟩ | ⟨p, p', hp, hp', hcur⟩
        · exact .inl ⟨by rw [multiCursorMin, hp]; rfl, by rw [multiCursorMin, hp']; rfl⟩
        · exact .inr ⟨{ p with newer := [] :: p.newer }, { p' with newer := [] :: p'.newer },
            by rw [multiCursorMin, hp]; rfl, by rw [multiCursorMin, hp']; rfl,
            hcur.cur, .cons hl hcur.newer, hcur.older⟩
      · cases hhead
      · cases hhead
      · obtain rfl : r = r' := Option.some.inj hhead
        refine .inr ?_
        rcases ih with ⟨hp, hp'⟩ | ⟨p, p', hp, hp', hcur⟩
        · exact ⟨⟨[], r, l, raw⟩, ⟨[], r, l', inputs⟩, by rw [multiCursorMin, hp],
            by rw [multiCursorMin, hp'], rfl, .nil, hrest⟩
        · by_cases hless : place b p.cur < place b r ∨
              place b p.cur = place b r ∧ r.data.isSome = false ∧ p.cur.data.isSome = true
          · exact ⟨{ p with newer := (r :: l) :: p.newer },
              { p' with newer := (r :: l') :: p'.newer },
              by rw [multiCursorMin, hp]; exact if_pos hless,
              by rw [multiCursorMin, hp']; exact if_pos (hcur.cur ▸ hless),
              hcur.cur, .cons hl hcur.newer, hcur.older⟩
          · exact ⟨⟨[], r, l, raw⟩, ⟨[], r, l', inputs⟩,
              by rw [multiCursorMin, hp]; exact if_neg hless,
              by rw [multiCursorMin, hp']; exact if_neg (hcur.cur ▸ hless), rfl, .nil, hrest⟩

theorem EchoCursor.mcursorLocationOk {p p' : Cursor κ V} (h : EchoCursor p p') :
    mcursorLocationOk b p = mcursorLocationOk b p' := by
  unfold Lsm.mcursorLocationOk
  rw [h.cur]
  congr 1
  have hnewer := h.newer
  generalize p.newer = runs at hnewer
  generalize p'.newer = runs' at hnewer
  induction hnewer with
  | nil => rfl
  | @cons l l' runs runs' hl _ ih =>
      have hhead := hl.head?
      rw [List.all_cons, List.all_cons, ih]
      rcases l with - | ⟨r, l⟩ <;> rcases l' with - | ⟨r', l'⟩
      · rfl
      · cases hhead
      · cases hhead
      · obtain rfl : r = r' := Option.some.inj hhead
        rfl

/-- Every input starts behind the place of the key `k`. -/
def Ahead (b : Bool) (inputs : Inputs κ V) (k : κ) : Prop :=
  ∀ l ∈ inputs, ∀ r ∈ l.head?, toLex (k, 0) < place b r

/-- Inputs that are echoes, some with a boundary left that is read again. -/
def Lagging (b : Bool) (raw inputs : Inputs κ V) : Prop :=
  List.Forall₂ (Behind fun k => Ahead b raw k ∧ Ahead b inputs k) raw inputs

theorem ahead_dropTo (hk : toLex (k, 0) ≤ c) : Ahead b (inputs.map (dropTo b c)) k := by
  intro l hl r hr
  obtain ⟨m, -, rfl⟩ := List.mem_map.mp hl
  exact hk.trans_lt (lt_head_dropTo r hr)

theorem behind_map {P : κ → Prop} (hs : ∀ l ∈ inputs, Sorted l)
    (h : List.Forall₂ (Behind fun k => place b (startAt k : Record κ V) ≤ c) raw inputs)
    (hP : ∀ k, toLex (k, 0) ≤ c → P k) :
    List.Forall₂ (Behind P) (raw.map (dropTo b c)) (inputs.map (dropTo b c)) := by
  have hbehind : ∀ {l l' : Run κ V}, Sorted l' → Echoes l l' →
      Behind P (dropTo b c l) (dropTo b c l') := fun hs' hl =>
    (behind_dropTo hs' hl).imp_right fun ⟨k, m, heq, hm, hk⟩ => ⟨k, m, heq, hm, hP k hk⟩
  induction h with
  | nil => exact .nil
  | @cons l l' raw inputs hl _ ih =>
      refine .cons ?_ (ih fun l hl => hs l (List.mem_cons_of_mem _ hl))
      have hl' := hs l' List.mem_cons_self
      rcases hl with hl | ⟨k, m, rfl, hm, hk⟩
      · exact hbehind hl' hl
      · rw [dropTo_cons_le hk]
        exact hbehind hl' hm

/-- Moving on the inputs and their echoes. -/
theorem lagging_dropTo (hs : ∀ l ∈ inputs, Sorted l)
    (h : List.Forall₂ (Behind fun k => place b (startAt k : Record κ V) ≤ c) raw inputs) :
    Lagging b (raw.map (dropTo b c)) (inputs.map (dropTo b c)) :=
  behind_map hs h fun _ hk => ⟨ahead_dropTo hk, ahead_dropTo hk⟩

theorem eq_of_between (hlt : toLex (k, (0 : ℤ)) < c) (hle : c ≤ toLex (k, 1)) :
    c = toLex (k, 1) := by
  obtain ⟨key, i⟩ := c
  rcases Prod.Lex.toLex_lt_toLex.mp hlt with hlt | ⟨hkey, hlt⟩
  · rcases Prod.Lex.toLex_le_toLex.mp hle with hle | ⟨heq, -⟩
    · exact absurd hle (lt_asymm hlt)
    · exact absurd heq hlt.ne'
  · obtain rfl : k = key := hkey
    rcases Prod.Lex.toLex_le_toLex.mp hle with hle | ⟨-, hle⟩
    · exact absurd hle (lt_irrefl k)
    · exact congrArg (fun i : ℤ => toLex (k, i)) (le_antisymm hle hlt)

/-- Where deletes are ignored, the cursor does not stay at a boundary. -/
theorem loc_boundary (h : p.Spec true inputs) (hk : Ahead true inputs k)
    (hle : place true p.cur ≤ toLex (k, 1)) :
    place true p.cur = toLex (k, 1) ∧ mcursorLocationOk true p = false := by
  have hplace := eq_of_between (hk (p.cur :: p.rest) (by rw [h.eq]; simp) p.cur rfl) hle
  refine ⟨hplace, Bool.eq_false_iff.mpr fun hloc => ?_⟩
  have hd := Data.isSome_of_isInsert (Bool.and_eq_true_iff.mp hloc).1
  rw [place_data hd] at hplace
  have := (Prod.mk.inj (toLex_inj.mp hplace)).2
  omega

/-- The cursor passes over boundaries of the key that it is behind. -/
theorem multiCursorAdvance_boundary (hk : Ahead true inputs k) :
    multiCursorAdvance true none inputs =
      multiCursorAdvance true none (inputs.map (dropTo true (toLex (k, 1)))) := by
  rcases hmin : multiCursorMin true inputs with - | p
  · have hmap : inputs.map (dropTo true (toLex (k, 1))) = inputs := by
      refine (List.map_congr_left fun l hl => ?_).trans (List.map_id _)
      rw [multiCursorMin_none hmin l hl]
      rfl
    rw [hmap]
  · have hs := multiCursorMin_spec hmin
    by_cases hle : place true p.cur ≤ toLex (k, 1)
    · obtain ⟨hplace, hloc⟩ := loc_boundary hs hk hle
      rw [multiCursorAdvance_at hmin, hloc]
      simp only [Option.any_none, Bool.false_eq_true, if_false]
      rw [multiCursorAdvance_next hmin, dropCur, hplace]
    · have hmap : inputs.map (dropTo true (toLex (k, 1))) = inputs := by
        refine (List.map_congr_left fun l hl => ?_).trans (List.map_id _)
        exact dropTo_eq_self fun r hr => (not_le.mp hle).trans_le (hs.le l hl r hr)
      rw [hmap]

omit [LinearOrder κ] in
theorem behind_cases {P : κ → Prop} (h : List.Forall₂ (Behind P) raw inputs) :
    List.Forall₂ Echoes raw inputs ∨ ∃ k, P k ∧ ∃ l ∈ raw, startAt k ∈ l.head? := by
  induction h with
  | nil => exact .inl .nil
  | @cons l l' raw inputs hl _ ih =>
      rcases hl with hl | ⟨k, m, rfl, -, hk⟩
      · rcases ih with hrest | ⟨k, hk, m, hm, hhead⟩
        · exact .inl (.cons hl hrest)
        · exact .inr ⟨k, hk, m, List.mem_cons_of_mem _ hm, hhead⟩
      · exact .inr ⟨k, hk, _, List.mem_cons_self, rfl⟩

/-- **The cursor moves on alike** with the echoes and without them. -/
theorem echoes_advance (hs : ∀ l ∈ inputs, Sorted l) (h : Lagging b raw inputs) :
    List.Forall₂ Echoes (multiCursorAdvance b none raw) (multiCursorAdvance b none inputs) := by
  induction hn : size raw using Nat.strong_induction_on generalizing raw inputs with
  | h n ih =>
      subst hn
      have hsort : ∀ {c}, ∀ l ∈ inputs.map (dropTo b c), Sorted l := by
        intro c l hl
        obtain ⟨m, hm, rfl⟩ := List.mem_map.mp hl
        exact sorted_dropTo (hs m hm)
      by_cases hall : List.Forall₂ Echoes raw inputs
      · rcases multiCursorMin_echoes (b := b) hall with ⟨hp, hp'⟩ | ⟨p, p', hp, hp', hcur⟩
        · rw [multiCursorAdvance_eof hp, multiCursorAdvance_eof hp']
          exact hall
        · rw [multiCursorAdvance_at hp, multiCursorAdvance_at hp', ← hcur.mcursorLocationOk]
          simp only [Option.any_none, Bool.false_eq_true, if_false]
          split_ifs
          · exact hall
          · rw [multiCursorAdvance_next hp, multiCursorAdvance_next hp']
            refine ih _ (size_dropCur hp) hsort ?_ rfl
            rw [dropCur, dropCur, ← hcur.cur]
            exact lagging_dropTo hs (hall.imp fun _ _ h => .inl h)
      · -- a boundary is read again: the cursor passes over it
        obtain ⟨k, ⟨hraw, hinputs⟩, l, hl, hhead⟩ := (behind_cases h).resolve_left hall
        have hstart := hraw l hl _ hhead
        cases b with
        | false => exact absurd hstart (lt_irrefl _)
        | true =>
            obtain ⟨p, hp⟩ : ∃ p, multiCursorMin true raw = some p := by
              rcases hp : multiCursorMin true raw with - | p
              · rw [multiCursorMin_none hp l hl] at hhead
                cases hhead
              · exact ⟨p, rfl⟩
            have hspec := multiCursorMin_spec hp
            obtain ⟨hplace, -⟩ := loc_boundary hspec hraw (hspec.le l hl _ hhead)
            have hsize := size_dropCur hp
            rw [dropCur, hplace] at hsize
            rw [multiCursorAdvance_boundary hraw, multiCursorAdvance_boundary hinputs]
            refine ih _ hsize hsort (lagging_dropTo hs (h.imp fun m m' hm => ?_)) rfl
            refine hm.imp_right fun ⟨k', m'', heq, hm'', hk'⟩ => ⟨k', m'', heq, hm'', ?_⟩
            -- all these boundaries are at one key
            show place true (startAt k' : Record κ V) ≤ toLex (k, 1)
            rw [place_startAt]
            refine Prod.Lex.toLex_le_toLex.mpr ?_
            rcases Prod.Lex.toLex_lt_toLex.mp (hk'.1 l hl _ hhead) with hlt | ⟨heq, -⟩
            · exact .inl hlt
            · exact .inr ⟨heq, le_rfl⟩

/-- Where the cursor is at a record, it goes on alike. -/
theorem echoes_next {p' : Cursor κ V} (hs : ∀ l ∈ inputs, Sorted l)
    (h : List.Forall₂ Echoes raw inputs) (hp : multiCursorMin b raw = some p)
    (hp' : multiCursorMin b inputs = some p') (hcur : EchoCursor p p') :
    List.Forall₂ Echoes (multiCursorAdvance b (some (place b p.cur)) p.next)
      (multiCursorAdvance b (some (place b p'.cur)) p'.next) := by
  rw [multiCursorAdvance_next hp, multiCursorAdvance_next hp']
  refine echoes_advance (fun l hl => ?_) ?_
  · obtain ⟨m, hm, rfl⟩ := List.mem_map.mp hl
    exact sorted_dropTo (hs m hm)
  · rw [dropCur, dropCur, ← hcur.cur]
    exact lagging_dropTo hs (h.imp fun _ _ h => .inl h)

/-! ### The merge -/

theorem mergeNewer_echoes {cs cs' : Inputs κ V} (h : List.Forall₂ Echoes cs cs')
    (f : Record κ V) : mergeNewer k cs f = mergeNewer k cs' f := by
  induction h generalizing f with
  | nil => rfl
  | @cons l l' cs cs' hl _ ih =>
      have hhead := hl.head?
      rcases l with - | ⟨r, l⟩ <;> rcases l' with - | ⟨r', l'⟩
      · exact ih f
      · cases hhead
      · cases hhead
      · obtain rfl : r = r' := Option.some.inj hhead
        exact ih _

theorem mergeOlder_echoes {cs cs' : Inputs κ V} (h : List.Forall₂ Echoes cs cs')
    (f : Record κ V) : mergeOlder k cs f = mergeOlder k cs' f := by
  induction h generalizing f with
  | nil => rfl
  | @cons l l' cs cs' hl _ ih =>
      have hhead := hl.head?
      rcases l with - | ⟨r, l⟩ <;> rcases l' with - | ⟨r', l'⟩
      · exact ih f
      · cases hhead
      · cases hhead
      · obtain rfl : r = r' := Option.some.inj hhead
        rw [mergeOlder, mergeOlder, ih]

/-- The same record is written. -/
theorem EchoCursor.mergeWorkerOutput {p p' : Cursor κ V} (h : EchoCursor p p') (bPtr : κ → Bool) :
    mergeWorkerOutput bPtr b p = mergeWorkerOutput bPtr b p' := by
  unfold Lsm.mergeWorkerOutput mergeRangeDeletes
  rw [h.cur, mergeNewer_echoes h.newer, mergeOlder_echoes h.older]

/-- What the cursor leaves of sorted inputs is sorted. -/
theorem sorted_advance (hs : ∀ l ∈ inputs, Sorted l) :
    ∀ l ∈ multiCursorAdvance b none inputs, Sorted l :=
  (multiCursorAdvance_induct (P := fun inputs => ∀ l ∈ inputs, Sorted l) hs
    fun inputs p hs _ _ l hl => by
      obtain ⟨m, hm, rfl⟩ := List.mem_map.mp hl
      exact sorted_dropTo (hs m hm)).1

/-- **A merge writes the same records** with the echoes and without them, and ends with
them where it ends without. -/
theorem echoes_steps (bPtr : κ → Bool) (n : ℕ) (lhs : Run κ V) (hs : ∀ l ∈ inputs, Sorted l)
    (h : List.Forall₂ Echoes raw inputs) :
    (mergeWorkerSteps bPtr b n ⟨lhs, raw⟩).lhs = (mergeWorkerSteps bPtr b n ⟨lhs, inputs⟩).lhs ∧
      List.Forall₂ Echoes (mergeWorkerSteps bPtr b n ⟨lhs, raw⟩).inputs
        (mergeWorkerSteps bPtr b n ⟨lhs, inputs⟩).inputs := by
  induction n generalizing lhs raw inputs with
  | zero => exact ⟨rfl, h⟩
  | succ n ih =>
      rw [mergeWorkerSteps, mergeWorkerSteps]
      rcases multiCursorMin_echoes (b := b) h with ⟨hp, hp'⟩ | ⟨p, p', hp, hp', hcur⟩
      · rw [hp, hp']
        exact ⟨rfl, h⟩
      · rw [hp, hp']
        have hnext := echoes_next hs h hp hp' hcur
        simp only
        rw [hcur.mergeWorkerOutput bPtr]
        refine ih _ ?_ hnext
        rw [multiCursorAdvance_next hp']
        refine sorted_advance fun l hl => ?_
        obtain ⟨m, hm, rfl⟩ := List.mem_map.mp hl
        exact sorted_dropTo (hs m hm)

end Cursor

end Lsm

end MoVeBench
