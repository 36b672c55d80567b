/-
MoVeBench/Lsm/TreeRanges.lean

The ranges that are deleted from the in-memory tree.

`LSM_START_DELETE` stands at the key before a deleted range and `LSM_END_DELETE` at the
key after it.  Every operation keeps the two flags matched, as
`assert_delete_ranges_match` wants them, and deleting a range hides the keys between its
ends and no others.
-/
import MoVeBench.Lsm.TreeHistory

namespace MoVeBench

namespace Lsm

namespace Run

section Ranges

variable {κ V : Type} {l m : Run κ V} {b : Bool} {r : Record κ V}

theorem gap_append_run : gap b (l ++ m) = gap (gap b m) l := by
  cases l with
  | nil => rfl
  | cons r l => rfl

theorem matched_append_run : Matched b (l ++ m) ↔ Matched (gap b m) l ∧ Matched b m := by
  induction l with
  | nil => exact (and_iff_right trivial).symm
  | cons r l ih =>
      show r.startDelete = gap b (l ++ m) ∧ Matched b (l ++ m) ↔ _
      rw [gap_append_run, ih, ← and_assoc]
      exact Iff.rfl

/-- Whether a range is open after the last record. -/
def opens (l : Run κ V) : Bool := l.getLast?.any Record.startDelete

theorem opens_concat : opens (l ++ [r]) = r.startDelete := by
  rw [opens, List.getLast?_concat]
  rfl

/-- A run of matched records tells what comes after it. -/
theorem Matched.eq_opens (h : Matched b l) (hne : l ≠ []) : b = opens l := by
  obtain ⟨l, r, rfl⟩ := (List.eq_nil_or_concat' l).resolve_left hne
  rw [opens_concat]
  exact (matched_append_run.mp h).2.1.symm

/-- All ranges of the run are open once: no range ends before the first record, each
record ends a range just if the one before starts one, and none is open after the last
record. -/
structure Closed (l : Run κ V) : Prop where
  matched : Matched false l
  start : gap false l = false

theorem Closed.gap_eq (h : Closed (l ++ m)) : gap false m = opens l := by
  by_cases hne : l = []
  · subst hne
    exact h.start
  · exact (matched_append_run.mp h.matched).1.eq_opens hne

/-- The flags of a run in order, `LSM_END_DELETE` before `LSM_START_DELETE` where a key has
both; `true` stands for `LSM_START_DELETE`. -/
def flags (l : Run κ V) : List Bool :=
  l.flatMap fun r => (if r.endDelete then [false] else []) ++ if r.startDelete then [true] else []

/-- Starts and ends alternate; `b` says whether a range is open, and none is at the end. -/
def Alternate : Bool → List Bool → Prop
  | b, [] => b = false
  | b, f :: l => f = !b ∧ Alternate f l

theorem Matched.alternate (h : Matched false l) : Alternate (gap false l) (flags l) := by
  induction l with
  | nil => rfl
  | cons r l ih =>
      obtain ⟨hstart, hl⟩ := h
      have ih := ih hl
      rw [← hstart] at ih
      show Alternate r.endDelete (((if r.endDelete then [false] else []) ++
        if r.startDelete then [true] else []) ++ flags l)
      -- a record may end a range, start one, both or neither
      cases hs : r.startDelete with
      | true =>
          rw [hs] at ih
          cases r.endDelete with
          | true => exact ⟨rfl, rfl, ih⟩
          | false => exact ⟨rfl, ih⟩
      | false =>
          rw [hs] at ih
          cases r.endDelete with
          | true => exact ⟨rfl, ih⟩
          | false => exact ih

/-- **The flags of a closed run alternate**, starting with `LSM_START_DELETE`. -/
theorem Closed.alternate (h : Closed l) : Alternate false (flags l) := by
  have := h.matched.alternate
  rw [h.start] at this
  exact this

end Ranges

section Lookup

variable {κ V : Type} [LinearOrder κ] {l m : Run κ V} {k : κ} {b : Bool}

/-- What is said about the keys after a run that leaves a range open or not. -/
def closing (b : Bool) (_ : κ) : Option (Option V) := if b then some none else none

/-- Of the records after a key only whether they end a range matters. -/
theorem lookup_append_left (hm : ∀ r ∈ m, k < r.key) :
    lookup (l ++ m) k = lookupThen (closing (gap false m)) l k := by
  unfold lookup
  rw [lookupThen_append]
  exact lookupThen_congr (lookup_before fun r hr => hm r (List.mem_of_head? hr))

/-- The records before a key do not matter. -/
theorem lookup_append_right (hl : ∀ r ∈ l, r.key < k) : lookup (l ++ m) k = lookup m k := by
  unfold lookup
  rw [lookupThen_append, lookupThen_after hl]

theorem lookupThen_singleton {below : κ → Option (Option V)} {r : Record κ V} (h : k ≤ r.key) :
    lookupThen below [r] k =
      if k = r.key then r.data.decides else if r.endDelete then some none else none := by
  rw [lookupThen]
  rcases h.lt_or_eq with hlt | rfl
  · rw [if_pos hlt, if_neg hlt.ne]
  · rw [if_neg (lt_irrefl _), if_pos rfl, if_pos rfl]

/-- The records of a key make way for one with the same ends of ranges. -/
theorem Closed.replace {L R : Run κ V} (old : Run κ V) (n : Record κ V)
    [∀ k, Decidable (k = n.key)] (h : Closed (L ++ (old ++ R)))
    (hL : ∀ r ∈ L, r.key < n.key) (hR : ∀ r ∈ R, n.key < r.key) (hold : ∀ r ∈ old, r.key = n.key)
    (hend : n.endDelete = gap false (old ++ R)) (hstart : n.startDelete = gap false R) :
    Closed (L ++ n :: R) ∧ ∀ k, lookup (L ++ n :: R) k =
      if k = n.key then n.data.decides else lookup (L ++ (old ++ R)) k := by
  obtain ⟨hmL, hmR⟩ := matched_append_run.mp h.matched
  refine ⟨⟨matched_append_run.mpr ⟨?_, hstart, (matched_append_run.mp hmR).2⟩, ?_⟩,
    fun k => ?_⟩
  · rw [← hend] at hmL
    exact hmL
  · have hs := h.start
    rw [gap_append_run, ← hend] at hs
    rw [gap_append_run]
    exact hs
  rcases lt_trichotomy k n.key with hlt | rfl | hgt
  · -- before the key
    rw [if_neg hlt.ne, lookup_append_left, lookup_append_left, ← hend]
    · rfl
    · intro r hr
      rcases List.mem_append.mp hr with hr | hr
      · rw [hold r hr]
        exact hlt
      · exact hlt.trans (hR r hr)
    · intro r hr
      rcases List.mem_cons.mp hr with rfl | hr
      · exact hlt
      · exact hlt.trans (hR r hr)
  · rw [if_pos rfl, lookup_append_right hL, lookup_cons_self]
  · -- after the key
    have hL' : ∀ r ∈ L, r.key < k := fun r hr => (hL r hr).trans hgt
    rw [if_neg hgt.ne', lookup_append_right hL', lookup_append_right hL', lookup_cons_after hgt,
      lookup_append_right]
    exact fun r hr => by
      rw [hold r hr]
      exact hgt

end Lookup

end Run

open Run

/-! ### Maps with marks -/

/-- An entry as a record of a run. -/
def markRecord (e : Bytes × Mark) : Record Bytes Bytes :=
  ⟨e.1, e.2.data, e.2.startDelete, e.2.endDelete, false⟩

/-- Entries as a run. -/
def markRun (l : List (Bytes × Mark)) : Run Bytes Bytes := l.map markRecord

section Marks

variable {l P Q : List (Bytes × Mark)} {m : TreeMap} {k k' k1 k2 : Bytes} {v : Mark}
  {f : EntryFlag} {side : Bool}

theorem markRun_append : markRun (P ++ Q) = markRun P ++ markRun Q := List.map_append

theorem markRun_forall {p : Bytes → Prop} (h : ∀ e ∈ l, p e.1) : ∀ r ∈ markRun l, p r.key := by
  intro r hr
  obtain ⟨e, he, rfl⟩ := List.mem_map.mp hr
  exact h e he

theorem getLast_markRun : (markRun l).getLast? = l.getLast?.map markRecord := List.getLast?_map

theorem opens_markRun : opens (markRun l) = (l.getLast?.map Prod.snd).any Mark.startDelete := by
  rw [opens, getLast_markRun, Option.any_map, Option.any_map]
  rfl

theorem gap_markRun : gap false (markRun l) = (l.head?.map Prod.snd).any Mark.endDelete := by
  cases l with
  | nil => rfl
  | cons e l => rfl

/-- Of entries up to a key, the last one is the one of the key or all come before it. -/
theorem split_last (hsorted : P.Pairwise fun a b => a.1 < b.1) (hP : ∀ e ∈ P, e.1 ≤ k) :
    (∀ e ∈ P, e.1 < k) ∨ ∃ L v, P = L ++ [(k, v)] ∧ ∀ e ∈ L, e.1 < k := by
  rcases List.eq_nil_or_concat' P with rfl | ⟨L, ⟨k', v⟩, rfl⟩
  · exact .inl nofun
  have hcross := (List.pairwise_append.mp hsorted).2.2
  rcases (hP (k', v) (by simp)).lt_or_eq with hlt | rfl
  · refine .inl fun e he => ?_
    rcases List.mem_append.mp he with he | he
    · exact (hcross e he _ List.mem_cons_self).trans hlt
    · rw [List.mem_singleton.mp he]
      exact hlt
  · exact .inr ⟨L, v, rfl, fun e he => hcross e he _ List.mem_cons_self⟩

/-- Of entries from a key on, the first one is the one of the key or all come after it. -/
theorem split_first (hsorted : Q.Pairwise fun a b => a.1 < b.1) (hQ : ∀ e ∈ Q, k ≤ e.1) :
    (∀ e ∈ Q, k < e.1) ∨ ∃ R v, Q = (k, v) :: R ∧ ∀ e ∈ R, k < e.1 := by
  match Q with
  | [] => exact .inl nofun
  | (k', v) :: R =>
      have hfirst := (List.pairwise_cons.mp hsorted).1
      rcases (hQ (k', v) List.mem_cons_self).lt_or_eq with hlt | rfl
      · refine .inl fun e he => ?_
        rcases List.mem_cons.mp he with rfl | he
        · exact hlt
        · exact hlt.trans (hfirst e he)
      · exact .inr ⟨R, v, rfl, hfirst⟩

/-- What marking the start of a range at `k` makes of the entries up to `k`. -/
structure StartsAt (k : Bytes) (P P' : List (Bytes × Mark)) : Prop where
  le : ∀ e ∈ P', e.1 ≤ k
  matched : Matched (opens (markRun P)) (markRun P) → Matched true (markRun P')
  gap_eq : gap true (markRun P') = gap false (markRun P)
  lookup_eq : ∀ k' ≤ k, lookupThen (closing true) (markRun P') k' =
    lookupThen (closing (opens (markRun P))) (markRun P) k'

/-- The range is open already. -/
theorem StartsAt.refl (hP : ∀ e ∈ P, e.1 ≤ k) (h : opens (markRun P) = true) :
    StartsAt k P P := by
  refine ⟨hP, fun hm => h ▸ hm, ?_, fun k' _ => by rw [h]⟩
  cases P with
  | nil => cases h
  | cons e P => rfl

/-- A start is inserted after smaller keys. -/
theorem StartsAt.insert (hP : ∀ e ∈ P, e.1 < k) (h : opens (markRun P) = false) :
    StartsAt k P (P ++ [(k, ⟨.none, true, false⟩)]) := by
  refine ⟨fun e he => ?_, fun hm => ?_, ?_, fun k' hk' => ?_⟩
  · rcases List.mem_append.mp he with he | he
    · exact (hP e he).le
    · rw [List.mem_singleton.mp he]
  · rw [markRun_append, matched_append_run]
    rw [h] at hm
    exact ⟨hm, rfl, trivial⟩
  · rw [markRun_append, gap_append_run]
    rfl
  · rw [markRun_append, lookupThen_append, h]
    refine lookupThen_congr ((lookupThen_singleton hk').trans ?_)
    by_cases heq : k' = k
    · exact if_pos heq
    · exact if_neg heq

/-- The start is marked at the entry of the key. -/
theorem StartsAt.mark (hP : ∀ e ∈ P, e.1 < k) :
    StartsAt k (P ++ [(k, v)]) (P ++ [(k, ⟨v.data, true, v.endDelete⟩)]) := by
  refine ⟨fun e he => ?_, fun hm => ?_, ?_, fun k' hk' => ?_⟩
  · rcases List.mem_append.mp he with he | he
    · exact (hP e he).le
    · rw [List.mem_singleton.mp he]
  · rw [markRun_append, matched_append_run] at hm ⊢
    exact ⟨hm.1, rfl, trivial⟩
  · rw [markRun_append, markRun_append, gap_append_run, gap_append_run]
    rfl
  · rw [markRun_append, markRun_append, lookupThen_append, lookupThen_append]
    exact lookupThen_congr ((lookupThen_singleton hk').trans (lookupThen_singleton hk').symm)

variable (side) in
/-- **The start of a range is marked.** -/
theorem insertMark_startsAt (hm : m.entries = P ++ Q) (hP : ∀ e ∈ P, e.1 ≤ k)
    (hQ : ∀ e ∈ Q, k < e.1) :
    ∃ P', (m.insertMark side .startDelete k).entries = P' ++ Q ∧ StartsAt k P P' := by
  have hsorted := m.sorted
  rw [hm] at hsorted
  rcases split_last (List.pairwise_append.mp hsorted).1 hP with hlt | ⟨L, v, rfl, hL⟩
  · obtain ⟨hget, hprev, -, hins⟩ := SortedMap.around hm hlt hQ
    have hmark := TreeMap.markFor_none .startDelete side hget
    have hpred : (m.pred k).any Mark.startDelete = opens (markRun P) := by
      rw [opens_markRun, TreeMap.pred, hprev]
    rw [hpred] at hmark
    cases hopen : opens (markRun P) with
    | true =>
        rw [hopen] at hmark
        refine ⟨P, ?_, .refl hP hopen⟩
        rw [TreeMap.insertMark, hmark]
        exact hm
    | false =>
        rw [hopen] at hmark
        refine ⟨_, ?_, .insert hlt hopen⟩
        rw [TreeMap.insertMark, hmark, List.append_assoc]
        exact hins _
  · obtain ⟨hget, hins⟩ := SortedMap.at_key (hm.trans (List.append_assoc ..))
    have hmark := TreeMap.markFor_some .startDelete side hget
    cases hopen : v.startDelete with
    | true =>
        rw [hopen] at hmark
        refine ⟨L ++ [(k, v)], ?_, .refl hP ?_⟩
        · rw [TreeMap.insertMark, hmark]
          exact hm
        · rw [markRun_append]
          exact opens_concat.trans hopen
    | false =>
        rw [hopen] at hmark
        refine ⟨_, ?_, .mark hL (v := v)⟩
        rw [TreeMap.insertMark, hmark, List.append_assoc]
        exact hins _

/-- What marking the end of a range at `k` makes of the entries from `k` on. -/
structure EndsAt (k : Bytes) (Q Q' : List (Bytes × Mark)) : Prop where
  le : ∀ e ∈ Q', k ≤ e.1
  matched : Matched false (markRun Q) → Matched false (markRun Q')
  gap_eq : gap false (markRun Q') = true
  lookup_eq : ∀ k', k ≤ k' → lookup (markRun Q') k' = lookup (markRun Q) k'

/-- An end is inserted before greater keys. -/
theorem EndsAt.insert (hQ : ∀ e ∈ Q, k < e.1) (h : gap false (markRun Q) = false) :
    EndsAt k Q ((k, ⟨.none, false, true⟩) :: Q) := by
  refine ⟨fun e he => ?_, fun hm => ⟨h.symm, hm⟩, rfl, fun k' hk' => ?_⟩
  · rcases List.mem_cons.mp he with rfl | he
    · exact le_refl _
    · exact (hQ e he).le
  · rcases hk'.lt_or_eq with hlt | rfl
    · exact lookup_cons_after (r := markRecord (k, ⟨.none, false, true⟩)) hlt
    · refine (lookup_cons_self (r := markRecord (k, ⟨.none, false, true⟩))).trans ?_
      rw [lookup_before fun r hr => markRun_forall hQ r (List.mem_of_head? hr), h]
      rfl

/-- The end is marked at the entry of the key. -/
theorem EndsAt.mark (hQ : ∀ e ∈ Q, k < e.1) :
    EndsAt k ((k, v) :: Q) ((k, ⟨v.data, v.startDelete, true⟩) :: Q) := by
  refine ⟨fun e he => ?_, fun hm => hm, rfl, fun k' hk' => ?_⟩
  · rcases List.mem_cons.mp he with rfl | he
    · exact le_refl _
    · exact (hQ e he).le
  · rcases hk'.lt_or_eq with hlt | rfl
    · exact (lookup_cons_after (r := markRecord (k, ⟨v.data, v.startDelete, true⟩)) hlt).trans
        (lookup_cons_after (r := markRecord (k, v)) hlt).symm
    · exact (lookup_cons_self (r := markRecord (k, ⟨v.data, v.startDelete, true⟩))).trans
        (lookup_cons_self (r := markRecord (k, v))).symm

variable (side) in
/-- **The end of a range is marked.** -/
theorem insertMark_endsAt (hm : m.entries = P ++ Q) (hP : ∀ e ∈ P, e.1 < k)
    (hQ : ∀ e ∈ Q, k ≤ e.1) :
    ∃ Q', (m.insertMark side .endDelete k).entries = P ++ Q' ∧ EndsAt k Q Q' := by
  have hsorted := m.sorted
  rw [hm] at hsorted
  rcases split_first (List.pairwise_append.mp hsorted).2.1 hQ with hgt | ⟨R, v, rfl, hR⟩
  · obtain ⟨hget, -, hnext, hins⟩ := SortedMap.around hm hP hgt
    have hmark := TreeMap.markFor_none .endDelete side hget
    have hsucc : (m.succ k).any Mark.endDelete = gap false (markRun Q) := by
      rw [gap_markRun, TreeMap.succ, hnext]
    rw [hsucc] at hmark
    cases hopen : gap false (markRun Q) with
    | true =>
        rw [hopen] at hmark
        refine ⟨Q, ?_, hQ, id, hopen, fun _ _ => rfl⟩
        rw [TreeMap.insertMark, hmark]
        exact hm
    | false =>
        rw [hopen] at hmark
        refine ⟨_, ?_, .insert hgt hopen⟩
        rw [TreeMap.insertMark, hmark]
        exact hins _
  · obtain ⟨hget, hins⟩ := SortedMap.at_key hm
    have hmark := TreeMap.markFor_some .endDelete side hget
    cases hopen : v.endDelete with
    | true =>
        rw [hopen] at hmark
        refine ⟨(k, v) :: R, ?_, hQ, id, hopen, fun _ _ => rfl⟩
        rw [TreeMap.insertMark, hmark]
        exact hm
    | false =>
        rw [hopen] at hmark
        refine ⟨_, ?_, .mark hR⟩
        rw [TreeMap.insertMark, hmark, Bool.or_comm]
        exact hins _

variable (side) in
/-- **A value or a point delete is inserted**: the flags stay matched, and only the key says
something else. -/
theorem insertMark_closed (hf : f.isBoundary = false) (hc : Closed (markRun m.entries)) :
    Closed (markRun (m.insertMark side f k).entries) ∧
      ∀ k', lookup (markRun (m.insertMark side f k).entries) k' =
        if k' = k then f.data.decides else lookup (markRun m.entries) k' := by
  have hstart : f.isStart = false := (Bool.or_eq_false_iff.mp hf).1
  have hend : f.isEnd = false := (Bool.or_eq_false_iff.mp hf).2
  obtain ⟨P, R, hsplit, hle, hgt⟩ := SortedMap.exists_split (p := (· ≤ k))
    (fun a b hab hb => hab.le.trans hb) m.sorted
  replace hgt : ∀ e ∈ R, k < e.1 := fun e he => not_le.mp (hgt e he)
  have hsorted := m.sorted
  rw [hsplit] at hsorted
  rcases split_last (List.pairwise_append.mp hsorted).1 hle with hlt | ⟨L, v, rfl, hL⟩
  · -- the key is new, and both its neighbours tell whether it is in a range
    obtain ⟨hget, hprev, hnext, hins⟩ := SortedMap.around hsplit hlt hgt
    have hmark := TreeMap.markFor_none f side hget
    rw [hsplit, markRun_append] at hc ⊢
    have hgap := hc.gap_eq
    have hpred : (m.pred k).any Mark.startDelete = gap false (markRun R) := by
      rw [hgap, opens_markRun, TreeMap.pred, hprev]
    have hsucc : (m.succ k).any Mark.endDelete = gap false (markRun R) := by
      rw [gap_markRun, TreeMap.succ, hnext]
    rw [hpred, hsucc, ite_self, hstart, hend, hf] at hmark
    have hnew : (m.insertMark side f k).entries =
        P ++ (k, ⟨f.data, gap false (markRun R), gap false (markRun R)⟩) :: R := by
      rw [TreeMap.insertMark, hmark]
      exact hins _
    rw [hnew, markRun_append]
    exact Closed.replace []
      (markRecord (k, ⟨f.data, gap false (markRun R), gap false (markRun R)⟩)) hc
      (markRun_forall (p := (· < k)) hlt) (markRun_forall (p := (k < ·)) hgt)
      (by rintro _ ⟨⟩) rfl rfl
  · -- the key keeps its flags
    have hsplit' := hsplit.trans (List.append_assoc ..)
    obtain ⟨hget, hins⟩ := SortedMap.at_key hsplit'
    have hmark := TreeMap.markFor_some f side hget
    rw [hstart, hend, hf] at hmark
    rw [hsplit', markRun_append] at hc ⊢
    have hv := (matched_append_run.mp hc.matched).2.1
    have hnew : (m.insertMark side f k).entries =
        L ++ (k, ⟨f.data, v.startDelete, v.endDelete⟩) :: R := by
      rw [TreeMap.insertMark, hmark]
      exact hins _
    rw [hnew, markRun_append]
    exact Closed.replace [markRecord (k, v)]
      (markRecord (k, ⟨f.data, v.startDelete, v.endDelete⟩)) hc
      (markRun_forall (p := (· < k)) hL) (markRun_forall (p := (k < ·)) hgt)
      (by simp [markRecord]) rfl hv

/-- **A range is deleted**: the flags stay matched, and the keys between its ends are
deleted, whatever ranges there were. -/
theorem deleteRange_closed (hlt : k1 < k2) (hc : Closed (markRun m.entries)) :
    Closed (markRun (m.deleteRange k1 k2).entries) ∧
      ∀ k', lookup (markRun (m.deleteRange k1 k2).entries) k' =
        if k1 < k' ∧ k' < k2 then some none else lookup (markRun m.entries) k' := by
  -- the entries before, in and after the range
  obtain ⟨P, M, Q, hPR, hrest, hP, hR, hM, hQ⟩ := m.exists_between (a := k1) (b := k2)
    (p := fun k => !(k1 < k && k < k2)) fun k => by simp
  obtain ⟨P', h1, hstart⟩ := insertMark_startsAt true hrest hP
    fun e he => hR e (List.mem_append_right _ he)
  obtain ⟨Q', h2, hend⟩ := insertMark_endsAt true h1
    (fun e he => (hstart.le e he).trans_lt hlt) hQ
  have hnew : markRun (m.deleteRange k1 k2).entries = markRun P' ++ markRun Q' :=
    (congrArg markRun h2).trans markRun_append
  rw [hPR, markRun_append] at hc ⊢
  rw [hnew]
  have hopen := hc.gap_eq
  obtain ⟨hmP, hmR⟩ := matched_append_run.mp hc.matched
  rw [hopen] at hmP
  rw [markRun_append] at hmR
  refine ⟨⟨matched_append_run.mpr ⟨?_, hend.matched (matched_append_run.mp hmR).2⟩, ?_⟩,
    fun k' => ?_⟩
  · rw [hend.gap_eq]
    exact hstart.matched hmP
  · rw [gap_append_run, hend.gap_eq, hstart.gap_eq]
    cases P with
    | nil => rfl
    | cons e P => exact hc.start
  have hQ' : ∀ r ∈ markRun Q', k2 ≤ r.key := markRun_forall (p := (k2 ≤ ·)) hend.le
  have hP' : ∀ r ∈ markRun P', r.key ≤ k1 := markRun_forall (p := (· ≤ k1)) hstart.le
  by_cases hk1 : k' ≤ k1
  · -- up to the start of the range
    have hQlt : ∀ r ∈ markRun Q', k' < r.key := fun r hr =>
      (hk1.trans_lt hlt).trans_le (hQ' r hr)
    have hRlt : ∀ r ∈ markRun (M ++ Q), k' < r.key := fun r hr =>
      hk1.trans_lt (markRun_forall (p := (k1 < ·)) hR r hr)
    rw [if_neg fun h => hk1.not_gt h.1, lookup_append_left hQlt, lookup_append_left hRlt,
      hend.gap_eq, hopen]
    exact hstart.lookup_eq k' hk1
  have hPlt : ∀ r ∈ markRun P', r.key < k' := fun r hr => (hP' r hr).trans_lt (not_le.mp hk1)
  rw [lookup_append_right hPlt]
  by_cases hk2 : k' < k2
  · -- in the range
    rw [if_pos ⟨not_le.mp hk1, hk2⟩,
      lookup_before fun r hr => hk2.trans_le (hQ' r (List.mem_of_head? hr)), hend.gap_eq]
    rfl
  · -- from its end on
    have hPk : ∀ r ∈ markRun P, r.key < k' := markRun_forall (p := (· < k'))
      fun e he => (hP e he).trans_lt (not_le.mp hk1)
    have hMk : ∀ r ∈ markRun M, r.key < k' := markRun_forall (p := (· < k'))
      fun e he => (hM e he).trans_le (not_lt.mp hk2)
    rw [if_neg fun h => hk2 h.2, hend.lookup_eq k' (not_lt.mp hk2), lookup_append_right hPk,
      markRun_append, lookup_append_right hMk]

end Marks

/-! ### Runs -/

/-- The records that a cursor reads from a tree. -/
def treeRun (beyond : ℕ → Byte) (t : Tree) : Run Bytes Bytes := markRun (t.entries beyond)

namespace TreeOp

/-- A call of `lsmTreeInsert` or `lsmTreeDelete`. -/
def IsCall : TreeOp → Prop
  | treeInsertEntry _ _ _ => False
  | lsmTreeInsert _ _ _ => True
  | lsmTreeDelete _ _ _ _ => True

/-- What a call says about the keys, after what was said about them: an insertion gives one
key a value or deletes it, a range delete deletes the keys strictly between its ends. -/
def tells (s : Bytes → Option (Option Bytes)) : TreeOp → Bytes → Option (Option Bytes)
  | treeInsertEntry _ _ _, k => s k
  | lsmTreeInsert _ pKey pVal, k => if k = pKey then some pVal else s k
  | lsmTreeDelete _ _ pKey1 pKey2, k => if pKey1 < k ∧ k < pKey2 then some none else s k

end TreeOp

/-- What some calls say about the keys, in the end. -/
def said (ops : List TreeOp) : Bytes → Option (Option Bytes) :=
  ops.foldl TreeOp.tells fun _ => none

theorem said_snoc (ops : List TreeOp) (op : TreeOp) : said (ops ++ [op]) = op.tells (said ops) := by
  rw [said, List.foldl_append]
  rfl

/-- One call on a map. -/
theorem MapStep.closed {op : TreeOp} {m m' : TreeMap} (h : MapStep op m m') (hcall : op.IsCall)
    (hallowed : op.Allowed) (hc : Closed (markRun m.entries)) :
    Closed (markRun m'.entries) ∧
      ∀ k, lookup (markRun m'.entries) k = op.tells (lookup (markRun m.entries)) k := by
  cases h with
  | treeInsertEntry side => exact hcall.elim
  | lsmTreeInsert side =>
      rename_i pKey pVal
      obtain ⟨hc', hlook⟩ := insertMark_closed (f := .ofValue pVal) (k := pKey) side
        (by cases pVal <;> rfl) hc
      refine ⟨hc', fun k => (hlook k).trans ?_⟩
      cases pVal <;> rfl
  | lsmTreeDelete => exact deleteRange_closed hallowed hc

/-- Calls on a map. -/
theorem MapAfter.closed {ops : List TreeOp} {m : TreeMap} (h : MapAfter ops m)
    (hcall : ∀ op ∈ ops, op.IsCall) (hallowed : ∀ op ∈ ops, op.Allowed) :
    Closed (markRun m.entries) ∧ ∀ k, lookup (markRun m.entries) k = said ops k := by
  induction h with
  | nil => exact ⟨⟨trivial, rfl⟩, fun k => rfl⟩
  | snoc hafter hstep ih =>
      obtain ⟨hc, hlook⟩ := ih (fun op hop => hcall op (List.mem_append_left _ hop))
        fun op hop => hallowed op (List.mem_append_left _ hop)
      obtain ⟨hc', hlook'⟩ := hstep.closed (hcall _ (by simp)) (hallowed _ (by simp)) hc
      refine ⟨hc', fun k => ?_⟩
      rw [hlook', said_snoc, funext hlook]

/-- **The deleted ranges of the in-memory tree over any run**: as long as the copies of
entries that get a mark fit into their chunks, the starts and the ends of ranges alternate
and the entry before and the one after a place agree whether it is in a range; each key has
what the calls said last about it, and each range delete deletes the keys strictly between
its ends and leaves the others as they were. -/
theorem lsmTree_ranges (beyond : ℕ → Byte) (ops : List TreeOp)
    (hcall : ∀ op ∈ ops, op.IsCall) (hallowed : ∀ op ∈ ops, op.Allowed)
    (hfit : ∀ pre op post, ops = pre ++ op :: post → op.CopiesFit (treeAfter beyond pre)) :
    Closed (treeRun beyond (treeAfter beyond ops)) ∧
      Alternate false (flags (treeRun beyond (treeAfter beyond ops))) ∧
      (∀ k, lookup (treeRun beyond (treeAfter beyond ops)) k = said ops k) ∧
      ∀ pre iWrite1 iWrite2 pKey1 pKey2 post,
        ops = pre ++ .lsmTreeDelete iWrite1 iWrite2 pKey1 pKey2 :: post →
        ∀ k, lookup (treeRun beyond (treeAfter beyond
            (pre ++ [.lsmTreeDelete iWrite1 iWrite2 pKey1 pKey2]))) k =
          if pKey1 < k ∧ k < pKey2 then some none
          else lookup (treeRun beyond (treeAfter beyond pre)) k := by
  -- the calls so far make a closed run
  have hpre : ∀ pre post, ops = pre ++ post → Closed (treeRun beyond (treeAfter beyond pre)) ∧
      ∀ k, lookup (treeRun beyond (treeAfter beyond pre)) k = said pre k := fun pre post h => by
    have hsub : ∀ op ∈ pre, op ∈ ops := fun op hop => by
      rw [h]
      exact List.mem_append_left _ hop
    obtain ⟨-, m, hafter, hm⟩ := treeAfter_inv beyond pre (fun op hop => hallowed op (hsub op hop))
      fun pre' op post' h' => hfit pre' op (post' ++ post) (by rw [h, h']; simp)
    rw [treeRun, hm]
    exact hafter.closed (fun op hop => hcall op (hsub op hop))
      fun op hop => hallowed op (hsub op hop)
  obtain ⟨hc, hlook⟩ := hpre ops [] (List.append_nil ops).symm
  refine ⟨hc, hc.alternate, hlook, fun pre iWrite1 iWrite2 pKey1 pKey2 post h k => ?_⟩
  rw [(hpre (pre ++ [_]) post (by rw [h]; simp)).2, (hpre pre _ h).2, said_snoc]
  rfl

theorem copyOps_call : ∀ op ∈ copyOps, op.IsCall := fun op hop => by
  rcases List.mem_cons.mp hop with rfl | hop
  · trivial
  · rw [List.mem_singleton.mp hop]
    trivial

theorem lsmTree_ranges_copy :
    Closed (treeRun (fun _ => 0) (treeAfter (fun _ => 0) copyOps)) ∧
      Alternate false (flags (treeRun (fun _ => 0) (treeAfter (fun _ => 0) copyOps))) ∧
      (∀ k, lookup (treeRun (fun _ => 0) (treeAfter (fun _ => 0) copyOps)) k = said copyOps k) ∧
      ∀ k, lookup (treeRun (fun _ => 0) (treeAfter (fun _ => 0) copyOps)) k =
        if [107] < k ∧ k < [122] then some none
        else lookup (treeRun (fun _ => 0)
          (treeAfter (fun _ => 0) [.lsmTreeInsert 8 [107] (some [1, 2])])) k := by
  obtain ⟨hc, halt, hlook, hdel⟩ :=
    lsmTree_ranges (fun _ => 0) copyOps copyOps_call copyOps_allowed copyOps_fit
  exact ⟨hc, halt, hlook, hdel [.lsmTreeInsert 8 [107] (some [1, 2])] 64 128 [107] [122] [] rfl⟩

/-- A value of 150000 bytes is inserted as `k`, and the range from `a` to `k` is deleted:
`k` is not in the range, and its value changes. -/
theorem lsmTreeDelete_changes_end : ∃ (pre : List TreeOp) (iWrite1 iWrite2 : ℕ)
    (pKey1 pKey2 k : Bytes), (∀ op ∈ pre, op.IsCall ∧ op.Allowed) ∧ pKey1 < pKey2 ∧
      ¬(pKey1 < k ∧ k < pKey2) ∧
      lookup (treeRun (fun _ => 0) (treeAfter (fun _ => 0)
          (pre ++ [.lsmTreeDelete iWrite1 iWrite2 pKey1 pKey2]))) k ≠
        lookup (treeRun (fun _ => 0) (treeAfter (fun _ => 0) pre)) k := by
  obtain ⟨v, hv⟩ : ∃ v : Bytes, List.replicate 150000 1 = v := ⟨_, rfl⟩
  have hlen : v.length = 150000 := by
    rw [← hv]
    exact List.length_replicate
  refine ⟨[.lsmTreeInsert 8 [107] (some v)], 150064, 150120, [97], [107], [107], fun op hop => ?_,
    by decide, by decide, ?_⟩
  · rw [List.mem_singleton.mp hop]
    exact ⟨trivial, trivial⟩
  obtain ⟨l, e, r, hlist, hl, hkey, hd, hc, havail, hspill⟩ := spillOps_copy hlen
  obtain ⟨w, hw, h0⟩ := read_spill (b := 0) hc hd havail hspill
  -- the value as it is read after the delete
  have hafter : lookup (treeRun (fun _ => 0) (treeAfter (fun _ => 0) (spillOps v))) [107] =
      some (some w) := by
    have hentry : markRecord ((e.read fun _ => 0).entry) =
        ⟨[107], .insert w, e.startDelete, e.endDelete, false⟩ := by
      rw [hw, hkey]
      rfl
    rw [treeRun, TreeNode.TreeRoot.entries, hlist, List.map_append, List.map_cons, markRun_append,
      lookup_append_right]
    · show lookup (markRecord ((e.read fun _ => 0).entry) :: _) [107] = _
      rw [hentry]
      exact lookup_cons_self (r := ⟨[107], .insert w, e.startDelete, e.endDelete, false⟩)
    · refine markRun_forall (p := (· < [107])) fun x hx => ?_
      obtain ⟨y, hy, rfl⟩ := List.mem_map.mp hx
      rw [(hl y hy).1.read]
      exact (hl y hy).2
  -- and before it
  obtain ⟨-, m, hm, hentries⟩ := treeAfter_inv (fun _ => 0) [.lsmTreeInsert 8 [107] (some v)]
    (fun op hop => by rw [List.mem_singleton.mp hop]; trivial)
    fun pre op post h => by
      match pre, h with
      | [], h =>
          obtain ⟨rfl, -⟩ := List.cons.inj h
          trivial
      | _ :: pre, h =>
          have := congrArg List.length h
          simp at this
  have hbefore : lookup (treeRun (fun _ => 0) (treeAfter (fun _ => 0)
      [.lsmTreeInsert 8 [107] (some v)])) [107] = some (some v) := by
    rw [treeRun, hentries, (hm.closed (fun op hop => by rw [List.mem_singleton.mp hop]; trivial)
      fun op hop => by rw [List.mem_singleton.mp hop]; trivial).2]
    rfl
  show lookup (treeRun (fun _ => 0) (treeAfter (fun _ => 0) (spillOps v))) [107] ≠ _
  rw [hafter, hbefore]
  intro h
  obtain rfl : w = v := Option.some.inj (Option.some.inj h)
  rw [← hv] at h0
  exact absurd (List.eq_of_mem_replicate h0) (by decide)

end Lsm

end MoVeBench
