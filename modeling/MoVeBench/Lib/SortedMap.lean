/-
MoVeBench/Lib/SortedMap.lean

Finite maps as lists of entries sorted by key.  The ordering of the keys is a
field of the structure, so a map can be read in key order, and cut at a key or at
a range of keys.

`insert` and `erase` are written with filters, which keeps the order for free.
Callers that hold a map as a concatenation of parts (a tree read in order, a
list cut at a position) use `insertEntry_split`: where the parts lie on the two
sides of the key, the insertion acts between them.

`seekGE` and `seekLE` are the entries a cursor finds at or after, and at or
before, a key; `seekGT` and `seekLT` those strictly after and before it.
-/
import Mathlib

/-- A finite map, as its entries in key order. -/
structure SortedMap (κ ν : Type*) [LinearOrder κ] where
  entries : List (κ × ν)
  sorted : entries.Pairwise fun a b => a.1 < b.1

namespace SortedMap

variable {κ ν : Type*} [LinearOrder κ]

/-! ### Operations on entries -/

def insertEntry (k : κ) (v : ν) (l : List (κ × ν)) : List (κ × ν) :=
  l.filter (fun e => e.1 < k) ++ (k, v) :: l.filter (fun e => k < e.1)

def eraseEntry (k : κ) (l : List (κ × ν)) : List (κ × ν) :=
  l.filter (fun e => e.1 ≠ k)

theorem mem_insertEntry {k : κ} {v : ν} {l : List (κ × ν)} {e : κ × ν} :
    e ∈ insertEntry k v l ↔ e = (k, v) ∨ e ∈ l ∧ e.1 ≠ k := by
  simp only [insertEntry, List.mem_append, List.mem_filter, decide_eq_true_eq, List.mem_cons,
    ne_eq]
  constructor
  · rintro (⟨hm, hlt⟩ | rfl | ⟨hm, hlt⟩)
    · exact .inr ⟨hm, hlt.ne⟩
    · exact .inl rfl
    · exact .inr ⟨hm, hlt.ne'⟩
  · rintro (rfl | ⟨hm, hne⟩)
    · exact .inr (.inl rfl)
    · rcases lt_or_gt_of_ne hne with hlt | hgt
      · exact .inl ⟨hm, hlt⟩
      · exact .inr (.inr ⟨hm, hgt⟩)

theorem mem_eraseEntry {k : κ} {l : List (κ × ν)} {e : κ × ν} :
    e ∈ eraseEntry k l ↔ e ∈ l ∧ e.1 ≠ k := by
  simp [eraseEntry]

/-- Of keys below `k`, then keys above `k`, those below. -/
theorem filter_lt_append {k : κ} {l m : List (κ × ν)} (hl : ∀ e ∈ l, e.1 < k)
    (hm : ∀ e ∈ m, k < e.1) : (l ++ m).filter (fun e => e.1 < k) = l := by
  rw [List.filter_append, List.filter_eq_self.mpr (by simpa using hl),
    List.filter_eq_nil_iff.mpr (by simpa using fun e he => (hm e he).le), List.append_nil]

theorem filter_gt_append {k : κ} {l m : List (κ × ν)} (hl : ∀ e ∈ l, e.1 < k)
    (hm : ∀ e ∈ m, k < e.1) : (l ++ m).filter (fun e => k < e.1) = m := by
  rw [List.filter_append, List.filter_eq_nil_iff.mpr (by simpa using fun e he => (hl e he).le),
    List.filter_eq_self.mpr (by simpa using hm), List.nil_append]

/-- Keys below `k`, then keys above `k`: a new entry goes between. -/
theorem insertEntry_split {k : κ} {v : ν} {l m : List (κ × ν)}
    (hl : ∀ e ∈ l, e.1 < k) (hm : ∀ e ∈ m, k < e.1) :
    insertEntry k v (l ++ m) = l ++ (k, v) :: m := by
  rw [insertEntry, filter_lt_append hl hm, filter_gt_append hl hm]

/-- The entry of `k` itself, between keys below and above, is replaced. -/
theorem insertEntry_replace {k : κ} {v w : ν} {l m : List (κ × ν)}
    (hl : ∀ e ∈ l, e.1 < k) (hm : ∀ e ∈ m, k < e.1) :
    insertEntry k v (l ++ (k, w) :: m) = l ++ (k, v) :: m := by
  have h := insertEntry_split (v := v) hl hm
  simp only [insertEntry, List.filter_append, List.filter_cons, lt_self_iff_false,
    decide_false, Bool.false_eq_true, if_false] at h ⊢
  exact h

/-- Entries in key order, cut where the keys stop to satisfy `p`. -/
theorem exists_split {p : κ → Prop} (hp : ∀ a b, a < b → p b → p a) {l : List (κ × ν)}
    (h : l.Pairwise fun a b => a.1 < b.1) :
    ∃ l₁ l₂, l = l₁ ++ l₂ ∧ (∀ e ∈ l₁, p e.1) ∧ ∀ e ∈ l₂, ¬ p e.1 := by
  induction l with
  | nil => exact ⟨[], [], rfl, nofun, nofun⟩
  | cons a l ih =>
      obtain ⟨ha, hl⟩ := List.pairwise_cons.mp h
      by_cases hpa : p a.1
      · obtain ⟨l₁, l₂, rfl, h₁, h₂⟩ := ih hl
        refine ⟨a :: l₁, l₂, rfl, fun e he => ?_, h₂⟩
        rcases List.mem_cons.mp he with rfl | he
        · exact hpa
        · exact h₁ e he
      · refine ⟨[], a :: l, rfl, nofun, fun e he => ?_⟩
        rcases List.mem_cons.mp he with rfl | he
        · exact hpa
        · exact fun hpe => hpa (hp _ _ (ha e he) hpe)

/-! ### Maps -/

variable (m : SortedMap κ ν)

/-- The map without entries. -/
def empty : SortedMap κ ν := ⟨[], .nil⟩

def get? (k : κ) : Option ν := (m.entries.find? fun e => e.1 = k).map Prod.snd

def insert (k : κ) (v : ν) : SortedMap κ ν where
  entries := insertEntry k v m.entries
  sorted := by
    rw [insertEntry, List.pairwise_append]
    refine ⟨m.sorted.filter _, List.pairwise_cons.mpr ⟨?_, m.sorted.filter _⟩, ?_⟩
    · intro e he
      simpa using List.of_mem_filter he
    · intro a ha b hb
      have hak : a.1 < k := by simpa using List.of_mem_filter ha
      rcases List.mem_cons.mp hb with rfl | hb
      · exact hak
      · exact hak.trans (by simpa using List.of_mem_filter hb)

def erase (k : κ) : SortedMap κ ν where
  entries := eraseEntry k m.entries
  sorted := m.sorted.filter _

/-- The entries whose keys satisfy `p`. -/
def restrict (p : κ → Bool) : SortedMap κ ν where
  entries := m.entries.filter fun e => p e.1
  sorted := m.sorted.filter _

/-- The first entry at or after `k`. -/
def seekGE (k : κ) : Option (κ × ν) := m.entries.find? fun e => k ≤ e.1

/-- The last entry at or before `k`. -/
def seekLE (k : κ) : Option (κ × ν) := (m.entries.filter fun e => e.1 ≤ k).getLast?

/-- The last entry before `k`. -/
def seekLT (k : κ) : Option (κ × ν) := (m.entries.filter fun e => e.1 < k).getLast?

/-- The first entry after `k`. -/
def seekGT (k : κ) : Option (κ × ν) := (m.entries.filter fun e => k < e.1).head?

theorem keys_nodup : (m.entries.map Prod.fst).Nodup :=
  (List.pairwise_map.mpr m.sorted).imp fun h => h.ne

/-- A map is its entries. -/
theorem entries_ext {m n : SortedMap κ ν} (h : ∀ e, e ∈ m.entries ↔ e ∈ n.entries) :
    m.entries = n.entries := by
  have hnodup : ∀ l : SortedMap κ ν, l.entries.Nodup := fun l =>
    l.sorted.imp fun hlt he => absurd (congrArg Prod.fst he) hlt.ne
  have hperm := (List.perm_ext_iff_of_nodup (hnodup m) (hnodup n)).mpr h
  exact hperm.eq_of_pairwise (fun a b _ _ hab hba => absurd hab hba.asymm) m.sorted n.sorted

theorem mem_unique {k : κ} {v w : ν} (hv : (k, v) ∈ m.entries) (hw : (k, w) ∈ m.entries) :
    v = w := by
  have h := List.inj_on_of_nodup_map m.keys_nodup hv hw rfl
  exact (Prod.mk.injEq .. ▸ h).2

/-- An entry of the list is what a lookup finds. -/
theorem get?_eq_some_iff {k : κ} {v : ν} : m.get? k = some v ↔ (k, v) ∈ m.entries := by
  unfold get?
  constructor
  · intro h
    obtain ⟨⟨k', v'⟩, hf, rfl⟩ := Option.map_eq_some_iff.mp h
    have hk : k' = k := by simpa using List.find?_some hf
    exact hk ▸ List.mem_of_find?_eq_some hf
  · intro h
    rcases hf : m.entries.find? (fun e => e.1 = k) with - | ⟨k', v'⟩
    · have := List.find?_eq_none.mp hf (k, v) h
      simp at this
    · have hk : k' = k := by simpa using List.find?_some hf
      have hv := m.mem_unique (hk ▸ List.mem_of_find?_eq_some hf) h
      rw [← hv, hf, Option.map_some]

theorem get?_eq_none_iff {k : κ} : m.get? k = none ↔ ∀ e ∈ m.entries, e.1 ≠ k := by
  rw [get?, Option.map_eq_none_iff, List.find?_eq_none]
  simp

theorem get?_insert (k k' : κ) (v : ν) :
    (m.insert k v).get? k' = if k' = k then some v else m.get? k' := by
  apply Option.ext
  intro w
  rw [get?_eq_some_iff]
  change (k', w) ∈ insertEntry k v m.entries ↔ _
  rw [mem_insertEntry]
  split_ifs with hk
  · subst hk
    simp [eq_comm]
  · rw [get?_eq_some_iff]
    simp [hk]

@[simp] theorem get?_insert_self (k : κ) (v : ν) : (m.insert k v).get? k = some v := by
  rw [get?_insert, if_pos rfl]

theorem get?_insert_of_ne {k k' : κ} (h : k' ≠ k) (v : ν) :
    (m.insert k v).get? k' = m.get? k' := by
  rw [get?_insert, if_neg h]

theorem get?_erase (k k' : κ) :
    (m.erase k).get? k' = if k' = k then none else m.get? k' := by
  apply Option.ext
  intro w
  rw [get?_eq_some_iff]
  change (k', w) ∈ eraseEntry k m.entries ↔ _
  rw [mem_eraseEntry]
  split_ifs with hk
  · simp [hk]
  · rw [get?_eq_some_iff]
    simp [hk]

theorem get?_restrict (p : κ → Bool) (k : κ) :
    (m.restrict p).get? k = if p k then m.get? k else none := by
  apply Option.ext
  intro w
  rw [get?_eq_some_iff]
  show (k, w) ∈ m.entries.filter _ ↔ _
  rw [List.mem_filter]
  by_cases hk : p k = true
  · rw [if_pos hk, get?_eq_some_iff]
    exact and_iff_left hk
  · rw [if_neg hk]
    exact iff_of_false (fun h => hk h.2) nofun

/-- The entries before, in and after a range of keys, and what is left without the range. -/
theorem exists_between {a b : κ} {p : κ → Bool} (hp : ∀ k, p k = false ↔ a < k ∧ k < b) :
    ∃ l mid r, m.entries = l ++ (mid ++ r) ∧ (m.restrict p).entries = l ++ r ∧
      (∀ e ∈ l, e.1 ≤ a) ∧ (∀ e ∈ mid ++ r, a < e.1) ∧ (∀ e ∈ mid, e.1 < b) ∧
      ∀ e ∈ r, b ≤ e.1 := by
  obtain ⟨l, t, hlt, hl, ht⟩ := exists_split (p := (· ≤ a))
    (fun _ _ h hle => h.le.trans hle) m.sorted
  have hsorted := m.sorted
  rw [hlt] at hsorted
  obtain ⟨mid, r, rfl, hmid, hr⟩ := exists_split (p := (· < b))
    (fun _ _ h hlt => h.trans hlt) (List.pairwise_append.mp hsorted).2.1
  replace ht : ∀ e ∈ mid ++ r, a < e.1 := fun e he => not_le.mp (ht e he)
  replace hr : ∀ e ∈ r, b ≤ e.1 := fun e he => not_lt.mp (hr e he)
  refine ⟨l, mid, r, hlt, ?_, hl, ht, hmid, hr⟩
  show m.entries.filter _ = _
  have hkeep : ∀ k, ¬(a < k ∧ k < b) → p k = true := fun k h =>
    Bool.not_eq_false _ ▸ mt (hp k).mp h
  have hlself : l.filter (fun e => p e.1) = l :=
    List.filter_eq_self.mpr fun e he => hkeep _ fun h => h.1.not_ge (hl e he)
  have hnil : mid.filter (fun e => p e.1) = [] :=
    List.filter_eq_nil_iff.mpr fun e he => Bool.eq_false_iff.mp
      ((hp _).mpr ⟨ht e (List.mem_append_left _ he), hmid e he⟩)
  have hrself : r.filter (fun e => p e.1) = r :=
    List.filter_eq_self.mpr fun e he => hkeep _ fun h => h.2.not_ge (hr e he)
  rw [hlt, List.filter_append, List.filter_append, hlself, hnil, hrself, List.nil_append]

variable {m} in
/-- Around a key that is not in the map. -/
theorem around {k : κ} {l r : List (κ × ν)} (hm : m.entries = l ++ r) (hl : ∀ e ∈ l, e.1 < k)
    (hr : ∀ e ∈ r, k < e.1) : m.get? k = none ∧ m.seekLT k = l.getLast? ∧ m.seekGT k = r.head? ∧
      ∀ v, (m.insert k v).entries = l ++ (k, v) :: r := by
  refine ⟨?_, ?_, ?_, fun v => ?_⟩
  · rw [get?_eq_none_iff, hm]
    intro x hx
    rcases List.mem_append.mp hx with hx | hx
    · exact (hl x hx).ne
    · exact (hr x hx).ne'
  · rw [seekLT, hm, filter_lt_append hl hr]
  · rw [seekGT, hm, filter_gt_append hl hr]
  · show insertEntry k v m.entries = _
    rw [hm, insertEntry_split hl hr]

variable {m} in
/-- At a key of the map. -/
theorem at_key {k : κ} {w : ν} {l r : List (κ × ν)} (hm : m.entries = l ++ (k, w) :: r) :
    m.get? k = some w ∧ ∀ v, (m.insert k v).entries = l ++ (k, v) :: r := by
  have hsorted := m.sorted
  rw [hm] at hsorted
  obtain ⟨-, hright, hcross⟩ := List.pairwise_append.mp hsorted
  refine ⟨?_, fun v => ?_⟩
  · rw [get?_eq_some_iff, hm]
    exact List.mem_append_right _ List.mem_cons_self
  · show insertEntry k v m.entries = _
    rw [hm]
    exact insertEntry_replace (fun x hx => hcross x hx _ List.mem_cons_self)
      (List.pairwise_cons.mp hright).1

/-! ### Seeking -/

theorem seekGE_eq_none_iff {k : κ} : m.seekGE k = none ↔ ∀ e ∈ m.entries, e.1 < k := by
  rw [seekGE, List.find?_eq_none]
  simp

/-- What `seekGE` finds is an entry at or after the key, and nothing lies
between. -/
theorem seekGE_spec {k : κ} {e : κ × ν} (h : m.seekGE k = some e) :
    e ∈ m.entries ∧ k ≤ e.1 ∧ ∀ e' ∈ m.entries, k ≤ e'.1 → e.1 ≤ e'.1 := by
  have hk : k ≤ e.1 := by simpa using List.find?_some h
  refine ⟨List.mem_of_find?_eq_some h, hk, fun e' he' hk' => ?_⟩
  obtain ⟨-, l, r, hlr, hl⟩ := List.find?_eq_some_iff_append.mp h
  have hs := m.sorted
  rw [hlr] at he' hs
  rcases List.mem_append.mp he' with hin | hin
  · have := hl e' hin
    simp only [Bool.not_eq_true', decide_eq_false_iff_not] at this
    exact absurd hk' this
  · rcases List.mem_cons.mp hin with rfl | hin
    · exact le_rfl
    · exact ((List.pairwise_cons.mp (List.pairwise_append.mp hs).2.1).1 e' hin).le

theorem seekGT_eq_none_iff {k : κ} : m.seekGT k = none ↔ ∀ e ∈ m.entries, e.1 ≤ k := by
  rw [seekGT, List.head?_eq_none_iff, List.filter_eq_nil_iff]
  simp

/-- What `seekGT` finds is an entry after the key, and nothing lies between. -/
theorem seekGT_spec {k : κ} {e : κ × ν} (h : m.seekGT k = some e) :
    e ∈ m.entries ∧ k < e.1 ∧ ∀ e' ∈ m.entries, k < e'.1 → e.1 ≤ e'.1 := by
  obtain ⟨rest, hrest⟩ := List.head?_eq_some_iff.mp h
  have hmem : e ∈ m.entries.filter fun e => k < e.1 := by
    rw [hrest]
    exact List.mem_cons_self
  have hsorted := m.sorted.filter fun e => k < e.1
  rw [hrest] at hsorted
  refine ⟨List.mem_of_mem_filter hmem, by simpa using List.of_mem_filter hmem, fun e' he' hk => ?_⟩
  have hin : e' ∈ m.entries.filter fun e => k < e.1 :=
    List.mem_filter.mpr ⟨he', decide_eq_true hk⟩
  rw [hrest] at hin
  rcases List.mem_cons.mp hin with rfl | hin
  · exact le_rfl
  · exact ((List.pairwise_cons.mp hsorted).1 e' hin).le

end SortedMap
