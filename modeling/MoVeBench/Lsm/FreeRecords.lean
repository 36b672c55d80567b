/-
MoVeBench/Lsm/FreeRecords.lean

The worker's free list as records of a run (`CURSOR_DATA_SYSTEM`).

The cursor goes through the entries from the last one to the first: a free block is an
insert of its id, and the entries that say that a block is not free are deletes of a range,
one for all the blocks of a row.  Where a range begins at a record that is written anyway,
the boundary of the range is read once more, at the key of that record (`echo`).  Without
these the records are a complete run (`freeRun_eq`, `sysRun_runOk`), which says of every
block what the list says (`lookup_sysRun`).

Block numbers begin at 1 and are below 2^31, so that the neighbours of a block are block
numbers too.
-/
import MoVeBench.Lsm.Echo
import MoVeBench.Lsm.Freelist

namespace MoVeBench

namespace Lsm

open Run

namespace FreeRecords

/-- A key and its topic: user keys first, then the system keys, which are the blocks from
the last one down (`~iBlk`). -/
abbrev Key (κ : Type) := κ ⊕ₗ ℕᵒᵈ

/-- The value of a user record, or the id of a block. -/
abbrev Value (V : Type) := V ⊕ ℤ

variable {κ V : Type}

def sysKey (iBlk : ℕ) : Key κ := Sum.inrₗ (OrderDual.toDual iBlk)

/-- `rtTopic`. -/
def isSystem (k : Key κ) : Bool := (ofLex k).isRight

/-! ### The cursor -/

section Cursor

variable (aEntry : List (ℕ × ℤ))

/-- `aEntry[i]`. -/
def entry (i : ℕ) : ℕ × ℤ := aEntry.getD i (0, 0)

/-- The case `CURSOR_DATA_SYSTEM` of `multiCursorGetKey` and of `multiCursorGetVal`. -/
def multiCursorGetKey (iFree : ℕ) : Option (Record (Key κ) (Value V)) :=
  if iFree < aEntry.length * 2 then
    let i := aEntry.length - 1 - iFree / 2
    let e := entry aEntry i
    let (iKey, data, bStart, bEnd) : ℕ × Data (Value V) × Bool × Bool :=
      if iFree % 2 = 1 then (e.1 - 1, .none, false, true)
      else if 0 ≤ e.2 then
        -- the entry read before this one may be a delete that ends here
        (e.1, .insert (.inr e.2), false, decide (i < aEntry.length - 1 ∧
          (entry aEntry (i + 1)).1 = e.1 + 1 ∧ (entry aEntry (i + 1)).2 < 0))
      else (e.1 + 1, .none, true, false)
    -- and the next one a delete that begins here
    some
      { key := sysKey iKey
        data := data
        startDelete := bStart || decide (0 < i ∧ (entry aEntry (i - 1)).1 = iKey - 1 ∧
          (entry aEntry (i - 1)).2 < 0)
        endDelete := bEnd
        separator := false }
  else none

/-- The loop of `flCsrAdvance` over the entries of a range that is deleted, and what is
added to `iFree` after it. -/
def flCsrLoop : ℕ → ℕ → ℕ
  | 0, iFree => iFree + 1
  | i + 1, iFree =>
      if (entry aEntry i).1 ≠ (entry aEntry (i + 1)).1 - 1 then iFree + 1
      else if 0 ≤ (entry aEntry i).2 then iFree + 2
      else flCsrLoop i (iFree + 2)

def flCsrAdvance (iFree : ℕ) : ℕ :=
  if iFree % 2 = 1 then iFree + 1
  else
    let i := aEntry.length - 1 - iFree / 2
    if (entry aEntry i).2 < 0 then flCsrLoop aEntry i iFree else iFree + 2

/-- What the cursor reads from `iFree` on, up to `n` records. -/
def records : ℕ → ℕ → Run (Key κ) (Value V)
  | 0, _ => []
  | n + 1, iFree =>
      match multiCursorGetKey aEntry iFree with
      | none => []
      | some r => r :: records n (flCsrAdvance aEntry iFree)

/-- All that it reads: there are two positions for an entry. -/
def freeRun : Run (Key κ) (Value V) := records aEntry (2 * aEntry.length) 0

end Cursor

/-! ### Ranges of blocks -/

/-- The insert of a free block. -/
def insertRecord (e : ℕ × ℤ) (bStart bEnd : Bool) : Record (Key κ) (Value V) :=
  ⟨sysKey e.1, .insert (.inr e.2), bStart, bEnd, false⟩

/-- The boundary of a range of deleted blocks. -/
def boundary (iBlk : ℕ) (bStart bEnd : Bool) : Record (Key κ) (Value V) :=
  ⟨sysKey iBlk, .none, bStart, bEnd, false⟩

/-- The next entry is the block below `iBlk`, and it is not free. -/
def marks (iBlk : ℕ) : List (ℕ × ℤ) → Bool
  | [] => false
  | e :: _ => decide (e.1 + 1 = iBlk ∧ e.2 < 0)

/-- The records of entries in descending order.  With `some b` a range is open, and its
blocks are deleted down to `b`. -/
def ranges : Option ℕ → List (ℕ × ℤ) → Run (Key κ) (Value V)
  | none, [] => []
  | some b, [] => [boundary (b - 1) false true]
  | none, e :: es =>
      if 0 ≤ e.2 then
        insertRecord e (marks e.1 es) false :: ranges (if marks e.1 es then some e.1 else none) es
      else boundary (e.1 + 1) true false :: ranges (some e.1) es
  | some b, e :: es =>
      if e.1 + 1 = b then
        if 0 ≤ e.2 then
          insertRecord e (marks e.1 es) true ::
            ranges (if marks e.1 es then some e.1 else none) es
        else ranges (some e.1) es
      else if 0 ≤ e.2 then
        boundary (b - 1) false true :: insertRecord e (marks e.1 es) false ::
          ranges (if marks e.1 es then some e.1 else none) es
      else if e.1 + 2 = b then boundary (b - 1) true true :: ranges (some e.1) es
      else boundary (b - 1) false true :: boundary (e.1 + 1) true false :: ranges (some e.1) es

/-- The free list as a complete run. -/
def sysRun (aEntry : List (ℕ × ℤ)) : Run (Key κ) (Value V) := ranges none aEntry.reverse

/-- What the entries say about a block. -/
def tells (es : List (ℕ × ℤ)) (iBlk : ℕ) : Option (Option (Value V)) :=
  match es.find? fun e => e.1 = iBlk with
  | some e => if e.2 < 0 then some none else some (some (.inr e.2))
  | none => none

section Ranges

variable [LinearOrder κ] {es : List (ℕ × ℤ)} {e : ℕ × ℤ} {l : Run (Key κ) (Value V)}
  {r : Record (Key κ) (Value V)} {b c m : ℕ} {bOpen : Bool}

@[simp] theorem sysKey_lt : (sysKey b : Key κ) < sysKey c ↔ c < b := by
  unfold sysKey
  rw [Sum.Lex.inr_lt_inr_iff]
  exact Iff.rfl

omit [LinearOrder κ] in
@[simp] theorem sysKey_inj : (sysKey b : Key κ) = sysKey c ↔ b = c := by
  refine ⟨fun h => ?_, fun h => by rw [h]⟩
  have hinr := Sum.inr.inj (toLex_inj.mp h)
  exact OrderDual.toDual_inj.mp hinr

/-- A run of records below block `m` says what the entries say of these blocks; `bOpen` tells
if its first record ends a range. -/
structure Tells (l : Run (Key κ) (Value V)) (m : ℕ) (bOpen : Bool) (es : List (ℕ × ℤ)) : Prop where
  sorted : Sorted l
  matched : Matched false l
  gap : Run.gap false l = bOpen
  keys : ∀ r ∈ l, ∃ k < m, r.key = sysKey k
  plain : ∀ r ∈ l, r.separator = false
  lookup : ∀ k < m, Run.lookup l (sysKey k) = tells es k

theorem tells_cons_self : tells (e :: es) e.1 =
    (if e.2 < 0 then some none else some (some (.inr e.2)) : Option (Option (Value V))) := by
  unfold tells
  rw [List.find?_cons_of_pos (by simp)]

theorem tells_cons_ne (h : b ≠ e.1) :
    (tells (e :: es) b : Option (Option (Value V))) = tells es b := by
  unfold tells
  rw [List.find?_cons_of_neg (by simpa using h.symm)]

theorem tells_eq_none (h : ∀ e ∈ es, e.1 ≠ b) :
    (tells es b : Option (Option (Value V))) = none := by
  unfold tells
  rw [List.find?_eq_none.mpr (by simpa using h)]

/-- The blocks between the first record and the bound. -/
theorem Tells.between (h : Tells l b bOpen es) {k : ℕ} (hk : b ≤ k) :
    Run.lookup l (sysKey k) = if bOpen then some none else none := by
  rw [lookup_before, h.gap]
  intro r hr
  obtain ⟨c, hc, hkey⟩ := h.keys r (List.mem_of_mem_head? hr)
  rw [hkey, sysKey_lt]
  omega

/-- A record before the others. -/
theorem Tells.cons {es' : List (ℕ × ℤ)} (h : Tells l b bOpen es) (hkey : r.key = sysKey b)
    (hb : b < m) (hstart : r.startDelete = bOpen) (hplain : r.separator = false)
    (hself : r.data.decides = tells es' b)
    (habove : ∀ k, b < k → k < m → (if r.endDelete then some none else none) =
      (tells es' k : Option (Option (Value V))))
    (hbelow : ∀ k, k < b → (tells es k : Option (Option (Value V))) = tells es' k) :
    Tells (r :: l) m r.endDelete es' := by
  refine ⟨List.pairwise_cons.mpr ⟨fun r' hr' => ?_, h.sorted⟩, ⟨?_, h.matched⟩, rfl,
    fun r' hr' => ?_, fun r' hr' => ?_, fun k hk => ?_⟩
  · obtain ⟨c, hc, hkey'⟩ := h.keys r' hr'
    rw [hkey, hkey', sysKey_lt]
    exact hc
  · rw [hstart, h.gap]
  · rcases List.mem_cons.mp hr' with rfl | hr'
    · exact ⟨b, hb, hkey⟩
    · obtain ⟨c, hc, hkey'⟩ := h.keys r' hr'
      exact ⟨c, hc.trans hb, hkey'⟩
  · rcases List.mem_cons.mp hr' with rfl | hr'
    · exact hplain
    · exact h.plain r' hr'
  · rcases lt_trichotomy k b with hkb | rfl | hkb
    · rw [lookup_cons_after (by rw [hkey, sysKey_lt]; exact hkb), h.lookup k hkb]
      exact hbelow k hkb
    · rw [← hkey, lookup_cons_self]
      exact hself
    · rw [lookup_before (by rintro r' ⟨⟩; rw [hkey, sysKey_lt]; exact hkb)]
      exact habove k hkb hk

theorem Tells.nil (m : ℕ) : Tells ([] : Run (Key κ) (Value V)) m false [] :=
  ⟨List.Pairwise.nil, trivial, rfl, nofun, nofun, fun _ _ => rfl⟩

/-- A boundary above the blocks of the entries. -/
theorem Tells.boundary (h : Tells l b bOpen es) (hb : b < m) {bEnd : Bool}
    (hend : bEnd = true → m = b + 1) (hes : ∀ e ∈ es, e.1 < b) :
    Tells (FreeRecords.boundary b bOpen bEnd :: l) m bEnd es := by
  refine h.cons rfl hb rfl rfl ?_ (fun k hbk hkm => ?_) fun _ _ => rfl
  · exact (tells_eq_none fun e he => (hes e he).ne).symm
  · rw [tells_eq_none fun e he => ((hes e he).trans hbk).ne]
    cases bEnd with
    | false => rfl
    | true =>
        have := hend rfl
        omega

/-- The block of an entry that is not free lies in the range that is open. -/
theorem Tells.deleted (h : Tells l e.1 true es) (hneg : e.2 < 0) :
    Tells l (e.1 + 1) true (e :: es) := by
  refine ⟨h.sorted, h.matched, h.gap, fun r hr => ?_, h.plain, fun k hk => ?_⟩
  · obtain ⟨c, hc, hkey⟩ := h.keys r hr
    exact ⟨c, hc.trans (Nat.lt_succ_self _), hkey⟩
  · rcases (Nat.lt_succ_iff.mp hk).lt_or_eq with hlt | rfl
    · rw [h.lookup k hlt, tells_cons_ne hlt.ne]
    · rw [h.between le_rfl, tells_cons_self, if_pos hneg]
      rfl

/-- The insert of a free block, with the records after it. -/
theorem tells_insert (hfree : 0 ≤ e.2) (hes : ∀ e' ∈ es, e'.1 < e.1)
    (hnone : marks e.1 es = false → Tells (ranges none es : Run (Key κ) (Value V)) e.1 false es)
    (hsome : Tells (ranges (some e.1) es : Run (Key κ) (Value V)) e.1 true es)
    (hm : e.1 < m) {bEnd : Bool} (hend : bEnd = true → m = e.1 + 1) :
    Tells (insertRecord e (marks e.1 es) bEnd ::
      (ranges (if marks e.1 es then some e.1 else none) es : Run (Key κ) (Value V))) m bEnd
        (e :: es) := by
  have hrest : Tells (ranges (if marks e.1 es then some e.1 else none) es : Run (Key κ) (Value V))
      e.1 (marks e.1 es) es := by
    cases hmarks : marks e.1 es with
    | true => exact hsome
    | false => exact hnone hmarks
  refine hrest.cons rfl hm rfl rfl ?_ (fun k hek hkm => ?_) fun k hk => ?_
  · rw [tells_cons_self, if_neg (not_lt.mpr hfree)]
    rfl
  · rw [tells_cons_ne hek.ne', tells_eq_none fun e' he' => ((hes e' he').trans hek).ne]
    cases bEnd with
    | false => rfl
    | true =>
        have := hend rfl
        omega
  · exact (tells_cons_ne hk.ne).symm

/-- Entries in descending order, as the cursor reads them. -/
structure Descending (es : List (ℕ × ℤ)) : Prop where
  pairwise : es.Pairwise fun a b => b.1 < a.1
  pos : ∀ e ∈ es, 0 < e.1

/-- **The records say what the entries say**, with a range open before them or not. -/
theorem tells_ranges (h : Descending es) :
    (∀ m, (∀ e ∈ es, e.1 < m) → marks m es = false →
      Tells (ranges none es : Run (Key κ) (Value V)) m false es) ∧
    ∀ b, 0 < b → (∀ e ∈ es, e.1 < b) →
      Tells (ranges (some b) es : Run (Key κ) (Value V)) b true es := by
  induction es with
  | nil =>
      refine ⟨fun m _ _ => Tells.nil m, fun b hb _ => ?_⟩
      exact (Tells.nil (b - 1)).boundary (by omega) (fun _ => by omega) nofun
  | cons e es ih =>
      obtain ⟨hhead, htail⟩ := List.pairwise_cons.mp h.pairwise
      have hpos := h.pos e List.mem_cons_self
      obtain ⟨hnone, hsome⟩ := ih ⟨htail, fun e he => h.pos e (List.mem_cons_of_mem _ he)⟩
      have hopen := hsome e.1 hpos hhead
      have hbelow : ∀ {c}, e.1 < c → ∀ e' ∈ e :: es, e'.1 < c := by
        intro c hc e' he'
        rcases List.mem_cons.mp he' with rfl | he'
        · exact hc
        · exact (hhead e' he').trans hc
      refine ⟨fun m hm hmarks => ?_, fun b hb hm => ?_⟩
      · have hem := hm e List.mem_cons_self
        rw [ranges]
        by_cases hfree : 0 ≤ e.2
        · rw [if_pos hfree]
          exact tells_insert hfree hhead (hnone _ hhead) hopen hem nofun
        · -- a range begins with the entry
          have hne : e.1 + 1 ≠ m := by
            rintro rfl
            simp only [marks, true_and, decide_eq_false_iff_not, not_lt] at hmarks
            exact hfree hmarks
          rw [if_neg hfree]
          exact (hopen.deleted (not_le.mp hfree)).boundary (by omega) nofun
            (hbelow (Nat.lt_succ_self _))
      · have hem := hm e List.mem_cons_self
        rw [ranges]
        by_cases hnext : e.1 + 1 = b
        · rw [if_pos hnext]
          by_cases hfree : 0 ≤ e.2
          · rw [if_pos hfree]
            exact tells_insert hfree hhead (hnone _ hhead) hopen hem fun _ => hnext.symm
          · -- the open range goes on
            rw [if_neg hfree, ← hnext]
            exact hopen.deleted (not_le.mp hfree)
        · rw [if_neg hnext]
          have hlast : e.1 < b - 1 := by omega
          by_cases hfree : 0 ≤ e.2
          · rw [if_pos hfree]
            have hins := tells_insert hfree hhead (hnone _ hhead) hopen hlast
              (show false = true → b - 1 = e.1 + 1 from nofun)
            exact hins.boundary (by omega) (fun _ => by omega) (hbelow hlast)
          · rw [if_neg hfree]
            have hdel := hopen.deleted (not_le.mp hfree)
            by_cases hgap : e.1 + 2 = b
            · -- one range ends and the next one begins
              rw [if_pos hgap]
              rw [show e.1 + 1 = b - 1 by omega] at hdel
              exact hdel.boundary (by omega) (fun _ => by omega) (hbelow hlast)
            · rw [if_neg hgap]
              have hstart := hdel.boundary (m := b - 1) (by omega)
                (show false = true → b - 1 = e.1 + 1 + 1 from nofun) (hbelow (Nat.lt_succ_self _))
              exact hstart.boundary (by omega) (fun _ => by omega) (hbelow hlast)

end Ranges

/-! ### What the cursor reads -/

/-- The entry before ends a range above the block of `e`. -/
def endsAt (pre : List (ℕ × ℤ)) (e : ℕ × ℤ) : Bool :=
  pre.getLast?.any fun p => decide (p.1 = e.1 + 1 ∧ p.2 < 0)

section Stream

variable {a pre post : List (ℕ × ℤ)} {e : ℕ × ℤ} {n : ℕ}

theorem entry_split (h : a.reverse = pre ++ e :: post) :
    entry a post.length = e ∧ a.length = pre.length + post.length + 1 := by
  have ha : a = post.reverse ++ e :: pre.reverse := by
    rw [← List.reverse_reverse a, h]
    simp
  subst ha
  refine ⟨?_, ?_⟩
  · unfold entry
    rw [List.getD_eq_getElem?_getD, List.getElem?_append_right (by simp)]
    simp
  · simp
    omega

theorem entry_pred {e' : ℕ × ℤ} (h : a.reverse = pre ++ e :: e' :: post) :
    entry a post.length = e' := by
  rw [List.append_cons] at h
  exact (entry_split h).1

theorem entry_succ {p : ℕ × ℤ} (h : a.reverse = pre ++ [p] ++ e :: post) :
    entry a (post.length + 1) = p := by
  rw [← List.append_cons] at h
  exact (entry_split h).1

/-- The entry at an even position, and at the odd position after it. -/
theorem index_split (h : a.reverse = pre ++ e :: post) :
    a.length - 1 - 2 * pre.length / 2 = post.length ∧
      a.length - 1 - (2 * pre.length + 1) / 2 = post.length := by
  have := (entry_split h).2
  omega

theorem startsAt_split (hd : Descending a.reverse) (h : a.reverse = pre ++ e :: post)
    {iKey : ℕ} :
    decide (0 < post.length ∧ (entry a (post.length - 1)).1 = iKey - 1 ∧
      (entry a (post.length - 1)).2 < 0) = marks iKey post := by
  cases post with
  | nil => rfl
  | cons e' post =>
      have hpos := hd.pos e' (by rw [h]; simp)
      rw [List.length_cons, Nat.add_sub_cancel, entry_pred h, marks]
      refine decide_eq_decide.mpr ?_
      constructor
      · rintro ⟨-, hkey, hneg⟩
        exact ⟨by omega, hneg⟩
      · rintro ⟨hkey, hneg⟩
        exact ⟨by omega, by omega, hneg⟩

theorem endsAt_split (h : a.reverse = pre ++ e :: post) :
    decide (post.length < a.length - 1 ∧ (entry a (post.length + 1)).1 = e.1 + 1 ∧
      (entry a (post.length + 1)).2 < 0) = endsAt pre e := by
  have hlen := (entry_split h).2
  rcases List.eq_nil_or_concat pre with rfl | ⟨pre', p, rfl⟩
  · refine decide_eq_false fun hlt => ?_
    have := hlt.1
    simp only [List.length_nil] at hlen
    omega
  · rw [List.concat_eq_append] at h hlen ⊢
    rw [List.length_append, List.length_singleton] at hlen
    rw [entry_succ h, endsAt, List.getLast?_concat, Option.any_some]
    exact decide_eq_decide.mpr (and_iff_right (by omega))

/-- What is read at the even position of an entry. -/
theorem multiCursorGetKey_even (hd : Descending a.reverse) (h : a.reverse = pre ++ e :: post) :
    multiCursorGetKey (κ := κ) (V := V) a (2 * pre.length) = some
      (if 0 ≤ e.2 then insertRecord e (marks e.1 post) (endsAt pre e)
      else boundary (e.1 + 1) true false) := by
  have hlen := (entry_split h).2
  unfold multiCursorGetKey
  rw [if_pos (by omega), (index_split h).1]
  simp only [(entry_split h).1, if_neg (show ¬2 * pre.length % 2 = 1 by omega)]
  by_cases hfree : 0 ≤ e.2
  · simp only [if_pos hfree, Bool.false_or, startsAt_split hd h, endsAt_split h]
    rfl
  · simp only [if_neg hfree, Bool.true_or]
    rfl

theorem multiCursorGetKey_odd (hd : Descending a.reverse) (h : a.reverse = pre ++ e :: post) :
    multiCursorGetKey (κ := κ) (V := V) a (2 * pre.length + 1) =
      some (boundary (e.1 - 1) (marks (e.1 - 1) post) true) := by
  have hlen := (entry_split h).2
  unfold multiCursorGetKey
  rw [if_pos (by omega), (index_split h).2]
  simp only [(entry_split h).1, if_pos (show (2 * pre.length + 1) % 2 = 1 by omega),
    Bool.false_or, startsAt_split hd h]
  rfl

theorem flCsrAdvance_odd (j : ℕ) : flCsrAdvance a (2 * j + 1) = 2 * (j + 1) := by
  unfold flCsrAdvance
  rw [if_pos (by omega)]
  omega

theorem flCsrAdvance_even (h : a.reverse = pre ++ e :: post) :
    flCsrAdvance a (2 * pre.length) =
      if e.2 < 0 then flCsrLoop a post.length (2 * pre.length) else 2 * (pre.length + 1) := by
  unfold flCsrAdvance
  rw [if_neg (by omega), (index_split h).1]
  simp only [(entry_split h).1]
  rfl

/-- The end of the list. -/
theorem records_eof (n : ℕ) {iFree : ℕ} (h : a.length * 2 ≤ iFree) :
    (records a n iFree : Run (Key κ) (Value V)) = [] := by
  cases n with
  | zero => rfl
  | succ n =>
      rw [records, multiCursorGetKey, if_neg (by omega)]

/-- What is read from the end of a range on, or from a record on that has none before it. -/
structure ReadFrom (κ V : Type) (a pre post : List (ℕ × ℤ)) : Prop where
  closed : (∀ e ∈ post.head?, endsAt pre e = false) → ∀ n, a.length * 2 ≤ n + 2 * pre.length →
    (records a n (2 * pre.length) : Run (Key κ) (Value V)) = echo (ranges none post)
  opened : ∀ pre' e, pre = pre' ++ [e] → e.2 < 0 → ∀ n, a.length * 2 < n + 2 * pre.length →
    (records a n (flCsrLoop a post.length (2 * pre'.length)) : Run (Key κ) (Value V)) =
      echo (ranges (some e.1) post)

/-- The record of an entry that is not free, and those after it. -/
theorem records_deleted (hd : Descending a.reverse) (h : a.reverse = pre ++ e :: post)
    (ih : ReadFrom κ V a (pre ++ [e]) post) (hneg : e.2 < 0)
    (hn : a.length * 2 ≤ n + 2 * pre.length) :
    (records a n (2 * pre.length) : Run (Key κ) (Value V)) =
      boundary (e.1 + 1) true false :: echo (ranges (some e.1) post) := by
  have hlen := (entry_split h).2
  obtain ⟨n, rfl⟩ : ∃ k, n = k + 1 := ⟨n - 1, by omega⟩
  rw [records, multiCursorGetKey_even hd h, if_neg (not_le.mpr hneg), flCsrAdvance_even h,
    if_pos hneg]
  simp only
  rw [ih.opened pre e rfl hneg n (by rw [List.length_append, List.length_singleton]; omega)]

/-- The record of a free block, and those after it. -/
theorem records_insert (hd : Descending a.reverse) (h : a.reverse = pre ++ e :: post)
    (ih : ReadFrom κ V a (pre ++ [e]) post) (hpost : ∀ e' post', post = e' :: post' →
      ReadFrom κ V a (pre ++ [e] ++ [e']) post') (hfree : 0 ≤ e.2)
    (hn : a.length * 2 ≤ n + 2 * pre.length) :
    (records a n (2 * pre.length) : Run (Key κ) (Value V)) =
      echo (insertRecord e (marks e.1 post) (endsAt pre e) ::
        ranges (if marks e.1 post then some e.1 else none) post) := by
  have hlen := (entry_split h).2
  have hnext : pre.length + 1 = (pre ++ [e]).length := by simp
  obtain ⟨n, rfl⟩ : ∃ k, n = k + 1 := ⟨n - 1, by omega⟩
  rw [records, multiCursorGetKey_even hd h, if_pos hfree, flCsrAdvance_even h,
    if_neg (not_lt.mpr hfree), echo_cons]
  simp only
  have hn' : a.length * 2 ≤ n + 2 * (pre ++ [e]).length := by
    rw [← hnext]
    omega
  rw [hnext]
  cases hmarks : marks e.1 post with
  | false =>
      rw [ih.closed (fun e' he' => ?_) n hn']
      · rfl
      · -- the entry before is free, so no range ends here
        rw [endsAt, List.getLast?_concat, Option.any_some]
        exact decide_eq_false fun hp => absurd hp.2 (not_lt.mpr hfree)
  | true =>
      -- the range begins at the record, and its boundary is read again
      cases post with
      | nil => cases hmarks
      | cons e' post =>
          obtain ⟨hkey, hneg⟩ := of_decide_eq_true hmarks
          rw [records_deleted hd (by rw [h]; simp) (hpost e' post rfl) hneg hn', hkey]
          rw [if_pos rfl, ranges, if_pos hkey, if_neg (not_le.mpr hneg)]
          rfl

/-- The end of a range, and the records after it. -/
theorem readFrom_opened {pre' : List (ℕ × ℤ)} {p : ℕ × ℤ} (hd : Descending a.reverse)
    (h : a.reverse = pre' ++ [p] ++ e :: post) (ih : ReadFrom κ V a (pre' ++ [p] ++ [e]) post)
    (hpost : ∀ e' post', post = e' :: post' → ReadFrom κ V a (pre' ++ [p] ++ [e] ++ [e']) post')
    (hneg : p.2 < 0) (hn : a.length * 2 < n + 2 * (pre' ++ [p]).length) :
    (records a n (flCsrLoop a (e :: post).length (2 * pre'.length)) : Run (Key κ) (Value V)) =
      echo (ranges (some p.1) (e :: post)) := by
  have hp : a.reverse = pre' ++ p :: e :: post := by
    rw [h]
    simp
  have hlt : e.1 < p.1 := by
    have hpair := hd.pairwise
    rw [hp] at hpair
    exact (List.pairwise_cons.mp (List.pairwise_append.mp hpair).2.1).1 e List.mem_cons_self
  have hlen : 2 * (pre'.length + 1) = 2 * (pre' ++ [p]).length := by simp
  have hends : endsAt (pre' ++ [p]) e = decide (p.1 = e.1 + 1) := by
    rw [endsAt, List.getLast?_concat, Option.any_some]
    exact decide_eq_decide.mpr (and_iff_left hneg)
  rw [List.length_cons, flCsrLoop, entry_pred hp, entry_succ h, ranges]
  by_cases hnext : e.1 + 1 = p.1
  · -- the range goes down to the block of the entry
    rw [if_neg (show ¬e.1 ≠ p.1 - 1 by omega), if_pos hnext]
    rw [hnext, decide_eq_true rfl] at hends
    by_cases hfree : 0 ≤ e.2
    · have hins := records_insert hd h ih hpost hfree hn.le
      rw [hends, ← hlen] at hins
      rw [if_pos hfree, if_pos hfree]
      exact hins
    · rw [if_neg hfree, if_neg hfree]
      have hrest := ih.opened (pre' ++ [p]) e rfl (not_le.mp hfree) n
        (by simp only [List.length_append] at hn ⊢; omega)
      rw [← hlen] at hrest
      exact hrest
  · rw [if_pos (show e.1 ≠ p.1 - 1 by omega), if_neg hnext]
    rw [decide_eq_false (fun hpe => hnext hpe.symm)] at hends
    obtain ⟨n, rfl⟩ : ∃ k, n = k + 1 := ⟨n - 1, by have := (entry_split h).2; omega⟩
    rw [records, multiCursorGetKey_odd hd hp, flCsrAdvance_odd, hlen]
    simp only
    by_cases hfree : 0 ≤ e.2
    · rw [if_pos hfree, records_insert hd h ih hpost hfree (by omega), hends, echo_cons]
      rw [show marks (p.1 - 1) (e :: post) = false from
        decide_eq_false fun hm => absurd hm.2 (not_lt.mpr hfree)]
      rfl
    · rw [if_neg hfree, records_deleted hd h ih (not_le.mp hfree) (by omega)]
      by_cases hgap : e.1 + 2 = p.1
      · rw [if_pos hgap, show marks (p.1 - 1) (e :: post) = true from
          decide_eq_true ⟨by omega, not_le.mp hfree⟩, show e.1 + 1 = p.1 - 1 by omega]
        rfl
      · rw [if_neg hgap, show marks (p.1 - 1) (e :: post) = false from
          decide_eq_false fun hm => hgap (by omega)]
        rfl

/-- **The cursor reads the records of the ranges**, with their echoes. -/
theorem readFrom_split (hd : Descending a.reverse) (h : a.reverse = pre ++ post) :
    ReadFrom κ V a pre post := by
  induction hk : post.length using Nat.strong_induction_on generalizing pre post with
  | h k ih =>
      subst hk
      cases post with
      | nil =>
          have hlen : a.length = pre.length := by
            rw [← List.length_reverse, h, List.append_nil]
          refine ⟨fun _ n _ => records_eof n (by omega), fun pre' p hpre hneg n hn => ?_⟩
          obtain rfl := hpre
          rw [List.append_nil] at h
          rw [List.length_append, List.length_singleton] at hlen hn
          obtain ⟨n, rfl⟩ : ∃ k, n = k + 1 := ⟨n - 1, by omega⟩
          rw [List.length_nil, flCsrLoop, records, multiCursorGetKey_odd hd h, flCsrAdvance_odd]
          simp only
          rw [records_eof n (by omega)]
          rfl
      | cons e post =>
          have ih' : ReadFrom κ V a (pre ++ [e]) post :=
            ih _ (by simp) (by rw [h]; simp) rfl
          have ihpost : ∀ e' post', post = e' :: post' →
              ReadFrom κ V a (pre ++ [e] ++ [e']) post' := by
            rintro e' post' rfl
            exact ih _ (by simp only [List.length_cons]; omega) (by rw [h]; simp) rfl
          refine ⟨fun hends n hn => ?_, fun pre' p hpre hneg n hn => ?_⟩
          · by_cases hfree : 0 ≤ e.2
            · rw [records_insert hd h ih' ihpost hfree hn, hends e rfl, ranges, if_pos hfree]
            · rw [records_deleted hd h ih' (not_le.mp hfree) hn, ranges, if_neg hfree]
              rfl
          · obtain rfl := hpre
            exact readFrom_opened hd h ih' ihpost hneg hn

end Stream

/-! ### The list as a run -/

section SysRun

variable [LinearOrder κ] (worker : SortedMap ℕ ℤ)

/-- Block numbers begin at 1. -/
def BlocksOk (worker : SortedMap ℕ ℤ) : Prop := ∀ e ∈ worker.entries, 0 < e.1

variable {worker}

theorem BlocksOk.descending (h : BlocksOk worker) : Descending worker.entries.reverse :=
  ⟨List.pairwise_reverse.mpr worker.sorted, fun e he => h e (List.mem_reverse.mp he)⟩

omit [LinearOrder κ] in
/-- What the cursor reads is the run of the list, with echoes. -/
theorem freeRun_eq (h : BlocksOk worker) :
    (freeRun worker.entries : Run (Key κ) (Value V)) = echo (sysRun worker.entries) := by
  have hall : worker.entries.reverse = [] ++ worker.entries.reverse := rfl
  refine (readFrom_split h.descending hall).closed (fun _ _ => rfl) _ ?_
  rw [List.length_nil]
  omega

/-- The entries say what the layer says. -/
theorem tells_reverse (iBlk : ℕ) :
    tells worker.entries.reverse iBlk =
      ((worker.get? iBlk).map fun iId =>
        if iId < 0 then none else some (.inr iId) : Option (Option (Value V))) := by
  rcases hget : worker.get? iBlk with - | iId
  · have hnone := worker.get?_eq_none_iff.mp hget
    exact tells_eq_none fun e he => hnone e (List.mem_reverse.mp he)
  · rcases hfind : worker.entries.reverse.find? fun e => e.1 = iBlk with - | e
    · have hmem := worker.get?_eq_some_iff.mp hget
      have := List.find?_eq_none.mp hfind _ (List.mem_reverse.mpr hmem)
      simp at this
    · have hkey : e.1 = iBlk := by simpa using List.find?_some hfind
      have hmem := List.mem_reverse.mp (List.mem_of_find?_eq_some hfind)
      have hid : e.2 = iId := worker.mem_unique (hkey ▸ hmem) (worker.get?_eq_some_iff.mp hget)
      unfold tells
      rw [hfind, ← hid, Option.map_some]
      exact (apply_ite some _ _ _).symm

theorem tells_sysRun (h : BlocksOk worker) {n : ℕ} (hn : ∀ e ∈ worker.entries, e.1 + 1 < n) :
    Tells (sysRun worker.entries : Run (Key κ) (Value V)) n false worker.entries.reverse := by
  refine (tells_ranges h.descending).1 n (fun e he => ?_) ?_
  · have := hn e (List.mem_reverse.mp he)
    omega
  · rcases hrev : worker.entries.reverse with - | ⟨e, es⟩
    · rfl
    · have := hn e (List.mem_reverse.mp (hrev ▸ List.mem_cons_self))
      exact decide_eq_false fun hm => by omega

theorem exists_above (k : ℕ) (l : List (ℕ × ℤ)) : ∃ n, k < n ∧ ∀ e ∈ l, e.1 + 1 < n := by
  induction l with
  | nil => exact ⟨k + 1, Nat.lt_succ_self k, nofun⟩
  | cons e l ih =>
      obtain ⟨n, hk, hn⟩ := ih
      refine ⟨max n (e.1 + 2), by omega, fun e' he' => ?_⟩
      rcases List.mem_cons.mp he' with rfl | he'
      · omega
      · have := hn e' he'
        omega

/-- **The run of the list** is complete. -/
theorem sysRun_runOk (h : BlocksOk worker) :
    RunOk (sysRun worker.entries : Run (Key κ) (Value V)) := by
  obtain ⟨n, -, hn⟩ := exists_above 0 worker.entries
  have htells := tells_sysRun (κ := κ) (V := V) h hn
  refine ⟨htells.sorted, htells.matched, fun r hr hsep => ?_, htells.gap⟩
  rw [htells.plain r hr] at hsep
  cases hsep

/-- It has system keys and no separators. -/
theorem mem_sysRun (h : BlocksOk worker) {r : Record (Key κ) (Value V)}
    (hr : r ∈ sysRun worker.entries) : isSystem r.key = true ∧ r.separator = false := by
  obtain ⟨n, -, hn⟩ := exists_above 0 worker.entries
  have htells := tells_sysRun (κ := κ) (V := V) h hn
  obtain ⟨k, -, hkey⟩ := htells.keys r hr
  exact ⟨by rw [hkey]; rfl, htells.plain r hr⟩

/-- **It says of a block what the list says**: its id, that it is not free, or nothing. -/
theorem lookup_sysRun (h : BlocksOk worker) (iBlk : ℕ) :
    lookup (sysRun worker.entries : Run (Key κ) (Value V)) (sysKey iBlk) =
      (worker.get? iBlk).map fun iId => if iId < 0 then none else some (.inr iId) := by
  obtain ⟨n, hlt, hn⟩ := exists_above iBlk worker.entries
  rw [(tells_sysRun h hn).lookup iBlk hlt, tells_reverse]

/-- Blocks 4, 6 and 7 are not free and block 5 is: the range of 6 and 7 ends at the insert of 5,
where that of 4 begins. -/
example : (freeRun [(4, -1), (5, 9), (6, -1), (7, -1)] : Run (Key ℕ) (Value ℕ)) =
    [boundary 8 true false, insertRecord (5, 9) true true, boundary 5 true false,
      boundary 3 false true] := rfl

end SysRun

end FreeRecords

end Lsm

end MoVeBench
