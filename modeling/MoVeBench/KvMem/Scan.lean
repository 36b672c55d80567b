/-
MoVeBench/KvMem/Scan.lean

Loops over the rows.

A seek and then steps as long as they find something see all rows at the key or behind it, in
order and once each (`scan_rows`).  A loop may also delete every row that it finds: the cursor
goes on from a node that is still in the tree, and the rows of the range are gone in the end
(`sweep_rows`).
-/
import MoVeBench.KvMem.Seek

namespace MoVeBench

namespace KvMem

open AvlTree AvlTree.BinTree UndoLog Runs
open Lsm (Bytes)

variable {p p' : KVMem} {t : BinTree Ptr} {d : Side} {x y : Ptr} {i n : ℕ} {aKey : Bytes}
  {l l' : List Ptr} {direction : ℤ} {s : Session}

/-! ### Scanning -/

/-- The rows that a loop sees which goes on from the result of a seek, step by step until nothing is
found. -/
def scan (d : Side) (i : ℕ) : ℕ → KVMem × Rc → List (Bytes × Bytes)
  | 0, _ => []
  | n + 1, r =>
      if r.2 = .notfound then []
      else (shown r.1 i).toList ++ scan d i n (moveEntry (kvmemStep d) r.1 i)

theorem Quiet.rowOf (hq : Quiet p p') : rowOf p' = rowOf p := by
  funext y
  rw [KvMem.rowOf, KvMem.rowOf, hq.pData, hq.aKey]

theorem Leads.congr {r : KVMem × Rc} (h : Leads p' t i l r)
    (hdata : ∀ y, (p'.rows y).pData = (p.rows y).pData) : Leads p t i l r := by
  rw [Leads] at h ⊢
  simpa only [hdata] using h

/-- The nodes on the way, divided at the first one with a row. -/
theorem exists_first (p : KVMem) (l : List Ptr) :
    (l.find? (fun y => (p.rows y).pData.isSome) = none ∧ l.filterMap (rowOf p) = []) ∨
    ∃ l1 y l2 e, l = l1 ++ y :: l2 ∧ l.find? (fun y => (p.rows y).pData.isSome) = some y ∧
      rowOf p y = some e ∧ l1.filterMap (rowOf p) = [] := by
  have hnone : ∀ m : List Ptr, (∀ y ∈ m, ¬ (p.rows y).pData.isSome = true) →
      m.filterMap (rowOf p) = [] := by
    intro m hm
    rw [List.filterMap_eq_nil_iff]
    intro y hy
    rw [rowOf, Option.not_isSome_iff_eq_none.mp (hm y hy)]
    rfl
  rcases hf : l.find? fun y => (p.rows y).pData.isSome with - | y
  · exact Or.inl ⟨rfl, hnone l (List.find?_eq_none.mp hf)⟩
  · obtain ⟨hy, l1, l2, hl, hl1⟩ := List.find?_eq_some_iff_append.mp hf
    obtain ⟨c, hc⟩ := Option.isSome_iff_exists.mp hy
    refine Or.inr ⟨l1, y, l2, _, hl, rfl, by rw [rowOf, hc]; rfl, hnone l1 fun z hz => ?_⟩
    simpa using hl1 z hz

theorem Shaped.length_rows (hs : Shaped p t 0) (hsplit : listTo d t = l ++ l') :
    (l'.filterMap (rowOf p)).length ≤ p.content.length := by
  have hrows := congrArg List.length (hs.rowsTo d)
  rw [hsplit, List.filterMap_append, List.length_append] at hrows
  have hall : (p.rowsTo d).length = p.content.length := by
    cases d
    · exact List.length_reverse
    · rfl
  omega

/-- A loop that has come to the first row of a list of nodes sees all their rows. -/
theorem scan_leads {r : KVMem × Rc} (hs : Sound r.1 t) (hi : i < r.1.cursors.length)
    (hq : Quiet p r.1) (hsplit : listTo d t = l ++ l') (h : Leads p t i l' r)
    (hn : (l'.filterMap (rowOf p)).length ≤ n) : scan d i n r = l'.filterMap (rowOf p) := by
  induction n generalizing l l' r with
  | zero => rw [scan, List.length_eq_zero_iff.mp (Nat.le_zero.mp hn)]
  | succ n ih =>
      rcases exists_first p l' with ⟨hf, hrows⟩ | ⟨l1, y, l2, e, rfl, hf, hy, hl1⟩
      · rw [Leads, hf] at h
        rw [scan, if_pos h.2, hrows]
      · rw [Leads, hf] at h
        obtain ⟨hat, hrc⟩ := h
        have hsplit' : listTo d t = l ++ l1 ++ (r.1.cursor i).pNode :: l2 := by
          rw [hsplit, hat.2, List.append_assoc]
        obtain ⟨h1, -, h3⟩ := moveEntry_leads hs hi hsplit'
        rw [List.filterMap_append, hl1, List.nil_append, List.filterMap_cons_some hy] at hn ⊢
        rw [List.length_cons] at hn
        rw [List.append_cons] at hsplit'
        rw [scan, if_neg (by rw [hrc]; simp), hat.shown hs.shaped, hq.rowOf, hy,
          ih h1.sound (h1.length ▸ hi) (hq.trans h1.quiet) hsplit' (h3.congr hq.pData) (by omega)]
        rfl

/-- The rows that a scan is to see. -/
def inReach (direction : ℤ) (aKey : Bytes) (l : List (Bytes × Bytes)) : List (Bytes × Bytes) :=
  if 0 < direction then l.filter fun e => aKey ≤ e.1
  else l.reverse.filter fun e => e.1 ≤ aKey

theorem inReach_eq (p : KVMem) (h0 : direction ≠ 0) : inReach direction aKey p.content =
    (p.rowsTo (sideOf direction)).filter fun e => Accepts direction aKey e.1 := by
  rw [inReach]
  split_ifs with hpos
  · rw [sideOf, if_neg (by omega), KVMem.rowsTo]
    congr 1
    funext e
    exact decide_eq_decide.mpr (accepts_up hpos).symm
  · rw [sideOf, if_pos (by omega), KVMem.rowsTo]
    congr 1
    funext e
    exact decide_eq_decide.mpr (accepts_down (by omega)).symm

/-- The rows that a seek accepts are those from the first one on. -/
theorem Shaped.inReach (hs : Shaped p t 0) (h0 : direction ≠ 0)
    (hsplit : listTo (sideOf direction) t = l ++ l')
    (hl : ∀ y ∈ l, ¬ Accepts direction aKey (p.rows y).aKey)
    (hl' : ∀ y ∈ l', Accepts direction aKey (p.rows y).aKey) :
    inReach direction aKey p.content = l'.filterMap (rowOf p) := by
  rw [inReach_eq p h0, hs.rowsTo, hsplit, List.filterMap_append, List.filter_append]
  have hnone : ((l.filterMap (rowOf p)).filter fun e => Accepts direction aKey e.1) = [] := by
    rw [List.filter_eq_nil_iff]
    intro e he
    obtain ⟨y, hy, hk⟩ := exists_of_rows he
    rw [← hk, decide_eq_true_iff]
    exact hl y hy
  have hall : ((l'.filterMap (rowOf p)).filter fun e => Accepts direction aKey e.1) =
      l'.filterMap (rowOf p) := by
    rw [List.filter_eq_self]
    intro e he
    obtain ⟨y, hy, hk⟩ := exists_of_rows he
    rw [← hk, decide_eq_true_iff]
    exact hl' y hy
  rw [hnone, hall, List.nil_append]

/-- The nodes on the way of a seek: first those that it does not accept. -/
theorem exists_reach (hs : Sound p t) (aKey : Bytes) (h0 : direction ≠ 0) :
    ∃ l l', listTo (sideOf direction) t = l ++ l' ∧
      (∀ y ∈ l, ¬ Accepts direction aKey (p.rows y).aKey) ∧
      ∀ y ∈ l', Accepts direction aKey (p.rows y).aKey := by
  rcases seekLoop_cases hs direction aKey with ⟨-, hnone⟩ | ⟨l, x, l', hsplit, hl, hx, -⟩
  · exact ⟨listTo _ t, [], (List.append_nil _).symm, fun y hy => hnone y (mem_listTo.mp hy),
      by simp⟩
  · have hbeyond := hs.shaped.beyond (sideOf direction)
    rw [hsplit, List.pairwise_append, List.pairwise_cons] at hbeyond
    refine ⟨l, x :: l', hsplit, hl, fun y hy => ?_⟩
    rcases List.mem_cons.mp hy with rfl | hy
    · exact hx
    · exact hx.onward (hbeyond.2.1.1 y hy) h0

/-- The result of a seek, for a loop that goes on from it. -/
theorem seek_leads (hs : Sound p t) (hi : i < p.cursors.length)
    (hsplit : listTo (sideOf direction) t = l ++ l')
    (hl : ∀ y ∈ l, ¬ Accepts direction aKey (p.rows y).aKey)
    (hl' : ∀ y ∈ l', Accepts direction aKey (p.rows y).aKey) :
    (kvmemSeek p i aKey direction).2 = .notfound ∧ l'.filterMap (rowOf p) = [] ∨
      (kvmemSeek p i aKey direction).2 ≠ .notfound ∧
        Leads p t i l' ((kvmemSeek p i aKey direction).1, .ok) := by
  obtain ⟨h1, -, h3, h4, h5⟩ := seek_finds hs hi aKey direction
  have hsought : sought direction aKey p.content = (l'.filterMap (rowOf p)).head? := by
    rw [sought_eq, hs.shaped.rowsTo, hsplit, List.filterMap_append]
    refine find?_eq_head? (fun e he => ?_) fun e he => ?_
    · obtain ⟨y, hy, hk⟩ := exists_of_rows he
      rw [← hk, decide_eq_true_iff]
      exact hl y hy
    · obtain ⟨y, hy, hk⟩ := exists_of_rows he
      rw [← hk, decide_eq_true_iff]
      exact hl' y hy
  rw [hsought] at h4 h5
  rcases exists_first p l' with ⟨-, hrows⟩ | ⟨l1, y, l2, e, rfl, hf, hy, hl1⟩
  · rw [hrows] at h5
    exact Or.inl ⟨h5, hrows⟩
  · rw [List.filterMap_append, hl1, List.nil_append, List.filterMap_cons_some hy,
      List.head?_cons] at h4 h5
    refine Or.inr ⟨by rw [h5, seekRc]; split_ifs <;> simp, ?_⟩
    rw [Leads, hf]
    refine ⟨?_, rfl⟩
    rcases h3 with hnone | ⟨x, hat⟩
    · rw [shown_nowhere hnone] at h4
      cases h4
    · -- The row that is shown is that of one node only.
      rw [hat.shown h1.sound.shaped, h1.quiet.rowOf] at h4
      have hyt : y ∈ t.toList := by
        rw [← mem_listTo (d := sideOf direction), hsplit]
        simp
      have hxy : x = y := hs.shaped.key_inj hyt hat.1
        ((rowOf_some h4).1.trans (rowOf_some hy).1.symm)
      exact hxy ▸ hat

theorem scan_congr {q : KVMem} {rc rc' : Rc} (h : rc ≠ .notfound) (h' : rc' ≠ .notfound) :
    scan d i n (q, rc) = scan d i n (q, rc') := by
  cases n with
  | zero => rfl
  | succ n => rw [scan, scan, if_neg h, if_neg h']

theorem seek_scan (hs : Sound p t) (hi : i < p.cursors.length) (aKey : Bytes) (h0 : direction ≠ 0)
    (hn : p.content.length ≤ n) :
    scan (sideOf direction) i n (kvmemSeek p i aKey direction) =
      inReach direction aKey p.content := by
  obtain ⟨l, l', hsplit, hl, hl'⟩ := exists_reach hs aKey h0
  obtain ⟨h1, -⟩ := seek_finds hs hi aKey direction
  rw [hs.shaped.inReach h0 hsplit hl hl']
  have hlen := (hs.shaped.length_rows hsplit).trans hn
  rcases seek_leads hs hi hsplit hl hl' with ⟨hrc, hrows⟩ | ⟨hrc, hleads⟩
  · rw [hrows]
    cases n with
    | zero => rfl
    | succ n => rw [scan, if_pos hrc]
  · rw [← scan_leads (r := ((kvmemSeek p i aKey direction).1, .ok)) h1.sound (h1.length ▸ hi)
      h1.quiet hsplit hleads hlen]
    exact scan_congr hrc (by simp)

/-! ### Deleting along the way -/

/-- A loop that deletes the rows that it finds. -/
def sweep (d : Side) (i : ℕ) : ℕ → KVMem × Rc → KVMem
  | 0, r => r.1
  | n + 1, r =>
      if r.2 = .notfound then r.1
      else sweep d i n (moveEntry (kvmemStep d) (kvmemDelete r.1 i true).1 i)

theorem delete_cursors (p : KVMem) (i : ℕ) (malloc : Bool) :
    (kvmemDelete p i malloc).1.cursors = p.cursors := by
  rw [kvmemDelete]
  dsimp only
  split_ifs <;> first | rfl | (cases malloc <;> rfl)

/-- The row of a node is deleted. -/
theorem delete_at (hs : Sound p t) (h2 : 2 ≤ p.iTransLevel) (hat : At p t i x)
    (hrow : (p.rows x).pData.isSome) :
    Changed p (kvmemDelete p i true).1 t t (p.rows x).aKey none := by
  obtain ⟨k, hk⟩ : ∃ k, p.iTransLevel = k + 2 := ⟨p.iTransLevel - 2, by omega⟩
  have hnode : (p.cursor i).pNode = x := by rw [hat.2]
  rcases delete_spec hs hk i true with ⟨-, hfail | hnone | h0⟩ | ⟨-, -, hc⟩
  · exfalso
    revert hfail
    simp only [kvmemDelete, kvmemNewChng, if_true]
    split_ifs <;> simp
  · rw [hnode] at hnone
    rw [hnone] at hrow
    cases hrow
  · exact absurd (hnode ▸ h0) (hs.shaped.nonzero hat.1)
  · rwa [hnode] at hc

/-- The other nodes keep their rows. -/
theorem Changed.rowOf (h : Changed p p' t t (p.rows x).aKey none) (hs : Shaped p t 0)
    (hx : x ∈ t.toList) (hy : y ∈ t.toList) :
    rowOf p' y = if y = x then none else rowOf p y := by
  have hhas := h.has (p.rows y).aKey
  have hown : ∀ {q : KVMem}, Shaped q t 0 → (∀ z ∈ t.toList, (q.rows z).aKey = (p.rows z).aKey) →
      ∀ c, Has q t (p.rows y).aKey c ↔ (q.rows y).pData = some c := by
    intro q hq hkey c
    constructor
    · rintro ⟨z, hz, hk, hc⟩
      obtain rfl : z = y := hs.key_inj hy hz ((hkey z hz).symm.trans hk)
      exact hc
    · exact fun hc => ⟨y, hy, hkey y hy, hc⟩
  have hdata : ∀ c, (p'.rows y).pData = some c ↔ y ≠ x ∧ (p.rows y).pData = some c := by
    intro c
    rw [← hown h.written.sound.shaped h.written.aKey c, ← hown hs (fun _ _ => rfl) c, hhas c]
    by_cases hyx : y = x
    · subst hyx
      simp
    · have hne : (p.rows y).aKey ≠ (p.rows x).aKey := fun he => hyx (hs.key_inj hx hy he)
      rw [if_neg hne]
      exact (and_iff_right hyx).symm
  rw [KvMem.rowOf, KvMem.rowOf, h.written.aKey y hy]
  split_ifs with hyx
  · rcases hd : (p'.rows y).pData with - | c
    · rfl
    · exact absurd hyx ((hdata c).mp hd).1
  · congr 1
    refine Option.ext fun c => ?_
    rw [hdata c]
    exact and_iff_right hyx

/-- A loop that has come to the first row of a list of nodes deletes all their rows. -/
theorem sweep_leads {r : KVMem × Rc} (hs : Sound r.1 t) (hi : i < r.1.cursors.length)
    (h2 : 2 ≤ r.1.iTransLevel) (hsplit : listTo d t = l ++ l') (h : Leads r.1 t i l' r)
    (hn : (l'.filterMap (rowOf r.1)).length ≤ n) :
    (sweep d i n r).rowsTo d = l.filterMap (rowOf r.1) := by
  induction n generalizing l l' r with
  | zero =>
      rw [sweep, hs.shaped.rowsTo, hsplit, List.filterMap_append,
        List.length_eq_zero_iff.mp (Nat.le_zero.mp hn), List.append_nil]
  | succ n ih =>
      rcases exists_first r.1 l' with ⟨hf, hrows⟩ | ⟨l1, y, l2, e, rfl, hf, hy, hl1⟩
      · rw [Leads, hf] at h
        rw [sweep, if_pos h.2, hs.shaped.rowsTo, hsplit, List.filterMap_append, hrows,
          List.append_nil]
      · rw [Leads, hf] at h
        obtain ⟨hat, hrc⟩ := h
        have hnodup := nodup_listTo (d := d).mpr hs.shaped.nodup
        have hc := delete_at hs h2 hat (by rw [(rowOf_some hy).2]; rfl)
        have hcursors := delete_cursors r.1 i true
        obtain ⟨q, hq⟩ : ∃ q, (kvmemDelete r.1 i true).1 = q := ⟨_, rfl⟩
        rw [hq] at hc hcursors
        have hcur : (q.cursor i).pNode = y := by
          rw [KVMem.cursor, hcursors]
          exact congrArg KVMemCursor.pNode hat.2
        have hsplit' : listTo d t = l ++ l1 ++ (q.cursor i).pNode :: l2 := by
          rw [hsplit, hcur, List.append_assoc]
        obtain ⟨h1, -, h3⟩ := moveEntry_leads hc.written.sound (hcursors ▸ hi) hsplit'
        rw [hcur, List.append_cons] at hsplit'
        rw [sweep, if_neg (by rw [hrc]; simp), hq]
        obtain ⟨r', hr'⟩ : ∃ r', moveEntry (kvmemStep d) q i = r' := ⟨_, rfl⟩
        rw [hr'] at h1 h3 ⊢
        -- Only the row of this node is gone.
        have hyt : y ∈ t.toList := hat.1
        have hrow : ∀ z ∈ listTo d t, rowOf r'.1 z = if z = y then none else rowOf r.1 z := by
          intro z hz
          rw [h1.quiet.rowOf]
          exact hc.rowOf hs.shaped hyt (mem_listTo.mp hz)
        have hkept : ∀ m : List Ptr, (∀ z ∈ m, z ∈ listTo d t ∧ z ≠ y) →
            m.filterMap (rowOf r'.1) = m.filterMap (rowOf r.1) := fun m hm =>
          List.filterMap_congr fun z hz => by rw [hrow z (hm z hz).1, if_neg (hm z hz).2]
        rw [hsplit'] at hnodup hkept
        obtain ⟨hfront, -, hdisj⟩ := List.nodup_append.mp hnodup
        have hback : l2.filterMap (rowOf r'.1) = l2.filterMap (rowOf r.1) :=
          hkept l2 fun z hz => ⟨List.mem_append_right _ hz, fun heq =>
            hdisj y (by simp) z hz heq.symm⟩
        have hbefore : (l ++ l1 ++ [y]).filterMap (rowOf r'.1) = l.filterMap (rowOf r.1) := by
          have hne : ∀ z ∈ l ++ l1, z ≠ y := fun z hz =>
            (List.nodup_append.mp hfront).2.2 z hz y List.mem_cons_self
          rw [List.filterMap_append, hkept (l ++ l1) fun z hz =>
            ⟨List.mem_append_left _ (List.mem_append_left _ hz), hne z hz⟩,
            List.filterMap_append, hl1, List.filterMap_cons_none
              ((hrow y (hsplit'.symm ▸ by simp)).trans (if_pos rfl))]
          simp
        rw [List.filterMap_append, hl1, List.nil_append, List.filterMap_cons_some hy,
          List.length_cons] at hn
        rw [← hbefore]
        exact ih h1.sound (by rw [h1.length, hcursors]; exact hi)
          (by rw [h1.quiet.iTransLevel, hc.written.iTransLevel]; exact h2) hsplit'
          (h3.congr fun z => (h1.quiet.pData z).symm) (by rw [hback]; omega)

theorem sweep_congr {q : KVMem} {a b : Rc} (h : a ≠ .notfound) (h' : b ≠ .notfound) :
    sweep d i n (q, a) = sweep d i n (q, b) := by
  cases n with
  | zero => rfl
  | succ n => rw [sweep, sweep, if_neg h, if_neg h']

/-- The rows that a sweep is to leave. -/
def outOfReach (direction : ℤ) (aKey : Bytes) (l : List (Bytes × Bytes)) : List (Bytes × Bytes) :=
  if 0 < direction then l.filter fun e => e.1 < aKey else l.filter fun e => aKey < e.1

theorem seek_sweep (hs : Sound p t) (hi : i < p.cursors.length) (h2 : 2 ≤ p.iTransLevel)
    (aKey : Bytes) (h0 : direction ≠ 0) (hn : p.content.length ≤ n) :
    (sweep (sideOf direction) i n (kvmemSeek p i aKey direction)).content =
      outOfReach direction aKey p.content := by
  obtain ⟨l, l', hsplit, hl, hl'⟩ := exists_reach hs aKey h0
  obtain ⟨h1, -⟩ := seek_finds hs hi aKey direction
  have hlen := (hs.shaped.length_rows hsplit).trans hn
  have hrows : (sweep (sideOf direction) i n (kvmemSeek p i aKey direction)).rowsTo
      (sideOf direction) = l.filterMap (rowOf p) := by
    rcases seek_leads hs hi hsplit hl hl' with ⟨hrc, hnone⟩ | ⟨hrc, hleads⟩
    · have hstop : sweep (sideOf direction) i n (kvmemSeek p i aKey direction) =
          (kvmemSeek p i aKey direction).1 := by
        cases n with
        | zero => rfl
        | succ n => rw [sweep, if_pos hrc]
      rw [hstop, h1.quiet.rowsTo, hs.shaped.rowsTo, hsplit, List.filterMap_append, hnone,
        List.append_nil]
    · rw [sweep_congr (b := .ok) hrc (by simp), ← h1.quiet.rowOf]
      rw [← h1.quiet.rowOf] at hlen
      exact sweep_leads (r := ((kvmemSeek p i aKey direction).1, .ok)) h1.sound (h1.length ▸ hi)
        (h1.quiet.iTransLevel ▸ h2) hsplit
        (hleads.congr fun y => (h1.quiet.pData y).symm) hlen
  -- The rows that the seek does not accept are those in front.
  have hout : ((p.rowsTo (sideOf direction)).filter fun e => ¬ Accepts direction aKey e.1) =
      l.filterMap (rowOf p) := by
    rw [hs.shaped.rowsTo, hsplit, List.filterMap_append, List.filter_append,
      List.filter_eq_self.mpr, List.filter_eq_nil_iff.mpr, List.append_nil]
    · intro e he
      obtain ⟨y, hy, hk⟩ := exists_of_rows he
      rw [← hk, decide_eq_true_iff]
      exact fun h => h (hl' y hy)
    · intro e he
      obtain ⟨y, hy, hk⟩ := exists_of_rows he
      rw [← hk, decide_eq_true_iff]
      exact hl y hy
  rw [← hout] at hrows
  rw [outOfReach]
  split_ifs with hpos
  · rw [sideOf, if_neg (by omega)] at hrows ⊢
    rw [KVMem.rowsTo] at hrows
    refine hrows.trans ?_
    rw [KVMem.rowsTo]
    congr 1
    funext e
    exact decide_eq_decide.mpr ((not_congr (accepts_up hpos)).trans not_le)
  · have hneg : direction < 0 := by omega
    rw [sideOf, if_pos hneg] at hrows ⊢
    rw [KVMem.rowsTo, KVMem.rowsTo, List.filter_reverse] at hrows
    refine (List.reverse_inj.mp hrows).trans ?_
    congr 1
    funext e
    exact decide_eq_decide.mpr ((not_congr (accepts_down hneg)).trans not_le)

/-! ### Results -/

/-- **A scan sees the rows at the key or behind it in order, each once.** -/
theorem scan_rows (hrun : FittingRun s) (hi : i < s.store.cursors.length) (aKey : Bytes)
    (direction : ℤ) (h0 : direction ≠ 0) (hn : s.store.content.length ≤ n) :
    scan (sideOf direction) i n (kvmemSeek s.store i aKey direction) =
      inReach direction aKey s.store.content := by
  obtain ⟨t, hk⟩ := hrun.kept
  exact seek_scan hk.sound hi aKey h0 hn

theorem scan_rows_gap : scan (sideOf (-1)) 0 2 (kvmemSeek gapStore.store 0 [5] (-1)) =
    inReach (-1) [5] gapStore.store.content ∧
      inReach (-1) [5] gapStore.store.content = [([5], [9]), ([1], [7])] :=
  ⟨scan_rows fittingRun_gap (by decide +kernel) [5] (-1) (by decide) (by decide +kernel),
    by decide +kernel⟩

/-- **A sweep deletes the rows at the key or behind it, and no others.** -/
theorem sweep_rows (hrun : FittingRun s) (hi : i < s.store.cursors.length)
    (h2 : 2 ≤ s.store.iTransLevel) (aKey : Bytes) (direction : ℤ) (h0 : direction ≠ 0)
    (hn : s.store.content.length ≤ n) :
    (sweep (sideOf direction) i n (kvmemSeek s.store i aKey direction)).content =
      outOfReach direction aKey s.store.content := by
  obtain ⟨t, hk⟩ := hrun.kept
  exact seek_sweep hk.sound hi h2 aKey h0 hn

theorem sweep_rows_gap : (sweep (sideOf 1) 0 2 (kvmemSeek gapStore.store 0 [2] 1)).content =
    outOfReach 1 [2] gapStore.store.content ∧
      outOfReach 1 [2] gapStore.store.content = [([1], [7])] :=
  ⟨sweep_rows fittingRun_gap (by decide +kernel) (by decide +kernel) [2] 1 (by decide)
    (by decide +kernel), by decide +kernel⟩

end KvMem

end MoVeBench
