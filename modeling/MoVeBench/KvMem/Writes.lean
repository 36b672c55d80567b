/-
MoVeBench/KvMem/Writes.lean

What a write does to the store.

Both kinds of write change one row of the tree, which is logged at the current level already or gets
a record (`Sound.record`, `Sound.rewrite`); a new row gets its node where the search for its key ends
(`findPlace_spec`, `placeNode_spec`).  What is restored at the levels below stays
(`Written`), and the content is that of a map with one entry changed (`replace_spec`, `delete_spec`).
-/
import MoVeBench.KvMem.Levels

namespace MoVeBench

namespace KvMem

open AvlTree AvlTree.BinTree UndoLog
open Lsm (Bytes)

variable {p p' : KVMem} {t t' : BinTree Ptr} {x : Ptr} {i n : ℕ} {aKey aData : Bytes}
  {ctx : List (AvlTree.Frame Ptr)}

/-! ### One row -/

/-- A key is there with its content. -/
def Has (p : KVMem) (t : BinTree Ptr) (aKey aData : Bytes) : Prop :=
  ∃ x ∈ t.toList, (p.rows x).aKey = aKey ∧ (p.rows x).pData = some aData

/-- What a write keeps: the levels below the current one. -/
structure Written (p p' : KVMem) (t t' : BinTree Ptr) : Prop where
  sound : Sound p' t'
  iTransLevel : p'.iTransLevel = p.iTransLevel
  below : ∀ k < p.iTransLevel, restored p' t' k = restored p t k
  aKey : ∀ x ∈ t.toList, (p'.rows x).aKey = (p.rows x).aKey

theorem Written.refl (hs : Sound p t) : Written p p t t :=
  ⟨hs, rfl, fun _ _ => rfl, fun _ _ => rfl⟩

/-- Below the current level nothing else is read than what undoing its log gives. -/
theorem restored_below {k : ℕ} (hi : p.iTransLevel = i + 2) (hk : k < i + 2) :
    restored p t k = undo (logsFrom p.apLog (k - 1) i).flatten
      (undo ((p.apLog i).map KVMemChng.entry) (view p t)) := by
  rw [restored, hi, show i + 2 - 1 = i + 1 from rfl, logsFrom_succ (by omega), List.flatten_cons,
    undo_append]

/-- A row gets a record, and another content. -/
theorem Sound.record {c : KVMemChng} {r : Option Bytes × ℤ} (hs : Sound p t)
    (hs' : Shaped p' t' 0) (hi : p.iTransLevel = i + 2) (hlevel : p'.iTransLevel = p.iTransLevel)
    (hlog : p'.apLog = Function.update p.apLog i (c :: p.apLog i))
    (hc : c.entry = ⟨x, view p t x⟩) (hr : rowLevel r = i + 2)
    (hview : view p' t' = Function.update (view p t) x (some r))
    (hkey : ∀ x ∈ t.toList, (p'.rows x).aKey = (p.rows x).aKey) : Written p p' t t' := by
  have htop := hs.top hi
  have hrec := htop.record (x := x) (by rw [hr, length_logsFrom])
  have hlogs : ∀ m, logsFrom p'.apLog m i = logsFrom p.apLog m i := fun m =>
    logsFrom_congr fun j _ hj => by rw [hlog, Function.update_of_ne (by omega)]
  have htopLog : (p'.apLog i).map KVMemChng.entry =
      ⟨x, view p t x⟩ :: (p.apLog i).map KVMemChng.entry := by
    rw [hlog, Function.update_self, List.map_cons, hc]
  have hi' : p'.iTransLevel = i + 2 := hlevel.trans hi
  refine ⟨⟨hs', ?_, hlevel ▸ hs.level⟩, hlevel, fun k hk => ?_, hkey⟩
  · rw [LogsNested, hi', show i + 2 - 1 = i + 1 from rfl, logsFrom_succ (Nat.zero_le i), htopLog,
      hlogs, hview]
    exact hrec
  · have hundo : undoOne (Function.update (view p t) x (some r)) ⟨x, view p t x⟩ = view p t := by
      simp [undoOne]
    rw [restored_below hi' (by omega), restored_below hi (by omega), htopLog, hlogs, hview, undo,
      hundo]

/-- A row that has a record gets another content. -/
theorem Sound.rewrite {r q : Option Bytes × ℤ} (hs : Sound p t) (hs' : Shaped p' t' 0)
    (hi : p.iTransLevel = i + 2) (hlevel : p'.iTransLevel = p.iTransLevel)
    (hlog : p'.apLog = p.apLog) (hx : view p t x = some q) (hq : rowLevel q = i + 2)
    (hr : rowLevel r = i + 2) (hview : view p' t' = Function.update (view p t) x (some r))
    (hkey : ∀ x ∈ t.toList, (p'.rows x).aKey = (p.rows x).aKey) : Written p p' t t' := by
  have htop := hs.top hi
  have hn := htop.rewrite (r := r) hx (by rw [hq, length_logsFrom]) (by rw [hr, length_logsFrom])
  have hi' : p'.iTransLevel = i + 2 := hlevel.trans hi
  refine ⟨⟨hs', ?_, hlevel ▸ hs.level⟩, hlevel, fun k hk => ?_, hkey⟩
  · rw [LogsNested, hi', show i + 2 - 1 = i + 1 from rfl, logsFrom_succ (Nat.zero_le i), hlog,
      hview]
    exact hn
  · have hmem : x ∈ keys ((p.apLog i).map KVMemChng.entry) :=
      (htop.2.1 x q hx).2.mp (by rw [hq, length_logsFrom])
    rw [restored_below hi' (by omega), restored_below hi (by omega), hlog, hview]
    congr 1
    refine undo_congr fun y hy => ?_
    rw [Function.update_of_ne (by rintro rfl; exact hy hmem)]

/-- What a new record of a row of the tree says. -/
theorem Sound.entry_eq (hs : Sound p t) (hx : x ∈ t.toList) :
    KVMemChng.entry ⟨x, (p.rows x).pData, (p.rows x).mxTrans⟩ = ⟨x, view p t x⟩ := by
  have hv := view_of_mem (p := p) hx
  rw [KVMemChng.entry, hv]
  by_cases h : (p.rows x).pData.isSome ∨ 0 < (p.rows x).mxTrans
  · rw [if_pos h]
  · -- A row that is not logged is not deleted.
    exfalso
    rw [not_or] at h
    refine h.1 (hs.nested.base_of_lvl hv ?_)
    show (p.rows x).mxTrans.toNat = 0
    omega

/-- `kvmemNewChng` for a row of the tree that is not logged at this level. -/
theorem newChng_spec (hs : Sound p t) (hx : x ∈ t.toList) (hi : p.iTransLevel = i + 2)
    (d : Option Bytes) :
    Written p ((kvmemNewChng p x true).1.setRow x fun r => { r with pData := d }) t t ∧
      view ((kvmemNewChng p x true).1.setRow x fun r => { r with pData := d }) t =
        Function.update (view p t) x (some (d, (i + 2 : ℕ))) := by
  have hlevel := hs.level
  have hshort : toShort (p.iTransLevel : ℤ) = (i + 2 : ℕ) := by
    rw [hi, toShort_eq] <;> push_cast <;> omega
  obtain ⟨q, hq⟩ : ∃ q, p.setLog i (⟨x, (p.rows x).pData, (p.rows x).mxTrans⟩ :: p.apLog i) = q :=
    ⟨_, rfl⟩
  have hdef : (kvmemNewChng p x true).1.setRow x (fun r => { r with pData := d }) =
      q.setRow x fun r => { r with mxTrans := (i + 2 : ℕ), pData := d } := by
    have hsub : p.iTransLevel - 2 = i := by omega
    have hqlevel : q.iTransLevel = p.iTransLevel := by rw [← hq]; rfl
    simp only [kvmemNewChng, if_true, hsub, hq, hqlevel, hshort]
    simp only [KVMem.setRow, Function.update_self, Function.update_idem]
  have hqs : Shaped q t 0 := by
    rw [← hq]
    exact hs.shaped.setLog i _
  obtain ⟨h1, h2, h3⟩ := setRow_spec hqs hx
    (fun r => { r with mxTrans := (i + 2 : ℕ), pData := d }) ⟨rfl, rfl⟩
  have hqview : view q t = view p t := by rw [← hq]; rfl
  have hqkey : ∀ y, (q.rows y).aKey = (p.rows y).aKey := by
    intro y
    rw [← hq]
    rfl
  rw [hqview] at h2
  rw [hdef]
  refine ⟨hs.record h1 hi ?_ ?_ (hs.entry_eq hx) ?_ h2 fun y _ => ?_, h2⟩
  · rw [h3.iTransLevel, ← hq]
    rfl
  · rw [h3.apLog, ← hq]
    rfl
  · exact Int.toNat_natCast _
  · rw [h3.aKey, hqkey]

/-- The content of a row is changed at the level at which it is logged. -/
theorem setData_spec (hs : Sound p t) (hx : x ∈ t.toList) (hi : p.iTransLevel = i + 2)
    (hmx : (p.rows x).mxTrans = p.iTransLevel) (d : Option Bytes) :
    Written p (p.setRow x fun r => { r with pData := d }) t t ∧
      view (p.setRow x fun r => { r with pData := d }) t =
        Function.update (view p t) x (some (d, (i + 2 : ℕ))) := by
  obtain ⟨h1, h2, h3⟩ := setRow_spec hs.shaped hx (fun r => { r with pData := d }) ⟨rfl, rfl⟩
  have hv := view_of_mem (p := p) hx
  rw [hmx, hi] at hv h2
  have hr : ∀ d : Option Bytes, rowLevel (d, ((i + 2 : ℕ) : ℤ)) = i + 2 := fun _ =>
    Int.toNat_natCast _
  exact ⟨hs.rewrite h1 hi h3.iTransLevel h3.apLog hv (hr _) (hr d) h2 fun y _ => h3.aKey y, h2⟩

/-! ### The place of a key -/

/-- The key belongs between what is on both sides of the hole. -/
structure Between (p : KVMem) (aKey : Bytes) (ctx : List (AvlTree.Frame Ptr)) : Prop where
  before : ∀ x ∈ beside .before ctx, (p.rows x).aKey < aKey
  after : ∀ x ∈ beside .after ctx, aKey < (p.rows x).aKey

/-- What the search finds. -/
def Found (p : KVMem) (t : BinTree Ptr) (aKey : Bytes) : Ptr × Option Side → Prop
  | (x, none) => x ∈ t.toList ∧ (p.rows x).aKey = aKey
  | (x, some d) => ∃ s ctx, t = plug .nil (⟨d, x, s⟩ :: ctx) ∧ Between p aKey (⟨d, x, s⟩ :: ctx)

theorem findPlace_spec (aKey : Bytes) {u : BinTree Ptr} {c : List (AvlTree.Frame Ptr)}
    (hsorted : (plug u c).toList.Pairwise
      fun x y => (p.rows x).aKey < (p.rows y).aKey)
    (hl : Linked p.links (upOf 0 c) u x) (hu : u ≠ .nil) (hb : Between p aKey c)
    (hn : u.toList.length ≤ n) : Found p (plug u c) aKey (findPlace n p aKey x) := by
  induction u generalizing c x n with
  | nil => exact absurd rfl hu
  | node l y r ihl ihr =>
      obtain ⟨rfl, hx, -, hlb, hla, -, -⟩ := hl
      rw [toList, List.length_append, List.length_cons] at hn
      obtain ⟨n, rfl⟩ : ∃ m, n = m + 1 := ⟨n - 1, by omega⟩
      have hlist : (plug (node l x r) c).toList =
          beside .before c ++ (l.toList ++ x :: (r.toList ++ beside .after c)) := by
        simp [toList_plug, toList]
      have hsplit := hsorted
      rw [hlist] at hsplit
      have hmid := List.pairwise_append.mp (List.pairwise_append.mp hsplit).2.1
      have hlx : ∀ z ∈ l.toList, (p.rows z).aKey < (p.rows x).aKey := fun z hz =>
        hmid.2.2 z hz x List.mem_cons_self
      have hxr : ∀ z ∈ r.toList, (p.rows x).aKey < (p.rows z).aKey := fun z hz =>
        (List.pairwise_cons.mp hmid.2.1).1 z (List.mem_append_left _ hz)
      obtain ⟨hneg, hpos⟩ := kvmemKeyCompare_sign aKey (p.rows x).aKey
      have hbl : aKey < (p.rows x).aKey → Between p aKey (⟨.before, x, r⟩ :: c) := by
        intro hlt
        refine ⟨fun z hz => hb.before z (by simpa [beside] using hz), fun z hz => ?_⟩
        have hz' : (z = x ∨ z ∈ r.toList) ∨ z ∈ beside .after c := by
          simpa [beside, or_assoc] using hz
        rcases hz' with (rfl | hz) | hz
        · exact hlt
        · exact hlt.trans (hxr z hz)
        · exact hb.after z hz
      have hbr : (p.rows x).aKey < aKey → Between p aKey (⟨.after, x, l⟩ :: c) := by
        intro hlt
        refine ⟨fun z hz => ?_, fun z hz => hb.after z (by simpa [beside] using hz)⟩
        have hz' : z ∈ beside .before c ∨ z ∈ l.toList ∨ z = x := by
          simpa [beside] using hz
        rcases hz' with hz | hz | rfl
        · exact hb.before z hz
        · exact (hlx z hz).trans hlt
        · exact hlt
      rw [findPlace]
      by_cases hlt : aKey < (p.rows x).aKey
      · rw [if_pos (hneg.mpr hlt)]
        by_cases h0 : (p.links x).pBefore = 0
        · rw [if_neg (by simpa using h0)]
          have hnil : l = .nil := by
            rcases hlb.root with ⟨hnil, -⟩ | hm
            · exact hnil
            · exact absurd h0 (hlb.nonzero _ hm)
          subst hnil
          exact ⟨r, c, rfl, hbl hlt⟩
        · rw [if_pos h0]
          refine ihl (c := ⟨.before, x, r⟩ :: c) hsorted hlb ?_ (hbl hlt) (by omega)
          rintro rfl
          exact h0 hlb
      · rw [if_neg (by rw [hneg]; exact hlt)]
        by_cases hgt : (p.rows x).aKey < aKey
        · rw [if_pos (hpos.mpr hgt)]
          by_cases h0 : (p.links x).pAfter = 0
          · rw [if_neg (by simpa using h0)]
            have hnil : r = .nil := by
              rcases hla.root with ⟨hnil, -⟩ | hm
              · exact hnil
              · exact absurd h0 (hla.nonzero _ hm)
            subst hnil
            exact ⟨l, c, rfl, hbr hgt⟩
          · rw [if_pos h0]
            refine ihr (c := ⟨.after, x, l⟩ :: c) hsorted hla ?_ (hbr hgt) (by omega)
            rintro rfl
            exact h0 hla
        · rw [if_neg (by rw [hpos]; exact hgt)]
          refine ⟨?_, le_antisymm (not_lt.mp hlt) (not_lt.mp hgt)⟩
          rw [mem_plug]
          exact Or.inl (by simp [toList])

/-! ### A new node -/

/-- A node that has just been made is hung below its parent, and has a record. -/
structure Hung (p q : KVMem) (i : ℕ) (ctx : List (AvlTree.Frame Ptr)) (aKey : Bytes) : Prop where
  rows : q.rows = Function.update p.rows p.pFresh ⟨none, (i + 2 : ℕ), 1, aKey⟩
  apLog : q.apLog = Function.update p.apLog i (⟨p.pFresh, none, 0⟩ :: p.apLog i)
  same : q.iTransLevel = p.iTransLevel ∧ q.cursors = p.cursors ∧ q.freed = p.freed ∧
    q.badFree = p.badFree
  pFresh : q.pFresh = p.pFresh + 1
  around : LinkedCtx q.links 0 ctx p.pFresh
  leaf : (q.links p.pFresh).pBefore = 0 ∧ (q.links p.pFresh).pAfter = 0 ∧
    (q.links p.pFresh).pUp = upOf 0 ctx

/-- The tree with a new node. -/
theorem placeNode_spec {q : KVMem} (hs : Sound p (plug .nil ctx)) (hi : p.iTransLevel = i + 2)
    (hb : Between p aKey ctx) (hq : Hung p q i ctx aKey) (aData : Bytes) :
    ∃ t', Written p (placeNode q p.pFresh aData) (plug .nil ctx) t' ∧
      view (placeNode q p.pFresh aData) t' =
        Function.update (view p (plug .nil ctx)) p.pFresh (some (some aData, (i + 2 : ℕ))) ∧
      ((placeNode q p.pFresh aData).rows p.pFresh).aKey = aKey := by
  obtain ⟨x, hx⟩ : ∃ x, p.pFresh = x := ⟨_, rfl⟩
  have hfresh : ∀ y ∈ (plug .nil ctx : BinTree Ptr).toList, y ≠ x := by
    intro y hy
    rw [← hx]
    exact Nat.ne_of_lt (hs.shaped.inTree y hy).1
  have hx0 : x ≠ 0 := by
    rw [← hx]
    exact Nat.ne_of_gt hs.shaped.fresh
  have hout : x ∉ around ctx := fun hm => hfresh x (mem_plug.mpr (Or.inr hm)) rfl
  have hlist := toList_plug (.nil : BinTree Ptr) ctx
  rw [toList_nil, List.append_nil] at hlist
  have hnew := toList_plug (.node .nil x .nil : BinTree Ptr) ctx
  have hnodup : (plug (.node .nil x .nil) ctx).toList.Nodup := by
    rw [nodup_plug]
    exact ⟨by simp [toList], (nodup_plug.mp hs.shaped.nodup).2.1, by simpa [toList] using hout⟩
  obtain ⟨hrows, hapLog, ⟨hlevel, hcur, hfreed, hbad⟩, hpf, hctx, hleaf⟩ := hq
  rw [hx] at hrows hapLog hpf hctx hleaf ⊢
  -- The new height and the balancing.
  obtain ⟨h, hh⟩ : ∃ h, (q.links.edit x fun k => { k with height := 1 }) = h := ⟨_, rfl⟩
  have hhx : (h x).pBefore = 0 ∧ (h x).pAfter = 0 ∧ (h x).pUp = upOf 0 ctx := by
    rw [← hh, Heap.edit_same]
    exact hleaf
  have hhctx : LinkedCtx h 0 ctx x := hctx.congr fun y hy => by
    rw [← hh, Heap.edit_ne]
    rintro rfl
    exact hout hy
  have hlen : ctx.length < q.pFresh := by
    have h1 := length_le_around ctx
    have h2 := (perm_plug (.nil : BinTree Ptr) ctx).length_eq
    have h3 := hs.shaped.length_lt
    rw [List.length_append, toList_nil, List.length_nil, Nat.zero_add] at h2
    rw [h2, hx] at h3
    rw [hpf]
    exact Nat.lt_succ_of_lt (h1.trans_lt h3)
  obtain ⟨t', hl, hbal, hlist', -⟩ := kvmemBalance_spec (k := 0) hx0 hhx.2.2
    (show Linked h x .nil _ from hhx.1) (show Linked h x .nil _ from hhx.2.1) trivial trivial hhctx
    hnodup ⟨by simp, by simp, by simp, by simp⟩ (balanced_plug.mp hs.shaped.balanced).2 hlen
  rw [hnew] at hlist'
  have hmem : ∀ y, y ∈ t'.toList ↔ y = x ∨ y ∈ (plug .nil ctx : BinTree Ptr).toList := by
    intro y
    rw [hlist', hlist]
    simp only [toList, List.nil_append, List.mem_append, List.mem_singleton]
    tauto
  obtain ⟨p', hp'⟩ : ∃ p', placeNode q x aData = p' := ⟨_, rfl⟩
  have hrow : p'.rows = Function.update p.rows x ⟨some aData, (i + 2 : ℕ), 1, aKey⟩ := by
    rw [← hp']
    show Function.update q.rows x _ = _
    rw [hrows, Function.update_self, Function.update_idem]
  have hrowx : p'.rows x = ⟨some aData, (i + 2 : ℕ), 1, aKey⟩ := by
    rw [hrow, Function.update_self]
  have hrowne : ∀ y, y ≠ x → p'.rows y = p.rows y := by
    intro y hy
    rw [hrow, Function.update_of_ne hy]
  have hlinks : p'.links = (kvmemBalance q.pFresh h x).1 ∧
      p'.pRoot = (kvmemBalance q.pFresh h x).2 := by
    rw [← hp', ← hh]
    exact ⟨rfl, rfl⟩
  have hp'same : p'.apLog = q.apLog ∧ p'.iTransLevel = q.iTransLevel ∧ p'.cursors = q.cursors ∧
      p'.freed = q.freed ∧ p'.badFree = q.badFree ∧ p'.pFresh = q.pFresh := by
    rw [← hp']
    exact ⟨rfl, rfl, rfl, rfl, rfl, rfl⟩
  obtain ⟨hlog', hlevel', hcur', hfreed', hbad', hpf'⟩ := hp'same
  rw [hp']
  have hold : ∀ {y : Ptr}, y < p.pFresh → y < x + 1 := fun hy => by
    rw [hx] at hy
    exact Nat.lt_succ_of_lt hy
  have hother : ∀ {y : Ptr}, y < p'.pFresh → y ≠ x → y < p.pFresh := by
    intro y hylt hyx
    rw [hpf', hpf] at hylt
    rw [hx]
    exact lt_of_le_of_ne (Nat.lt_succ_iff.mp hylt) hyx
  have hshape : Shaped p' t' 0 := by
    refine ⟨⟨?_, hbal, ?_, ?_, ?_, ?_, ?_, ?_, ?_, ?_, ?_⟩, ?_⟩
    · rw [hlinks.1, hlinks.2]
      exact hl
    · have hsorted := hs.shaped.sorted
      rw [hlist, List.pairwise_append] at hsorted
      obtain ⟨h1, h2, h3⟩ := hsorted
      have hkeep : ∀ y, y ∈ beside .before ctx ∨ y ∈ beside .after ctx → p'.rows y = p.rows y := by
        intro y hy
        refine hrowne y (hfresh y ?_)
        rw [hlist, List.mem_append]
        exact hy
      rw [hlist']
      simp only [toList, List.nil_append, List.append_assoc, List.singleton_append]
      rw [List.pairwise_append, List.pairwise_cons]
      refine ⟨h1.imp_of_mem fun ha hb hlt => ?_, ⟨fun y hy => ?_, h2.imp_of_mem
        fun ha hb hlt => ?_⟩, fun y hy z hz => ?_⟩
      · rw [hkeep _ (Or.inl ha), hkeep _ (Or.inl hb)]
        exact hlt
      · rw [hrowx, hkeep y (Or.inr hy)]
        exact hb.after y hy
      · rw [hkeep _ (Or.inr ha), hkeep _ (Or.inr hb)]
        exact hlt
      · rw [hkeep y (Or.inl hy)]
        rcases List.mem_cons.mp hz with rfl | hz
        · rw [hrowx]
          exact hb.before y hy
        · rw [hkeep z (Or.inr hz)]
          exact h3 y hy z hz
    · rw [hpf', hpf]
      exact Nat.succ_pos x
    · intro y hy
      rw [hpf', hpf, hfreed', hfreed]
      rcases (hmem y).mp hy with rfl | hy
      · refine ⟨Nat.lt_succ_self y, fun hm => ?_⟩
        exact Nat.ne_of_lt (hs.shaped.freed.2 y hm) hx.symm
      · exact ⟨hold (hs.shaped.inTree y hy).1, (hs.shaped.inTree y hy).2⟩
    · intro y hy
      rw [hmem, not_or] at hy
      rw [hrowne y hy.1]
      exact hs.shaped.gone y hy.2
    · rw [hfreed', hfreed, hpf', hpf]
      exact ⟨hs.shaped.freed.1, fun y hy => hold (hs.shaped.freed.2 y hy)⟩
    · rw [hcur', hcur, hfreed', hfreed, hpf', hpf]
      exact fun c hc hc0 =>
        ⟨hold (hs.shaped.cursors c hc hc0).1, (hs.shaped.cursors c hc hc0).2⟩
    · rw [hcur', hcur]
      exact hs.shaped.few
    · intro y hy0 hylt hyf
      rw [hfreed', hfreed] at hyf
      have hrefs : p'.refs y = p.refs y := by rw [KVMem.refs, hcur', hcur]; rfl
      rw [hrefs, if_neg hy0, add_zero]
      by_cases hyx : y = x
      · have hzero : p.refs x = 0 := by
          refine List.countP_eq_zero.mpr fun c hc => ?_
          intro hcx
          have hcx' : c.pNode = x := by simpa using hcx
          have hlt := (hs.shaped.cursors c hc (by rw [hcx']; exact hx0)).1
          exact Nat.ne_of_lt hlt (hcx'.trans hx.symm)
        rw [hyx, hrowx, if_pos ((hmem x).mpr (Or.inl rfl)), hzero]
        rfl
      · have hcount := hs.shaped.count y hy0 (hother hylt hyx) hyf
        rw [if_neg hy0, add_zero] at hcount
        rw [hrowne y hyx, hcount]
        simp only [hmem, hyx, false_or]
    · rw [hbad', hbad]
      exact hs.shaped.good
    · intro y hy0 hylt hyf
      rw [hfreed', hfreed] at hyf
      have hrefs : p'.refs y = p.refs y := by rw [KVMem.refs, hcur', hcur]; rfl
      rw [hrefs, hmem]
      by_cases hyx : y = x
      · exact Or.inl (Or.inl hyx)
      · exact (hs.shaped.held y hy0 (hother hylt hyx) hyf).imp_left Or.inr
  have hview : view p' t' =
      Function.update (view p (plug .nil ctx)) x (some (some aData, (i + 2 : ℕ))) := by
    funext y
    by_cases hyx : y = x
    · rw [hyx, Function.update_self, view_of_mem ((hmem x).mpr (Or.inl rfl)), hrowx]
    · rw [Function.update_of_ne hyx]
      simp only [view, hmem, hyx, false_or, hrowne y hyx]
  have hnone : view p (plug .nil ctx) x = none := view_of_notMem fun hm => hfresh x hm rfl
  have hr : rowLevel (some aData, ((i + 2 : ℕ) : ℤ)) = i + 2 := Int.toNat_natCast _
  refine ⟨t', hs.record hshape hi (hlevel'.trans hlevel) (hlog'.trans hapLog) ?_ hr hview fun y hy =>
    by rw [hrowne y (hfresh y hy)], hview, by rw [hrowx]⟩
  rw [hnone]
  rfl

/-- The store in which a node could not be made. -/
theorem newNode_fail (aKey : Bytes) {mallocNode mallocChng : Bool} (hs : Sound p t)
    (hfail : ¬ (mallocNode = true ∧ mallocChng = true)) :
    ∃ q, kvmemNewNode p aKey mallocNode mallocChng = (q, 0) ∧ Written p q t t ∧
      view q t = view p t ∧ ∀ x ∈ t.toList, q.links x = p.links x := by
  cases mallocNode with
  | false => exact ⟨p, rfl, Written.refl hs, rfl, fun _ _ => rfl⟩
  | true =>
      obtain rfl : mallocChng = false := by simpa using hfail
      obtain ⟨q, hq⟩ : ∃ q, (kvmemNewNode p aKey true false).1 = q := ⟨_, rfl⟩
      have hdef : kvmemNewNode p aKey true false = (q, 0) := by
        rw [← hq]
        rfl
      have hne : ∀ y ∈ t.toList, y ≠ p.pFresh := fun y hy =>
        Nat.ne_of_lt (hs.shaped.inTree y hy).1
      have hlinks : ∀ y, y ≠ p.pFresh → q.links y = p.links y := by
        intro y hy
        rw [← hq]
        exact Heap.edit_ne p.links (fun _ => ⟨0, 0, 0, 0, 0⟩) hy
      have hrows : q.rows = Function.update p.rows p.pFresh ⟨none, 0, 1, aKey⟩ := by
        rw [← hq]
        rfl
      have hrow : ∀ y, y ≠ p.pFresh → q.rows y = p.rows y := by
        intro y hy
        rw [hrows, Function.update_of_ne hy]
      have hsame : q.pRoot = p.pRoot ∧ q.apLog = p.apLog ∧ q.iTransLevel = p.iTransLevel ∧
          q.cursors = p.cursors ∧ q.pFresh = p.pFresh + 1 ∧ q.freed = p.pFresh :: p.freed ∧
            q.badFree = p.badFree := by
        rw [← hq]
        exact ⟨rfl, rfl, rfl, rfl, rfl, rfl, rfl⟩
      obtain ⟨hroot, hlog, hlevel, hcur, hpf, hfreed, hbad⟩ := hsame
      have hview : view q t = view p t := by
        funext y
        rw [view, view]
        split_ifs with hy
        · rw [hrow y (hne y hy)]
        · rfl
      have hshape : Shaped q t 0 := by
        refine ⟨⟨?_, hs.shaped.balanced, ?_, ?_, ?_, ?_, ?_, ?_, ?_, ?_, ?_⟩, ?_⟩
        · rw [hroot]
          exact hs.shaped.linked.congr fun y hy => hlinks y (hne y hy)
        · refine hs.shaped.sorted.imp_of_mem fun ha hb hlt => ?_
          rw [hrow _ (hne _ ha), hrow _ (hne _ hb)]
          exact hlt
        · rw [hpf]
          exact Nat.succ_pos _
        · intro y hy
          rw [hpf, hfreed, List.mem_cons, not_or]
          exact ⟨Nat.lt_succ_of_lt (hs.shaped.inTree y hy).1, hne y hy, (hs.shaped.inTree y hy).2⟩
        · intro y hy
          by_cases hyx : y = p.pFresh
          · rw [hrows, hyx, Function.update_self]
          · rw [hrow y hyx]
            exact hs.shaped.gone y hy
        · rw [hfreed, hpf, List.nodup_cons]
          refine ⟨⟨fun hm => Nat.lt_irrefl _ (hs.shaped.freed.2 _ hm), hs.shaped.freed.1⟩, ?_⟩
          intro y hy
          rcases List.mem_cons.mp hy with rfl | hy
          · exact Nat.lt_succ_self _
          · exact Nat.lt_succ_of_lt (hs.shaped.freed.2 y hy)
        · rw [hcur, hpf, hfreed]
          intro c hc hc0
          have hlt := hs.shaped.cursors c hc hc0
          rw [List.mem_cons, not_or]
          exact ⟨Nat.lt_succ_of_lt hlt.1, Nat.ne_of_lt hlt.1, hlt.2⟩
        · rw [hcur]
          exact hs.shaped.few
        · intro y hy0 hylt hyf
          rw [hfreed, List.mem_cons, not_or] at hyf
          rw [hpf] at hylt
          have hrefs : q.refs y = p.refs y := by rw [KVMem.refs, hcur]; rfl
          rw [hrow y hyf.1, hrefs]
          exact hs.shaped.count y hy0 (lt_of_le_of_ne (Nat.lt_succ_iff.mp hylt) hyf.1) hyf.2
        · rw [hbad]
          exact hs.shaped.good
        · intro y hy0 hylt hyf
          rw [hfreed, List.mem_cons, not_or] at hyf
          rw [hpf] at hylt
          have hrefs : q.refs y = p.refs y := by rw [KVMem.refs, hcur]; rfl
          rw [hrefs]
          exact hs.shaped.held y hy0 (lt_of_le_of_ne (Nat.lt_succ_iff.mp hylt) hyf.1) hyf.2
      refine ⟨q, hdef, ⟨⟨hshape, ?_, hlevel ▸ hs.level⟩, hlevel, fun k _ => ?_, fun y hy => ?_⟩, hview,
        fun y hy => hlinks y (hne y hy)⟩
      · rw [LogsNested, hlog, hlevel, hview]
        exact hs.nested
      · rw [restored, restored, hlog, hlevel, hview]
      · rw [hrow y (hne y hy)]

/-- The store with a new node, before it is hung. -/
theorem newNode_done (aKey : Bytes) (hs : Sound p t) (hi : p.iTransLevel = i + 2) :
    ∃ q, kvmemNewNode p aKey true true = (q, p.pFresh) ∧
      q.links = p.links.edit p.pFresh (fun _ => ⟨0, 0, 0, 0, 0⟩) ∧
      q.rows = Function.update p.rows p.pFresh ⟨none, (i + 2 : ℕ), 1, aKey⟩ ∧
      q.apLog = Function.update p.apLog i (⟨p.pFresh, none, 0⟩ :: p.apLog i) ∧
      (q.iTransLevel = p.iTransLevel ∧ q.cursors = p.cursors ∧ q.freed = p.freed ∧
        q.badFree = p.badFree) ∧ q.pFresh = p.pFresh + 1 := by
  have hlevel := hs.level
  have hshort : toShort (p.iTransLevel : ℤ) = (i + 2 : ℕ) := by
    rw [hi, toShort_eq] <;> push_cast <;> omega
  have hsub : p.iTransLevel - 2 = i := by omega
  refine ⟨_, rfl, rfl, ?_, ?_, ⟨rfl, rfl, rfl, rfl⟩, rfl⟩
  · refine (Function.update_idem ..).trans (congrArg (Function.update p.rows p.pFresh) ?_)
    show Row.mk none (toShort p.iTransLevel) (Function.update p.rows p.pFresh _ p.pFresh).nRef
      (Function.update p.rows p.pFresh _ p.pFresh).aKey = _
    rw [Function.update_self, hshort]
  · show Function.update p.apLog (p.iTransLevel - 2) (KVMemChng.mk p.pFresh
      (Function.update p.rows p.pFresh (Row.mk none 0 1 aKey) p.pFresh).pData
      (Function.update p.rows p.pFresh (Row.mk none 0 1 aKey) p.pFresh).mxTrans ::
        p.apLog (p.iTransLevel - 2)) = _
    rw [hsub, Function.update_self]

/-! ### The content after a write -/

/-- One row of the tree has changed, the only one with its key. -/
theorem has_update {d : Option Bytes} {m : ℤ}
    (hview : view p' t' = Function.update (view p t) x (some (d, m)))
    (hkey : ∀ y ∈ t.toList, (p'.rows y).aKey = (p.rows y).aKey) (hx : (p'.rows x).aKey = aKey)
    (honly : ∀ y ∈ t.toList, (p.rows y).aKey = aKey → y = x) (k e : Bytes) :
    Has p' t' k e ↔ if k = aKey then d = some e else Has p t k e := by
  have hmem : ∀ y, y ∈ t'.toList ↔ y = x ∨ y ∈ t.toList := by
    intro y
    have hiff : ∀ {p : KVMem} {t : BinTree Ptr}, y ∈ t.toList ↔ (view p t y).isSome :=
      ⟨fun h => by rw [view_of_mem h]; rfl, mem_of_view⟩
    rw [hiff (p := p'), hview, hiff (p := p)]
    by_cases hy : y = x
    · simp [hy]
    · simp [hy]
  have hdata : ∀ y ∈ t'.toList, (p'.rows y).pData = if y = x then d else (p.rows y).pData := by
    intro y hy
    have hv := congrFun hview y
    rw [view_of_mem hy] at hv
    by_cases hyx : y = x
    · rw [hyx, Function.update_self, Option.some_inj, Prod.mk.injEq] at hv
      rw [if_pos hyx, hyx]
      exact hv.1
    · rw [Function.update_of_ne hyx, view_of_mem (((hmem y).mp hy).resolve_left hyx),
        Option.some_inj, Prod.mk.injEq] at hv
      rw [if_neg hyx]
      exact hv.1
  constructor
  · rintro ⟨y, hy, rfl, hd⟩
    rw [hdata y hy] at hd
    by_cases hyx : y = x
    · rw [if_pos hyx] at hd
      rw [hyx, hx, if_pos rfl]
      exact hd
    · rw [if_neg hyx] at hd
      have hyt := ((hmem y).mp hy).resolve_left hyx
      rw [hkey y hyt, if_neg fun he => hyx (honly y hyt he)]
      exact ⟨y, hyt, rfl, hd⟩
  · split_ifs with hk
    · intro hd
      have hxt := (hmem x).mpr (Or.inl rfl)
      exact ⟨x, hxt, hx.trans hk.symm, by rw [hdata x hxt, if_pos rfl, hd]⟩
    · rintro ⟨y, hyt, rfl, hd⟩
      have hy := (hmem y).mpr (Or.inr hyt)
      have hyx : y ≠ x := by
        rintro rfl
        exact hk ((hkey y hyt).symm.trans hx)
      exact ⟨y, hy, hkey y hyt, by rw [hdata y hy, if_neg hyx, hd]⟩

/-- The keys of the tree differ. -/
theorem Shaped.key_inj {y : Ptr} (hs : Shaped p t 0) (hx : x ∈ t.toList) (hy : y ∈ t.toList)
    (hkey : (p.rows y).aKey = (p.rows x).aKey) : y = x := by
  have hone : t.toList.Pairwise fun a b => (p.rows a).aKey = (p.rows b).aKey → a = b :=
    hs.sorted.imp fun hlt he => absurd he hlt.ne
  have htwo : t.toList.Pairwise (flip fun a b => (p.rows a).aKey = (p.rows b).aKey → a = b) :=
    hs.sorted.imp fun hlt he => absurd he hlt.ne'
  exact List.Pairwise.forall_of_forall_of_flip (fun _ _ _ => rfl) hone htwo hy hx hkey

/-! ### The calls -/

theorem setChild_same (k : Link) (d : Side) {q : Ptr} (h : k.child d = q) : k.setChild d q = k := by
  subst h
  cases d <;> rfl

/-- Other pointers in nodes that are not in the tree. -/
theorem Shaped.of_links (hs : Shaped p t 0) {h : Heap} (hh : ∀ x ∈ t.toList, h x = p.links x) :
    Shaped { p with links := h } t 0 :=
  ⟨⟨hs.linked.congr hh, hs.balanced, hs.sorted, hs.fresh, hs.inTree, hs.gone, hs.freed, hs.cursors,
    hs.few, hs.count, hs.good⟩, hs.held⟩

theorem Written.of_links (hw : Written p p' t t) {h : Heap}
    (hh : ∀ x ∈ t.toList, h x = p'.links x) : Written p { p' with links := h } t t :=
  ⟨⟨hw.sound.shaped.of_links hh, hw.sound.nested, hw.sound.level⟩, hw.iTransLevel, hw.below,
    hw.aKey⟩

/-- What `kvmemReplace` and `kvmemDelete` do to a row. -/
structure Changed (p p' : KVMem) (t t' : BinTree Ptr) (aKey : Bytes) (d : Option Bytes) : Prop where
  written : Written p p' t t'
  has : ∀ k e, Has p' t' k e ↔ if k = aKey then d = some e else Has p t k e

/-- A row of the tree gets other content: with a record, or where it has one. -/
theorem changed_of_view {d : Option Bytes} {m : ℤ} (hw : Written p p' t t) (hs : Shaped p t 0)
    (hx : x ∈ t.toList) (hview : view p' t = Function.update (view p t) x (some (d, m))) :
    Changed p p' t t (p.rows x).aKey d :=
  ⟨hw, has_update hview hw.aKey (hw.aKey x hx) fun _ hy he => hs.key_inj hx hy he⟩

/-- A new node in the place of its key. -/
theorem insert_spec (ctx : List (AvlTree.Frame Ptr)) (aKey : Bytes) {q : KVMem}
    (hs : Sound p (plug .nil ctx)) (hi : p.iTransLevel = i + 2) (hb : Between p aKey ctx)
    (hq : Hung p q i ctx aKey) (aData : Bytes) :
    ∃ t', Changed p (placeNode q p.pFresh aData) (plug .nil ctx) t' aKey (some aData) := by
  obtain ⟨t', hw, hview, hkey⟩ := placeNode_spec hs hi hb hq aData
  refine ⟨t', hw, has_update hview hw.aKey hkey fun y hy he => ?_⟩
  rw [toList_plug, toList_nil, List.append_nil, List.mem_append] at hy
  rcases hy with hy | hy
  · exact absurd he (hb.before y hy).ne
  · exact absurd he (hb.after y hy).ne'

/-- **`kvmemReplace`** sets the content of the key, or fails and leaves all content. -/
theorem replace_spec (hs : Sound p t) (hi : p.iTransLevel = i + 2) (aKey aData : Bytes)
    (malloc : ℕ → Bool) :
    ∃ t', (kvmemReplace p aKey aData malloc).2 = .ok ∧
        Changed p (kvmemReplace p aKey aData malloc).1 t t' aKey (some aData) ∨
      (kvmemReplace p aKey aData malloc).2 = .nomem ∧
        Written p (kvmemReplace p aKey aData malloc).1 t t' ∧
        ∀ k e, Has (kvmemReplace p aKey aData malloc).1 t' k e ↔ Has p t k e := by
  have hhas : ∀ {q : KVMem}, Written p q t t → view q t = view p t →
      ∀ k e, Has q t k e ↔ Has p t k e := by
    intro q hw hview k e
    have hrow : ∀ x ∈ t.toList, (q.rows x).pData = (p.rows x).pData := by
      intro x hx
      have hv := congrFun hview x
      rw [view_of_mem hx, view_of_mem hx, Option.some_inj, Prod.mk.injEq] at hv
      exact hv.1
    constructor
    · rintro ⟨x, hx, hk, hd⟩
      exact ⟨x, hx, (hw.aKey x hx).symm.trans hk, (hrow x hx).symm.trans hd⟩
    · rintro ⟨x, hx, hk, hd⟩
      exact ⟨x, hx, (hw.aKey x hx).trans hk, (hrow x hx).trans hd⟩
  have hfresh0 : p.pFresh ≠ 0 := Nat.ne_of_gt hs.shaped.fresh
  rw [kvmemReplace]
  by_cases hm0 : malloc 0 = true
  swap
  · rw [if_neg hm0]
    exact ⟨t, Or.inr ⟨rfl, Written.refl hs, fun _ _ => Iff.rfl⟩⟩
  rw [if_pos hm0]
  by_cases hroot : p.pRoot = 0
  · -- An empty tree.
    rw [if_pos hroot]
    have hnil : t = .nil := by
      rcases hs.shaped.linked.root with ⟨hnil, -⟩ | hm
      · exact hnil
      · exact absurd hroot (hs.shaped.nonzero hm)
    subst hnil
    by_cases hfail : malloc 1 = true ∧ malloc 2 = true
    · obtain ⟨q, hq, hlinks, hrows, hlog, hsame, hpf⟩ := newNode_done aKey hs hi
      rw [hfail.1, hfail.2, hq]
      simp only [hfresh0, if_false]
      obtain ⟨t', hc⟩ := insert_spec (p := p) (i := i) [] aKey
        (q := { q with links := q.links.edit p.pFresh fun k => k.setUp 0 }) hs hi
        ⟨by simp [beside], by simp [beside]⟩ ⟨hrows, hlog, hsame, hpf, trivial, by
          rw [hlinks]
          simp [upOf, Link.setUp]⟩ aData
      exact ⟨t', Or.inl ⟨trivial, hc⟩⟩
    · obtain ⟨q, hq, hw, hview, -⟩ := newNode_fail aKey hs hfail
      rw [hq]
      exact ⟨.nil, Or.inr ⟨rfl, hw, hhas hw hview⟩⟩
  · rw [if_neg hroot]
    have ht : t ≠ .nil := by
      rintro rfl
      exact hroot hs.shaped.linked
    have hfound := findPlace_spec aKey (c := []) (n := p.pFresh) hs.shaped.sorted
      hs.shaped.linked ht ⟨by simp [beside], by simp [beside]⟩ hs.shaped.length_lt.le
    obtain ⟨⟨y, place⟩, hplace⟩ : ∃ r, findPlace p.pFresh p aKey p.pRoot = r := ⟨_, rfl⟩
    rw [hplace] at hfound ⊢
    cases place with
    | some d =>
        -- The key is new.
        obtain ⟨s, ctx, rfl, hb⟩ := hfound
        obtain ⟨z, hz, hctx, -⟩ := hs.shaped.linked.unplug
        obtain rfl : z = 0 := hz
        by_cases hfail : malloc 1 = true ∧ malloc 2 = true
        · obtain ⟨q, hq, hlinks, hrows, hlog, hsame, hpf⟩ := newNode_done aKey hs hi
          have hne : ∀ w ∈ around (⟨d, y, s⟩ :: ctx), w ≠ p.pFresh := fun w hw =>
            Nat.ne_of_lt (hs.shaped.inTree w (mem_plug.mpr (Or.inr hw))).1
          have hy : y ≠ p.pFresh := hne y (by simp)
          have hctx1 : LinkedCtx q.links 0 (⟨d, y, s⟩ :: ctx) 0 := hctx.congr fun w hw => by
            rw [hlinks, Heap.edit_ne _ _ (hne w hw)]
          obtain ⟨hctx2, hkeep⟩ := linkedCtx_store hctx1 (nodup_plug.mp hs.shaped.nodup).2.1 p.pFresh
          rw [hfail.1, hfail.2, hq]
          simp only [hfresh0, if_false]
          obtain ⟨h, hh⟩ : ∃ h, q.links.edit y (fun k => k.setChild d p.pFresh) = h := ⟨_, rfl⟩
          have hstore : (Place.child y d).store q.links p.pFresh = h := hh
          rw [hstore] at hctx2 hkeep
          rw [hh]
          have hx := hkeep p.pFresh hy.symm
          rw [hlinks, Heap.edit_same] at hx
          obtain ⟨t', hc⟩ := insert_spec (p := p) (i := i) (⟨d, y, s⟩ :: ctx) aKey
            (q := { q with links := h.edit p.pFresh fun k => k.setUp y }) hs hi hb
            ⟨hrows, hlog, hsame, hpf, hctx2.congr fun w hw => by
              rw [Heap.edit_ne _ _ (hne w hw)], by
                rw [Heap.edit_same, hx]
                exact ⟨rfl, rfl, rfl⟩⟩ aData
          exact ⟨t', Or.inl ⟨trivial, hc⟩⟩
        · obtain ⟨q, hq, hw, hview, hlinks⟩ := newNode_fail aKey hs hfail
          rw [hq]
          have hy : (q.links y).child d = 0 := by
            rw [hlinks y (mem_plug.mpr (Or.inr (by simp)))]
            exact hctx.2.1
          have hw' := hw.of_links (h := q.links.edit y fun k => k.setChild d 0) fun w _ => by
            by_cases hwy : w = y
            · rw [hwy, Heap.edit_same, setChild_same _ _ hy]
            · rw [Heap.edit_ne _ _ hwy]
          exact ⟨_, Or.inr ⟨rfl, hw', hhas hw' hview⟩⟩
    | none =>
        -- The key is there.
        obtain ⟨hy, rfl⟩ := hfound
        dsimp only
        by_cases hmx : (p.rows y).mxTrans ≠ p.iTransLevel
        · rw [if_pos hmx]
          by_cases hm1 : malloc 1 = true
          · rw [hm1]
            obtain ⟨hw, hview⟩ := newChng_spec hs hy hi (some aData)
            exact ⟨t, Or.inl ⟨rfl, changed_of_view hw hs.shaped hy hview⟩⟩
          · have hchng : kvmemNewChng p y (malloc 1) = (p, false) := if_neg hm1
            rw [hchng]
            exact ⟨t, Or.inr ⟨rfl, Written.refl hs, fun _ _ => Iff.rfl⟩⟩
        · rw [if_neg hmx]
          obtain ⟨hw, hview⟩ := setData_spec hs hy hi (not_not.mp hmx) (some aData)
          exact ⟨t, Or.inl ⟨rfl, changed_of_view hw hs.shaped hy hview⟩⟩

end KvMem

end MoVeBench
