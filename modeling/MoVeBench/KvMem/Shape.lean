/-
MoVeBench/KvMem/Shape.lean

What holds of the store between two steps, apart from the logs: the nodes make a balanced tree in the
order of their keys, and every node has as many references as its `nRef` says, or has been freed
(`Shaped`).  One reference may be pending: `kvmemNodeUnref` gives it back.

`view` is what the logs are about: the content and the `mxTrans` of the rows in the tree.
-/
import MoVeBench.KvMem.Store
import MoVeBench.Lib.UndoLog

namespace MoVeBench

namespace KvMem

open AvlTree AvlTree.BinTree UndoLog
open Lsm (Bytes memcmpBytes)

/-! ### Keys and numbers -/

theorem kvmemKeyCompare_sign (a b : Bytes) :
    (kvmemKeyCompare a b < 0 ↔ a < b) ∧ (0 < kvmemKeyCompare a b ↔ b < a) := by
  have hcmp : kvmemKeyCompare a b = Lsm.treeKeycmp a b := rfl
  rw [hcmp]
  rcases lt_trichotomy a b with hlt | rfl | hgt
  · have := (Lsm.treeKeycmp_lt hlt).1
    simp [hlt, hlt.asymm]
    omega
  · simp [Lsm.treeKeycmp_self]
  · have := (Lsm.treeKeycmp_lt hgt).2
    simp [hgt, hgt.asymm]
    omega

theorem toShort_eq {n : ℤ} (h1 : -32768 ≤ n) (h2 : n < 32768) : toShort n = n :=
  Int.bmod_eq_of_le (by omega) (by omega)

/-! ### The shape of a store -/

/-- The references of cursors to a node. -/
def KVMem.refs (p : KVMem) (x : Ptr) : ℕ := p.cursors.countP (·.pNode == x)

/-- The tree, and the references to the nodes that have not been freed. -/
structure Laid (p : KVMem) (t : BinTree Ptr) (pend : Ptr) : Prop where
  linked : Linked p.links 0 t p.pRoot
  balanced : t.Balanced
  sorted : t.toList.Pairwise fun x y => (p.rows x).aKey < (p.rows y).aKey
  fresh : 0 < p.pFresh
  inTree : ∀ x ∈ t.toList, x < p.pFresh ∧ x ∉ p.freed
  gone : ∀ x, x ∉ t.toList → (p.rows x).pData = none
  freed : p.freed.Nodup ∧ ∀ x ∈ p.freed, x < p.pFresh
  cursors : ∀ c ∈ p.cursors, c.pNode ≠ 0 → c.pNode < p.pFresh ∧ c.pNode ∉ p.freed
  few : p.cursors.length ≤ 32766
  count : ∀ x, x ≠ 0 → x < p.pFresh → x ∉ p.freed →
    (p.rows x).nRef = (if x ∈ t.toList then 1 else 0) + p.refs x + if x = pend then 1 else 0
  good : p.badFree = false

/-- Besides, every node that has not been freed is referred to. -/
structure Shaped (p : KVMem) (t : BinTree Ptr) (pend : Ptr) : Prop extends Laid p t pend where
  held : ∀ x, x ≠ 0 → x < p.pFresh → x ∉ p.freed → x ∈ t.toList ∨ 0 < p.refs x ∨ x = pend

/-- What the logs are about. -/
def view (p : KVMem) (t : BinTree Ptr) : Rows Ptr (Option Bytes × ℤ) := fun x =>
  if x ∈ t.toList then some ((p.rows x).pData, (p.rows x).mxTrans) else none

/-- The records refer to nodes of the tree. -/
def Recorded (p : KVMem) (t : BinTree Ptr) : Prop := ∀ c ∈ p.records, c.pNode ∈ t.toList

/-- Two stores with the same tree and logs. -/
structure Quiet (p p' : KVMem) : Prop where
  links : p'.links = p.links
  pRoot : p'.pRoot = p.pRoot
  apLog : p'.apLog = p.apLog
  iTransLevel : p'.iTransLevel = p.iTransLevel
  pFresh : p'.pFresh = p.pFresh
  pData : ∀ x, (p'.rows x).pData = (p.rows x).pData
  mxTrans : ∀ x, (p'.rows x).mxTrans = (p.rows x).mxTrans
  aKey : ∀ x, (p'.rows x).aKey = (p.rows x).aKey

variable {p p' p'' : KVMem} {t t' : BinTree Ptr} {x y pend : Ptr} {i : ℕ}

theorem Quiet.refl (p : KVMem) : Quiet p p :=
  ⟨rfl, rfl, rfl, rfl, rfl, fun _ => rfl, fun _ => rfl, fun _ => rfl⟩

theorem Quiet.trans (h : Quiet p p') (h' : Quiet p' p'') : Quiet p p'' :=
  ⟨h'.links.trans h.links, h'.pRoot.trans h.pRoot, h'.apLog.trans h.apLog,
    h'.iTransLevel.trans h.iTransLevel, h'.pFresh.trans h.pFresh,
    fun x => (h'.pData x).trans (h.pData x), fun x => (h'.mxTrans x).trans (h.mxTrans x),
    fun x => (h'.aKey x).trans (h.aKey x)⟩

theorem Quiet.view (h : Quiet p p') (t : BinTree Ptr) : view p' t = view p t := by
  funext x
  simp only [KvMem.view, h.pData, h.mxTrans]

theorem Quiet.records (h : Quiet p p') : p'.records = p.records := by
  simp only [KVMem.records, h.apLog, h.iTransLevel]

theorem Shaped.nodup (hs : Shaped p t pend) : t.toList.Nodup :=
  hs.sorted.imp fun hlt heq => by
    rw [heq] at hlt
    exact lt_irrefl _ hlt

theorem Shaped.nonzero (hs : Shaped p t pend) (hx : x ∈ t.toList) : x ≠ 0 := hs.linked.nonzero x hx

/-- The tree has fewer nodes than have been allocated. -/
theorem Shaped.length_lt (hs : Shaped p t pend) : t.toList.length < p.pFresh := by
  have hn : (0 :: t.toList).Nodup :=
    List.nodup_cons.mpr ⟨fun hm => hs.nonzero hm rfl, hs.nodup⟩
  have hsub : (0 :: t.toList) ⊆ List.range p.pFresh := by
    intro x hx
    rw [List.mem_range]
    rcases List.mem_cons.mp hx with rfl | hx
    · exact hs.fresh
    · exact (hs.inTree x hx).1
  have hle := (List.subperm_of_subset hn hsub).length_le
  rw [List.length_cons, List.length_range] at hle
  omega

theorem KVMem.refs_le (p : KVMem) (x : Ptr) : p.refs x ≤ p.cursors.length := List.countP_le_length

theorem KVMem.setRow_same (p : KVMem) (x : Ptr) (f : Row → Row) :
    (p.setRow x f).rows x = f (p.rows x) := Function.update_self ..

theorem KVMem.setRow_ne (p : KVMem) (f : Row → Row) (hne : y ≠ x) :
    (p.setRow x f).rows y = p.rows y := Function.update_of_ne hne ..

/-! ### References -/

theorem quiet_setRow (f : Row → Row) (hf : ∀ r, (f r).pData = r.pData ∧
    (f r).mxTrans = r.mxTrans ∧ (f r).aKey = r.aKey) : Quiet p (p.setRow x f) := by
  refine ⟨rfl, rfl, rfl, rfl, rfl, fun y => ?_, fun y => ?_, fun y => ?_⟩ <;>
  · by_cases hyx : y = x
    · rw [hyx, KVMem.setRow_same]
      simp [hf]
    · rw [KVMem.setRow_ne _ _ hyx]

/-- The shape does not depend on what the rows say beyond their keys and references. -/
theorem Shaped.of_eq (hs : Shaped p t pend) (hlinks : p'.links = p.links)
    (hroot : p'.pRoot = p.pRoot) (hfresh : p'.pFresh = p.pFresh) (hfreed : p'.freed = p.freed)
    (hcur : p'.cursors = p.cursors) (hbad : p'.badFree = p.badFree)
    (hkey : ∀ x, (p'.rows x).aKey = (p.rows x).aKey)
    (hgone : ∀ x, x ∉ t.toList → (p'.rows x).pData = none)
    (href : ∀ x, (p'.rows x).nRef = (p.rows x).nRef) : Shaped p' t pend := by
  refine ⟨⟨?_, hs.balanced, ?_, ?_, ?_, hgone, ?_, ?_, ?_, ?_, ?_⟩, ?_⟩
  · rw [hlinks, hroot]
    exact hs.linked
  · simp only [hkey]
    exact hs.sorted
  · rw [hfresh]
    exact hs.fresh
  · rw [hfresh, hfreed]
    exact hs.inTree
  · rw [hfresh, hfreed]
    exact hs.freed
  · rw [hcur, hfresh, hfreed]
    exact hs.cursors
  · rw [hcur]
    exact hs.few
  · simp only [hfresh, hfreed, href, KVMem.refs, hcur]
    exact hs.count
  · rw [hbad]
    exact hs.good
  · simp only [hfresh, hfreed, KVMem.refs, hcur]
    exact hs.held

/-- The pending reference is given back. -/
theorem unref_spec (hs : Shaped p t x) (hx : x ≠ 0 → x < p.pFresh ∧ x ∉ p.freed)
    (hrec : x ∉ t.toList → ∀ c ∈ p.records, c.pNode ≠ x) :
    Shaped (kvmemNodeUnref p x) t 0 ∧ Quiet p (kvmemNodeUnref p x) ∧
      (kvmemNodeUnref p x).cursors = p.cursors := by
  by_cases h0 : x = 0
  · rw [kvmemNodeUnref, if_pos h0]
    exact ⟨h0 ▸ hs, Quiet.refl p, rfl⟩
  obtain ⟨hlt, hfree⟩ := hx h0
  have hcount := hs.count x h0 hlt hfree
  have hrefs := p.refs_le x
  have hfew := hs.few
  obtain ⟨q, hq⟩ : ∃ q, (p.setRow x fun r => { r with nRef := toShort (r.nRef - 1) }) = q := ⟨_, rfl⟩
  have hquiet : Quiet p q := by
    rw [← hq]
    exact quiet_setRow _ fun r => ⟨rfl, rfl, rfl⟩
  have hqx : (q.rows x).nRef = (if x ∈ t.toList then 1 else 0) + p.refs x := by
    rw [← hq, KVMem.setRow_same]
    simp only [hcount, if_true]
    rw [toShort_eq] <;> split_ifs <;> omega
  have hqne : ∀ y, y ≠ x → q.rows y = p.rows y := by
    intro y hy
    rw [← hq, KVMem.setRow_ne _ _ hy]
  have hqf : q.freed = p.freed := by rw [← hq]; rfl
  have hqc : q.cursors = p.cursors := by rw [← hq]; rfl
  have hqb : q.badFree = p.badFree := by rw [← hq]; rfl
  have hsq : Laid q t 0 := by
    refine ⟨?_, hs.balanced, ?_, ?_, ?_, ?_, ?_, ?_, ?_, ?_, ?_⟩
    · rw [hquiet.links, hquiet.pRoot]
      exact hs.linked
    · simp only [hquiet.aKey]
      exact hs.sorted
    · rw [hquiet.pFresh]
      exact hs.fresh
    · rw [hquiet.pFresh, hqf]
      exact hs.inTree
    · simp only [hquiet.pData]
      exact hs.gone
    · rw [hquiet.pFresh, hqf]
      exact hs.freed
    · rw [hqc, hquiet.pFresh, hqf]
      exact hs.cursors
    · rw [hqc]
      exact hs.few
    · intro y hy0 hylt hyf
      rw [hquiet.pFresh] at hylt
      rw [hqf] at hyf
      have hrefsq : q.refs y = p.refs y := by rw [KVMem.refs, hqc]; rfl
      by_cases hyx : y = x
      · rw [hyx] at hrefsq ⊢
        rw [hqx, hrefsq, if_neg h0, add_zero]
      · rw [hqne y hyx, hs.count y hy0 hylt hyf, hrefsq, if_neg hyx, if_neg hy0]
    · rw [hqb]
      exact hs.good
  have hrefsq : ∀ y, q.refs y = p.refs y := fun y => by rw [KVMem.refs, hqc]; rfl
  have hheld : ∀ y, y ≠ 0 → y < q.pFresh → y ∉ q.freed →
      y ∈ t.toList ∨ 0 < q.refs y ∨ y = x := by
    intro y
    rw [hquiet.pFresh, hqf, hrefsq]
    exact hs.held y
  rw [kvmemNodeUnref, if_neg h0]
  simp only [hq]
  by_cases hle : (q.rows x).nRef ≤ 0
  · -- Nothing refers to the node any more.
    rw [if_pos hle]
    rw [hqx] at hle
    have hxt : x ∉ t.toList := by
      intro hm
      rw [if_pos hm] at hle
      omega
    rw [if_neg hxt] at hle
    have hcur : ∀ c ∈ q.cursors, c.pNode ≠ x := by
      intro c hc hcx
      have hpos : 0 < p.refs x := List.countP_pos_iff.mpr ⟨c, hqc ▸ hc, by simp [hcx]⟩
      omega
    have hnone : q.refersTo x = false := by
      rw [KVMem.refersTo, Bool.or_eq_false_iff, List.any_eq_false, List.any_eq_false,
        hquiet.records]
      exact ⟨fun c hc => by simp [hrec hxt c hc], fun c hc => by simp [hcur c hc]⟩
    refine ⟨⟨⟨hsq.linked, hsq.balanced, hsq.sorted, hsq.fresh, fun y hy =>
      ⟨(hsq.inTree y hy).1, ?_⟩, hsq.gone, ⟨?_, ?_⟩, fun c hc hc0 =>
      ⟨(hsq.cursors c hc hc0).1, ?_⟩, hsq.few, ?_, ?_⟩, ?_⟩, ?_, hqc⟩
    · rw [List.mem_cons, not_or]
      exact ⟨by rintro rfl; exact hxt hy, (hsq.inTree y hy).2⟩
    · exact List.nodup_cons.mpr ⟨by rw [hqf]; exact hfree, hsq.freed.1⟩
    · intro y hy
      rcases List.mem_cons.mp hy with rfl | hy
      · show y < q.pFresh
        rw [hquiet.pFresh]
        exact hlt
      · exact hsq.freed.2 y hy
    · rw [List.mem_cons, not_or]
      exact ⟨hcur c hc, (hsq.cursors c hc hc0).2⟩
    · intro y hy0 hylt hyf
      rw [List.mem_cons, not_or] at hyf
      exact hsq.count y hy0 hylt hyf.2
    · show (q.badFree || q.freed.contains x || q.refersTo x) = false
      rw [hsq.good, hnone, hqf]
      simpa using hfree
    · intro y hy0 hylt hyf
      rw [List.mem_cons, not_or] at hyf
      exact (hheld y hy0 hylt hyf.2).imp_right fun h => Or.inl (h.resolve_right hyf.1)
    · exact ⟨hquiet.links, hquiet.pRoot, hquiet.apLog, hquiet.iTransLevel, hquiet.pFresh,
        hquiet.pData, hquiet.mxTrans, hquiet.aKey⟩
  · rw [if_neg hle]
    refine ⟨⟨hsq, fun y hy0 hylt hyf => ?_⟩, hquiet, hqc⟩
    by_cases hyx : y = x
    · rw [hqx] at hle
      rw [hyx, hrefsq]
      split_ifs at hle with hm
      · exact Or.inl hm
      · exact Or.inr (Or.inl (by omega))
    · exact (hheld y hy0 hylt hyf).imp_right fun h => Or.inl (h.resolve_right hyx)

/-! ### Taking a node out -/

/-- Two stores with the same logs, cursors and keys. -/
structure SameLogs (p p' : KVMem) : Prop where
  apLog : p'.apLog = p.apLog
  iTransLevel : p'.iTransLevel = p.iTransLevel
  pFresh : p'.pFresh = p.pFresh
  cursors : p'.cursors = p.cursors
  aKey : ∀ x, (p'.rows x).aKey = (p.rows x).aKey

theorem SameLogs.refl (p : KVMem) : SameLogs p p := ⟨rfl, rfl, rfl, rfl, fun _ => rfl⟩

theorem SameLogs.trans (h : SameLogs p p') (h' : SameLogs p' p'') : SameLogs p p'' :=
  ⟨h'.apLog.trans h.apLog, h'.iTransLevel.trans h.iTransLevel, h'.pFresh.trans h.pFresh,
    h'.cursors.trans h.cursors, fun x => (h'.aKey x).trans (h.aKey x)⟩

theorem SameLogs.records (h : SameLogs p p') : p'.records = p.records := by
  simp only [KVMem.records, h.apLog, h.iTransLevel]

theorem view_of_mem (hx : x ∈ t.toList) : view p t x = some ((p.rows x).pData, (p.rows x).mxTrans) :=
  if_pos hx

theorem view_of_notMem (hx : x ∉ t.toList) : view p t x = none := if_neg hx

theorem mem_of_view (hx : (view p t x).isSome) : x ∈ t.toList := by
  by_contra hn
  rw [view_of_notMem hn] at hx
  simp at hx

/-- A node that no record is about is taken out of the tree. -/
theorem removeNode_spec (hs : Shaped p t 0) (hx : x ∈ t.toList)
    (hrec : ∀ c ∈ p.records, c.pNode ≠ x) :
    ∃ t', Shaped (kvmemRemoveNode p x) t' 0 ∧
      view (kvmemRemoveNode p x) t' = Function.update (view p t) x none ∧
        SameLogs p (kvmemRemoveNode p x) := by
  obtain ⟨t', hl, hbal, hlist, -⟩ := removeLinks_spec hs.linked hs.balanced hs.nodup hx
    hs.length_lt.le
  have hmem : ∀ y, y ∈ t'.toList ↔ y ≠ x ∧ y ∈ t.toList := by
    intro y
    rw [hlist, hs.nodup.mem_erase_iff]
  have hxt' : x ∉ t'.toList := fun hm => ((hmem x).mp hm).1 rfl
  obtain ⟨q, hq⟩ : ∃ q, ({ p.setRow x (fun r => { r with pData := none }) with
      links := (removeLinks p.pFresh p.links x).1
      pRoot := (removeLinks p.pFresh p.links x).2 } : KVMem) = q := ⟨_, rfl⟩
  have hdef : kvmemRemoveNode p x = kvmemNodeUnref q x := by
    rw [← hq]
    rfl
  have hqx : q.rows x = { p.rows x with pData := none } := by
    rw [← hq]
    exact p.setRow_same x fun r => { r with pData := none }
  have hqne : ∀ y, y ≠ x → q.rows y = p.rows y := by
    intro y hy
    rw [← hq]
    exact p.setRow_ne (fun r => { r with pData := none }) hy
  have hqkey : ∀ y, (q.rows y).aKey = (p.rows y).aKey := by
    intro y
    by_cases hy : y = x
    · rw [hy, hqx]
    · rw [hqne y hy]
  have hqlogs : SameLogs p q := by
    rw [← hq] at hqkey ⊢
    exact ⟨rfl, rfl, rfl, rfl, hqkey⟩
  have hqf : q.freed = p.freed := by rw [← hq]; rfl
  have hsq : Shaped q t' x := by
    refine ⟨⟨?_, hbal, ?_, ?_, ?_, ?_, ?_, ?_, ?_, ?_, ?_⟩, ?_⟩
    · rw [← hq]
      exact hl
    · simp only [hqkey, hlist]
      exact hs.sorted.sublist List.erase_sublist
    · rw [hqlogs.pFresh]
      exact hs.fresh
    · rw [hqlogs.pFresh, hqf]
      exact fun y hy => hs.inTree y ((hmem y).mp hy).2
    · intro y hy
      by_cases hyx : y = x
      · rw [hyx, hqx]
      · rw [hqne y hyx]
        exact hs.gone y fun hm => hy ((hmem y).mpr ⟨hyx, hm⟩)
    · rw [hqlogs.pFresh, hqf]
      exact hs.freed
    · rw [hqlogs.cursors, hqlogs.pFresh, hqf]
      exact hs.cursors
    · rw [hqlogs.cursors]
      exact hs.few
    · intro y hy0 hylt hyf
      rw [hqlogs.pFresh] at hylt
      rw [hqf] at hyf
      have hcount := hs.count y hy0 hylt hyf
      have hrefs : q.refs y = p.refs y := by rw [KVMem.refs, hqlogs.cursors]; rfl
      rw [if_neg hy0, add_zero] at hcount
      by_cases hyx : y = x
      · rw [hyx] at hcount hrefs ⊢
        rw [if_pos hx] at hcount
        rw [hqx, if_neg hxt', if_pos rfl, hrefs]
        simp only [hcount]
        omega
      · rw [hqne y hyx, hcount, hrefs, if_neg hyx, add_zero]
        simp only [hmem, hyx, ne_eq, not_false_eq_true, true_and]
    · rw [← hq]
      exact hs.good
    · intro y hy0 hylt hyf
      rw [hqlogs.pFresh] at hylt
      rw [hqf] at hyf
      have hrefs : q.refs y = p.refs y := by rw [KVMem.refs, hqlogs.cursors]; rfl
      rw [hrefs, hmem]
      by_cases hyx : y = x
      · exact Or.inr (Or.inr hyx)
      · exact (hs.held y hy0 hylt hyf).imp (fun h => ⟨hyx, h⟩) fun h =>
          Or.inl (h.resolve_right hy0)
  obtain ⟨hunref, hquiet, hcur⟩ := unref_spec hsq
    (fun _ => by rw [hqlogs.pFresh, hqf]; exact hs.inTree x hx)
    (fun _ => by rw [hqlogs.records]; exact hrec)
  rw [hdef]
  refine ⟨t', hunref, ?_, hqlogs.trans ⟨hquiet.apLog, hquiet.iTransLevel, hquiet.pFresh, hcur,
    hquiet.aKey⟩⟩
  rw [hquiet.view]
  funext y
  by_cases hyx : y = x
  · rw [hyx, Function.update_self, view_of_notMem hxt']
  · rw [Function.update_of_ne hyx]
    simp only [view, hmem, hyx, ne_eq, not_false_eq_true, true_and, hqne y hyx]

/-! ### Changing a row -/

/-- A row of the tree gets other content and another level. -/
theorem setRow_spec (hs : Shaped p t 0) (hx : x ∈ t.toList) (f : Row → Row)
    (hf : (f (p.rows x)).aKey = (p.rows x).aKey ∧ (f (p.rows x)).nRef = (p.rows x).nRef) :
    Shaped (p.setRow x f) t 0 ∧ view (p.setRow x f) t =
      Function.update (view p t) x (some ((f (p.rows x)).pData, (f (p.rows x)).mxTrans)) ∧
      SameLogs p (p.setRow x f) := by
  have hkey : ∀ y, ((p.setRow x f).rows y).aKey = (p.rows y).aKey := by
    intro y
    by_cases hyx : y = x
    · rw [hyx, KVMem.setRow_same, hf.1]
    · rw [KVMem.setRow_ne _ _ hyx]
  refine ⟨hs.of_eq rfl rfl rfl rfl rfl rfl hkey (fun y hy => ?_) fun y => ?_, ?_,
    ⟨rfl, rfl, rfl, rfl, hkey⟩⟩
  · rw [KVMem.setRow_ne _ _ (by rintro rfl; exact hy hx)]
    exact hs.gone y hy
  · by_cases hyx : y = x
    · rw [hyx, KVMem.setRow_same, hf.2]
    · rw [KVMem.setRow_ne _ _ hyx]
  · funext y
    by_cases hyx : y = x
    · rw [hyx, Function.update_self, view_of_mem hx, KVMem.setRow_same]
    · rw [Function.update_of_ne hyx, view, view, KVMem.setRow_ne _ _ hyx]

/-- The shape does not depend on the logs. -/
theorem Shaped.setLog (hs : Shaped p t pend) (i : ℕ) (l : List KVMemChng) :
    Shaped (p.setLog i l) t pend :=
  hs.of_eq rfl rfl rfl rfl rfl rfl (fun _ => rfl) hs.gone fun _ => rfl

theorem view_setLog (i : ℕ) (l : List KVMemChng) : view (p.setLog i l) t = view p t := rfl

end KvMem

end MoVeBench
