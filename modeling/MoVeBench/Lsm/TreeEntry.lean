/-
MoVeBench/Lsm/TreeEntry.lean

Entries of the in-memory tree, and the operations on it by key.

A `TreeKey` is followed by its key and its value in the shared memory.  Where they
end in the same chunk, the entry has the flag `LSM_CONTIGUOUS` and is read in place;
else it is read chunk by chunk.  An entry that has the flag and ends in another chunk
is read beyond the end of its chunk: `beyond` stands for what is found there.  Where
the next allocation goes (`iWrite`, as an offset in its chunk) is an input of each
insertion; the nodes allocated in between are not part of the model.
-/
import MoVeBench.Lsm.TreeEdit
import MoVeBench.Lsm.Run
import MoVeBench.Lib.SortedMap

namespace MoVeBench

namespace Lsm

open TreeNode

abbrev Byte := Fin 256

abbrev Bytes := List Byte

/-! ### Keys -/

/-- `memcmp` of the first `n` bytes. -/
def memcmpBytes : Bytes → Bytes → ℕ → ℤ
  | u :: a, v :: b, n + 1 => if u = v then memcmpBytes a b n else if u < v then -1 else 1
  | _, _, _ => 0

def treeKeycmp (p1 p2 : Bytes) : ℤ :=
  let res := memcmpBytes p1 p2 (min p1.length p2.length)
  if res = 0 then (p1.length : ℤ) - p2.length else res

theorem treeKeycmp_cons (u v : Byte) (a b : Bytes) : treeKeycmp (u :: a) (v :: b) =
    if u = v then treeKeycmp a b else if u < v then -1 else 1 := by
  have hmin : min (u :: a).length (v :: b).length = min a.length b.length + 1 :=
    Nat.succ_min_succ _ _
  simp only [treeKeycmp, hmin, memcmpBytes]
  by_cases huv : u = v
  · rw [if_pos huv, if_pos huv, List.length_cons, List.length_cons]
    congr 1
    omega
  · rw [if_neg huv, if_neg huv]
    by_cases hlt : u < v
    · rw [if_pos hlt]
      rfl
    · rw [if_neg hlt]
      rfl

theorem treeKeycmp_nil (v : Byte) (b : Bytes) :
    treeKeycmp [] (v :: b) < 0 ∧ 0 < treeKeycmp (v :: b) [] := by
  refine ⟨?_, ?_⟩
  · show ((0 : ℕ) : ℤ) - ((b.length + 1 : ℕ) : ℤ) < 0
    omega
  · show 0 < ((b.length + 1 : ℕ) : ℤ) - ((0 : ℕ) : ℤ)
    omega

theorem treeKeycmp_self (a : Bytes) : treeKeycmp a a = 0 := by
  induction a with
  | nil => rfl
  | cons u a ih => rw [treeKeycmp_cons, if_pos rfl, ih]

theorem treeKeycmp_lt {a b : Bytes} (h : a < b) : treeKeycmp a b < 0 ∧ 0 < treeKeycmp b a := by
  have h' : List.Lex (· < ·) a b := h
  clear h
  induction h' with
  | nil => exact treeKeycmp_nil _ _
  | cons _ ih =>
      rw [treeKeycmp_cons, treeKeycmp_cons, if_pos rfl, if_pos rfl]
      exact ih
  | rel hlt =>
      rw [treeKeycmp_cons, treeKeycmp_cons, if_neg hlt.ne, if_neg hlt.ne', if_pos hlt,
        if_neg hlt.asymm]
      exact ⟨by omega, by omega⟩

/-- The order of the keys is the one of `treeKeycmp`. -/
theorem treeKeycmp_compare (a b : Bytes) :
    (LinearOrder.toOrd : Ord Bytes).compare a b = compare (treeKeycmp a b) 0 := by
  rcases lt_trichotomy a b with hlt | rfl | hgt
  · exact (compare_lt_iff_lt.mpr hlt).trans (compare_lt_iff_lt.mpr (treeKeycmp_lt hlt).1).symm
  · exact (compare_eq_iff_eq.mpr rfl).trans
      (compare_eq_iff_eq.mpr (treeKeycmp_self a)).symm
  · exact (compare_gt_iff_gt.mpr hgt).trans (compare_gt_iff_gt.mpr (treeKeycmp_lt hgt).2).symm

/-! ### Entries -/

/-- `LSM_SHM_CHUNK_SIZE`. -/
def LSM_SHM_CHUNK_SIZE : ℕ := 2 ^ 18

/-- `sizeof(ShmChunk)`. -/
def LSM_SHM_CHUNK_HDR : ℕ := 8

/-- `sizeof(TreeKey)`. -/
def sizeofTreeKey : ℕ := 12

/-- `TreeKey` with its key and value. -/
structure TreeKey where
  pKey : Bytes
  /-- `LSM_INSERT` with the value, `LSM_POINT_DELETE`, or neither. -/
  data : Data Bytes
  /-- `LSM_START_DELETE`. -/
  startDelete : Bool
  /-- `LSM_END_DELETE`. -/
  endDelete : Bool
  /-- `LSM_CONTIGUOUS`. -/
  contiguous : Bool
  /-- The bytes between the `TreeKey` structure and the end of its chunk. -/
  nAvail : ℕ

/-- The value. -/
def Data.bytes : Data Bytes → Bytes
  | .insert v => v
  | _ => []

/-- The same flags with another value. -/
def Data.withBytes (d : Data Bytes) (v : Bytes) : Data Bytes :=
  match d with
  | .insert _ => .insert v
  | d => d

/-- `treeShmalloc` with `bAlign`, as offsets in a chunk: a new chunk is begun where the
rest of this one is too small. -/
def treeShmalloc (iWrite nByte : ℕ) : ℕ :=
  let iWrite := (iWrite + 3) / 4 * 4
  if LSM_SHM_CHUNK_SIZE < iWrite + nByte then LSM_SHM_CHUNK_HDR else iWrite

/-- `newTreeKey`; `flags` are or-ed into the flags of the entry, `bContiguous` is the
bit `LSM_CONTIGUOUS` of them. -/
def newTreeKey (iWrite : ℕ) (pKey : Bytes) (data : Data Bytes)
    (startDelete endDelete bContiguous : Bool) : TreeKey :=
  let iPtr := treeShmalloc iWrite sizeofTreeKey
  let iEnd := iPtr + sizeofTreeKey + pKey.length + data.bytes.length
  { pKey, data, startDelete, endDelete
    contiguous := bContiguous || iEnd < LSM_SHM_CHUNK_SIZE
    nAvail := LSM_SHM_CHUNK_SIZE - (iPtr + sizeofTreeKey) }

namespace TreeKey

/-- The bytes in place, up to the end of the chunk and beyond it. -/
def bytesInPlace (beyond : ℕ → Byte) (e : TreeKey) : Bytes :=
  let a := e.pKey ++ e.data.bytes
  a.take e.nAvail ++ (List.range (a.length - e.nAvail)).map beyond

/-- What `csrGetKey` reads. -/
def read (beyond : ℕ → Byte) (e : TreeKey) : TreeKey :=
  if e.contiguous then
    { e with
      pKey := (e.bytesInPlace beyond).take e.pKey.length
      data := e.data.withBytes ((e.bytesInPlace beyond).drop e.pKey.length) }
  else e

/-- The key as it is compared. -/
def readKey (beyond : ℕ → Byte) (e : TreeKey) : Bytes := (e.read beyond).pKey

/-- The flag `LSM_CONTIGUOUS` is right. -/
def Sound (e : TreeKey) : Prop :=
  e.contiguous = true → e.pKey.length + e.data.bytes.length ≤ e.nAvail

instance (e : TreeKey) : Decidable e.Sound := by unfold Sound; infer_instance

theorem Sound.read {e : TreeKey} (he : e.Sound) (beyond : ℕ → Byte) : e.read beyond = e := by
  unfold TreeKey.read
  split_ifs with hc
  · have hlen := he hc
    have hplace : e.bytesInPlace beyond = e.pKey ++ e.data.bytes := by
      have hle : (e.pKey ++ e.data.bytes).length ≤ e.nAvail := by
        rw [List.length_append]
        exact hlen
      simp only [bytesInPlace]
      rw [List.take_of_length_le hle, Nat.sub_eq_zero_of_le hle]
      exact List.append_nil _
    rw [hplace, List.take_left, List.drop_left]
    obtain ⟨pKey, data, s, en, c, n⟩ := e
    cases data with
    | none => rfl
    | pointDelete => rfl
    | insert v => rfl
  · rfl

/-- The flags of another entry do not spoil a new one that is in one chunk. -/
theorem newTreeKey_sound_or {iWrite : ℕ} {pKey : Bytes} {data : Data Bytes} {s en b : Bool}
    (h : b = true → pKey.length + data.bytes.length ≤
      LSM_SHM_CHUNK_SIZE - (treeShmalloc iWrite sizeofTreeKey + sizeofTreeKey)) :
    (newTreeKey iWrite pKey data s en b).Sound := by
  intro hc
  rcases Bool.or_eq_true_iff.mp hc with hb | hfits
  · exact h hb
  · have : treeShmalloc iWrite sizeofTreeKey + sizeofTreeKey + pKey.length + data.bytes.length <
        LSM_SHM_CHUNK_SIZE := of_decide_eq_true hfits
    show pKey.length + data.bytes.length ≤
      LSM_SHM_CHUNK_SIZE - (treeShmalloc iWrite sizeofTreeKey + sizeofTreeKey)
    omega

theorem newTreeKey_sound (iWrite : ℕ) (pKey : Bytes) (data : Data Bytes) (s en : Bool) :
    (newTreeKey iWrite pKey data s en false).Sound := newTreeKey_sound_or nofun

end TreeKey

/-! ### The operations -/

/-- The flags that `treeInsertEntry` is called with, and the value. -/
inductive EntryFlag
  | insert (pVal : Bytes)
  | pointDelete
  | startDelete
  | endDelete

namespace EntryFlag

def data : EntryFlag → Data Bytes
  | insert pVal => .insert pVal
  | pointDelete => .pointDelete
  | _ => .none

def isStart : EntryFlag → Bool
  | startDelete => true
  | _ => false

def isEnd : EntryFlag → Bool
  | endDelete => true
  | _ => false

/-- The flags of `lsmTreeInsert`; no value stands for a negative `nVal`. -/
def ofValue : Option Bytes → EntryFlag
  | none => pointDelete
  | some pVal => insert pVal

/-- `flags & (LSM_END_DELETE|LSM_START_DELETE)`. -/
def isBoundary (f : EntryFlag) : Bool := f.isStart || f.isEnd

end EntryFlag

/-- The tree of a connection. -/
abbrev Tree := TreeRoot TreeKey

/-- `treePrevIsStartDelete`. -/
def treePrevIsStartDelete (pCsr : Path TreeKey) : Bool :=
  (prevKey pCsr).any TreeKey.startDelete

/-- `treeNextIsEndDelete`. -/
def treeNextIsEndDelete : Path TreeKey → Bool
  | [] => false
  | (p, i) :: path => (nextKey ((p, i + 1) :: path)).any TreeKey.endDelete

/-- Whether a boundary need not be inserted: the range is already deleted there. -/
def boundaryExists (f : EntryFlag) (pCsr : Path TreeKey) (pRes : TreeKey) (res : Ordering) :
    Bool :=
  match f with
  | .startDelete =>
      (res ≠ .gt && pRes.startDelete) || (res = .gt && treePrevIsStartDelete pCsr)
  | .endDelete => (res = .lt && treeNextIsEndDelete pCsr) || (res ≠ .lt && pRes.endDelete)
  | _ => false

/-- The new entry of `treeInsertEntry`, where the search ended at `pRes`. -/
def entryAt (iWrite : ℕ) (f : EntryFlag) (pKey : Bytes) (pRes : TreeKey) (res : Ordering) :
    TreeKey :=
  if f.isBoundary then
    if res = .eq then
      -- `flags | pRes->flags`, `LSM_CONTIGUOUS` included
      newTreeKey iWrite pKey pRes.data (f.isStart || pRes.startDelete)
        (f.isEnd || pRes.endDelete) pRes.contiguous
    else newTreeKey iWrite pKey .none f.isStart f.isEnd false
  else
    let b := (res = .lt && pRes.startDelete) || (res = .gt && pRes.endDelete)
    newTreeKey iWrite pKey f.data (b || (res = .eq && pRes.startDelete))
      (b || (res = .eq && pRes.endDelete)) false

def treeInsertEntry (beyond : ℕ → Byte) (iWrite : ℕ) (f : EntryFlag) (pKey : Bytes) (t : Tree) :
    Tree :=
  if t.iRoot.isNull then
    let e := newTreeKey iWrite pKey f.data f.isStart f.isEnd false
    ⟨new none (some e) none null null null null, 1⟩
  else
    let s := lsmTreeCursorSeek (TreeKey.readKey beyond) pKey t
    match s.1 with
    | [] => t
    | (p, iCell) :: path =>
        match p.key iCell with
        | none => t
        | some e =>
            let pRes := e.read beyond
            -- the range is deleted there already
            if boundaryExists f ((p, iCell) :: path) pRes s.2 then t
            else
              let iTreeKey := entryAt iWrite f pKey pRes s.2
              if s.2 = .eq then ⟨treeOverwriteKey iTreeKey ((p, iCell) :: path), t.nHeight⟩
              else treeInsertAt t.nHeight iTreeKey ((p, iCell) :: path) (iSlot (iCell, s.2))

def lsmTreeInsert (beyond : ℕ → Byte) (iWrite : ℕ) (pKey : Bytes) (pVal : Option Bytes) (t : Tree) :
    Tree := treeInsertEntry beyond iWrite (.ofValue pVal) pKey t

/-- The first cursor position after `pKey1`, of `lsmTreeDelete`. -/
def seekAfter (beyond : ℕ → Byte) (pKey1 : Bytes) (t : Tree) : Path TreeKey :=
  let s := lsmTreeCursorSeek (TreeKey.readKey beyond) pKey1 t
  if s.2 ≠ .gt then lsmTreeCursorNext t.nHeight s.1 else s.1

/-- Step 1 of `lsmTreeDelete`: the entries in the range are deleted one by one. -/
def treeDeleteRange (beyond : ℕ → Byte) (pKey1 pKey2 : Bytes) : ℕ → Tree → Tree
  | 0, t => t
  | n + 1, t =>
      match csrKeyPtr (seekAfter beyond pKey1 t) with
      | none => t
      | some e =>
          if e.readKey beyond < pKey2 then
            treeDeleteRange beyond pKey1 pKey2 n (treeDeleteCurrent (TreeKey.readKey beyond)
              TreeKey.pKey t (seekAfter beyond pKey1 t))
          else t

/-- `lsmTreeDelete`.  Each turn of its loop removes an entry. -/
def lsmTreeDelete (beyond : ℕ → Byte) (iWrite1 iWrite2 : ℕ) (pKey1 pKey2 : Bytes) (t : Tree) :
    Tree :=
  treeInsertEntry beyond iWrite2 .endDelete pKey2
    (treeInsertEntry beyond iWrite1 .startDelete pKey1
      (treeDeleteRange beyond pKey1 pKey2 t.iRoot.toList.length t))

/-! ### What the operations do to a map -/

/-- What the tree holds for a key. -/
structure Mark where
  data : Data Bytes
  startDelete : Bool
  endDelete : Bool

/-- The entries of a tree as a map. -/
abbrev TreeMap := SortedMap Bytes Mark

namespace TreeMap

/-- The entry before a key. -/
def pred (m : TreeMap) (k : Bytes) : Option Mark := (m.seekLT k).map Prod.snd

/-- The entry after a key. -/
def succ (m : TreeMap) (k : Bytes) : Option Mark := (m.seekGT k).map Prod.snd

/-- The entry that an insertion makes, if any.  A boundary is not needed where the
range next to it is deleted already; a key inserted into a deleted range is at once the
end and the start of one.  Either neighbour tells that (`side`). -/
def markFor (side : Bool) (f : EntryFlag) (k : Bytes) (m : TreeMap) : Option Mark :=
  match f, m.get? k with
  | .startDelete, some r =>
      if r.startDelete then none else some { r with startDelete := true }
  | .startDelete, none =>
      if (m.pred k).any Mark.startDelete then none else some ⟨.none, true, false⟩
  | .endDelete, some r => if r.endDelete then none else some { r with endDelete := true }
  | .endDelete, none =>
      if (m.succ k).any Mark.endDelete then none else some ⟨.none, false, true⟩
  | f, some r => some ⟨f.data, r.startDelete, r.endDelete⟩
  | f, none =>
      let b := if side then (m.pred k).any Mark.startDelete else (m.succ k).any Mark.endDelete
      some ⟨f.data, b, b⟩

def insertMark (side : Bool) (f : EntryFlag) (k : Bytes) (m : TreeMap) : TreeMap :=
  match markFor side f k m with
  | none => m
  | some r => m.insert k r

/-- The keys of a range go, and its ends are marked. -/
def deleteRange (k1 k2 : Bytes) (m : TreeMap) : TreeMap :=
  insertMark true .endDelete k2 (insertMark true .startDelete k1
    (m.restrict fun k => !(k1 < k && k < k2)))

end TreeMap

/-! ### One insertion -/

/-- What an entry says. -/
def TreeKey.entry (e : TreeKey) : Bytes × Mark := (e.pKey, ⟨e.data, e.startDelete, e.endDelete⟩)

/-- The entries of a tree, as a cursor reads them in order. -/
def TreeNode.TreeRoot.entries (beyond : ℕ → Byte) (t : Tree) : List (Bytes × Mark) :=
  t.iRoot.toList.map fun e => (e.read beyond).entry

/-- The tree is balanced, its keys increase, and its entries can be read. -/
structure TreeInv (t : Tree) : Prop where
  balanced : Balanced t.nHeight t.iRoot
  increasing : Increasing TreeKey.pKey t.iRoot.toList
  sound : ∀ e ∈ t.iRoot.toList, e.Sound

/-- The copy of an entry that is written at `iWrite` fits into its chunk, if the entry
did. -/
def TreeKey.CopyFits (iWrite : ℕ) (e : TreeKey) : Prop :=
  e.contiguous = true → e.pKey.length + e.data.bytes.length ≤
    LSM_SHM_CHUNK_SIZE - (treeShmalloc iWrite sizeofTreeKey + sizeofTreeKey)

/-- If the key is in the tree and gets a mark, its copy fits. -/
def BoundaryOk (iWrite : ℕ) (f : EntryFlag) (k : Bytes) (t : Tree) : Prop :=
  ∀ e ∈ t.iRoot.toList, e.pKey = k →
    (f.isStart = true ∧ e.startDelete = false ∨ f.isEnd = true ∧ e.endDelete = false) →
    e.CopyFits iWrite

section Insertion

variable {t : Tree} {beyond : ℕ → Byte} {iWrite : ℕ} {f : EntryFlag} {k : Bytes} {m : TreeMap}
  {l r : List TreeKey} {e : TreeKey}

theorem TreeInv.readKey (hinv : TreeInv t) (beyond : ℕ → Byte) :
    ∀ e ∈ t.iRoot.toList, e.readKey beyond = e.pKey := fun e he => by
  rw [TreeKey.readKey, (hinv.sound e he).read]

theorem TreeInv.readKey_increasing (hinv : TreeInv t) (beyond : ℕ → Byte) :
    Increasing (TreeKey.readKey beyond) t.iRoot.toList :=
  hinv.increasing.imp_of_mem fun ha hb hab => by
    rw [hinv.readKey beyond _ ha, hinv.readKey beyond _ hb]
    exact hab

theorem TreeInv.entries (hinv : TreeInv t) (beyond : ℕ → Byte) :
    t.entries beyond = t.iRoot.toList.map TreeKey.entry :=
  List.map_congr_left fun e he => by rw [(hinv.sound e he).read]

theorem TreeNode.Increasing.unique {κ E : Type} [LinearOrder κ] {keyOf : E → κ} {l : List E}
    (h : Increasing keyOf l) {a b : E} (ha : a ∈ l) (hb : b ∈ l) (hab : keyOf a = keyOf b) :
    a = b :=
  List.inj_on_of_nodup_map ((List.pairwise_map.mpr h).imp fun h => h.ne) ha hb hab

/-- Around a key that is not in the map. -/
theorem TreeMap.around (hm : m.entries = (l ++ r).map TreeKey.entry) (hl : ∀ e ∈ l, e.pKey < k)
    (hr : ∀ e ∈ r, k < e.pKey) : m.get? k = none ∧
      m.pred k = l.getLast?.map (fun e => e.entry.2) ∧ m.succ k = r.head?.map (fun e => e.entry.2) ∧
      ∀ v, (m.insert k v).entries = l.map TreeKey.entry ++ (k, v) :: r.map TreeKey.entry := by
  have hl' : ∀ x ∈ l.map TreeKey.entry, x.1 < k := fun x hx => by
    obtain ⟨e, he, rfl⟩ := List.mem_map.mp hx
    exact hl e he
  have hr' : ∀ x ∈ r.map TreeKey.entry, k < x.1 := fun x hx => by
    obtain ⟨e, he, rfl⟩ := List.mem_map.mp hx
    exact hr e he
  rw [List.map_append] at hm
  obtain ⟨hget, hlt, hgt, hins⟩ := SortedMap.around hm hl' hr'
  refine ⟨hget, ?_, ?_, hins⟩
  · rw [pred, hlt, List.getLast?_map, Option.map_map]
    rfl
  · rw [succ, hgt, List.head?_map, Option.map_map]
    rfl

/-- At a key of the map. -/
theorem TreeMap.at_key (hm : m.entries = (l ++ e :: r).map TreeKey.entry) :
    m.get? e.pKey = some e.entry.2 ∧
      ∀ v, (m.insert e.pKey v).entries = l.map TreeKey.entry ++ (e.pKey, v) :: r.map TreeKey.entry := by
  rw [List.map_append, List.map_cons] at hm
  exact SortedMap.at_key hm

/-- An entry between smaller and greater ones. -/
theorem TreeInv.of_insert {n : TreeKey} (hbal : Balanced t.nHeight t.iRoot)
    (hlist : t.iRoot.toList = l ++ n :: r) (hl : ∀ e ∈ l, e.pKey < n.pKey)
    (hr : ∀ e ∈ r, n.pKey < e.pKey) (hinc : Increasing TreeKey.pKey (l ++ r))
    (hsound : ∀ e ∈ l ++ r, e.Sound) (hn : n.Sound) : TreeInv t := by
  obtain ⟨hincl, hincr, hcross⟩ := List.pairwise_append.mp hinc
  refine ⟨hbal, ?_, ?_⟩
  · rw [hlist]
    refine List.pairwise_append.mpr ⟨hincl, List.pairwise_cons.mpr ⟨hr, hincr⟩, fun a ha b hb => ?_⟩
    rcases List.mem_cons.mp hb with rfl | hb
    · exact hl a ha
    · exact hcross a ha b hb
  · rw [hlist]
    intro e he
    rcases List.mem_append.mp he with he | he
    · exact hsound e (List.mem_append_left _ he)
    · rcases List.mem_cons.mp he with rfl | he
      · exact hn
      · exact hsound e (List.mem_append_right _ he)

/-- What a new boundary says, where its key is not in the map. -/
theorem TreeMap.markFor_none (f : EntryFlag) (side : Bool) (h : m.get? k = none) :
    m.markFor side f k =
    if (f.isStart && (m.pred k).any Mark.startDelete) || (f.isEnd && (m.succ k).any Mark.endDelete)
    then none
    else
      let b := !f.isBoundary &&
        if side then (m.pred k).any Mark.startDelete else (m.succ k).any Mark.endDelete
      some ⟨f.data, f.isStart || b, f.isEnd || b⟩ := by
  cases f with
  | insert v => simp [markFor, h, EntryFlag.isStart, EntryFlag.isEnd, EntryFlag.isBoundary]
  | pointDelete => simp [markFor, h, EntryFlag.isStart, EntryFlag.isEnd, EntryFlag.isBoundary]
  | startDelete =>
      simp [markFor, h, EntryFlag.isStart, EntryFlag.isEnd, EntryFlag.isBoundary, EntryFlag.data]
  | endDelete =>
      simp [markFor, h, EntryFlag.isStart, EntryFlag.isEnd, EntryFlag.isBoundary, EntryFlag.data]

theorem TreeMap.markFor_some (f : EntryFlag) (side : Bool) {v : Mark} (h : m.get? k = some v) :
    m.markFor side f k =
      if (f.isStart && v.startDelete) || (f.isEnd && v.endDelete) then none
      else some ⟨if f.isBoundary then v.data else f.data, f.isStart || v.startDelete,
        f.isEnd || v.endDelete⟩ := by
  cases f with
  | insert w => simp [markFor, h, EntryFlag.isStart, EntryFlag.isEnd, EntryFlag.isBoundary]
  | pointDelete => simp [markFor, h, EntryFlag.isStart, EntryFlag.isEnd, EntryFlag.isBoundary]
  | startDelete => simp [markFor, h, EntryFlag.isStart, EntryFlag.isEnd, EntryFlag.isBoundary]
  | endDelete => simp [markFor, h, EntryFlag.isStart, EntryFlag.isEnd, EntryFlag.isBoundary]

/-- What an insertion does to a tree that holds the map `m`. -/
structure Inserted (beyond : ℕ → Byte) (f : EntryFlag) (k : Bytes) (m : TreeMap) (t t' : Tree) :
    Prop where
  inv : TreeInv t'
  entries : ∃ side, t'.entries beyond = (m.insertMark side f k).entries
  mem : ∀ e ∈ t'.iRoot.toList, e ∈ t.iRoot.toList ∨ e.pKey = k
  keeps : ∀ e ∈ t.iRoot.toList, e.pKey ≠ k → e ∈ t'.iRoot.toList

/-- A boundary that is there already. -/
theorem Inserted.refl (hinv : TreeInv t) (hm : t.entries beyond = m.entries)
    (hskip : m.markFor true f k = none) : Inserted beyond f k m t t := by
  refine ⟨hinv, ⟨true, ?_⟩, fun e he => .inl he, fun e he _ => he⟩
  rw [hm, TreeMap.insertMark, hskip]

/-- The entries at the key, if any, make way for one. -/
theorem Inserted.of_list {t' : Tree} (old : List TreeKey) {n : TreeKey}
    (hold : t.iRoot.toList = l ++ old ++ r) (hnew : t'.iRoot.toList = l ++ n :: r)
    (hkey : n.pKey = k) (hsame : ∀ x ∈ old, x.pKey = k) (hinv : TreeInv t')
    (hentries : ∃ side, t'.entries beyond = (m.insertMark side f k).entries) :
    Inserted beyond f k m t t' := by
  refine ⟨hinv, hentries, fun x hx => ?_, fun x hx hne => ?_⟩
  · rw [hnew] at hx
    rw [hold]
    rcases List.mem_append.mp hx with hx | hx
    · exact .inl (List.mem_append_left _ (List.mem_append_left _ hx))
    · rcases List.mem_cons.mp hx with rfl | hx
      · exact .inr hkey
      · exact .inl (List.mem_append_right _ hx)
  · rw [hold] at hx
    rw [hnew]
    rcases List.mem_append.mp hx with hx | hx
    · rcases List.mem_append.mp hx with hx | hx
      · exact List.mem_append_left _ hx
      · exact absurd (hsame x hx) hne
    · exact List.mem_append_right _ (List.mem_cons_of_mem _ hx)

/-- The tree is empty. -/
theorem inserted_empty (hnull : t.iRoot = null) (hm : t.entries beyond = m.entries) :
    Inserted beyond f k m t (treeInsertEntry beyond iWrite f k t) := by
  have heq : treeInsertEntry beyond iWrite f k t =
      ⟨new none (some (newTreeKey iWrite k f.data f.isStart f.isEnd false)) none null null null
        null, 1⟩ := by
    rw [treeInsertEntry, hnull]
    rfl
  have hnil : m.entries = ([] ++ [] : List TreeKey).map TreeKey.entry := by
    rw [← hm]
    show t.iRoot.toList.map _ = _
    rw [hnull]
    rfl
  have hinv : TreeInv (treeInsertEntry beyond iWrite f k t) := by
    rw [heq]
    refine TreeInv.of_insert (l := []) (r := []) (balanced_new rfl rfl rfl rfl rfl) rfl nofun nofun
      List.Pairwise.nil nofun (TreeKey.newTreeKey_sound _ _ _ _ _)
  obtain ⟨hget, hpred, hsucc, hins⟩ := TreeMap.around (k := k) hnil nofun nofun
  refine ⟨hinv, ⟨true, ?_⟩, fun e he => ?_, fun e he => by rw [hnull] at he; cases he⟩
  · rw [hinv.entries, heq, TreeMap.insertMark, TreeMap.markFor_none f true hget, hpred, hsucc]
    simp only [List.getLast?_nil, List.head?_nil, Option.map_none, Option.any_none, Bool.and_false,
      Bool.or_self, Bool.false_eq_true, if_false, if_true, Bool.or_false, hins]
    rfl
  · rw [heq] at he
    exact .inr (by rw [List.mem_singleton.mp he]; rfl)

/-- The new entry, at the key of `e`. -/
theorem entryAt_eq_entry (iWrite : ℕ) (f : EntryFlag) (e : TreeKey) :
    (entryAt iWrite f e.pKey e .eq).entry = (e.pKey,
      ⟨if f.isBoundary then e.data else f.data, f.isStart || e.startDelete,
        f.isEnd || e.endDelete⟩) := by
  cases f <;> rfl

theorem entryAt_eq_sound (hok : BoundaryOk iWrite f e.pKey t) (hmem : e ∈ t.iRoot.toList)
    (hskip : ¬((f.isStart && e.startDelete) || (f.isEnd && e.endDelete)) = true) :
    (entryAt iWrite f e.pKey e .eq).Sound := by
  cases f with
  | insert v => exact TreeKey.newTreeKey_sound _ _ _ _ _
  | pointDelete => exact TreeKey.newTreeKey_sound _ _ _ _ _
  | startDelete =>
      refine TreeKey.newTreeKey_sound_or fun hc => hok e hmem rfl (.inl ⟨rfl, ?_⟩) hc
      simpa [EntryFlag.isStart, EntryFlag.isEnd] using hskip
  | endDelete =>
      refine TreeKey.newTreeKey_sound_or fun hc => hok e hmem rfl (.inr ⟨rfl, ?_⟩) hc
      simpa [EntryFlag.isStart, EntryFlag.isEnd] using hskip

/-- The key is in the tree. -/
theorem inserted_found {pCsr : Path TreeKey} (hinv : TreeInv t)
    (hm : t.entries beyond = m.entries) (hok : BoundaryOk iWrite f e.pKey t)
    (hc : CursorAt t.iRoot t.nHeight l e r pCsr) :
    Inserted beyond f e.pKey m t (if boundaryExists f pCsr e .eq then t
      else ⟨treeOverwriteKey (entryAt iWrite f e.pKey e .eq) pCsr, t.nHeight⟩) := by
  have hlist := hc.toList
  have hm' := hm
  rw [hinv.entries, hlist] at hm'
  obtain ⟨hget, hins⟩ := TreeMap.at_key hm'.symm
  have hmark := fun side => TreeMap.markFor_some f side hget
  have hex : boundaryExists f pCsr e .eq =
      ((f.isStart && e.startDelete) || (f.isEnd && e.endDelete)) := by
    cases f <;> simp [boundaryExists, EntryFlag.isStart, EntryFlag.isEnd]
  rw [hex]
  split_ifs with hskip
  · exact .refl hinv hm ((hmark true).trans (if_pos hskip))
  · -- the entry is overwritten, with the marks of the old one
    obtain ⟨hnew, hbal, -⟩ := treeOverwriteKey_spec (entryAt iWrite f e.pKey e .eq)
      hinv.balanced hc
    have hentry := entryAt_eq_entry iWrite f e
    have hpKey : (entryAt iWrite f e.pKey e .eq).pKey = e.pKey := congrArg Prod.fst hentry
    have hmem : e ∈ t.iRoot.toList := by rw [hlist]; simp
    have hsub : (l ++ r).Sublist t.iRoot.toList := by
      rw [hlist]
      exact (List.sublist_cons_self e r).append_left l
    have hincr := hinv.increasing
    rw [hlist] at hincr
    obtain ⟨-, hincr', hcross⟩ := List.pairwise_append.mp hincr
    have hinv' : TreeInv ⟨treeOverwriteKey (entryAt iWrite f e.pKey e .eq) pCsr, t.nHeight⟩ := by
      refine TreeInv.of_insert hbal hnew ?_ ?_ (List.Pairwise.sublist hsub hinv.increasing)
        (fun x hx => hinv.sound x (hsub.subset hx)) (entryAt_eq_sound hok hmem hskip)
      · rw [hpKey]
        exact fun x hx => hcross x hx e List.mem_cons_self
      · rw [hpKey]
        exact (List.pairwise_cons.mp hincr').1
    refine .of_list [e] (by rw [hlist]; simp) hnew hpKey (by simp) hinv' ⟨true, ?_⟩
    have hsome := (hmark true).trans (if_neg hskip)
    rw [hinv'.entries, hnew, TreeMap.insertMark, hsome]
    show _ = (m.insert e.pKey _).entries
    rw [hins, List.map_append, List.map_cons, hentry]
    rfl

/-- The neighbours of the place of a new key, as the cursor at `e` sees them. -/
theorem boundaryExists_slot {p : TreeNode TreeKey} {i H : ℕ} {path : Path TreeKey} {res : Ordering}
    {root : TreeNode TreeKey} {keyOf : TreeKey → Bytes} (hroot : Balanced H root)
    (hs : LeafSlot keyOf k root H p i path res) (he : p.key i = some e) :
    boundaryExists f ((p, i) :: path) e res =
      ((f.isStart && (before path ++ p.leftOf (iSlot (i, res))).getLast?.any TreeKey.startDelete) ||
        (f.isEnd && (p.rightOf (iSlot (i, res)) ++ after path).head?.any TreeKey.endDelete)) := by
  have hp := hs.chain.balanced hroot
  have hholes : Holes 0 ((p, iSlot (i, res)) :: path) H :=
    ⟨hp.hole hs.test.slot_lt (hs.test.used hs.ne), hs.chain.holes hroot⟩
  have hlast : (before path ++ p.leftOf (iSlot (i, res))).getLast? =
      prevKey ((p, iSlot (i, res)) :: path) := getLast?_before hholes
  have hhead : (p.rightOf (iSlot (i, res)) ++ after path).head? =
      nextKey ((p, iSlot (i, res)) :: path) := head?_after hholes
  rw [hlast, hhead]
  have hne := hs.ne
  rcases res with - | - | -
  · have hslot : iSlot (i, Ordering.lt) = i + 1 := rfl
    rw [hslot]
    cases f <;> simp [boundaryExists, EntryFlag.isStart, EntryFlag.isEnd, treeNextIsEndDelete,
      prevKey, he]
  · exact absurd rfl hne
  · have hslot : iSlot (i, Ordering.gt) = i := rfl
    rw [hslot]
    cases f <;> simp [boundaryExists, EntryFlag.isStart, EntryFlag.isEnd, treePrevIsStartDelete,
      nextKey, he]

/-- The new entry, next to the entry `e`: on its other side is one of a list. -/
theorem entryAt_ne_entry (iWrite : ℕ) (f : EntryFlag) {L R : List TreeKey} {res : Ordering}
    (hedge : res = .lt ∧ L.getLast? = some e ∨ res = .gt ∧ R.head? = some e) :
    (entryAt iWrite f k e res).entry = (k,
      let b := !f.isBoundary && if decide (res = .lt) then L.getLast?.any TreeKey.startDelete
        else R.head?.any TreeKey.endDelete
      ⟨f.data, f.isStart || b, f.isEnd || b⟩) := by
  rcases hedge with ⟨rfl, hlast⟩ | ⟨rfl, hhead⟩
  · rw [hlast]
    cases f <;> simp [entryAt, newTreeKey, TreeKey.entry, EntryFlag.isBoundary,
      EntryFlag.isStart, EntryFlag.isEnd, EntryFlag.data]
  · rw [hhead]
    cases f <;> simp [entryAt, newTreeKey, TreeKey.entry, EntryFlag.isBoundary,
      EntryFlag.isStart, EntryFlag.isEnd, EntryFlag.data]

theorem entryAt_ne_sound (iWrite : ℕ) (f : EntryFlag) (k : Bytes) (e : TreeKey) {res : Ordering}
    (hne : res ≠ .eq) : (entryAt iWrite f k e res).Sound := by
  unfold entryAt
  rw [if_neg hne]
  split_ifs
  · exact TreeKey.newTreeKey_sound _ _ _ _ _
  · exact TreeKey.newTreeKey_sound _ _ _ _ _

/-- The key is not in the tree. -/
theorem inserted_slot {p : TreeNode TreeKey} {i : ℕ} {path : Path TreeKey} {res : Ordering}
    (hinv : TreeInv t) (hm : t.entries beyond = m.entries)
    (hs : LeafSlot (TreeKey.readKey beyond) k t.iRoot t.nHeight p i path res)
    (he : p.key i = some e) :
    Inserted beyond f k m t (if boundaryExists f ((p, i) :: path) e res then t
      else treeInsertAt t.nHeight (entryAt iWrite f k e res) ((p, i) :: path)
        (iSlot (i, res))) := by
  have hroot := hinv.balanced
  have hex := boundaryExists_slot (f := f) hroot hs he
  obtain ⟨hnew, hbal⟩ := treeInsertAt_spec (e := entryAt iWrite f k e res) hroot hs
  obtain ⟨l, e', r, hc, hside⟩ := hs.cursorAt hroot
  obtain rfl : e' = e := Option.some.inj (hc.2.1.symm.trans he)
  have hleft := hs.left
  have hright := hs.right
  have hlist : t.iRoot.toList = (before path ++ p.leftOf (iSlot (i, res))) ++
      (p.rightOf (iSlot (i, res)) ++ after path) := by
    rw [hc.toList]
    rcases hside with ⟨-, hl, hr⟩ | ⟨-, hl, hr⟩
    · rw [hl, hr, List.append_assoc]
      rfl
    · rw [hl, hr]
  have hedge : res = .lt ∧ (before path ++ p.leftOf (iSlot (i, res))).getLast? = some e' ∨
      res = .gt ∧ (p.rightOf (iSlot (i, res)) ++ after path).head? = some e' := by
    rcases hside with ⟨hres, hl, -⟩ | ⟨hres, -, hr⟩
    · exact .inl ⟨hres, by rw [hl]; simp⟩
    · exact .inr ⟨hres, by rw [hr]; rfl⟩
  -- from here on only the two sides of the new key matter
  generalize before path ++ p.leftOf (iSlot (i, res)) = L at *
  generalize p.rightOf (iSlot (i, res)) ++ after path = R at *
  have hL : ∀ x ∈ L, x.pKey < k := fun x hx => by
    rw [← hinv.readKey beyond x (by rw [hlist]; exact List.mem_append_left _ hx)]
    exact hleft x hx
  have hR : ∀ x ∈ R, k < x.pKey := fun x hx => by
    rw [← hinv.readKey beyond x (by rw [hlist]; exact List.mem_append_right _ hx)]
    exact hright x hx
  have hm' := hm
  rw [hinv.entries, hlist] at hm'
  obtain ⟨hget, hpred, hsucc, hins⟩ := TreeMap.around hm'.symm hL hR
  have hmark := fun side => TreeMap.markFor_none f side hget
  rw [hpred, hsucc, Option.any_map, Option.any_map] at hmark
  rw [hex]
  split_ifs with hskip
  · exact .refl hinv hm ((hmark true).trans (if_pos hskip))
  · have hentry := entryAt_ne_entry (k := k) iWrite f hedge
    have hpKey : (entryAt iWrite f k e' res).pKey = k := congrArg Prod.fst hentry
    have hincr := hinv.increasing
    rw [hlist] at hincr
    have hinv' : TreeInv (treeInsertAt t.nHeight (entryAt iWrite f k e' res) ((p, i) :: path)
        (iSlot (i, res))) := by
      refine TreeInv.of_insert hbal hnew ?_ ?_ hincr ?_ (entryAt_ne_sound iWrite f k e' hs.ne)
      · rw [hpKey]
        exact hL
      · rw [hpKey]
        exact hR
      · rw [← hlist]
        exact hinv.sound
    refine .of_list [] (by rw [hlist, List.append_nil]) hnew hpKey nofun hinv'
      ⟨decide (res = .lt), ?_⟩
    have hsome := (hmark (decide (res = .lt))).trans (if_neg hskip)
    rw [hinv'.entries, hnew, TreeMap.insertMark, hsome]
    show _ = (m.insert k _).entries
    rw [hins, List.map_append, List.map_cons, hentry]
    rfl

variable (beyond iWrite f) in
/-- The insertion finds a key that is in the tree. -/
theorem treeInsertEntry_found (hinv : TreeInv t) (he : e ∈ t.iRoot.toList) :
    ∃ l r pCsr, CursorAt t.iRoot t.nHeight l e r pCsr ∧
      treeInsertEntry beyond iWrite f e.pKey t = if boundaryExists f pCsr e .eq then t
        else ⟨treeOverwriteKey (entryAt iWrite f e.pKey e .eq) pCsr, t.nHeight⟩ := by
  have hne : t.iRoot ≠ null := fun h => by
    rw [h] at he
    cases he
  have hnull : t.iRoot.isNull = false := Bool.eq_false_iff.mpr fun h => hne (isNull_iff.mp h)
  have hread := hinv.readKey beyond
  have hseek := lsmTreeCursorSeek_spec (k := e.pKey) hinv.balanced hne
    (hinv.readKey_increasing beyond)
  rw [treeInsertEntry, if_neg (by rw [hnull]; exact Bool.false_ne_true)]
  generalize lsmTreeCursorSeek (TreeKey.readKey beyond) e.pKey t = s at hseek ⊢
  obtain ⟨pCsr, res⟩ := s
  rcases hseek with ⟨l, e', r, hc, hk, rfl⟩ | ⟨p, i, path, rfl, hs⟩
  · have hmem : e' ∈ t.iRoot.toList := by rw [hc.toList]; simp
    obtain rfl : e' = e := hinv.increasing.unique hmem he ((hread e' hmem).symm.trans hk)
    match pCsr, hc with
    | (p, i) :: path, hc =>
        refine ⟨l, r, _, hc, ?_⟩
        simp only [hc.2.1, (hinv.sound e' hmem).read beyond, if_true]
  · -- a slot of a leaf lies between smaller and greater keys
    exfalso
    have hslot := hs.test.slot_lt
    have hkey := hread e he
    rw [hs.chain.toList, toList_split (p := p) hslot,
      (hs.chain.balanced hinv.balanced).leaf_child _ hslot] at he
    have hside : e ∈ before path ++ p.leftOf (iSlot (i, res)) ∨
        e ∈ p.rightOf (iSlot (i, res)) ++ after path := by
      simpa [toList, or_assoc] using he
    rcases hside with hin | hin
    · have := hs.left e hin
      rw [hkey] at this
      exact lt_irrefl _ this
    · have := hs.right e hin
      rw [hkey] at this
      exact lt_irrefl _ this

/-- **One insertion**: the tree is balanced, its keys increase, and it holds the map with
the entry inserted. -/
theorem treeInsertEntry_spec (hinv : TreeInv t) (hm : t.entries beyond = m.entries)
    (hok : BoundaryOk iWrite f k t) :
    Inserted beyond f k m t (treeInsertEntry beyond iWrite f k t) := by
  by_cases hmem : ∃ e ∈ t.iRoot.toList, e.pKey = k
  · obtain ⟨e, he, rfl⟩ := hmem
    obtain ⟨l, r, pCsr, hc, heq⟩ := treeInsertEntry_found beyond iWrite f hinv he
    rw [heq]
    exact inserted_found hinv hm hok hc
  cases hnull : t.iRoot.isNull with
  | true => exact inserted_empty (isNull_iff.mp hnull) hm
  | false =>
      have hne : t.iRoot ≠ null := fun h => by
        rw [isNull_iff.mpr h] at hnull
        cases hnull
      have hseek := lsmTreeCursorSeek_spec (k := k) hinv.balanced hne (hinv.readKey_increasing beyond)
      rw [treeInsertEntry, if_neg (by rw [hnull]; exact Bool.false_ne_true)]
      generalize lsmTreeCursorSeek (TreeKey.readKey beyond) k t = s at hseek ⊢
      obtain ⟨pCsr, res⟩ := s
      rcases hseek with ⟨l, e, r, hc, hk, rfl⟩ | ⟨p, i, path, rfl, hs⟩
      · have he : e ∈ t.iRoot.toList := by rw [hc.toList]; simp
        exact absurd ⟨e, he, (hinv.readKey beyond e he).symm.trans hk⟩ hmem
      · obtain ⟨l, e, r, hc, -⟩ := hs.cursorAt hinv.balanced
        have he : e ∈ t.iRoot.toList := by rw [hc.toList]; simp
        simp only [hc.2.1, (hinv.sound e he).read beyond, if_neg hs.ne]
        exact inserted_slot hinv hm hs hc.2.1

end Insertion

end Lsm

end MoVeBench
