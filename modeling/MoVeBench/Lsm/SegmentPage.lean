/-
MoVeBench/Lsm/SegmentPage.lean

The pages of a segment that hold records (`lsm_sorted.c`).

A page has its data at the front and its footer at the end: the number of records, flags, a
pointer, and for every record the offset of its cell, the latter growing towards the data.  A
cell starts with a header, which lies on one page; the key and the value behind it may go on
on the pages that follow.  What a page holds is a `Leaf`, and each thing that is written to a
page changes the leaf it shows in one way.
-/
import MoVeBench.Lsm.SegmentGrow
import MoVeBench.Varint

namespace MoVeBench

namespace Lsm

namespace Seg

open Bytes

variable {pFS : FileSystem}

/-! ### Varints -/

/-- `lsmVarintPut64`: as in `varint.c` but for the largest value of seven bytes. -/
def lsmVarintPut64 (x : ℕ) : List UInt8 :=
  if x ≤ 240 then [.ofNat x]
  else if x ≤ 2287 then
    let y := x - 240
    [.ofNat (y / 256 + 241), .ofNat (y % 256)]
  else if x ≤ 67823 then
    let y := x - 2288
    [249, .ofNat (y / 256), .ofNat (y % 256)]
  else
    let y := x % 2 ^ 32
    let w := x >>> 32
    if w = 0 then
      if y ≤ 16777215 then [250, .ofNat (y >>> 16), .ofNat (y >>> 8), .ofNat y]
      else 251 :: varintWrite32 y
    else if w ≤ 255 then 252 :: .ofNat w :: varintWrite32 y
    else if w ≤ 32767 then 253 :: .ofNat (w >>> 8) :: .ofNat w :: varintWrite32 y
    else if w ≤ 16777215 then
      254 :: .ofNat (w >>> 16) :: .ofNat (w >>> 8) :: .ofNat w :: varintWrite32 y
    else 255 :: (varintWrite32 w ++ varintWrite32 y)

/-- The argument is an `int` that is not negative. -/
def lsmVarintPut32 (x : ℕ) : List UInt8 := lsmVarintPut64 x

/-- `lsmVarintGet64`, which decodes as `varint.c` does; `none` where the bytes end. -/
def lsmVarintGet64 (z : List UInt8) : Option (ℕ × ℕ) := sqlite4GetVarint64 z

def lsmVarintGet32 (z : List UInt8) : Option (ℕ × ℕ) := lsmVarintGet64 z

theorem lsmVarintPut64_eq (x : ℕ) : lsmVarintPut64 x =
    if 32767 < x >>> 32 ∧ x >>> 32 ≤ 65535 then 254 :: beBytes 7 x else sqlite4PutVarint64 x := by
  by_cases hw : 32767 < x >>> 32 ∧ x >>> 32 ≤ 65535
  · have hx := hw
    rw [Nat.shiftRight_eq_div_pow] at hx
    rw [if_pos hw, lsmVarintPut64, if_neg (by omega), if_neg (by omega), if_neg (by omega)]
    dsimp only
    rw [if_neg (by omega), if_neg (by omega), if_neg (by omega), if_pos (by omega)]
    simp only [varintWrite32, beBytes, Nat.shiftRight_eq_div_pow]
    repeat' apply congrArg₂
    all_goals first | (apply ofNat_congr; omega) | rfl
  · rw [if_neg hw]
    unfold lsmVarintPut64 sqlite4PutVarint64
    dsimp only
    split_ifs <;> first | rfl | omega

theorem lsmVarintGet64_put {x : ℕ} (h : x < 2 ^ 64) (rest : List UInt8) :
    lsmVarintGet64 (lsmVarintPut64 x ++ rest) = some (x, (lsmVarintPut64 x).length) := by
  rw [lsmVarintPut64_eq]
  split_ifs with hw
  · rw [Nat.shiftRight_eq_div_pow] at hw
    simp [lsmVarintGet64, sqlite4GetVarint64, beBytes, Nat.shiftLeft_eq]
    omega
  · exact sqlite4GetVarint64_put h rest

theorem lsmVarintPut64_length {x : ℕ} (h : x < 2 ^ 64) : (lsmVarintPut64 x).length ≤ 9 := by
  rw [lsmVarintPut64_eq]
  split_ifs with hw
  · simp
  · have := (varintClass_tail x).2.2.2.2
    rw [sqlite4PutVarint64_length h]
    omega

/-! ### Cells -/

/-- `LSM_INSERT` is set. -/
def rtIsWrite (eType : UInt8) : Bool := eType &&& 0x08 != 0

/-- `LSM_SEPARATOR` is set. -/
def rtIsSeparator (eType : UInt8) : Bool := eType &&& 0x10 != 0

/-- A record.  Page numbers are 64-bit integers, sizes are `int`s. -/
structure Cell where
  eType : UInt8
  pKey : List UInt8
  pVal : List UInt8
  iPtr : BitVec 64
  key_lt : pKey.length < 2 ^ 31
  val_lt : pVal.length < 2 ^ 31
  /-- Only a record of type `LSM_INSERT` has a value. -/
  val_nil : rtIsWrite eType = false → pVal = []

/-- The header of a cell, with the pointer as it is stored. -/
def cellHeader (iRPtr : BitVec 64) (c : Cell) : List UInt8 :=
  c.eType :: (lsmVarintPut64 iRPtr.toNat ++ lsmVarintPut32 c.pKey.length ++
    if rtIsWrite c.eType then lsmVarintPut32 c.pVal.length else [])

/-- What `segmentPtrLoadCell` reads of a header: the type, the pointer, the sizes of the key
and the value, and how many bytes these took. -/
def loadHeader : List UInt8 → Option (UInt8 × BitVec 64 × ℕ × ℕ × ℕ)
  | [] => none
  | eType :: z => do
      let (iPgPtr, n1) ← lsmVarintGet64 z
      let (nKey, n2) ← lsmVarintGet32 (z.drop n1)
      if rtIsWrite eType then
        let (nVal, n3) ← lsmVarintGet32 (z.drop (n1 + n2))
        return (eType, .ofNat 64 iPgPtr, nKey, nVal, 1 + n1 + n2 + n3)
      else
        return (eType, .ofNat 64 iPgPtr, nKey, 0, 1 + n1 + n2)

/-- **A header reads back**, whatever follows it. -/
theorem loadHeader_cellHeader (iRPtr : BitVec 64) (c : Cell) (rest : List UInt8) :
    loadHeader (cellHeader iRPtr c ++ rest) =
      some (c.eType, iRPtr, c.pKey.length, c.pVal.length, (cellHeader iRPtr c).length) := by
  have hkey : c.pKey.length < 2 ^ 64 := c.key_lt.trans (by norm_num)
  have hval : c.pVal.length < 2 ^ 64 := c.val_lt.trans (by norm_num)
  have hptr := iRPtr.isLt
  cases hw : rtIsWrite c.eType with
  | true =>
      have hdrop : List.drop ((lsmVarintPut64 iRPtr.toNat).length +
          (lsmVarintPut64 c.pKey.length).length)
          (lsmVarintPut64 iRPtr.toNat ++ (lsmVarintPut64 c.pKey.length ++
            (lsmVarintPut64 c.pVal.length ++ rest))) = lsmVarintPut64 c.pVal.length ++ rest := by
        rw [← List.append_assoc, ← List.length_append, List.drop_left]
      simp only [cellHeader, lsmVarintPut32, hw, if_true, List.cons_append, List.append_assoc,
        loadHeader, lsmVarintGet64_put hptr, lsmVarintGet32, Option.bind_eq_bind,
        Option.bind_some, List.drop_left, lsmVarintGet64_put hkey, hdrop, lsmVarintGet64_put hval,
        BitVec.ofNat_toNat, BitVec.setWidth_eq, List.length_cons, List.length_append]
      simp only [pure, Option.some.injEq, Prod.mk.injEq, true_and]
      omega
  | false =>
      have hnil := c.val_nil hw
      simp only [cellHeader, lsmVarintPut32, hw, Bool.false_eq_true, if_false, List.append_nil,
        List.cons_append, List.append_assoc, loadHeader, lsmVarintGet64_put hptr, lsmVarintGet32,
        Option.bind_eq_bind, Option.bind_some, List.drop_left, lsmVarintGet64_put hkey,
        BitVec.ofNat_toNat, BitVec.setWidth_eq, List.length_cons, List.length_append, hnil,
        List.length_nil]
      simp only [pure, Option.some.injEq, Prod.mk.injEq, true_and]
      omega

theorem cellHeader_length (iRPtr : BitVec 64) (c : Cell) :
    (cellHeader iRPtr c).length ≤ 28 := by
  have hkey := lsmVarintPut64_length (c.key_lt.trans (show 2 ^ 31 < 2 ^ 64 by norm_num))
  have hval := lsmVarintPut64_length (c.val_lt.trans (show 2 ^ 31 < 2 ^ 64 by norm_num))
  have hptr := lsmVarintPut64_length iRPtr.isLt
  unfold cellHeader lsmVarintPut32
  split_ifs <;> simp only [List.length_cons, List.length_append, List.length_nil] <;> omega

/-! ### What a page shows -/

def pageGetNRec (db : Db pFS) (iPg : ℕ) : ℕ :=
  fromBe (getData db iPg (SEGMENT_NRECORD_OFFSET (nData pFS iPg)) 2)

def pageGetPtr (db : Db pFS) (iPg : ℕ) : BitVec 64 :=
  .ofNat 64 (fromBe (getData db iPg (SEGMENT_POINTER_OFFSET (nData pFS iPg)) 8))

def pageGetFlags (db : Db pFS) (iPg : ℕ) : ℕ :=
  fromBe (getData db iPg (SEGMENT_FLAGS_OFFSET (nData pFS iPg)) 2)

/-- The offset of a cell. -/
def pageGetCell (db : Db pFS) (iPg iCell : ℕ) : ℕ :=
  fromBe (getData db iPg (SEGMENT_CELLPTR_OFFSET (nData pFS iPg) iCell) 2)

/-- The content of a page of records. -/
structure Leaf where
  /-- The pointer in the footer. -/
  iPtr : BitVec 64
  /-- Where the cells start. -/
  cells : List ℕ
  /-- The data so far. -/
  body : List UInt8

/-- A page shows a leaf. -/
structure Shows (db : Db pFS) (iPg : ℕ) (l : Leaf) : Prop where
  ptr : pageGetPtr db iPg = l.iPtr
  flags : pageGetFlags db iPg &&& SEGMENT_BTREE_FLAG = 0
  nRec : pageGetNRec db iPg = l.cells.length
  cell : ∀ i (h : i < l.cells.length), pageGetCell db iPg i = l.cells[i]
  body : getData db iPg 0 l.body.length = l.body
  room : l.body.length + 14 + 2 * l.cells.length ≤ nData pFS iPg

theorem Shows.congr {db db' : Db pFS} {iPg : ℕ} {l : Leaf} (h : Shows db iPg l)
    (hpage : db'.page iPg = db.page iPg) : Shows db' iPg l := by
  have hread := fun off n => getData_congr hpage off n
  refine ⟨?_, ?_, ?_, fun i hi => ?_, ?_, h.room⟩
  · rw [pageGetPtr, hread]
    exact h.ptr
  · rw [pageGetFlags, hread]
    exact h.flags
  · rw [pageGetNRec, hread]
    exact h.nRec
  · rw [pageGetCell, hread]
    exact h.cell i hi
  · rw [hread]
    exact h.body

/-- A number written to a footer. -/
theorem getData_putData_beBytes {db : Db pFS} {iPg off w x : ℕ} (h : off + w ≤ nData pFS iPg)
    (hx : x < 256 ^ w) : fromBe (getData (putData db iPg off (beBytes w x)) iPg off w) = x := by
  have hwrite := @getData_putData _ db iPg off (beBytes w x) (by rwa [beBytes_length])
  rw [beBytes_length] at hwrite
  rw [hwrite, fromBe_beBytes hx]

/-- Data goes behind the data so far. -/
theorem Shows.putBody {db : Db pFS} {iPg : ℕ} {l : Leaf} (h : Shows db iPg l) (data : List UInt8)
    (hroom : l.body.length + data.length + 14 + 2 * l.cells.length ≤ nData pFS iPg) :
    Shows (putData db iPg l.body.length data) iPg { l with body := l.body ++ data } := by
  have hread : ∀ off n, l.body.length + data.length ≤ off →
      getData (putData db iPg l.body.length data) iPg off n = getData db iPg off n :=
    fun off n hoff => getData_putData_of_disjoint (.inr hoff)
  refine ⟨?_, ?_, ?_, fun i hi => ?_, ?_, ?_⟩
  · rw [pageGetPtr, hread _ _ (by unfold SEGMENT_POINTER_OFFSET; omega)]
    exact h.ptr
  · rw [pageGetFlags, hread _ _ (by unfold SEGMENT_FLAGS_OFFSET; omega)]
    exact h.flags
  · rw [pageGetNRec, hread _ _ (by unfold SEGMENT_NRECORD_OFFSET; omega)]
    exact h.nRec
  · have hi' : i < l.cells.length := hi
    rw [pageGetCell, hread _ _ (by unfold SEGMENT_CELLPTR_OFFSET; omega)]
    exact h.cell i hi'
  · rw [List.length_append, getData_append, Nat.zero_add, getData_putData (by omega),
      getData_putData_of_disjoint (by omega), h.body]
  · rw [List.length_append]
    exact hroom

/-! ### The footer -/

theorem nData_lt (pFS : FileSystem) (iPg : ℕ) : nData pFS iPg ≤ 65536 :=
  (nData_le pFS iPg).trans pFS.pagesize_ok.2.1

/-- The footer of a page without records. -/
def putFooter (db : Db pFS) (iPg : ℕ) (iFPtr : BitVec 64) : Db pFS :=
  let db := putData db iPg (SEGMENT_NRECORD_OFFSET (nData pFS iPg)) (beBytes 2 0)
  let db := putData db iPg (SEGMENT_FLAGS_OFFSET (nData pFS iPg)) (beBytes 2 0)
  putData db iPg (SEGMENT_POINTER_OFFSET (nData pFS iPg)) (beBytes 8 iFPtr.toNat)

theorem putFooter_page_of_ne {db : Db pFS} {iPg : ℕ} {iFPtr : BitVec 64} {i : ℕ} (h : i ≠ iPg) :
    (putFooter db iPg iFPtr).page i = db.page i := by
  rw [putFooter, putData, Db.write_page_of_ne h, putData, Db.write_page_of_ne h, putData,
    Db.write_page_of_ne h]

theorem shows_putFooter (db : Db pFS) (iPg : ℕ) (iFPtr : BitVec 64) :
    Shows (putFooter db iPg iFPtr) iPg ⟨iFPtr, [], []⟩ := by
  have hge := nData_ge pFS iPg
  have hptr : iFPtr.toNat < 256 ^ 8 := iFPtr.isLt
  refine ⟨?_, ?_, ?_, fun i hi => absurd hi (Nat.not_lt_zero i), rfl, ?_⟩
  · rw [pageGetPtr, putFooter, getData_putData_beBytes _ hptr, BitVec.ofNat_toNat,
      BitVec.setWidth_eq]
    unfold SEGMENT_POINTER_OFFSET
    omega
  · rw [pageGetFlags, putFooter, getData_putData_of_disjoint, getData_putData_beBytes _ (by simp)]
    · rfl
    · unfold SEGMENT_FLAGS_OFFSET
      omega
    · unfold SEGMENT_FLAGS_OFFSET SEGMENT_POINTER_OFFSET
      rw [beBytes_length]
      omega
  · rw [pageGetNRec, putFooter, getData_putData_of_disjoint, getData_putData_of_disjoint,
      getData_putData_beBytes _ (by simp)]
    · rfl
    · unfold SEGMENT_NRECORD_OFFSET
      omega
    · unfold SEGMENT_FLAGS_OFFSET SEGMENT_NRECORD_OFFSET
      rw [beBytes_length]
      omega
    · unfold SEGMENT_POINTER_OFFSET SEGMENT_NRECORD_OFFSET
      rw [beBytes_length]
      omega
  · simp only [List.length_nil]
    omega

/-- The footer of a page that gets one more cell, at `iOff`. -/
def putCell (db : Db pFS) (iPg nRec iOff flags : ℕ) : Db pFS :=
  let db := putData db iPg (SEGMENT_NRECORD_OFFSET (nData pFS iPg)) (beBytes 2 (nRec + 1))
  let db := putData db iPg (SEGMENT_CELLPTR_OFFSET (nData pFS iPg) nRec) (beBytes 2 iOff)
  if flags ≠ 0 then
    putData db iPg (SEGMENT_FLAGS_OFFSET (nData pFS iPg)) (beBytes 2 flags)
  else db

theorem putCell_page_of_ne {db : Db pFS} {iPg nRec iOff flags i : ℕ} (h : i ≠ iPg) :
    (putCell db iPg nRec iOff flags).page i = db.page i := by
  unfold putCell
  dsimp only
  split_ifs <;> simp only [putData, Db.write_page_of_ne h]

/-- Bytes of a page that a new cell leaves alone. -/
theorem getData_putCell {db : Db pFS} {iPg nRec iOff flags off n : ℕ}
    (hroom : 14 + 2 * (nRec + 1) ≤ nData pFS iPg)
    (h : off + n ≤ SEGMENT_CELLPTR_OFFSET (nData pFS iPg) nRec ∨
      SEGMENT_CELLPTR_OFFSET (nData pFS iPg) nRec + 2 ≤ off ∧
        off + n ≤ SEGMENT_FLAGS_OFFSET (nData pFS iPg)) :
    getData (putCell db iPg nRec iOff flags) iPg off n = getData db iPg off n := by
  unfold SEGMENT_CELLPTR_OFFSET SEGMENT_FLAGS_OFFSET at h
  have hmost : getData (putData (putData db iPg (SEGMENT_NRECORD_OFFSET (nData pFS iPg))
      (beBytes 2 (nRec + 1))) iPg (SEGMENT_CELLPTR_OFFSET (nData pFS iPg) nRec)
        (beBytes 2 iOff)) iPg off n = getData db iPg off n := by
    rw [getData_putData_of_disjoint, getData_putData_of_disjoint]
    · unfold SEGMENT_NRECORD_OFFSET
      omega
    · unfold SEGMENT_CELLPTR_OFFSET
      rw [beBytes_length]
      omega
  unfold putCell
  dsimp only
  split_ifs
  · rw [getData_putData_of_disjoint, hmost]
    unfold SEGMENT_FLAGS_OFFSET
    omega
  · exact hmost

theorem pageGetFlags_putCell {db : Db pFS} {iPg nRec iOff flags : ℕ}
    (hroom : 14 + 2 * (nRec + 1) ≤ nData pFS iPg) (hlt : flags < 65536) :
    pageGetFlags (putCell db iPg nRec iOff flags) iPg =
      if flags ≠ 0 then flags else pageGetFlags db iPg := by
  unfold putCell pageGetFlags
  dsimp only
  split_ifs
  · apply getData_putData_beBytes _ (by simpa using hlt)
    unfold SEGMENT_FLAGS_OFFSET
    omega
  · rw [getData_putData_of_disjoint, getData_putData_of_disjoint]
    · unfold SEGMENT_NRECORD_OFFSET SEGMENT_FLAGS_OFFSET
      omega
    · unfold SEGMENT_CELLPTR_OFFSET SEGMENT_FLAGS_OFFSET
      rw [beBytes_length]
      omega

theorem pageGetNRec_putCell {db : Db pFS} {iPg nRec iOff flags : ℕ}
    (hroom : 14 + 2 * (nRec + 1) ≤ nData pFS iPg) :
    pageGetNRec (putCell db iPg nRec iOff flags) iPg = nRec + 1 := by
  have hle := nData_lt pFS iPg
  have hwrite : fromBe (getData (putData (putData db iPg (SEGMENT_NRECORD_OFFSET (nData pFS iPg))
      (beBytes 2 (nRec + 1))) iPg (SEGMENT_CELLPTR_OFFSET (nData pFS iPg) nRec) (beBytes 2 iOff))
      iPg (SEGMENT_NRECORD_OFFSET (nData pFS iPg)) 2) = nRec + 1 := by
    rw [getData_putData_of_disjoint, getData_putData_beBytes]
    · unfold SEGMENT_NRECORD_OFFSET
      omega
    · norm_num
      omega
    · unfold SEGMENT_CELLPTR_OFFSET SEGMENT_NRECORD_OFFSET
      rw [beBytes_length]
      omega
  unfold putCell pageGetNRec
  dsimp only
  split_ifs
  · rw [getData_putData_of_disjoint, hwrite]
    unfold SEGMENT_FLAGS_OFFSET SEGMENT_NRECORD_OFFSET
    rw [beBytes_length]
    omega
  · exact hwrite

theorem pageGetCell_putCell {db : Db pFS} {iPg nRec iOff flags : ℕ} (hoff : iOff < 65536)
    (hroom : 14 + 2 * (nRec + 1) ≤ nData pFS iPg) :
    pageGetCell (putCell db iPg nRec iOff flags) iPg nRec = iOff := by
  have hwrite : fromBe (getData (putData (putData db iPg (SEGMENT_NRECORD_OFFSET (nData pFS iPg))
      (beBytes 2 (nRec + 1))) iPg (SEGMENT_CELLPTR_OFFSET (nData pFS iPg) nRec) (beBytes 2 iOff))
      iPg (SEGMENT_CELLPTR_OFFSET (nData pFS iPg) nRec) 2) = iOff := by
    apply getData_putData_beBytes _ (by simpa using hoff)
    unfold SEGMENT_CELLPTR_OFFSET
    omega
  unfold putCell pageGetCell
  dsimp only
  split_ifs
  · rw [getData_putData_of_disjoint, hwrite]
    unfold SEGMENT_FLAGS_OFFSET SEGMENT_CELLPTR_OFFSET
    omega
  · exact hwrite

/-- A page gets one more cell. -/
theorem Shows.putCell {db : Db pFS} {iPg : ℕ} {l : Leaf} (h : Shows db iPg l) (iOff flags : ℕ)
    (hoff : iOff < 65536) (hroom : l.body.length + 14 + 2 * (l.cells.length + 1) ≤ nData pFS iPg)
    (hflags : flags < 65536 ∧ flags &&& SEGMENT_BTREE_FLAG = 0) :
    Shows (putCell db iPg l.cells.length iOff flags) iPg { l with cells := l.cells ++ [iOff] } := by
  refine ⟨?_, ?_, ?_, fun i hi => ?_, ?_, ?_⟩
  · rw [pageGetPtr, getData_putCell (by omega)]
    · exact h.ptr
    · right
      unfold SEGMENT_POINTER_OFFSET SEGMENT_CELLPTR_OFFSET SEGMENT_FLAGS_OFFSET
      omega
  · rw [pageGetFlags_putCell (by omega) hflags.1]
    split_ifs
    · exact hflags.2
    · exact h.flags
  · rw [pageGetNRec_putCell (by omega), List.length_append, List.length_singleton]
  · simp only [List.length_append, List.length_singleton] at hi
    rcases Nat.lt_succ_iff_lt_or_eq.mp hi with hlt | rfl
    · rw [List.getElem_append_left hlt, pageGetCell, getData_putCell (by omega)]
      · exact h.cell i hlt
      · right
        unfold SEGMENT_CELLPTR_OFFSET SEGMENT_FLAGS_OFFSET
        omega
    · rw [List.getElem_concat_length rfl, pageGetCell_putCell hoff (by omega)]
  · rw [getData_putCell (by omega), h.body]
    left
    unfold SEGMENT_CELLPTR_OFFSET
    simp only
    omega
  · simp only [List.length_append, List.length_singleton]
    omega

/-- The rest of the page, up to the footer, counted as data. -/
theorem Shows.fill {db : Db pFS} {iPg : ℕ} {l : Leaf} (h : Shows db iPg l) :
    ∃ body, l.body <+: body ∧ body.length + 14 + 2 * l.cells.length = nData pFS iPg ∧
      Shows db iPg { l with body } := by
  have hroom := h.room
  obtain ⟨n, hn⟩ := Nat.exists_eq_add_of_le hroom
  refine ⟨getData db iPg 0 (l.body.length + n), ?_, ?_, ⟨h.ptr, h.flags, h.nRec, h.cell, ?_, ?_⟩⟩
  · rw [getData_append, h.body]
    exact List.prefix_append _ _
  · rw [getData_length]
    omega
  · simp only [getData_length]
  · simp only [getData_length]
    omega

end Seg

end Lsm

end MoVeBench
