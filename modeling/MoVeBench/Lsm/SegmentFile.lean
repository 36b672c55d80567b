/-
MoVeBench/Lsm/SegmentFile.lean

The pages of a segment in the file (`lsm_file.c`, without compression).

A segment grows page by page along blocks.  The last page of a block ends with the number of
the next block, the first page of a block starts with the number of the one before, and both
have four bytes less for their data.  The two meta pages lie at the start of block 1.  Where
they leave room in it, every block has at least two pages for data, and no page belongs to two
blocks (`RoomyBlocks`).
-/
import MoVeBench.Lib.Bytes

namespace MoVeBench

namespace Lsm

namespace Seg

open Bytes

/-! ### Sizes -/

def LSM_META_PAGE_SIZE : ℕ := 64 * 1024

/-- The page size and the block size, as `lsm_config` accepts them. -/
structure FileSystem where
  nPagesize : ℕ
  nBlocksize : ℕ
  pagesize_ok : 256 ≤ nPagesize ∧ nPagesize ≤ 65536 ∧ (nPagesize - 1) &&& nPagesize = 0
  /-- The block size is given in KB. -/
  blocksize_ok : ∃ iVal, nBlocksize = iVal * 1024 ∧ 64 ≤ iVal ∧ iVal ≤ 65536 ∧
    (iVal - 1) &&& iVal = 0

variable (pFS : FileSystem)

def nPagePerBlock : ℕ := pFS.nBlocksize / pFS.nPagesize

/-- C integers: the page before block 1 has number 0. -/
def fsFirstPageOnBlock (iBlock : ℕ) : ℕ :=
  if iBlock = 1 then 1 + (LSM_META_PAGE_SIZE * 2 + pFS.nPagesize - 1) / pFS.nPagesize
  else (1 + ((iBlock : ℤ) - 1) * nPagePerBlock pFS).toNat

def fsLastPageOnBlock (iBlock : ℕ) : ℕ := iBlock * nPagePerBlock pFS

/-- C division truncates: page 0 is on block 1, or on block 0 where blocks have one page. -/
def fsPageToBlock (iPg : ℕ) : ℕ := (1 + ((iPg : ℤ) - 1).tdiv (nPagePerBlock pFS)).toNat

abbrev fsIsLast (iPg : ℕ) : Prop := iPg ≠ 0 ∧ iPg % nPagePerBlock pFS = 0

abbrev fsIsFirst (iPg : ℕ) : Prop :=
  iPg % nPagePerBlock pFS = 1 ∨ iPg < nPagePerBlock pFS ∧ iPg = fsFirstPageOnBlock pFS 1

variable {pFS}

theorem nPagesize_pow (pFS : FileSystem) : ∃ k, pFS.nPagesize = 2 ^ k ∧ 8 ≤ k ∧ k ≤ 16 := by
  obtain ⟨hlo, hhi, hand⟩ := pFS.pagesize_ok
  rw [Nat.and_comm] at hand
  obtain ⟨k, hk⟩ := (Nat.and_sub_one_eq_zero_iff_isPowerOfTwo (by omega)).mp hand
  rw [hk] at hlo hhi
  exact ⟨k, hk, (Nat.pow_le_pow_iff_right (by omega)).mp (show 2 ^ 8 ≤ 2 ^ k from hlo),
    (Nat.pow_le_pow_iff_right (by omega)).mp (show 2 ^ k ≤ 2 ^ 16 from hhi)⟩

theorem nBlocksize_pow (pFS : FileSystem) : ∃ k, pFS.nBlocksize = 2 ^ k ∧ 16 ≤ k ∧ k ≤ 26 := by
  obtain ⟨iVal, hval, hlo, hhi, hand⟩ := pFS.blocksize_ok
  rw [Nat.and_comm] at hand
  obtain ⟨k, rfl⟩ := (Nat.and_sub_one_eq_zero_iff_isPowerOfTwo (by omega)).mp hand
  have hlo' := (Nat.pow_le_pow_iff_right (by omega)).mp (show 2 ^ 6 ≤ 2 ^ k from hlo)
  have hhi' := (Nat.pow_le_pow_iff_right (by omega)).mp (show 2 ^ k ≤ 2 ^ 16 from hhi)
  exact ⟨k + 10, by rw [hval, pow_add]; norm_num, by omega, by omega⟩

/-- Blocks and the two meta pages consist of whole pages. -/
theorem whole_pages (pFS : FileSystem) : nPagePerBlock pFS * pFS.nPagesize = pFS.nBlocksize ∧
    ∃ m, m * pFS.nPagesize = LSM_META_PAGE_SIZE * 2 ∧ 2 ≤ m ∧
      fsFirstPageOnBlock pFS 1 = 1 + m := by
  obtain ⟨k, hk, hk8, hk16⟩ := nPagesize_pow pFS
  obtain ⟨b, hb, hb16, -⟩ := nBlocksize_pow pFS
  have hmeta : 2 ^ (17 - k) * 2 ^ k = LSM_META_PAGE_SIZE * 2 := by
    rw [← pow_add, Nat.sub_add_cancel (by omega)]
    rfl
  have hdiv : (LSM_META_PAGE_SIZE * 2 + pFS.nPagesize - 1) / pFS.nPagesize = 2 ^ (17 - k) := by
    have hpos : 0 < 2 ^ k := Nat.two_pow_pos k
    rw [← hmeta, hk, Nat.add_sub_assoc hpos, mul_comm, Nat.mul_add_div hpos,
      Nat.div_eq_of_lt (by omega), Nat.add_zero]
  refine ⟨Nat.div_mul_cancel ?_, 2 ^ (17 - k), by rw [hk, hmeta], ?_, ?_⟩
  · rw [hk, hb]
    exact pow_dvd_pow 2 (by omega)
  · exact (show 2 ^ 1 ≤ _ from Nat.pow_le_pow_right (by omega) (by omega))
  · rw [fsFirstPageOnBlock, if_pos rfl, hdiv]

theorem nPagePerBlock_pos (pFS : FileSystem) : 0 < nPagePerBlock pFS := by
  have hblock := (whole_pages pFS).1
  obtain ⟨b, hb, -, -⟩ := nBlocksize_pow pFS
  have hpos : 0 < 2 ^ b := Nat.two_pow_pos b
  rw [hb] at hblock
  exact Nat.pos_of_mul_pos_right (hblock ▸ hpos)

/-! ### Pages and blocks -/

theorem fsPageToBlock_succ (iPg : ℕ) :
    fsPageToBlock pFS (iPg + 1) = 1 + iPg / nPagePerBlock pFS := by
  have hcast : ((iPg + 1 : ℕ) : ℤ) - 1 = (iPg : ℤ) := by omega
  rw [fsPageToBlock, hcast, ← Int.ofNat_tdiv]
  generalize iPg / nPagePerBlock pFS = q
  omega

theorem fsFirstPageOnBlock_add_two (i : ℕ) :
    fsFirstPageOnBlock pFS (i + 2) = (i + 1) * nPagePerBlock pFS + 1 := by
  have hcast : (1 + (((i + 2 : ℕ) : ℤ) - 1) * (nPagePerBlock pFS : ℤ)) =
      (((i + 1) * nPagePerBlock pFS + 1 : ℕ) : ℤ) := by
    rw [show ((i + 2 : ℕ) : ℤ) - 1 = ((i + 1 : ℕ) : ℤ) by omega, ← Int.natCast_mul, Int.natCast_add]
    exact add_comm _ _
  rw [fsFirstPageOnBlock, if_neg (by omega), hcast, Int.toNat_natCast]

/-- The last page of a block. -/
theorem fsLastPageOnBlock_of_isLast {iPg : ℕ} (h : fsIsLast pFS iPg) :
    fsLastPageOnBlock pFS (fsPageToBlock pFS iPg) = iPg := by
  obtain ⟨hne, hmod⟩ := h
  obtain ⟨i, rfl⟩ := Nat.exists_eq_succ_of_ne_zero hne
  obtain ⟨q, hq⟩ := Nat.dvd_of_mod_eq_zero hmod
  obtain ⟨r, rfl⟩ : ∃ r, q = r + 1 :=
    Nat.exists_eq_succ_of_ne_zero fun h0 => by rw [h0, mul_zero] at hq; omega
  have hpos := nPagePerBlock_pos pFS
  rw [mul_add, mul_one] at hq
  have hi : i = nPagePerBlock pFS * r + (nPagePerBlock pFS - 1) := by omega
  have hdiv : i / nPagePerBlock pFS = r := by
    rw [hi, Nat.mul_add_div hpos, Nat.div_eq_of_lt (by omega), Nat.add_zero]
  rw [Nat.succ_eq_add_one, fsPageToBlock_succ, hdiv, fsLastPageOnBlock, add_mul, one_mul,
    mul_comm r]
  omega

/-- The next page is on the same block. -/
theorem fsPageToBlock_next {iPg : ℕ} (hpos : iPg ≠ 0) (h : ¬ fsIsLast pFS iPg) :
    fsPageToBlock pFS (iPg + 1) = fsPageToBlock pFS iPg := by
  have hmod : iPg % nPagePerBlock pFS ≠ 0 := fun h0 => h ⟨hpos, h0⟩
  obtain ⟨i, rfl⟩ := Nat.exists_eq_succ_of_ne_zero hpos
  rw [Nat.succ_eq_add_one, fsPageToBlock_succ, fsPageToBlock_succ, Nat.succ_div,
    if_neg fun hdvd => hmod (Nat.mod_eq_zero_of_dvd hdvd), Nat.add_zero]

/-! ### Room for data behind the meta pages -/

variable (pFS)

/-- The meta pages leave room for data on block 1. -/
def RoomyBlocks : Prop := 2 * LSM_META_PAGE_SIZE < pFS.nBlocksize

variable {pFS}

/-- Then they leave at least half of it. -/
theorem RoomyBlocks.pages (h : RoomyBlocks pFS) :
    2 < fsFirstPageOnBlock pFS 1 ∧ fsFirstPageOnBlock pFS 1 < nPagePerBlock pFS := by
  obtain ⟨hblock, m, hm, hm2, hfirst⟩ := whole_pages pFS
  obtain ⟨b, hb, -, -⟩ := nBlocksize_pow pFS
  have hb18 : 2 ^ 17 < 2 ^ b := by rw [← hb]; exact h
  have hb18' : 17 < b := (Nat.pow_lt_pow_iff_right (by omega)).mp hb18
  have hle : 2 ^ 18 ≤ 2 ^ b := Nat.pow_le_pow_right (by omega) hb18'
  rw [← hb, ← hblock] at hle
  have htwice : 2 * m * pFS.nPagesize ≤ nPagePerBlock pFS * pFS.nPagesize := by
    rw [mul_assoc, hm]
    exact hle
  have hpos : 0 < pFS.nPagesize := by
    have := pFS.pagesize_ok.1
    omega
  have := Nat.le_of_mul_le_mul_right htwice hpos
  omega

/-- The first page of a block, and that it is not the last one. -/
theorem RoomyBlocks.first (h : RoomyBlocks pFS) {iBlock : ℕ} (hb : 1 ≤ iBlock) :
    fsFirstPageOnBlock pFS 1 ≤ fsFirstPageOnBlock pFS iBlock ∧
    fsPageToBlock pFS (fsFirstPageOnBlock pFS iBlock) = iBlock ∧
    fsIsFirst pFS (fsFirstPageOnBlock pFS iBlock) ∧
    ¬ fsIsLast pFS (fsFirstPageOnBlock pFS iBlock) := by
  obtain ⟨hlo, hhi⟩ := h.pages
  obtain rfl | ⟨i, rfl⟩ : iBlock = 1 ∨ ∃ i, iBlock = i + 2 := by
    rcases iBlock with _ | _ | i
    · omega
    · exact .inl rfl
    · exact .inr ⟨i, rfl⟩
  · obtain ⟨j, hj⟩ : ∃ j, fsFirstPageOnBlock pFS 1 = j + 1 :=
      Nat.exists_eq_succ_of_ne_zero (by omega)
    refine ⟨le_rfl, ?_, .inr ⟨hhi, rfl⟩, fun hlast => ?_⟩
    · rw [hj, fsPageToBlock_succ, Nat.div_eq_of_lt (by omega)]
    · rw [fsIsLast, Nat.mod_eq_of_lt hhi] at hlast
      omega
  · have hmod : ((i + 1) * nPagePerBlock pFS + 1) % nPagePerBlock pFS = 1 := by
      rw [mul_comm, Nat.mul_add_mod, Nat.mod_eq_of_lt (by omega)]
    rw [fsFirstPageOnBlock_add_two, fsPageToBlock_succ,
      Nat.mul_div_cancel _ (by omega : 0 < nPagePerBlock pFS)]
    refine ⟨?_, by omega, .inl hmod, fun hlast => ?_⟩
    · have : nPagePerBlock pFS ≤ (i + 1) * nPagePerBlock pFS := Nat.le_mul_of_pos_left _ (by omega)
      omega
    · rw [fsIsLast, hmod] at hlast
      omega

/-- The page behind one that is not the last of its block is not the first of a block. -/
theorem RoomyBlocks.not_first (h : RoomyBlocks pFS) {iPg : ℕ}
    (hdata : fsFirstPageOnBlock pFS 1 ≤ iPg) (hlast : ¬ fsIsLast pFS iPg) :
    ¬ fsIsFirst pFS (iPg + 1) := by
  obtain ⟨hlo, hhi⟩ := h.pages
  rintro (hmod | ⟨-, heq⟩)
  · apply hlast
    refine ⟨by omega, ?_⟩
    have hsum := Nat.add_mod iPg 1 (nPagePerBlock pFS)
    have hlt := Nat.mod_lt iPg (show 0 < nPagePerBlock pFS by omega)
    rw [Nat.mod_eq_of_lt (show 1 < nPagePerBlock pFS by omega), hmod] at hsum
    rcases Nat.lt_or_ge (iPg % nPagePerBlock pFS + 1) (nPagePerBlock pFS) with hc | hc
    · rw [Nat.mod_eq_of_lt hc] at hsum
      omega
    · rw [show iPg % nPagePerBlock pFS + 1 = nPagePerBlock pFS by omega, Nat.mod_self] at hsum
      omega
  · omega

theorem RoomyBlocks.not_both (h : RoomyBlocks pFS) {iPg : ℕ} (hfirst : fsIsFirst pFS iPg) :
    ¬ fsIsLast pFS iPg := by
  obtain ⟨hlo, hhi⟩ := h.pages
  rintro ⟨hne, hlast⟩
  rcases hfirst with hmod | ⟨hlt, heq⟩
  · omega
  · rw [Nat.mod_eq_of_lt hlt] at hlast
    omega

/-! ### The bytes of a page -/

variable (pFS)

/-- The pages of the database file, as the page cache shows them. -/
structure Db where
  page : ℕ → List UInt8
  size : ∀ iPg, (page iPg).length = pFS.nPagesize

/-- A file without data. -/
def Db.zero : Db pFS where
  page _ := List.replicate pFS.nPagesize 0
  size _ := List.length_replicate

variable {pFS}

/-- Bytes written to a page. -/
def Db.write (db : Db pFS) (iPg off : ℕ) (data : List UInt8) : Db pFS where
  page i := if i = iPg then writeBytes (db.page i) off data else db.page i
  size i := by
    split_ifs
    · rw [writeBytes_length, db.size]
    · exact db.size i

theorem Db.write_page_of_ne {db : Db pFS} {iPg off i : ℕ} {data : List UInt8} (h : i ≠ iPg) :
    (db.write iPg off data).page i = db.page i := if_neg h

theorem Db.write_page (db : Db pFS) (iPg off : ℕ) (data : List UInt8) :
    (db.write iPg off data).page iPg = writeBytes (db.page iPg) off data := if_pos rfl

variable (pFS) in
/-- Where `aData` starts: behind the pointer to the previous block. -/
def dataOff (iPg : ℕ) : ℕ := if fsIsFirst pFS iPg then 4 else 0

variable (pFS) in
/-- `nData`, as `fsPageGet` sets it. -/
def nData (iPg : ℕ) : ℕ :=
  if fsIsLast pFS iPg ∨ fsIsFirst pFS iPg then pFS.nPagesize - 4 else pFS.nPagesize

/-- `n` bytes from `&aData[off]` on. -/
def getData (db : Db pFS) (iPg off n : ℕ) : List UInt8 :=
  readBytes (db.page iPg) (dataOff pFS iPg + off) n

/-- Bytes copied to `&aData[off]`. -/
def putData (db : Db pFS) (iPg off : ℕ) (data : List UInt8) : Db pFS :=
  db.write iPg (dataOff pFS iPg + off) data

@[simp] theorem getData_length (db : Db pFS) (iPg off n : ℕ) :
    (getData db iPg off n).length = n := readBytes_length ..

theorem getData_congr {db db' : Db pFS} {iPg : ℕ} (h : db'.page iPg = db.page iPg) (off n : ℕ) :
    getData db' iPg off n = getData db iPg off n := by rw [getData, h, getData]

theorem getData_append (db : Db pFS) (iPg off m n : ℕ) :
    getData db iPg off (m + n) = getData db iPg off m ++ getData db iPg (off + m) n := by
  rw [getData, readBytes_append, getData, getData, Nat.add_assoc]

theorem nData_le (pFS : FileSystem) (iPg : ℕ) : nData pFS iPg ≤ pFS.nPagesize := by
  unfold nData
  split_ifs <;> omega

theorem nData_ge (pFS : FileSystem) (iPg : ℕ) : 252 ≤ nData pFS iPg := by
  have := pFS.pagesize_ok.1
  unfold nData
  split_ifs <;> omega

theorem dataOff_add_nData (pFS : FileSystem) (iPg : ℕ) :
    dataOff pFS iPg + nData pFS iPg ≤ pFS.nPagesize := by
  have := pFS.pagesize_ok.1
  unfold dataOff nData
  split_ifs with h1 h2 h2
  · omega
  · exact absurd (.inr h1) h2
  · omega
  · omega

/-- What was written inside the page is read back. -/
theorem getData_putData {db : Db pFS} {iPg off : ℕ} {data : List UInt8}
    (h : off + data.length ≤ nData pFS iPg) :
    getData (putData db iPg off data) iPg off data.length = data := by
  have hin := dataOff_add_nData pFS iPg
  rw [getData, putData, Db.write_page]
  apply readBytes_writeBytes
  rw [db.size]
  omega

/-- What lies outside the bytes written stays. -/
theorem getData_putData_of_disjoint {db : Db pFS} {iPg off off' n : ℕ} {data : List UInt8}
    (h : off' + n ≤ off ∨ off + data.length ≤ off') :
    getData (putData db iPg off data) iPg off' n = getData db iPg off' n := by
  rw [getData, putData, Db.write_page]
  apply readBytes_congr
  apply agreeOn_writeBytes
  omega

/-! ### The pointers between blocks -/

/-- The pointer at the end of the last page of a block, `lsmGetU32(&aData[nPagesize-4])`. -/
def nextBlock (db : Db pFS) (iPg : ℕ) : ℕ := fromBe (getData db iPg (pFS.nPagesize - 4) 4)

/-- The pointer in front of the first page of a block, `lsmGetU32(&aData[-4])`. -/
def prevBlock (db : Db pFS) (iPg : ℕ) : ℕ :=
  fromBe (readBytes (db.page iPg) (dataOff pFS iPg - 4) 4)

def fsBlockNext (db : Db pFS) (iBlock : ℕ) : ℕ := nextBlock db (iBlock * nPagePerBlock pFS)

/-- The page behind a page, as `lsmFsDbPageNext` finds it. -/
def pageAfter (db : Db pFS) (iPg : ℕ) : ℕ :=
  if fsIsLast pFS iPg then fsFirstPageOnBlock pFS (nextBlock db iPg) else iPg + 1

/-- The page in front of a page. -/
def pageBefore (db : Db pFS) (iPg : ℕ) : ℕ :=
  if fsIsFirst pFS iPg then fsLastPageOnBlock pFS (prevBlock db iPg) else iPg - 1

/-- Each of two pages leads to the other. -/
def Linked (db : Db pFS) (a b : ℕ) : Prop := pageAfter db a = b ∧ pageBefore db b = a

/-- The pointers of a page are the same in two files. -/
def SameLinks (db db' : Db pFS) (iPg : ℕ) : Prop :=
  (fsIsLast pFS iPg → nextBlock db' iPg = nextBlock db iPg) ∧
  (fsIsFirst pFS iPg → prevBlock db' iPg = prevBlock db iPg)

theorem SameLinks.of_page {db db' : Db pFS} {iPg : ℕ} (h : db'.page iPg = db.page iPg) :
    SameLinks db db' iPg :=
  ⟨fun _ => congrArg fromBe (getData_congr h _ _), fun _ => by rw [prevBlock, h, prevBlock]⟩

theorem Linked.congr {db db' : Db pFS} {a b : ℕ} (h : Linked db a b) (ha : SameLinks db db' a)
    (hb : SameLinks db db' b) : Linked db' a b := by
  obtain ⟨hafter, hbefore⟩ := h
  refine ⟨?_, ?_⟩
  · rw [← hafter]
    unfold pageAfter
    split_ifs with hlast
    · rw [ha.1 hlast]
    · rfl
  · rw [← hbefore]
    unfold pageBefore
    split_ifs with hfirst
    · rw [hb.2 hfirst]
    · rfl

/-- Data inside a page does not touch its pointers. -/
theorem sameLinks_putData {db : Db pFS} {iPg off : ℕ} {data : List UInt8}
    (hin : off + data.length ≤ nData pFS iPg) (i : ℕ) :
    SameLinks db (putData db iPg off data) i := by
  by_cases hi : i = iPg
  · subst hi
    refine ⟨fun hlast => ?_, fun hfirst => ?_⟩
    · have hdata : nData pFS i = pFS.nPagesize - 4 := if_pos (.inl hlast)
      exact congrArg fromBe (getData_putData_of_disjoint (by omega))
    · have hoff : dataOff pFS i = 4 := if_pos hfirst
      rw [prevBlock, putData, Db.write_page, hoff, prevBlock, hoff]
      apply congrArg fromBe
      apply readBytes_congr
      apply agreeOn_writeBytes
      omega
  · exact .of_page (Db.write_page_of_ne hi)

end Seg

end Lsm

end MoVeBench
