/-
MoVeBench/Lsm/PackedChain.lean

The blocks of a segment of a compressed database.

The blocks that a segment has bytes on are extents; the first may begin in the middle of a block.
`Chain` says that the pointers in the blocks link them.

* Inside of two consecutive blocks `fsAddOffset` and `fsSubtractOffset` count places of the segment
  (`Chain.addOffset`, `Chain.subtractOffset`), and `fsReadData` reads the bytes there
  (`Chain.readData`).
* All this needs blocks that have room behind the meta pages.
-/
import MoVeBench.Lsm.PackedFile

namespace MoVeBench

namespace Lsm.Packed

open Bytes Extents

variable {pFS : FileSystem}

/-! ### Blocks -/

/-- The first byte of a block. -/
def blockStart (pFS : FileSystem) (b : ℤ) : ℤ := pFS.nBlocksize * (b - 1)

theorem blocksize_large (h : Seg.RoomyBlocks pFS.toFileSystem) :
    131072 + 1024 ≤ (pFS.nBlocksize : ℤ) := by
  obtain ⟨iVal, hval, -⟩ := pFS.blocksize_ok
  rw [Seg.RoomyBlocks, Seg.LSM_META_PAGE_SIZE] at h
  omega

theorem block_long (h : Seg.RoomyBlocks pFS.toFileSystem) (b : ℤ) :
    fsFirstPageOnBlock pFS b + 8 ≤ fsLastPageOnBlock pFS b + 1 := by
  have hlarge := blocksize_large h
  rw [fsFirstPageOnBlock, fsLastPageOnBlock]
  split_ifs with h1
  · rw [h1, Seg.LSM_META_PAGE_SIZE]
    omega
  · rw [mul_sub]
    omega

/-- The data of a block lie between its two pointers. -/
theorem block_bounds (h : Seg.RoomyBlocks pFS.toFileSystem) {b : ℤ} (hb : 1 ≤ b) :
    0 ≤ blockStart pFS b ∧ blockStart pFS b + 4 ≤ fsFirstPageOnBlock pFS b ∧
      fsFirstPageOnBlock pFS b + 8 ≤ fsLastPageOnBlock pFS b + 1 ∧
      fsLastPageOnBlock pFS b + 5 = blockStart pFS b + pFS.nBlocksize := by
  have hlarge := blocksize_large h
  have hstart : 0 ≤ blockStart pFS b := mul_nonneg (by omega) (by omega)
  have hlast : fsLastPageOnBlock pFS b + 5 = blockStart pFS b + pFS.nBlocksize := by
    rw [fsLastPageOnBlock, blockStart]
    ring
  refine ⟨hstart, ?_, block_long h b, hlast⟩
  rw [fsFirstPageOnBlock]
  split_ifs with h1
  · rw [h1, blockStart, Seg.LSM_META_PAGE_SIZE]
    omega
  · exact le_rfl

theorem fsPageToBlock_eq (h : Seg.RoomyBlocks pFS.toFileSystem) {b x : ℤ} (hb : 1 ≤ b)
    (hlo : blockStart pFS b ≤ x) (hhi : x < blockStart pFS b + pFS.nBlocksize) :
    fsPageToBlock pFS x = b := by
  have hpos : (0 : ℤ) < pFS.nBlocksize := by have := blocksize_large h; omega
  have hx : 0 ≤ x := (block_bounds h hb).1.trans hlo
  have hdiv : x / pFS.nBlocksize = b - 1 := by
    rw [blockStart, mul_comm] at hlo hhi
    exact (Int.ediv_eq_iff_of_pos hpos).mpr ⟨hlo, hhi⟩
  rw [fsPageToBlock, Int.tdiv_eq_ediv_of_nonneg hx, hdiv]
  omega

variable (pFS) in
/-- Different blocks have no byte in common. -/
theorem blocks_apart {b c : ℤ} (hbc : b ≠ c) :
    blockStart pFS b + pFS.nBlocksize ≤ blockStart pFS c ∨
      blockStart pFS c + pFS.nBlocksize ≤ blockStart pFS b := by
  have hpos : (0 : ℤ) ≤ pFS.nBlocksize := by omega
  have hle : ∀ {b c : ℤ}, b < c → blockStart pFS b + pFS.nBlocksize ≤ blockStart pFS c := by
    intro b c hlt
    have := mul_le_mul_of_nonneg_left (show b - 1 + 1 ≤ c - 1 by omega) hpos
    rw [mul_add, mul_one] at this
    exact this
  rcases lt_or_gt_of_ne hbc with hlt | hlt
  · exact Or.inl (hle hlt)
  · exact Or.inr (hle hlt)

theorem getU32_putU32 {x : ℤ} (h0 : 0 ≤ x) (h : x < 2 ^ 31) : lsmGetU32 (lsmPutU32 x) = x := by
  have hbytes : fromBe (beBytes 4 x.toNat) = x.toNat := fromBe_beBytes (by omega)
  unfold lsmGetU32 lsmPutU32
  simp only [hbytes, Int.toNat_of_nonneg h0]
  exact Int.bmod_eq_of_le (by omega) (by omega)

theorem fsBlockNext_nil {disk : ℤ → UInt8} {b : ℤ} : fsBlockNext pFS disk [] b =
    lsmGetU32 (readAt disk (fsLastPageOnBlock pFS b + 1) 4) := by
  have : b * pFS.nBlocksize - 4 = fsLastPageOnBlock pFS b + 1 := by
    rw [fsLastPageOnBlock]
    ring
  simp only [fsBlockNext, fsRedirectBlock]
  rw [this]

theorem fsBlockPrev_nil {disk : ℤ → UInt8} {b : ℤ} : fsBlockPrev pFS disk [] b =
    lsmGetU32 (readAt disk (fsFirstPageOnBlock pFS b - 4) 4) := rfl

/-! ### Extents of a segment -/

variable (pFS) in
/-- The block of an extent. -/
def blk (e : ℤ × ℕ) : ℤ := fsPageToBlock pFS e.1

variable (pFS) in
/-- The extent runs up to the end of its block. -/
structure Good (e : ℤ × ℕ) : Prop where
  block : 1 ≤ blk pFS e ∧ blk pFS e < 2 ^ 31
  first : fsFirstPageOnBlock pFS (blk pFS e) ≤ e.1
  pos : 0 < e.2
  last : e.1 + e.2 = fsLastPageOnBlock pFS (blk pFS e) + 1

variable (pFS) in
/-- All the data of a block. -/
def whole (b : ℤ) : ℤ × ℕ :=
  (fsFirstPageOnBlock pFS b, (fsLastPageOnBlock pFS b - fsFirstPageOnBlock pFS b + 1).toNat)

variable (h : Seg.RoomyBlocks pFS.toFileSystem)

include h in
theorem blk_whole {b : ℤ} (hb : 1 ≤ b) : blk pFS (whole pFS b) = b := by
  have := block_bounds h hb
  exact fsPageToBlock_eq h hb (by simp only [whole]; omega) (by simp only [whole]; omega)

include h in
theorem good_whole {b : ℤ} (hb : 1 ≤ b) (hb' : b < 2 ^ 31) : Good pFS (whole pFS b) := by
  have := block_bounds h hb
  refine ⟨?_, ?_, ?_, ?_⟩ <;> rw [whole] <;> try rw [← whole, blk_whole h hb]
  · exact ⟨hb, hb'⟩
  · simp only [whole, le_refl]
  · simp only
    omega
  · simp only [whole]
    omega

include h in
theorem whole_large {b : ℤ} (hb : 1 ≤ b) : 8 ≤ (whole pFS b).2 := by
  have := block_bounds h hb
  simp only [whole]
  omega

include h in
/-- The offsets of an extent, and the one behind them, lie on its block. -/
theorem Good.block_eq {e : ℤ × ℕ} (he : Good pFS e) {x : ℤ} (hlo : e.1 ≤ x)
    (hhi : x ≤ e.1 + e.2) : fsPageToBlock pFS x = blk pFS e := by
  have := block_bounds h he.block.1
  have := he.first
  have := he.last
  exact fsPageToBlock_eq h he.block.1 (by omega) (by omega)

variable (pFS) in
/-- `f` is the extent behind `e`. -/
structure LinkTo (disk : ℤ → UInt8) (e f : ℤ × ℕ) : Prop where
  whole : f.1 = fsFirstPageOnBlock pFS (blk pFS f)
  next : fsBlockNext pFS disk [] (blk pFS e) = blk pFS f
  prev : fsBlockPrev pFS disk [] (blk pFS f) = blk pFS e

variable (pFS) in
structure Chain (disk : ℤ → UInt8) (es : List (ℤ × ℕ)) : Prop where
  good : ∀ e ∈ es, Good pFS e
  nodup : (es.map (blk pFS)).Nodup
  links : es.IsChain (LinkTo pFS disk)

variable {disk : ℤ → UInt8} {es : List (ℤ × ℕ)}

include h in
theorem Chain.apart (hc : Chain pFS disk es) : Apart es := by
  have hne : es.Pairwise fun e f => blk pFS e ≠ blk pFS f := List.pairwise_map.mp hc.nodup
  refine hne.imp_of_mem fun {e f} he hf hef => ?_
  have hge := hc.good e he
  have hgf := hc.good f hf
  have h1 := block_bounds h hge.block.1
  have h2 := block_bounds h hgf.block.1
  have h3 := hge.first
  have h4 := hge.last
  have h5 := hgf.first
  have h6 := hgf.last
  rcases blocks_apart pFS hef with hlt | hlt <;> omega

theorem Chain.link {pre post : List (ℤ × ℕ)} {e f : ℤ × ℕ}
    (hc : Chain pFS disk (pre ++ e :: f :: post)) : LinkTo pFS disk e f :=
  (List.isChain_split.mp hc.links).2.rel

include h in
/-- Behind the first extent there are whole blocks. -/
theorem Chain.long (hc : Chain pFS disk es) : ∀ f ∈ es.tail, 8 ≤ f.2 := by
  intro f hf
  obtain ⟨i, hi, rfl⟩ := List.getElem_of_mem hf
  rw [List.length_tail] at hi
  have hlink := List.isChain_iff_getElem.mp hc.links i (by omega)
  have hgood := hc.good es[i + 1] (List.getElem_mem _)
  have hbound := block_bounds h hgood.block.1
  have hwhole := hlink.whole
  have hlast := hgood.last
  rw [List.getElem_tail]
  omega

variable {a n : ℕ}

include h in
theorem Chain.addOffset (hc : Chain pFS disk es) (hn : Near es a (n + 1)) :
    fsAddOffset pFS disk [] (addr es a) n = addr es (a + n) := by
  obtain ⟨pre, e, post, rfl, hlo, hhi, hz⟩ := hn
  have hgood := hc.good e (by simp)
  have hlast := hgood.last
  have hblock : fsPageToBlock pFS (addr (pre ++ e :: post) a) = blk pFS e := by
    rw [addr_split hlo hhi]
    exact hgood.block_eq h (by omega) (by omega)
  simp only [fsAddOffset, hblock]
  rw [addr_split hlo hhi]
  by_cases hin : a + n < total pre + e.2
  · rw [if_pos (by omega), addr_split (by omega) hin]
    omega
  · cases post with
    | nil =>
        simp only [List.take_nil, total_nil] at hz
        omega
    | cons f post =>
        simp only [List.take_succ_cons, List.take_zero, total_cons, total_nil] at hz
        have hlink := hc.link
        rw [if_neg (by omega), hlink.next, ← hlink.whole, List.append_cons,
          addr_split (by simp; omega) (by simp; omega)]
        simp only [total_append, total_cons, total_nil]
        omega

/-- `x` is the offset at which the first `q` places end: that of the next place, or the one behind
that of the last. -/
def EndsAt (es : List (ℤ × ℕ)) (x : ℤ) (q : ℕ) : Prop :=
  x = addr es q ∨ 0 < q ∧ x = addr es (q - 1) + 1

include h in
theorem Chain.subtractOffset (hc : Chain pFS disk es) {x : ℤ} (hn : Near es a (n + 1))
    (hpos : 0 < n) (hx : EndsAt es x (a + n)) : fsSubtractOffset pFS disk [] x n = addr es a := by
  obtain ⟨pre, e, post, rfl, hlo, hhi, hz⟩ := hn
  have hgood := hc.good e (by simp)
  have hfirst := hgood.first
  have hlast := hgood.last
  rw [addr_split hlo hhi]
  -- The end is on the block of `e`, or on the block behind it.
  have hplace : a + n ≤ total pre + e.2 ∧ x = e.1 + (a + n - total pre : ℕ) ∨
      ∃ f post', post = f :: post' ∧ total pre + e.2 ≤ a + n ∧ a + n < total pre + e.2 + f.2 ∧
        x = f.1 + (a + n - (total pre + e.2) : ℕ) := by
    by_cases hin : a + n < total pre + e.2
    · refine Or.inl ⟨hin.le, ?_⟩
      rcases hx with rfl | ⟨-, rfl⟩
      · exact addr_split (by omega) hin
      · rw [addr_split (by omega) (by omega)]
        omega
    · cases post with
      | nil =>
          simp only [List.take_nil, total_nil] at hz
          omega
      | cons f post =>
          simp only [List.take_succ_cons, List.take_zero, total_cons, total_nil] at hz
          have hsecond : ∀ q, total pre + e.2 ≤ q → q < total pre + e.2 + f.2 →
              addr (pre ++ e :: f :: post) q = f.1 + (q - (total pre + e.2) : ℕ) := by
            intro q h1 h2
            rw [List.append_cons, addr_split (by simpa using h1) (by simpa using h2)]
            simp
          rcases hx with rfl | ⟨-, rfl⟩
          · exact Or.inr ⟨f, post, rfl, by omega, by omega, hsecond _ (by omega) (by omega)⟩
          · by_cases hend : a + n = total pre + e.2
            · refine Or.inl ⟨hend.le, ?_⟩
              rw [addr_split (by omega) (by omega)]
              omega
            · refine Or.inr ⟨f, post, rfl, by omega, by omega, ?_⟩
              rw [hsecond _ (by omega) (by omega)]
              omega
  rcases hplace with ⟨h1, rfl⟩ | ⟨f, post', rfl, h1, h2, rfl⟩
  · simp only [fsSubtractOffset]
    rw [hgood.block_eq h (by omega) (by omega), if_pos (by omega)]
    omega
  · have hlink := hc.link
    have hgoodf := hc.good f (by simp)
    have hlastf := hgoodf.last
    simp only [fsSubtractOffset]
    rw [hgoodf.block_eq h (by omega) (by omega), if_neg (by have := hlink.whole; omega), hlink.prev,
      ← hlink.whole]
    omega

variable {bytes : List UInt8}

include h in
theorem Chain.readData (hc : Chain pFS disk es) (hb : Stores disk es bytes) (hn : Near es a n)
    (hlen : a + n ≤ bytes.length) :
    fsReadData pFS disk [] (addr es a) n = (bytes.drop a).take n := by
  obtain ⟨pre, e, post, rfl, hlo, hhi, hz⟩ := hn
  have hgood := hc.good e (by simp)
  have hlast := hgood.last
  have hblock : fsPageToBlock pFS (addr (pre ++ e :: post) a) = blk pFS e := by
    rw [addr_split hlo hhi]
    exact hgood.block_eq h (by omega) (by omega)
  simp only [fsReadData, hblock]
  rw [addr_split hlo hhi]
  by_cases hin : a + n ≤ total pre + e.2
  · rw [min_eq_right (by omega), if_neg (by simp), Int.toNat_natCast,
      hb.read hlo hin hlen]
  · cases post with
    | nil =>
        simp only [List.take_nil, total_nil] at hz
        omega
    | cons f post =>
        simp only [List.take_succ_cons, List.take_zero, total_cons, total_nil] at hz
        have hlink := hc.link
        obtain ⟨k, hk⟩ : ∃ k, total pre + e.2 = a + k := ⟨total pre + e.2 - a, by omega⟩
        have hmin : min (fsLastPageOnBlock pFS (blk pFS e) + 1 - (e.1 + (a - total pre : ℕ)))
            (n : ℤ) = k := by omega
        have hrest : ((n : ℤ) - k).toNat = n - k := by omega
        rw [hmin, if_pos (by omega), Int.toNat_natCast, hrest, hlink.next, ← hlink.whole,
          hb.read hlo (by omega) (by omega)]
        rw [List.append_cons] at hb
        have hsecond := hb.read (p := a + k) (n := n - k) (by simp; omega) (by simp; omega)
          (by omega)
        rw [show a + k - total (pre ++ [e]) = 0 by simp; omega, Nat.cast_zero, add_zero] at hsecond
        rw [hsecond, ← List.drop_drop, ← List.take_add]
        congr 1
        omega

end Lsm.Packed

end MoVeBench
