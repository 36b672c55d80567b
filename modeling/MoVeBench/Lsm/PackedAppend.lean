/-
MoVeBench/Lsm/PackedAppend.lean

Appending to a segment of a compressed database.

`Writing` is the state of a segment between two calls of `fsAppendData`: its blocks are linked, the
bytes appended so far are stored in them, and there is room on the last block, since a block that
becomes full is followed by a new one at once.  A call that reaches over the end of at most one
block keeps it (`appendAt_spec`); the code does not look for a second end.
-/
import MoVeBench.Lsm.PackedChain

namespace MoVeBench

namespace Lsm.Packed

open Bytes Extents

variable {pFS : FileSystem} (h : Seg.RoomyBlocks pFS.toFileSystem)

/-! ### Writes and links -/

include h in
/-- The pointers in the blocks are no data of any block. -/
theorem pointers_outside {b c i : ℤ} (hb : 1 ≤ b) (hc : 1 ≤ c) (hi0 : 0 ≤ i) (hi : i < 4) :
    (fsFirstPageOnBlock pFS c - 4 + i < fsFirstPageOnBlock pFS b ∨
        fsLastPageOnBlock pFS b < fsFirstPageOnBlock pFS c - 4 + i) ∧
      (fsLastPageOnBlock pFS c + 1 + i < fsFirstPageOnBlock pFS b ∨
        fsLastPageOnBlock pFS b < fsLastPageOnBlock pFS c + 1 + i) := by
  have h1 := block_bounds h hb
  have h2 := block_bounds h hc
  by_cases hbc : b = c
  · subst hbc
    omega
  · rcases blocks_apart pFS hbc with hlt | hlt <;> omega

variable {disk disk' : ℤ → UInt8} {pre : List (ℤ × ℕ)} {l : ℤ × ℕ} {bytes data : List UInt8}

/-- The chain depends on the pointers only. -/
theorem Chain.congr (hc : Chain pFS disk (pre ++ [l]))
    (hnext : ∀ e ∈ pre, ∀ i : ℕ, i < 4 → disk' (fsLastPageOnBlock pFS (blk pFS e) + 1 + i) =
      disk (fsLastPageOnBlock pFS (blk pFS e) + 1 + i))
    (hprev : ∀ e ∈ pre ++ [l], ∀ i : ℕ, i < 4 →
      disk' (fsFirstPageOnBlock pFS (blk pFS e) - 4 + i) =
        disk (fsFirstPageOnBlock pFS (blk pFS e) - 4 + i)) : Chain pFS disk' (pre ++ [l]) := by
  refine ⟨hc.good, hc.nodup, List.isChain_iff_getElem.mpr fun i hi => ?_⟩
  have hlink := List.isChain_iff_getElem.mp hc.links i hi
  rw [List.length_append, List.length_singleton] at hi
  have hmem : (pre ++ [l])[i] ∈ pre := by
    rw [List.getElem_append_left (by omega)]
    exact List.getElem_mem _
  refine ⟨hlink.whole, ?_, ?_⟩
  · rw [← hlink.next, fsBlockNext_nil, fsBlockNext_nil, readAt_congr (hnext _ hmem)]
  · rw [← hlink.prev, fsBlockPrev_nil, fsBlockPrev_nil,
      readAt_congr (hprev _ (List.getElem_mem _))]

include h in
/-- Data written to a block leave the links alone. -/
theorem Chain.write (hc : Chain pFS disk (pre ++ [l])) {off b : ℤ} (hb : 1 ≤ b)
    (hlo : fsFirstPageOnBlock pFS b ≤ off) (hhi : off + data.length ≤ fsLastPageOnBlock pFS b + 1) :
    Chain pFS (writeAt disk off data) (pre ++ [l]) := by
  refine hc.congr (fun e he i hi => ?_) fun e he i hi => ?_
  · have := (pointers_outside h hb (hc.good e (by simp [he])).block.1
      (Int.natCast_nonneg i) (by omega)).2
    exact writeAt_out (by omega)
  · have := (pointers_outside h hb (hc.good e he).block.1 (Int.natCast_nonneg i) (by omega)).1
    exact writeAt_out (by omega)

theorem Chain.snoc (hc : Chain pFS disk (pre ++ [l])) {d : ℤ × ℕ} (hd : Good pFS d)
    (hnew : ∀ e ∈ pre ++ [l], blk pFS e ≠ blk pFS d) (hlink : LinkTo pFS disk l d) :
    Chain pFS disk (pre ++ [l] ++ [d]) := by
  refine ⟨?_, ?_, ?_⟩
  · intro e he
    rcases List.mem_append.mp he with he | he
    · exact hc.good e he
    · rw [List.mem_singleton.mp he]
      exact hd
  · rw [List.map_append, List.nodup_append]
    refine ⟨hc.nodup, by simp, ?_⟩
    intro b hb c hc'
    obtain ⟨e, he, rfl⟩ := List.mem_map.mp hb
    rw [List.map_singleton, List.mem_singleton] at hc'
    rw [hc']
    exact hnew e he
  · rw [List.isChain_append]
    refine ⟨hc.links, List.isChain_singleton _, ?_⟩
    intro x hx y hy
    rw [List.getLast?_concat, Option.mem_some_iff] at hx
    rw [List.head?_cons, Option.mem_some_iff] at hy
    rw [← hx, ← hy]
    exact hlink

/-- The two pointers that link block `b` behind `l`. -/
def linked (pFS : FileSystem) (disk : ℤ → UInt8) (l : ℤ × ℕ) (b : ℤ) : ℤ → UInt8 :=
  writeAt (writeAt disk (l.1 + l.2) (lsmPutU32 b)) (fsFirstPageOnBlock pFS b - 4)
    (lsmPutU32 (blk pFS l))

@[simp] theorem lsmPutU32_length (x : ℤ) : (lsmPutU32 x).length = 4 := beBytes_length 4 _

theorem linked_out {b x : ℤ} (hx : x < l.1 + l.2 ∨ l.1 + l.2 + 4 ≤ x)
    (hx' : x < fsFirstPageOnBlock pFS b - 4 ∨ fsFirstPageOnBlock pFS b ≤ x) :
    linked pFS disk l b x = disk x := by
  rw [linked, writeAt_out (by rw [lsmPutU32_length]; omega),
    writeAt_out (by rw [lsmPutU32_length]; omega)]

include h in
theorem Chain.extend (hc : Chain pFS disk (pre ++ [l])) {b : ℤ} (hb : 1 ≤ b) (hb' : b < 2 ^ 31)
    (hnew : ∀ e ∈ pre ++ [l], blk pFS e ≠ b) :
    Chain pFS (linked pFS disk l b) (pre ++ [l] ++ [whole pFS b]) := by
  have hl := hc.good l (by simp)
  have hbl := block_bounds h hl.block.1
  have hbb := block_bounds h hb
  have hlast := hl.last
  have hlb := blocks_apart pFS (hnew l (by simp))
  have hkept : Chain pFS (linked pFS disk l b) (pre ++ [l]) := by
    refine hc.congr (fun e he i hi => ?_) fun e he i hi => ?_
    · have hne : blk pFS e ≠ blk pFS l := by
        have hnodup := hc.nodup
        rw [List.map_append, List.nodup_append] at hnodup
        exact hnodup.2.2 _ (List.mem_map_of_mem he) _ (by simp)
      have hbe := block_bounds h (hc.good e (by simp [he])).block.1
      have h1 := blocks_apart pFS hne
      have h2 := blocks_apart pFS (hnew e (by simp [he]))
      exact linked_out (by omega) (by omega)
    · have hbe := block_bounds h (hc.good e he).block.1
      have h2 := blocks_apart pFS (hnew e he)
      have h1 : blk pFS e = blk pFS l ∨ blk pFS e ≠ blk pFS l := em _
      rcases h1 with h1 | h1
      · rw [h1] at hbe h2 ⊢
        exact linked_out (by omega) (by omega)
      · have h1 := blocks_apart pFS h1
        exact linked_out (by omega) (by omega)
  refine hkept.snoc (good_whole h hb hb') (by rwa [blk_whole h hb]) ?_
  refine ⟨by rw [blk_whole h hb]; rfl, ?_, ?_⟩
  · rw [fsBlockNext_nil, blk_whole h hb, ← hlast]
    have hread : readAt (linked pFS disk l b) (l.1 + l.2) 4 = lsmPutU32 b := by
      refine readAt_writeAt (lsmPutU32 b) (m := disk) fun i hi => ?_
      rw [lsmPutU32_length] at hi
      exact writeAt_out (by rw [lsmPutU32_length]; omega)
    rw [hread, getU32_putU32 (by omega) hb']
  · rw [fsBlockPrev_nil, blk_whole h hb]
    have hread : readAt (linked pFS disk l b) (fsFirstPageOnBlock pFS b - 4) 4 =
        lsmPutU32 (blk pFS l) := readAt_writeAt (lsmPutU32 (blk pFS l)) fun i hi => rfl
    rw [hread, getU32_putU32 (by have := hl.block; omega) hl.block.2]

/-! ### One call -/

/-- The blocks that the allocator hands out from the `n`-th to the `k`-th. -/
structure Handed (alloc : ℕ → ℤ) (n k : ℕ) : Prop where
  block : ∀ i, n ≤ i → i < k → 1 ≤ alloc i ∧ alloc i < 2 ^ 31
  distinct : ∀ i j, n ≤ i → i < j → j < k → alloc i ≠ alloc j

variable {alloc : ℕ → ℤ} {k : ℕ} {w w' : Worker} {iApp : ℤ} {z : ℕ}

variable (pFS alloc k) in
/-- `bytes` have been appended to a segment, whose last block is that of `l`. -/
structure Writing (w : Worker) (pre : List (ℤ × ℕ)) (l : ℤ × ℕ) (bytes : List UInt8) : Prop where
  chain : Chain pFS w.disk (pre ++ [l])
  start : addr (pre ++ [l]) 0 = w.seg.iFirst
  handed : Handed alloc w.nAlloc k
  fresh : ∀ e ∈ pre ++ [l], ∀ i, w.nAlloc ≤ i → i < k → blk pFS e ≠ alloc i
  stores : Stores w.disk (pre ++ [l]) bytes
  behind : total pre ≤ bytes.length
  room : bytes.length < total pre + l.2
  redirect : w.seg.pRedirect = []

/-- The offset of the next byte on the last block. -/
def nextOff (pre : List (ℤ × ℕ)) (l : ℤ × ℕ) (bytes : List UInt8) : ℤ :=
  l.1 + (bytes.length - total pre : ℕ)

theorem Writing.nextOff_eq (hw : Writing pFS alloc k w pre l bytes) :
    addr (pre ++ [l]) bytes.length = nextOff pre l bytes := addr_split hw.behind hw.room

variable (data) in
include h in
/-- Bytes for which there is room on the last block. -/
theorem Writing.write (hw : Writing pFS alloc k w pre l bytes)
    (hroom : bytes.length + data.length < total pre + l.2) (iLastPg : ℤ) :
    Writing pFS alloc k { w with
      disk := writeAt w.disk (nextOff pre l bytes) data, seg.iLastPg := iLastPg } pre l
      (bytes ++ data) := by
  have hl := hw.chain.good l (by simp)
  have hfirst := hl.first
  have hlast := hl.last
  have hbehind := hw.behind
  refine ⟨?_, hw.start, hw.handed, hw.fresh, ?_, ?_, ?_, hw.redirect⟩
  · refine hw.chain.write h hl.block.1 ?_ ?_ <;> rw [nextOff] <;> omega
  · exact hw.stores.write (hw.chain.apart h) hbehind (by omega)
  · rw [List.length_append]
    omega
  · rw [List.length_append]
    omega

variable (data) in
include h in
/-- The last block is full and a new one is linked behind it. -/
theorem Writing.extend (hw : Writing pFS alloc k w pre l bytes) (hk : w.nAlloc < k)
    (hfull : bytes.length + data.length = total pre + l.2) :
    Writing pFS alloc k { w with
      disk := linked pFS (writeAt w.disk (nextOff pre l bytes) data) l (alloc w.nAlloc)
      nAlloc := w.nAlloc + 1 } (pre ++ [l]) (whole pFS (alloc w.nAlloc)) (bytes ++ data) := by
  have hl := hw.chain.good l (by simp)
  have hfirst := hl.first
  have hlast := hl.last
  have hbehind := hw.behind
  obtain ⟨hb, hb'⟩ := hw.handed.block w.nAlloc le_rfl hk
  have hnew : ∀ e ∈ pre ++ [l], blk pFS e ≠ alloc w.nAlloc := fun e he =>
    hw.fresh e he _ le_rfl hk
  have hchain : Chain pFS (writeAt w.disk (nextOff pre l bytes) data) (pre ++ [l]) := by
    refine hw.chain.write h hl.block.1 ?_ ?_ <;> rw [nextOff] <;> omega
  have hstores := hw.stores.write (hw.chain.apart h) hbehind hfull.le
  have hlen : (bytes ++ data).length = total (pre ++ [l]) := by simp [hfull]
  have hbb := block_bounds h hb
  have hlarge := whole_large h hb
  refine ⟨hchain.extend h hb hb' hnew, ?_, ⟨?_, ?_⟩, ?_, ?_, hlen.ge, by omega, hw.redirect⟩
  · rw [addr_append_left (by have := hw.room; simp; omega)]
    exact hw.start
  · exact fun i hi => hw.handed.block i (by simp only at hi; omega)
  · exact fun i j hi => hw.handed.distinct i j (by simp only at hi; omega)
  · intro e he i hi hik
    simp only at hi
    rcases List.mem_append.mp he with he | he
    · exact hw.fresh e he i (by omega) hik
    · rw [List.mem_singleton.mp he, blk_whole h hb]
      exact hw.handed.distinct _ _ le_rfl (by omega) hik
  · refine (hstores.congr fun p hp => ?_).append_extents hlen.le
    obtain ⟨e, he, h1, h2⟩ := addr_mem (show p < total (pre ++ [l]) by omega)
    have hgood := hw.chain.good e he
    have h3 := (pointers_outside h hgood.block.1 hl.block.1 le_rfl (by norm_num)).2
    have h4 := (pointers_outside h hgood.block.1 hl.block.1 (i := 3) (by norm_num) (by norm_num)).2
    have h5 := (pointers_outside h hgood.block.1 hb le_rfl (by norm_num)).1
    have h6 := (pointers_outside h hgood.block.1 hb (i := 3) (by norm_num) (by norm_num)).1
    have h7 := hgood.first
    have h8 := hgood.last
    have h9 := block_bounds h hgood.block.1
    exact linked_out (by omega) (by omega)

@[simp] theorem writeAt_nil {off : ℤ} : writeAt disk off [] = disk := by
  funext b
  simp [writeAt]

include h in
theorem appendAt_within (hw : Writing pFS alloc k w pre l bytes)
    (hroom : bytes.length + data.length < total pre + l.2) :
    appendAt pFS alloc w (nextOff pre l bytes) data =
      ({ w with
          disk := writeAt w.disk (nextOff pre l bytes) data
          seg.iLastPg := nextOff pre l bytes + data.length - 1 }, nextOff pre l bytes) := by
  have hl := hw.chain.good l (by simp)
  have hlast := hl.last
  have hbehind := hw.behind
  have hnext : nextOff pre l bytes = l.1 + (bytes.length - total pre : ℕ) := rfl
  have hblock : fsPageToBlock pFS (nextOff pre l bytes) = blk pFS l :=
    hl.block_eq h (by omega) (by omega)
  have hwrite : (min (data.length : ℤ) (fsLastPageOnBlock pFS (blk pFS l) -
      nextOff pre l bytes + 1)).toNat = data.length := by omega
  simp only [appendAt, hblock, hwrite, List.take_length]
  rw [if_neg (by omega)]

variable (data) in
include h in
theorem appendAt_cross (hw : Writing pFS alloc k w pre l bytes) {r : ℕ}
    (hr : bytes.length + r = total pre + l.2) (hfull : r ≤ data.length) :
    appendAt pFS alloc w (nextOff pre l bytes) data =
      ({ w with
          disk := writeAt (linked pFS (writeAt w.disk (nextOff pre l bytes) (data.take r)) l
            (alloc w.nAlloc)) (fsFirstPageOnBlock pFS (alloc w.nAlloc)) (data.drop r)
          seg.iLastPg := (if r < data.length then fsFirstPageOnBlock pFS (alloc w.nAlloc)
            else l.1 + l.2) + (data.length - r : ℕ) - 1
          nAlloc := w.nAlloc + 1 }, nextOff pre l bytes) := by
  have hl := hw.chain.good l (by simp)
  have hlast := hl.last
  have hbehind := hw.behind
  have hroom := hw.room
  have hnext : nextOff pre l bytes = l.1 + (bytes.length - total pre : ℕ) := rfl
  have hblock : fsPageToBlock pFS (nextOff pre l bytes) = blk pFS l :=
    hl.block_eq h (by omega) (by omega)
  have hwrite : (min (data.length : ℤ) (fsLastPageOnBlock pFS (blk pFS l) -
      nextOff pre l bytes + 1)).toNat = r := by omega
  have hend : nextOff pre l bytes + r = l.1 + l.2 := by omega
  have hblock' : fsPageToBlock pFS (l.1 + l.2) = blk pFS l := hl.block_eq h (by omega) le_rfl
  simp only [appendAt, hblock, hwrite, hend, hblock', Nat.sub_pos_iff_lt]
  rw [if_pos (by omega), if_pos (by omega)]
  by_cases hlt : r < data.length
  · simp only [if_pos hlt, linked]
  · have hdrop : data.drop r = [] := List.drop_eq_nil_of_le (by omega)
    simp only [if_neg hlt, hdrop, writeAt_nil, linked]

include h in
/-- The last block is empty, and the data go to its begin though the segment ends before it. -/
theorem appendAt_next {pre' : List (ℤ × ℕ)} {c : ℤ × ℕ}
    (hw : Writing pFS alloc k w (pre' ++ [c]) l bytes)
    (hempty : bytes.length = total (pre' ++ [c])) :
    appendAt pFS alloc w (c.1 + c.2) data =
      ({ w with
          disk := writeAt w.disk (nextOff (pre' ++ [c]) l bytes) data
          seg.iLastPg := nextOff (pre' ++ [c]) l bytes + data.length - 1 },
        nextOff (pre' ++ [c]) l bytes) := by
  have hc := hw.chain.good c (by simp)
  have hlast := hc.last
  have hlink : LinkTo pFS w.disk c l := by
    have hchain := hw.chain
    rw [List.append_assoc, List.singleton_append] at hchain
    exact hchain.link
  have hnext : nextOff (pre' ++ [c]) l bytes = l.1 := by
    rw [nextOff, hempty, Nat.sub_self, Nat.cast_zero, add_zero]
  have hblock : fsPageToBlock pFS (c.1 + c.2) = blk pFS c := hc.block_eq h (by omega) le_rfl
  have hwrite : (min (data.length : ℤ) (fsLastPageOnBlock pFS (blk pFS c) -
      (c.1 + c.2) + 1)).toNat = 0 := by omega
  simp only [appendAt, hblock, hwrite, List.take_zero, List.drop_zero, Nat.sub_zero,
    Nat.cast_zero, add_zero, lt_irrefl, if_false, writeAt_nil, hlink.next, ← hlink.whole, hnext]
  rw [if_pos (by omega)]

/-- The offset from which `fsAppendData` goes on: the next byte, or the end of the block before a
last block that is empty. -/
def AppendsAt (pre : List (ℤ × ℕ)) (l : ℤ × ℕ) (bytes : List UInt8) (iApp : ℤ) : Prop :=
  iApp = nextOff pre l bytes ∨
    bytes.length = total pre ∧ ∃ pre' c, pre = pre' ++ [c] ∧ iApp = c.1 + c.2

variable (pFS alloc) in
/-- `z` bytes reach over the end of at most one block, and do not fill a second one; they do not
reach over the end of a block when there is a pointer to follow first. -/
def Fits (w : Worker) (pre : List (ℤ × ℕ)) (l : ℤ × ℕ) (bytes : List UInt8) (iApp : ℤ) (z : ℕ) :
    Prop :=
  bytes.length + z ≤ total pre + l.2 ∨
    iApp = nextOff pre l bytes ∧
      bytes.length + z < total pre + l.2 + (whole pFS (alloc w.nAlloc)).2

variable (pFS alloc) in
/-- The extents have not changed, or they begin with the old ones and the next block. -/
def Grows (w w' : Worker) (es es' : List (ℤ × ℕ)) : Prop :=
  w'.nAlloc = w.nAlloc ∧ es' = es ∨
    w.nAlloc < w'.nAlloc ∧ ∃ fs, es' = es ++ whole pFS (alloc w.nAlloc) :: fs

theorem Grows.trans {w'' : Worker} {es es' es'' : List (ℤ × ℕ)}
    (h1 : Grows pFS alloc w w' es es') (h2 : Grows pFS alloc w' w'' es' es'') :
    Grows pFS alloc w w'' es es'' := by
  rcases h1 with ⟨hn, rfl⟩ | ⟨hn, fs, rfl⟩
  · rcases h2 with ⟨hn', rfl⟩ | ⟨hn', gs, rfl⟩
    · exact Or.inl ⟨hn'.trans hn, rfl⟩
    · rw [hn] at hn'
      exact Or.inr ⟨hn', gs, by rw [hn]⟩
  · rcases h2 with ⟨hn', rfl⟩ | ⟨hn', gs, rfl⟩
    · exact Or.inr ⟨by omega, fs, rfl⟩
    · exact Or.inr ⟨by omega, fs ++ whole pFS (alloc w'.nAlloc) :: gs, by simp⟩

theorem Grows.prefix {es es' : List (ℤ × ℕ)} (hg : Grows pFS alloc w w' es es') :
    ∃ fs, es' = es ++ fs := by
  rcases hg with ⟨-, rfl⟩ | ⟨-, fs, rfl⟩
  · exact ⟨[], by simp⟩
  · exact ⟨_, rfl⟩

variable (pFS alloc k) in
/-- What a call of `fsAppendData` has done. -/
structure Appended (w : Worker) (pre : List (ℤ × ℕ)) (l : ℤ × ℕ) (bytes data : List UInt8) (z : ℕ)
    (w' : Worker) (pre' : List (ℤ × ℕ)) (l' : ℤ × ℕ) : Prop where
  writing : Writing pFS alloc k w' pre' l' (bytes ++ data)
  grows : Grows pFS alloc w w' (pre ++ [l]) (pre' ++ [l'])
  appendsAt : AppendsAt pre' l' (bytes ++ data) (w'.seg.iLastPg + 1)
  fits : Fits pFS alloc w' pre' l' (bytes ++ data) (w'.seg.iLastPg + 1) z
  last : data ≠ [] →
    w'.seg.iLastPg = addr (pre' ++ [l']) ((bytes ++ data).length - 1)

variable (data) in
include h in
theorem appendAt_spec (hw : Writing pFS alloc k w pre l bytes) (hat : AppendsAt pre l bytes iApp)
    (hfit : bytes.length + z ≤ total pre + l.2 ∨
      (iApp = nextOff pre l bytes ∨ data.length < 8) ∧
        bytes.length + z < total pre + l.2 + (whole pFS (alloc w.nAlloc)).2)
    (hz : data.length < z ∨ data.length = z ∧ z < 8)
    (hk : (appendAt pFS alloc w iApp data).1.nAlloc ≤ k) :
    (appendAt pFS alloc w iApp data).2 = addr (pre ++ [l]) bytes.length ∧
      ∃ pre' l', Appended pFS alloc k w pre l bytes data (z - data.length)
        (appendAt pFS alloc w iApp data).1 pre' l' := by
  have hbehind := hw.behind
  have hroom := hw.room
  rw [hw.nextOff_eq]
  -- There is room on the last block.
  have hin : bytes.length + data.length < total pre + l.2 →
      appendAt pFS alloc w iApp data = ({ w with
        disk := writeAt w.disk (nextOff pre l bytes) data
        seg.iLastPg := nextOff pre l bytes + data.length - 1 }, nextOff pre l bytes) →
      (appendAt pFS alloc w iApp data).2 = nextOff pre l bytes ∧
      ∃ pre' l', Appended pFS alloc k w pre l bytes data (z - data.length)
        (appendAt pFS alloc w iApp data).1 pre' l' := by
    intro hlt heq
    rw [heq]
    have hnext : nextOff pre l (bytes ++ data) = nextOff pre l bytes + data.length := by
      rw [nextOff, nextOff, List.length_append]
      omega
    have hafter : nextOff pre l bytes + data.length - 1 + 1 = nextOff pre l (bytes ++ data) := by
      omega
    refine ⟨rfl, pre, l, hw.write h data hlt _, Or.inl ⟨rfl, rfl⟩, Or.inl hafter, ?_, ?_⟩
    · rcases hfit with hfit | ⟨-, hfit⟩
      · exact Or.inl (by rw [List.length_append]; omega)
      · exact Or.inr ⟨hafter, by rw [List.length_append]; simp only; omega⟩
    · intro hne
      have hpos := List.length_pos_iff.mpr hne
      rw [List.length_append, addr_split (by omega) (by omega)]
      simp only [nextOff]
      omega
  by_cases hx : iApp = nextOff pre l bytes
  · subst hx
    by_cases hlt : bytes.length + data.length < total pre + l.2
    · exact hin hlt (appendAt_within h hw hlt)
    · obtain ⟨r, hr⟩ : ∃ r, bytes.length + r = total pre + l.2 :=
        ⟨total pre + l.2 - bytes.length, by omega⟩
      have heq := appendAt_cross h data hw hr (by omega)
      rw [heq] at hk ⊢
      obtain ⟨hb, hb'⟩ := hw.handed.block w.nAlloc le_rfl hk
      have hlarge := whole_large h hb
      have htake : (data.take r).length = r := by simp; omega
      have hext := hw.extend h (data.take r) hk (by omega)
      have hnext : nextOff (pre ++ [l]) (whole pFS (alloc w.nAlloc)) (bytes ++ data.take r) =
          fsFirstPageOnBlock pFS (alloc w.nAlloc) := by
        simp only [nextOff, List.length_append, htake, hr, total_append, total_cons, total_nil,
          add_zero, Nat.sub_self, Nat.cast_zero, whole]
      have hrest : data.length - r < (whole pFS (alloc w.nAlloc)).2 := by omega
      have hwrite := hext.write h (data.drop r) (by simp [htake]; omega)
      rw [hnext, List.append_assoc, List.take_append_drop] at hwrite
      have hlen : (bytes ++ data).length = bytes.length + data.length := List.length_append
      have htotal : total (pre ++ [l]) = total pre + l.2 := by simp
      refine ⟨rfl, pre ++ [l], whole pFS (alloc w.nAlloc), hwrite _, Or.inr ⟨by simp, [], rfl⟩,
        ?_, Or.inl (by omega), fun hne => ?_⟩
      · by_cases hmore : r < data.length
        · left
          simp only [if_pos hmore, nextOff, whole, hlen, htotal]
          omega
        · right
          simp only [if_neg hmore]
          exact ⟨by omega, pre, l, rfl, by omega⟩
      · have hpos := List.length_pos_iff.mpr hne
        by_cases hmore : r < data.length
        · rw [addr_split (by omega) (by omega)]
          simp only [if_pos hmore, whole, hlen, htotal]
          omega
        · rw [addr_append_left (by omega), addr_split (by omega) (by omega)]
          simp only [if_neg hmore]
          omega
  · obtain ⟨hempty, pre', c, rfl, rfl⟩ := hat.resolve_left hx
    have hlong : 8 ≤ l.2 := hw.chain.long h l (by cases pre' <;> simp)
    have hshort := hfit.imp_right fun hor => And.intro (hor.1.resolve_left hx) hor.2
    have hlt : bytes.length + data.length < total (pre' ++ [c]) + l.2 := by omega
    exact hin hlt (appendAt_next h hw hempty)

end Lsm.Packed

end MoVeBench
