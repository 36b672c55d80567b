/-
MoVeBench/Lsm/PackedWalk.lean

Walking over the records of a segment of a compressed database.

`Laid` says that records lie one behind the other in the extents of a segment.  Then each is found
at its offset (`Laid.found`), the walk with `fsNextPageOffset` meets them in their order
(`Laid.forward`) and the one with `fsGetPageBefore` in the opposite order (`Laid.backward`).
-/
import MoVeBench.Lsm.PackedChain

namespace MoVeBench

namespace Lsm.Packed

open Bytes Extents

/-! ### Records -/

theorem low_bits (b : UInt8) : ((b ||| 0x80) &&& 0x7F).toNat = b.toNat % 128 ∧
    (((b &&& 0x7F) ||| 0x80) &&& 0x7F).toNat = b.toNat % 128 ∧
    (((b &&& 0x7F) ||| 0x00) &&& 0x7F).toNat = b.toNat % 128 ∧ (b ||| 0x80) &&& 0x80 = 0x80 ∧
    ((b &&& 0x7F) ||| 0x00) &&& 0x80 = 0 := by
  have hall : ∀ n < 256, let b := UInt8.ofNat n
      ((b ||| 0x80) &&& 0x7F).toNat = b.toNat % 128 ∧
      (((b &&& 0x7F) ||| 0x80) &&& 0x7F).toNat = b.toNat % 128 ∧
      (((b &&& 0x7F) ||| 0x00) &&& 0x7F).toNat = b.toNat % 128 ∧ (b ||| 0x80) &&& 0x80 = 0x80 ∧
      ((b &&& 0x7F) ||| 0x00) &&& 0x80 = 0 := by decide +kernel
  simpa using hall b.toNat b.toNat_lt

theorem putRecordSize_length (n : ℕ) (bFree : Bool) : (putRecordSize n bFree).length = 3 := rfl

theorem getRecordSize_put {n : ℕ} (hn : n < 2 ^ 21) (bFree : Bool) :
    getRecordSize (putRecordSize n bFree) = (n, bFree) := by
  have h0 := low_bits (.ofNat (n >>> 14))
  have h1 := low_bits (.ofNat (n >>> 7))
  have h2 := low_bits (.ofNat n)
  simp only [UInt8.toNat_ofNat', Nat.shiftRight_eq_div_pow] at h0 h1 h2
  have h3 := low_bits (.ofNat (n >>> 7) &&& 0x7F)
  cases bFree <;>
    simp only [getRecordSize, putRecordSize, List.getD_cons_zero, List.getD_cons_succ,
      Bool.false_eq_true, if_false, if_true, Nat.shiftRight_eq_div_pow, Nat.shiftLeft_eq, h0, h1,
      h2, Prod.mk.injEq]
  · rw [Nat.shiftRight_eq_div_pow] at h3
    exact ⟨by omega, by rw [h3.2.2.2.1]; rfl⟩
  · exact ⟨by omega, by rfl⟩

/-- The bytes of a record. -/
def Rec.bytes : Rec → List UInt8
  | .page aData =>
      putRecordSize aData.length false ++ aData ++ putRecordSize aData.length false
  | .space n =>
      if 6 ≤ n then
        putRecordSize (n - 6) true ++ List.replicate (n - 6) 0 ++ putRecordSize (n - 6) true
      else shortPadding n

/-- The size of the record has at most 21 bits. -/
def Rec.Ok : Rec → Prop
  | .page aData => aData.length < 2 ^ 21
  | .space n => 0 < n ∧ n - 6 < 2 ^ 21

theorem shortPadding_length (n : ℕ) : (shortPadding n).length = n := by simp [shortPadding]

theorem Rec.bytes_length (r : Rec) : r.bytes.length = r.size := by
  cases r with
  | page aData =>
      simp only [bytes, size, List.length_append, putRecordSize_length]
      omega
  | space n =>
      rw [bytes, size]
      split_ifs with hn
      · simp only [List.length_append, putRecordSize_length, List.length_replicate]
        omega
      · exact shortPadding_length n

theorem Rec.size_pos {r : Rec} (hr : r.Ok) : 0 < r.size := by
  cases r with
  | page aData => exact Nat.succ_pos _
  | space n => exact hr.1

/-- The records of both long forms. -/
theorem Rec.cases {r : Rec} (hr : r.Ok) :
    (∃ n bFree aData, r.bytes = putRecordSize n bFree ++ aData ++ putRecordSize n bFree ∧
        aData.length = n ∧ n < 2 ^ 21 ∧ r.size = n + 6 ∧
        r = if bFree then .space (n + 6) else .page aData) ∨
      ∃ n, 0 < n ∧ n < 6 ∧ r = .space n ∧ r.bytes = shortPadding n := by
  cases r with
  | page aData => exact Or.inl ⟨aData.length, false, aData, rfl, rfl, hr, rfl, rfl⟩
  | space n =>
      by_cases hn : 6 ≤ n
      · refine Or.inl ⟨n - 6, true, List.replicate (n - 6) 0, if_pos hn, by simp, hr.2, ?_, ?_⟩
        · rw [size]
          omega
        · rw [if_pos rfl, Nat.sub_add_cancel hn]
      · exact Or.inr ⟨n, hr.1, by omega, rfl, if_neg hn⟩

theorem shortPadding_ends : ∀ n < 6, 0 < n →
    (shortPadding n)[0]? = some (.ofNat n) ∧ (shortPadding n)[n - 1]? = some (.ofNat n) := by
  decide

/-! ### Laying out -/

/-- The bytes of records that follow one another. -/
def flat (recs : List (ℤ × Rec)) : List UInt8 := recs.flatMap fun x => x.2.bytes

@[simp] theorem flat_nil : flat [] = [] := rfl

@[simp] theorem flat_append (rs ss : List (ℤ × Rec)) : flat (rs ++ ss) = flat rs ++ flat ss :=
  List.flatMap_append

@[simp] theorem flat_cons (x : ℤ × Rec) (rs : List (ℤ × Rec)) :
    flat (x :: rs) = x.2.bytes ++ flat rs := List.flatMap_cons

variable {pFS : FileSystem}

/-- The record `x` lies behind those in `rs`, on at most two blocks. -/
structure LaidAt (es : List (ℤ × ℕ)) (rs : List (ℤ × Rec)) (x : ℤ × Rec) : Prop where
  off : x.1 = addr es (flat rs).length
  ok : x.2.Ok
  near : Near es (flat rs).length (x.2.size + 1)

theorem LaidAt.append {es fs : List (ℤ × ℕ)} {rs : List (ℤ × Rec)} {x : ℤ × Rec}
    (hx : LaidAt es rs x) : LaidAt (es ++ fs) rs x :=
  ⟨by rw [hx.off, addr_append_left (by have := hx.near.le_total; omega)], hx.ok, hx.near.append⟩

variable (pFS) in
/-- The segment consists of the records. -/
structure Laid (disk : ℤ → UInt8) (pSeg : Segment) (es : List (ℤ × ℕ))
    (recs : List (ℤ × Rec)) : Prop where
  chain : Chain pFS disk es
  stores : Stores disk es (flat recs)
  redirect : pSeg.pRedirect = []
  start : addr es 0 = pSeg.iFirst
  last : pSeg.iLastPg = addr es ((flat recs).length - 1)
  laid : ∀ rs x post, recs = rs ++ x :: post → LaidAt es rs x
  /-- The first record is a page. -/
  head : ∃ iPg aData post, recs = (iPg, .page aData) :: post

variable {disk : ℤ → UInt8} {pSeg : Segment} {es : List (ℤ × ℕ)} {recs : List (ℤ × Rec)}
  (h : Seg.RoomyBlocks pFS.toFileSystem)

include h in
/-- The first byte that `fsReadData` reads. -/
theorem Chain.readData_head (hc : Chain pFS disk es) {a : ℕ} (ha : a < total es) {n : ℕ}
    (hn : 0 < n) : (fsReadData pFS disk [] (addr es a) n).getD 0 0 = disk (addr es a) := by
  obtain ⟨pre, e, post, rfl, hlo, hhi⟩ := exists_split ha
  have hgood := hc.good e (by simp)
  have hlast := hgood.last
  have haddr : addr (pre ++ e :: post) a = e.1 + (a - total pre : ℕ) := addr_split hlo hhi
  have hblock : fsPageToBlock pFS (addr (pre ++ e :: post) a) = blk pFS e := by
    rw [haddr]
    exact hgood.block_eq h (by omega) (by omega)
  have hhead : ∀ (x : ℤ) (m : ℕ) (tl : List UInt8), 0 < m →
      (readAt disk x m ++ tl).getD 0 0 = disk x := by
    intro x m tl hm
    rw [List.getD_eq_getElem _ _ (by simp; omega), List.getElem_append_left (by simpa using hm),
      readAt_getElem]
    simp
  have hpos : 0 < (min (fsLastPageOnBlock pFS (blk pFS e) + 1 -
      addr (pre ++ e :: post) a) (n : ℤ)).toNat := by
    rw [haddr]
    omega
  simp only [fsReadData, hblock]
  split
  · exact hhead _ _ _ hpos
  · rw [← List.append_nil (readAt _ _ _)]
    exact hhead _ _ _ hpos

/-! ### What is found at an offset -/

theorem flat_split {rs post : List (ℤ × Rec)} {x : ℤ × Rec}
    (hx : recs = rs ++ x :: post) :
    flat recs = flat rs ++ x.2.bytes ++ flat post ∧
      (flat rs).length + x.2.size ≤ (flat recs).length := by
  have hflat : flat recs = flat rs ++ x.2.bytes ++ flat post := by
    rw [hx, flat_append, flat_cons, List.append_assoc]
  refine ⟨hflat, ?_⟩
  rw [hflat, List.length_append, List.length_append, Rec.bytes_length]
  omega

/-- Bytes in the middle of others. -/
theorem take_drop_middle {xs ys zs : List UInt8} {a n : ℕ} (ha : xs.length = a)
    (hn : ys.length = n) : ((xs ++ ys ++ zs).drop a).take n = ys := by
  rw [List.append_assoc, List.drop_append_of_le_length ha.ge, List.drop_of_length_le ha.le,
    List.nil_append, List.take_append_of_le_length hn.ge, List.take_of_length_le hn.le]

include h in
theorem Laid.found (hl : Laid pFS disk pSeg es recs) {rs post : List (ℤ × Rec)} {x : ℤ × Rec}
    (hx : recs = rs ++ x :: post) : fsReadPagedata pFS disk pSeg.pRedirect x.1 = x.2 := by
  obtain ⟨hflat, hle⟩ := flat_split hx
  have hat := hl.laid rs x post hx
  have hnear := hat.near
  rw [hl.redirect, hat.off]
  rcases Rec.cases hat.ok with ⟨n, bFree, aData, hbytes, hn, hlt, hsize, hrec⟩ |
    ⟨n, h0, h6, hrec, hbytes⟩
  · rw [hsize] at hle hnear
    have hread : fsReadData pFS disk [] (addr es (flat rs).length) 3 = putRecordSize n bFree := by
      have hdata := hl.chain.readData h hl.stores (n := 3) (hnear.mono (by omega)) (by omega)
      rw [Nat.cast_ofNat] at hdata
      rw [hdata, hflat, hbytes]
      simp only [List.append_assoc]
      rw [← List.append_assoc (flat rs)]
      exact take_drop_middle rfl rfl
    have hflag : (putRecordSize n bFree).getD 0 0 &&& 0x80 ≠ 0 := by
      rw [putRecordSize, List.getD_cons_zero, (low_bits _).2.2.2.1]
      decide
    simp only [fsReadPagedata, hread, if_pos hflag, getRecordSize_put hlt]
    rw [hrec]
    cases bFree with
    | true => rfl
    | false =>
        simp only [Bool.false_eq_true, if_false, Rec.page.injEq]
        have hadd := hl.chain.addOffset h (n := 3) (hnear.mono (by omega))
        rw [Nat.cast_ofNat] at hadd
        have hdata : Near es ((flat rs).length + 3) n :=
          (hnear.drop (k := 3) (by omega)).mono (by omega)
        rw [hadd, hl.chain.readData h hl.stores hdata (by omega), hflat, hbytes]
        rw [← List.append_assoc, ← List.append_assoc, List.append_assoc _ _ (flat post)]
        exact take_drop_middle (by rw [List.length_append, putRecordSize_length]) hn
  · have hends := shortPadding_ends n h6 h0
    have hbyte : disk (addr es (flat rs).length) = .ofNat n := by
      have hmem : (flat recs)[(flat rs).length]? = some (.ofNat n) := by
        rw [hflat, hbytes, List.append_assoc, List.getElem?_append_right le_rfl, Nat.sub_self,
          List.getElem?_append_left (by rw [shortPadding_length]; exact h0), hends.1]
      obtain ⟨hlt, heq⟩ := List.getElem?_eq_some_iff.mp hmem
      rw [hl.stores _ hlt, heq]
    have hfirst := hl.chain.readData_head h (a := (flat rs).length) (n := 3)
      (by have := hnear.le_total; omega) (by norm_num)
    rw [Nat.cast_ofNat] at hfirst
    simp only [fsReadPagedata, hfirst, hbyte]
    rw [hrec]
    have hsmall : ∀ n < 6, ¬ ((UInt8.ofNat n) &&& 0x80 ≠ 0) ∧ (UInt8.ofNat n).toNat = n := by
      decide
    rw [if_neg (hsmall n h6).1, (hsmall n h6).2]

/-! ### Forwards -/

theorem Laid.length_le (hl : Laid pFS disk pSeg es recs) : (flat recs).length < total es := by
  obtain ⟨iPg, aData, post, hhead⟩ := hl.head
  obtain ⟨rs, x, hlast⟩ := recs.eq_nil_or_concat.resolve_left (by simp [hhead])
  rw [List.concat_eq_append] at hlast
  have hat := (hl.laid rs x [] hlast).near.le_total
  rw [hlast, flat_append, flat_cons, flat_nil, List.append_nil, List.length_append,
    Rec.bytes_length]
  omega

include h in
theorem Laid.next (hl : Laid pFS disk pSeg es recs) {rs post : List (ℤ × Rec)} {x : ℤ × Rec}
    (hx : recs = rs ++ x :: post) : fsNextPageOffset pFS disk pSeg x.1 x.2.size =
      if post = [] then 0 else addr es (flat (rs ++ [x])).length := by
  obtain ⟨hflat, hle⟩ := flat_split hx
  have hat := hl.laid rs x post hx
  have hpos := Rec.size_pos hat.ok
  have htotal := hl.length_le
  have hlast := hl.chain.addOffset h (n := x.2.size - 1) (hat.near.mono (by omega))
  rw [Nat.cast_sub hpos, Nat.cast_one] at hlast
  simp only [fsNextPageOffset, hl.redirect, hat.off, hlast, hl.last]
  have hpost : post = [] ↔ (flat rs).length + x.2.size = (flat recs).length := by
    constructor
    · rintro rfl
      rw [hflat, flat_nil, List.append_nil, List.length_append, Rec.bytes_length]
    · intro hlen
      rcases post with _ | ⟨y, post⟩
      · rfl
      · have hy := hl.laid (rs ++ [x]) y post (by simp [hx])
        have hypos := Rec.size_pos hy.ok
        rw [hflat] at hlen
        simp only [List.length_append, Rec.bytes_length, flat_cons] at hlen
        omega
  by_cases hnil : post = []
  · rw [if_pos hnil, if_pos (by rw [← hpost.mp hnil, Nat.add_sub_assoc hpos])]
  · have hlt : (flat rs).length + x.2.size < (flat recs).length := by
      rcases hle.lt_or_eq with hlt | heq
      · exact hlt
      · exact absurd (hpost.mpr heq) hnil
    rw [if_neg hnil, if_neg]
    · have hone := hl.chain.addOffset h (a := (flat rs).length + (x.2.size - 1)) (n := 1)
        (near_of_le (hl.chain.long h) (by norm_num) (by omega) (by omega))
      rw [Nat.cast_one] at hone
      rw [hone]
      simp only [flat_append, flat_cons, flat_nil, List.append_nil, List.length_append,
        Rec.bytes_length]
      congr 1
      omega
    · intro heq
      have := addr_inj (hl.chain.apart h) (by omega) (by omega) heq
      omega

theorem Chain.addr_pos (hc : Chain pFS disk es) (h : Seg.RoomyBlocks pFS.toFileSystem) {a : ℕ}
    (ha : a < total es) : 0 < addr es a := by
  obtain ⟨e, he, h1, -⟩ := addr_mem ha
  have hgood := hc.good e he
  have := block_bounds h hgood.block.1
  have := hgood.first
  omega

include h in
theorem Laid.forward (hl : Laid pFS disk pSeg es recs) : ∀ (post rs : List (ℤ × Rec)),
    recs = rs ++ post → post ≠ [] → ∀ n, post.length ≤ n →
      stepsForward pFS disk pSeg n (addr es (flat rs).length) = post.map Prod.fst := by
  intro post
  induction post with
  | nil => exact fun rs hrs hne => absurd rfl hne
  | cons x post ih =>
      intro rs hrs hne n hn
      cases n with
      | zero => simp at hn
      | succ n =>
          have hoff := (hl.laid rs x post hrs).off
          rw [stepsForward, ← hoff, hl.found h hrs, hl.next h hrs, List.map_cons]
          congr 1
          by_cases hnil : post = []
          · rw [if_pos hnil, if_pos rfl, hnil, List.map_nil]
          · have hrs' : recs = (rs ++ [x]) ++ post := by simp [hrs]
            obtain ⟨y, post', rfl⟩ := List.exists_cons_of_ne_nil hnil
            have hy := (hl.laid (rs ++ [x]) y post' hrs').near.le_total
            rw [if_neg hnil, if_neg (hl.chain.addr_pos h (by omega)).ne']
            exact ih (rs ++ [x]) hrs' hnil n (by simpa using hn)

/-! ### Backwards -/

include h in
theorem Laid.before (hl : Laid pFS disk pSeg es recs) {rs post : List (ℤ × Rec)} {x : ℤ × Rec}
    (hx : recs = rs ++ x :: post) {iPg : ℤ} (hend : EndsAt es iPg (flat (rs ++ [x])).length) :
    fsGetPageBefore pFS disk pSeg iPg = x.1 := by
  obtain ⟨hflat, hle⟩ := flat_split hx
  have hat := hl.laid rs x post hx
  have hpos := Rec.size_pos hat.ok
  have htotal := hat.near.le_total
  have hlen : (flat (rs ++ [x])).length = (flat rs).length + x.2.size := by
    simp [Rec.bytes_length]
  rw [hlen] at hend
  -- The page at the begin of the segment makes room for the three bytes that are read.
  have hthree : 3 ≤ (flat rs).length + x.2.size := by
    obtain ⟨iPg, aData, post', hhead⟩ := hl.head
    rcases rs with _ | ⟨y, rs⟩
    · rw [hhead, List.nil_append, List.cons.injEq] at hx
      rw [← hx.1, Rec.size]
      omega
    · rw [hhead, List.cons_append, List.cons.injEq] at hx
      rw [flat_cons, List.length_append, Rec.bytes_length, ← hx.1, Rec.size]
      omega
  obtain ⟨a, ha⟩ : ∃ a, (flat rs).length + x.2.size = a + 3 := ⟨_, (Nat.sub_add_cancel hthree).symm⟩
  have hnear : Near es a 4 := near_of_le (hl.chain.long h) (by norm_num) (by omega) (by omega)
  have hsub := hl.chain.subtractOffset h (n := 3) hnear (by norm_num) (by rw [← ha]; exact hend)
  have hread := hl.chain.readData h hl.stores (n := 3) (hnear.mono (by omega)) (by omega)
  rw [Nat.cast_ofNat] at hsub hread
  simp only [fsGetPageBefore, hl.redirect, hsub, hread, hat.off]
  have hback := hl.chain.subtractOffset h hat.near hpos hend
  rcases Rec.cases hat.ok with ⟨n, bFree, aData, hbytes, hn, hlt, hsize, -⟩ |
    ⟨n, h0, h6, hrec, hbytes⟩
  · have hsz : ((flat recs).drop a).take 3 = putRecordSize n bFree := by
      rw [hflat, hbytes, ← List.append_assoc]
      refine take_drop_middle ?_ rfl
      simp only [List.length_append, putRecordSize_length]
      omega
    have hflag : (putRecordSize n bFree).getD 2 0 &&& 0x80 ≠ 0 := by
      simp only [putRecordSize, List.getD_cons_succ, List.getD_cons_zero]
      rw [(low_bits _).2.2.2.1]
      decide
    rw [hsz, if_pos hflag, getRecordSize_put hlt]
    rw [hsize] at hback
    exact hback
  · have hends := shortPadding_ends n h6 h0
    have hsize : x.2.size = n := by rw [hrec]; rfl
    have hsz : (((flat recs).drop a).take 3).getD 2 0 = .ofNat n := by
      have hmem : (flat recs)[a + 2]? = some (.ofNat n) := by
        rw [hflat, hbytes, List.append_assoc, List.getElem?_append_right (by omega),
          List.getElem?_append_left (by rw [shortPadding_length]; omega),
          show a + 2 - (flat rs).length = n - 1 by omega, hends.2]
      rw [List.getD_eq_getElem?_getD, List.getElem?_take_of_lt (by norm_num), List.getElem?_drop,
        hmem, Option.getD_some]
    have hsmall : ∀ n < 6, ¬ ((UInt8.ofNat n) &&& 0x80 ≠ 0) ∧
        ((UInt8.ofNat n) &&& 0x7F).toNat = n := by decide
    rw [hsz, if_neg (hsmall n h6).1, (hsmall n h6).2]
    rw [hsize] at hback
    exact hback

include h in
theorem Laid.backward (hl : Laid pFS disk pSeg es recs) (rs : List (ℤ × Rec)) :
    ∀ (post : List (ℤ × Rec)), recs = rs ++ post → rs ≠ [] → ∀ (iPg : ℤ) (n : ℕ),
      EndsAt es iPg (flat rs).length → rs.length ≤ n →
        stepsBackward pFS disk pSeg n iPg = (rs.map Prod.fst).reverse := by
  induction rs using List.reverseRecOn with
  | nil => exact fun post hrs hne => absurd rfl hne
  | append_singleton rs x ih =>
      intro post hrs _ iPg n hend hn
      have hx : recs = rs ++ x :: post := by simp [hrs]
      rw [List.length_append, List.length_singleton] at hn
      obtain ⟨n, rfl⟩ : ∃ m, n = m + 1 := ⟨n - 1, by omega⟩
      have hat := hl.laid rs x post hx
      rw [stepsBackward, hl.before h hx hend, List.map_append, List.reverse_append,
        List.map_singleton, List.reverse_singleton, List.singleton_append]
      congr 1
      by_cases hnil : rs = []
      · subst hnil
        rw [if_pos (by rw [hat.off, ← hl.start]; rfl)]
        rfl
      · have hpos : 0 < (flat rs).length := by
          obtain ⟨y, rs', rfl⟩ := List.exists_cons_of_ne_nil hnil
          have hy := Rec.size_pos (hl.laid [] y (rs' ++ x :: post) (by simp [hx])).ok
          rw [flat_cons, List.length_append, Rec.bytes_length]
          omega
        have htotal := hat.near.le_total
        rw [if_neg]
        · exact ih (x :: post) hx hnil x.1 n (Or.inl hat.off) (by omega)
        · intro heq
          rw [hat.off, ← hl.start] at heq
          have := addr_inj (hl.chain.apart h) (by omega) (by omega) heq
          omega

/-! ### Adding and subtracting -/

variable (pFS) in
/-- The offset of the `p`-th byte of a segment, reached by steps of one byte. -/
def byteAt (disk : ℤ → UInt8) (pSeg : Segment) (p : ℕ) : ℤ :=
  (fun iOff => fsAddOffset pFS disk pSeg.pRedirect iOff 1)^[p] pSeg.iFirst

include h in
theorem Laid.byteAt_eq (hl : Laid pFS disk pSeg es recs) {p : ℕ} (hp : p < total es) :
    byteAt pFS disk pSeg p = addr es p := by
  induction p with
  | zero => exact hl.start.symm
  | succ p ih =>
      have hone := hl.chain.addOffset h (a := p) (n := 1)
        (near_of_le (hl.chain.long h) (by norm_num) (by omega) (by omega))
      rw [Nat.cast_one] at hone
      rw [byteAt, Function.iterate_succ_apply', ← byteAt, ih (by omega), hl.redirect]
      exact hone

include h in
/-- Each place lies on the block of an extent. -/
theorem block_of_place {fs : List (ℤ × ℕ)} (hgood : ∀ e ∈ fs, Good pFS e) {p : ℕ}
    (hp : p < total fs) :
    ∃ e ∈ fs, e.1 ≤ addr fs p ∧ fsPageToBlock pFS (addr fs p) = blk pFS e := by
  obtain ⟨e, he, h1, h2⟩ := addr_mem hp
  exact ⟨e, he, h1, (hgood e he).block_eq h h1 h2.le⟩

include h in
/-- Places on one block or on two consecutive ones. -/
theorem Chain.near (hc : Chain pFS disk es) {p n : ℕ} (hlen : p + n < total es)
    (hblock : fsPageToBlock pFS (addr es (p + n)) = fsPageToBlock pFS (addr es p) ∨
      fsPageToBlock pFS (addr es (p + n)) =
        fsBlockNext pFS disk [] (fsPageToBlock pFS (addr es p))) : Near es p (n + 1) := by
  obtain ⟨pre, e, post, rfl, hlo, hhi⟩ := exists_split (show p < total es by omega)
  refine ⟨pre, e, post, rfl, hlo, hhi, ?_⟩
  by_cases hin : p + n < total pre + e.2
  · omega
  have hgood := hc.good
  have hnodup := hc.nodup
  rw [List.map_append, List.map_cons, List.nodup_append, List.nodup_cons] at hnodup
  have hp : fsPageToBlock pFS (addr (pre ++ e :: post) p) = blk pFS e := by
    rw [addr_split hlo hhi]
    exact (hgood e (by simp)).block_eq h (by omega) (by omega)
  simp only [total_append, total_cons] at hlen
  have haddr : addr (pre ++ e :: post) (p + n) = addr post (p + n - (total pre + e.2)) := by
    rw [List.append_cons, addr_append_right (by simp; omega)]
    simp
  rw [hp, haddr] at hblock
  rcases post with _ | ⟨f, post⟩
  · simp only [total_nil] at hlen
    omega
  rw [hc.link.next] at hblock
  simp only [List.take_succ_cons, List.take_zero, total_cons, total_nil] at hlen ⊢
  by_contra hfar
  have hbeyond : addr (f :: post) (p + n - (total pre + e.2)) =
      addr post (p + n - (total pre + e.2) - f.2) := by
    rw [addr, if_neg (by omega)]
  obtain ⟨g, hg, -, hblk⟩ := block_of_place h (fun e he => hgood e (by simp [he]))
    (show p + n - (total pre + e.2) - f.2 < total post by omega)
  have hmem : blk pFS g ∈ post.map (blk pFS) := List.mem_map_of_mem hg
  rw [hbeyond, hblk] at hblock
  rcases hblock with heq | heq
  · exact hnodup.2.1.1 (by rw [← heq]; exact List.mem_cons_of_mem _ hmem)
  · have hf := hnodup.2.1.2
    rw [List.map_cons, List.nodup_cons] at hf
    exact hf.1 (heq ▸ hmem)

include h in
/-- Two places of the segment on one block or on two consecutive ones. -/
theorem Laid.undo (hl : Laid pFS disk pSeg es recs) {p n : ℕ} (hlen : p + n < (flat recs).length)
    (hnear : fsPageToBlock pFS (byteAt pFS disk pSeg (p + n)) =
        fsPageToBlock pFS (byteAt pFS disk pSeg p) ∨
      fsPageToBlock pFS (byteAt pFS disk pSeg (p + n)) = fsBlockNext pFS disk pSeg.pRedirect
        (fsPageToBlock pFS (byteAt pFS disk pSeg p))) :
    fsAddOffset pFS disk pSeg.pRedirect (byteAt pFS disk pSeg p) n =
        byteAt pFS disk pSeg (p + n) ∧
      fsSubtractOffset pFS disk pSeg.pRedirect (byteAt pFS disk pSeg (p + n)) n =
        byteAt pFS disk pSeg p := by
  have htotal := hl.length_le
  rw [hl.byteAt_eq h (by omega), hl.byteAt_eq h (by omega), hl.redirect] at hnear ⊢
  have hplaces := hl.chain.near h (by omega) hnear
  refine ⟨hl.chain.addOffset h hplaces, ?_⟩
  rcases Nat.eq_zero_or_pos n with rfl | hpos
  · obtain ⟨e, he, h1, hblk⟩ := block_of_place h hl.chain.good (p := p) (by omega)
    have := (hl.chain.good e he).first
    simp only [fsSubtractOffset, add_zero, hblk, Nat.cast_zero, sub_zero]
    rw [if_pos (by omega)]
  · exact hl.chain.subtractOffset h hplaces hpos (Or.inl rfl)

end Lsm.Packed

end MoVeBench
