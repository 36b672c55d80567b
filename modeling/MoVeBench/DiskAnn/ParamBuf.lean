/-
MoVeBench/DiskAnn/ParamBuf.lean

The bytes of the index parameters (`vectorIdxParamsInit`, `vectorIdxParamsGetU64` and
`vectorIdxParamsPutU64` of `vectorIndex.c`).

A buffer of 128 bytes holds entries of nine bytes each, a tag and a value.  A put appends an
entry, if there is room, and a get reads all entries and keeps the value of the last one with its
tag.  The bytes in use are stored with the index, and read back into other memory when it is
opened.

* What the buffer holds is the list of the entries that were put (`Holds.run`), so a get finds the
  last one of its tag (`vectorIdxParams_run`).
* The list of parameters of `Params` is what such a buffer stands for (`Stands.put`).
-/
import MoVeBench.DiskAnn.Params

namespace MoVeBench

namespace ParamBuf

open Bytes

/-! ### The buffer -/

/-- `VECTOR_INDEX_PARAMS_BUF_SIZE`. -/
abbrev bufSize : ℕ := 128

/-- The memory of a buffer. -/
abbrev Memory := { pBinBuf : List UInt8 // pBinBuf.length = bufSize }

/-- `struct VectorIdxParams`. -/
structure VectorIdxParams where
  pBinBuf : Memory
  nBinSize : ℕ
  size_le : nBinSize ≤ bufSize

/-- `vectorIdxParamsInit` without bytes, over any memory. -/
def vectorIdxParamsInit (memory : Memory) : VectorIdxParams := ⟨memory, 0, Nat.zero_le _⟩

/-- `vectorIdxParamsInit` with the bytes in use of another buffer. -/
def vectorIdxParamsReopen (memory : Memory) (p : VectorIdxParams) : VectorIdxParams where
  pBinBuf := ⟨writeBytes memory.1 0 (readBytes p.pBinBuf.1 0 p.nBinSize), by
    rw [writeBytes_length, memory.2]⟩
  nBinSize := p.nBinSize
  size_le := p.size_le

/-- The loop that reads a value. -/
def getValue (pBinBuf : List UInt8) (i : ℕ) : UInt64 :=
  (List.range 8).foldl (fun value offset =>
    value ||| (pBinBuf.getD (i + 1 + offset) 0).toUInt64 <<< .ofNat (8 * offset)) 0

/-- `vectorIdxParamsGetU64`.  The byte of the buffer has no sign, and the tag is a `char`. -/
def vectorIdxParamsGetU64 (pParams : VectorIdxParams) (tag : Int8) : UInt64 :=
  (List.range (pParams.nBinSize / 9)).foldl (fun value k =>
    let i := 9 * k
    if ((pParams.pBinBuf.1.getD i 0).toNat : ℤ) ≠ tag.toInt then value
    else getValue pParams.pBinBuf.1 i) 0

/-- The loop that writes a value: `n` bytes that are left. -/
def putValue : ℕ → UInt64 → List UInt8
  | 0, _ => []
  | n + 1, value => (value &&& 0xff).toUInt8 :: putValue n (value >>> 8)

@[simp] theorem putValue_length (n : ℕ) (value : UInt64) : (putValue n value).length = n := by
  induction n generalizing value with
  | zero => rfl
  | succ n ih => rw [putValue, List.length_cons, ih]

/-- `vectorIdxParamsPutU64`: the buffer, and the result. -/
def vectorIdxParamsPutU64 (pParams : VectorIdxParams) (tag : Int8) (value : UInt64) :
    VectorIdxParams × ℤ :=
  if h : pParams.nBinSize + 9 > bufSize then (pParams, -1)
  else
    ({ pBinBuf := ⟨writeBytes pParams.pBinBuf.1 pParams.nBinSize
        (tag.toUInt8 :: putValue 8 value), by rw [writeBytes_length, pParams.pBinBuf.2]⟩
       nBinSize := pParams.nBinSize + 9
       size_le := not_lt.mp h }, 0)

/-! ### Values -/

theorem fromLe_concat (l : List UInt8) (u : UInt8) :
    fromLe (l ++ [u]) = fromLe l + u.toNat * 256 ^ l.length := by
  induction l with
  | nil => simp [fromLe]
  | cons v l ih =>
      rw [List.cons_append, fromLe, ih, fromLe, List.length_cons, pow_succ]
      ring

/-- A byte above `n` others. -/
theorem toNat_or_byte {value : UInt64} {n : ℕ} (hn : n < 8) (h : value.toNat < 256 ^ n)
    (u : UInt8) :
    (value ||| u.toUInt64 <<< .ofNat (8 * n)).toNat = value.toNat + u.toNat * 256 ^ n := by
  have hpow : (256 : ℕ) ^ n = 2 ^ (8 * n) := by rw [show (256 : ℕ) = 2 ^ 8 by norm_num, ← pow_mul]
  rw [hpow] at h ⊢
  have hfits : u.toNat * 2 ^ (8 * n) < 2 ^ 64 :=
    calc u.toNat * 2 ^ (8 * n)
        < 2 ^ 8 * 2 ^ (8 * n) := Nat.mul_lt_mul_of_pos_right u.toNat_lt (Nat.two_pow_pos _)
      _ = 2 ^ (8 + 8 * n) := (pow_add _ _ _).symm
      _ ≤ 2 ^ 64 := Nat.pow_le_pow_right (by norm_num) (by omega)
  have hshift : (u.toUInt64 <<< UInt64.ofNat (8 * n)).toNat = 2 ^ (8 * n) * u.toNat := by
    have hmod : 8 * n % 2 ^ 64 % 64 = 8 * n := by omega
    rw [UInt64.toNat_shiftLeft, UInt8.toNat_toUInt64, UInt64.toNat_ofNat', hmod,
      Nat.shiftLeft_eq, Nat.mod_eq_of_lt hfits, Nat.mul_comm]
  rw [UInt64.toNat_or, hshift, Nat.or_comm, ← Nat.two_pow_add_eq_or_of_lt h]
  ring

/-- **A value is put together** from the lowest byte on. -/
theorem getValue_eq (pBinBuf : List UInt8) (i : ℕ) :
    (getValue pBinBuf i).toNat = fromLe (readBytes pBinBuf (i + 1) 8) := by
  have hloop : ∀ n ≤ 8, ((List.range n).foldl (fun value offset => value |||
      (pBinBuf.getD (i + 1 + offset) 0).toUInt64 <<< UInt64.ofNat (8 * offset)) 0).toNat =
        fromLe (readBytes pBinBuf (i + 1) n) := by
    intro n hn
    induction n with
    | zero => rfl
    | succ n ih =>
        have hvalue := ih (by omega)
        have hlt := fromLe_lt (readBytes pBinBuf (i + 1) n)
        rw [readBytes_length, ← hvalue] at hlt
        rw [List.range_succ, List.foldl_append, List.foldl_cons, List.foldl_nil,
          toNat_or_byte (by omega) hlt, hvalue, readBytes_append]
        show _ = fromLe (_ ++ [_])
        rw [fromLe_concat, readBytes_length]
  exact hloop 8 le_rfl

/-- **A value is taken apart** from the lowest byte on. -/
theorem putValue_eq (n : ℕ) (value : UInt64) : putValue n value = leBytes n value.toNat := by
  induction n generalizing value with
  | zero => rfl
  | succ n ih =>
      have hbyte : (value &&& 0xff).toUInt8 = .ofNat value.toNat := by
        apply UInt8.toNat_inj.mp
        rw [UInt64.toNat_toUInt8, UInt64.toNat_and, UInt8.toNat_ofNat',
          show (0xff : UInt64).toNat = 2 ^ 8 - 1 from rfl, Nat.and_two_pow_sub_one_eq_mod,
          Nat.mod_mod]
      have hrest : (value >>> 8).toNat = value.toNat / 256 := by
        rw [UInt64.toNat_shiftRight, Nat.shiftRight_eq_div_pow]
        rfl
      rw [putValue, leBytes, ih, hbyte, hrest]

/-! ### Entries -/

/-- The bytes of an entry. -/
def entryBytes (e : Int8 × UInt64) : List UInt8 := e.1.toUInt8 :: putValue 8 e.2

/-- What was put, byte by byte. -/
structure Holds (p : VectorIdxParams) (entries : List (Int8 × UInt64)) : Prop where
  size : p.nBinSize = 9 * entries.length
  bytes : readBytes p.pBinBuf.1 0 p.nBinSize = entries.flatMap entryBytes

/-- The last value of a tag. -/
def lastValue (entries : List (Int8 × UInt64)) (tag : Int8) : Option UInt64 :=
  ((entries.filter (·.1 = tag)).getLast?).map (·.2)

section Entries

variable {p : VectorIdxParams} {entries : List (Int8 × UInt64)} {e : Int8 × UInt64}

theorem entryBytes_length (e : Int8 × UInt64) : (entryBytes e).length = 9 := by
  rw [entryBytes, List.length_cons, putValue_length]

theorem flatMap_entryBytes_length (entries : List (Int8 × UInt64)) :
    (entries.flatMap entryBytes).length = 9 * entries.length := by
  induction entries with
  | nil => rfl
  | cons e entries ih =>
      rw [List.flatMap_cons, List.length_append, ih, entryBytes_length, List.length_cons]
      omega

/-- Entry `k` of the buffer. -/
theorem Holds.entry (h : Holds p entries) {k : ℕ} (hk : entries[k]? = some e) :
    readBytes p.pBinBuf.1 (9 * k) 9 = entryBytes e := by
  obtain ⟨hlt, rfl⟩ := List.getElem?_eq_some_iff.mp hk
  have hbytes := h.bytes
  have hsplit : entries = entries.take k ++ entries[k] :: entries.drop (k + 1) := by
    rw [← List.drop_eq_getElem_cons hlt, List.take_append_drop]
  have hfront : ((entries.take k).flatMap entryBytes).length = 9 * k := by
    rw [flatMap_entryBytes_length, List.length_take, Nat.min_eq_left hlt.le]
  have hnine := entryBytes_length entries[k]
  have hpart : readBytes (readBytes p.pBinBuf.1 0 p.nBinSize) (9 * k) 9 =
      readBytes p.pBinBuf.1 (0 + 9 * k) 9 := readBytes_readBytes (by rw [h.size]; omega)
  rw [hbytes, hsplit, List.flatMap_append, List.flatMap_cons, Nat.zero_add] at hpart
  rw [← hpart, ← hfront]
  have hentry := readBytes_append_add ((entries.take k).flatMap entryBytes)
    (entryBytes entries[k] ++ (entries.drop (k + 1)).flatMap entryBytes) (k := 0) (n := 9)
    (by rw [List.length_append]; omega)
  refine hentry.trans ?_
  rw [readBytes_append_left (by omega), ← hnine, readBytes_all]

theorem lastValue_concat (entries : List (Int8 × UInt64)) (e : Int8 × UInt64) (tag : Int8) :
    lastValue (entries ++ [e]) tag = if e.1 = tag then some e.2 else lastValue entries tag := by
  unfold lastValue
  rw [List.filter_append]
  split_ifs with htag
  · rw [List.filter_cons_of_pos (by simpa using htag), List.filter_nil, List.getLast?_concat]
    rfl
  · rw [List.filter_cons_of_neg (by simpa using htag), List.filter_nil, List.append_nil]

/-- A tag that is not negative is its byte. -/
theorem tag_eq_iff {tag : Int8} (htag : 0 ≤ tag.toInt) (tag' : Int8) :
    (tag'.toUInt8.toNat : ℤ) = tag.toInt ↔ tag' = tag := by
  have hlt := tag.toInt_lt
  have hbyte : tag'.toUInt8.toNat = tag'.toBitVec.toNat := rfl
  have hint : tag'.toInt = tag'.toBitVec.toInt := rfl
  rw [← Int8.toInt_inj, hbyte, hint, BitVec.toInt_eq_toNat_cond]
  have hpow : 2 ^ 8 = 256 := rfl
  split_ifs <;> omega

/-- **A get finds the last entry of its tag.** -/
theorem Holds.get (h : Holds p entries) {tag : Int8} (htag : 0 ≤ tag.toInt) :
    vectorIdxParamsGetU64 p tag = (lastValue entries tag).getD 0 := by
  have hloop : ∀ n ≤ entries.length, (List.range n).foldl (fun value k =>
      if ((p.pBinBuf.1.getD (9 * k) 0).toNat : ℤ) ≠ tag.toInt then value
      else getValue p.pBinBuf.1 (9 * k)) 0 = (lastValue (entries.take n) tag).getD 0 := by
    intro n hn
    induction n with
    | zero => rfl
    | succ n ih =>
        have hlt : n < entries.length := by omega
        have hentry := h.entry (List.getElem?_eq_getElem hlt)
        have hhead : p.pBinBuf.1.getD (9 * n) 0 = entries[n].1.toUInt8 :=
          (List.cons.inj hentry).1
        have hvalue : getValue p.pBinBuf.1 (9 * n) = entries[n].2 := by
          apply UInt64.toNat_inj.mp
          rw [getValue_eq, (List.cons.inj hentry).2, putValue_eq, fromLe_leBytes]
          exact Nat.mod_eq_of_lt entries[n].2.toNat_lt
        rw [List.range_succ, List.foldl_append, List.foldl_cons, List.foldl_nil, ih (by omega),
          hhead, hvalue, List.take_add_one, List.getElem?_eq_getElem hlt, Option.toList_some,
          lastValue_concat]
        by_cases heq : entries[n].1 = tag
        · rw [if_neg (not_not.mpr ((tag_eq_iff htag _).mpr heq)), if_pos heq, Option.getD_some]
        · rw [if_pos (fun hno => heq ((tag_eq_iff htag _).mp hno)), if_neg heq]
  have hall := hloop entries.length le_rfl
  rw [List.take_length] at hall
  unfold vectorIdxParamsGetU64
  rw [h.size, Nat.mul_div_cancel_left _ (by norm_num)]
  exact hall

end Entries

/-! ### Runs -/

/-- What is done with a buffer: a put, or its bytes are stored and read into other memory. -/
inductive Step
  | put (tag : Int8) (value : UInt64)
  | reopen (memory : Memory)

def step (p : VectorIdxParams) : Step → VectorIdxParams
  | .put tag value => (vectorIdxParamsPutU64 p tag value).1
  | .reopen memory => vectorIdxParamsReopen memory p

/-- The entries of the puts that succeed. -/
def putsOf : VectorIdxParams → List Step → List (Int8 × UInt64)
  | _, [] => []
  | p, .put tag value :: steps =>
      (if (vectorIdxParamsPutU64 p tag value).2 = 0 then [(tag, value)] else []) ++
        putsOf (step p (.put tag value)) steps
  | p, .reopen memory :: steps => putsOf (step p (.reopen memory)) steps

section Runs

variable {p : VectorIdxParams} {entries : List (Int8 × UInt64)}

/-- A put either fails and leaves the buffer as it was, or adds its entry. -/
theorem Holds.put (h : Holds p entries) (tag : Int8) (value : UInt64) :
    (bufSize < p.nBinSize + 9 ∧ vectorIdxParamsPutU64 p tag value = (p, -1)) ∨
      (p.nBinSize + 9 ≤ bufSize ∧ (vectorIdxParamsPutU64 p tag value).2 = 0 ∧
        Holds (vectorIdxParamsPutU64 p tag value).1 (entries ++ [(tag, value)])) := by
  unfold vectorIdxParamsPutU64
  split_ifs with hfull
  · exact .inl ⟨hfull, rfl⟩
  have hroom := not_lt.mp hfull
  have hlen := p.pBinBuf.2
  refine .inr ⟨hroom, rfl, ?_, ?_⟩
  · show p.nBinSize + 9 = _
    rw [h.size, List.length_append, List.length_singleton]
    omega
  · show readBytes (writeBytes _ _ (entryBytes (tag, value))) 0 (p.nBinSize + 9) = _
    have hnine := entryBytes_length (tag, value)
    have hnew : readBytes (writeBytes p.pBinBuf.1 p.nBinSize (entryBytes (tag, value)))
        p.nBinSize (entryBytes (tag, value)).length = entryBytes (tag, value) :=
      readBytes_writeBytes (by omega)
    rw [hnine] at hnew
    rw [readBytes_append, Nat.zero_add, hnew,
      readBytes_congr (agreeOn_writeBytes (.inl (by rw [Nat.zero_add]))), h.bytes,
      List.flatMap_append, List.flatMap_singleton]

/-- The bytes in use survive. -/
theorem Holds.reopen (h : Holds p entries) (memory : Memory) :
    Holds (vectorIdxParamsReopen memory p) entries := by
  have hle := p.size_le
  have hread : readBytes (writeBytes memory.1 0 (readBytes p.pBinBuf.1 0 p.nBinSize)) 0
      (readBytes p.pBinBuf.1 0 p.nBinSize).length = readBytes p.pBinBuf.1 0 p.nBinSize :=
    readBytes_writeBytes (by rw [readBytes_length, memory.2]; omega)
  rw [readBytes_length] at hread
  exact ⟨h.size, hread.trans h.bytes⟩

/-- **The buffer holds what was put.** -/
theorem Holds.run (h : Holds p entries) (steps : List Step) :
    Holds (steps.foldl step p) (entries ++ putsOf p steps) := by
  induction steps generalizing p entries with
  | nil => exact (List.append_nil entries).symm ▸ h
  | cons s steps ih =>
      rw [List.foldl_cons]
      cases s with
      | put tag value =>
          unfold putsOf
          rcases h.put tag value with ⟨-, hput⟩ | ⟨-, hok, hput⟩
          · have hstep : step p (.put tag value) = p := congrArg Prod.fst hput
            rw [hput, hstep, if_neg (by norm_num), List.nil_append]
            exact ih h
          · rw [if_pos hok, ← List.append_assoc]
            exact ih hput
      | reopen memory => exact ih (h.reopen memory)

end Runs

/-- **A get returns the last value put under its tag**, and a put that fails leaves the buffer as it
was.  Tags are not negative; the constants of `vectorIndexInt.h` are 1 to 11. -/
theorem vectorIdxParams_run (memory : Memory) (steps : List Step) {tag : Int8}
    (htag : 0 ≤ tag.toInt) :
    vectorIdxParamsGetU64 (steps.foldl step (vectorIdxParamsInit memory)) tag =
        (lastValue (putsOf (vectorIdxParamsInit memory) steps) tag).getD 0 ∧
      ∀ tag' value,
        (vectorIdxParamsPutU64 (steps.foldl step (vectorIdxParamsInit memory)) tag' value).2 ≠ 0 →
          (vectorIdxParamsPutU64 (steps.foldl step (vectorIdxParamsInit memory)) tag' value).1 =
            steps.foldl step (vectorIdxParamsInit memory) := by
  have hinit : Holds (vectorIdxParamsInit memory) [] := ⟨rfl, rfl⟩
  have hrun := hinit.run steps
  refine ⟨hrun.get htag, fun tag' value hfail => ?_⟩
  rcases hrun.put tag' value with ⟨-, hput⟩ | ⟨-, hok, -⟩
  · exact congrArg Prod.fst hput
  · exact absurd hok hfail

/-- A value put twice, and a buffer that is stored in between. -/
theorem vectorIdxParams_run_twice :
    vectorIdxParamsGetU64 ([Step.put 4 2, .put 3 1, .reopen ⟨List.replicate 128 7, rfl⟩,
      .put 4 5].foldl step (vectorIdxParamsInit ⟨List.replicate 128 255, rfl⟩)) 4 = 5 :=
  (vectorIdxParams_run ⟨List.replicate 128 255, rfl⟩ [.put 4 2, .put 3 1,
    .reopen ⟨List.replicate 128 7, rfl⟩, .put 4 5] (show 0 ≤ (4 : Int8).toInt by decide)).1.trans
      rfl

/-! ### The list of parameters -/

/-- `VECTOR_FORMAT_PARAM_ID` and the others. -/
def tagOf : ParamId → Int8
  | .format => 1
  | .indexType => 2
  | .type => 3
  | .dim => 4
  | .metricType => 5
  | .blockSize => 6
  | .pruningAlpha => 7
  | .insertL => 8
  | .searchL => 9
  | .maxNeighbors => 10
  | .compressNeighbors => 11

theorem tagOf_injective : Function.Injective tagOf := by
  intro i j h
  cases i <;> cases j <;> first | rfl | exact absurd h (by decide)

theorem tagOf_nonneg (i : ParamId) : 0 ≤ (tagOf i).toInt := by
  cases i <;> decide

/-- The buffer has the entries of the list. -/
structure Stands (p : VectorIdxParams) (q : MoVeBench.VectorIdxParams) : Prop where
  holds : Holds p (q.entries.map fun e => (tagOf e.1, .ofNat e.2))
  value_lt : ∀ e ∈ q.entries, e.2 < 2 ^ 64

section Stands

variable {p : VectorIdxParams} {q : MoVeBench.VectorIdxParams}

/-- **The buffer takes what the list takes.** -/
theorem Stands.put (h : Stands p q) (i : ParamId) {value : ℕ} (hvalue : value < 2 ^ 64) :
    match MoVeBench.vectorIdxParamsPutU64 q i value with
    | none => vectorIdxParamsPutU64 p (tagOf i) (.ofNat value) = (p, -1)
    | some q' => (vectorIdxParamsPutU64 p (tagOf i) (.ofNat value)).2 = 0 ∧
        Stands (vectorIdxParamsPutU64 p (tagOf i) (.ofNat value)).1 q' := by
  have hsize := h.holds.size
  rw [List.length_map] at hsize
  unfold MoVeBench.vectorIdxParamsPutU64
  rcases h.holds.put (tagOf i) (.ofNat value) with ⟨hfull, hput⟩ | ⟨hroom, hok, hput⟩
  · rw [dif_pos (by unfold bufSize at hfull; omega)]
    exact hput
  · rw [dif_neg (by unfold bufSize at hroom; omega)]
    refine ⟨hok, ?_, ?_⟩
    · show Holds _ ((q.entries ++ [(i, value)]).map _)
      rw [List.map_append]
      exact hput
    · intro e he
      rcases List.mem_append.mp he with he | he
      · exact h.value_lt e he
      · obtain rfl := List.mem_singleton.mp he
        exact hvalue

/-- **The buffer gives what the list gives.** -/
theorem Stands.get (h : Stands p q) (i : ParamId) :
    (vectorIdxParamsGetU64 p (tagOf i)).toNat = MoVeBench.vectorIdxParamsGetU64 q i := by
  have hlast : ∀ entries : List (ParamId × ℕ), (∀ e ∈ entries, e.2 < 2 ^ 64) →
      ((lastValue (entries.map fun e => (tagOf e.1, .ofNat e.2)) (tagOf i)).getD 0).toNat =
        entries.foldl (fun value e => if e.1 = i then e.2 else value) 0 := by
    intro entries hlt
    induction entries using List.reverseRecOn with
    | nil => rfl
    | append_singleton entries e ih =>
        have hother := ih fun e' he' => hlt e' (List.mem_append_left _ he')
        have hlast := hlt e (List.mem_append_right _ (List.mem_singleton_self e))
        rw [List.map_append, List.map_singleton, lastValue_concat, List.foldl_append,
          List.foldl_cons, List.foldl_nil, ← hother]
        by_cases heq : e.1 = i
        · rw [if_pos heq, if_pos (congrArg tagOf heq), Option.getD_some, UInt64.toNat_ofNat',
            Nat.mod_eq_of_lt hlast]
        · rw [if_neg heq, if_neg fun hno => heq (tagOf_injective hno)]
  rw [h.holds.get (tagOf_nonneg i)]
  exact hlast q.entries h.value_lt

end Stands

end ParamBuf

end MoVeBench
