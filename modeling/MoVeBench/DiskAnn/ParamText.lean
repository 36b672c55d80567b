/-
MoVeBench/DiskAnn/ParamText.lean

The text of an index parameter (`parseVectorIdxParam` of `vectorIndex.c`).

An argument is `name=value`.  The name is looked up in a table, and the value is a number or
one of the words that the table has for the name.  Names are compared with regard to their
length; values are not: the comparison ends with the value that was given, so that the
beginning of a word is taken for the word (`parseVectorIdxParam_iff`).

What is accepted is one of the arguments of `parseVectorIdxParam` of
`MoVeBench/DiskAnn/Params.lean` (`parseVectorIdxParamText_refines`).
-/
import MoVeBench.Utf8
import MoVeBench.DiskAnn.VectorText

namespace MoVeBench

/-! ### The table -/

/-- The bytes of a string literal. -/
def bytesOf (s : String) : List UInt8 := s.toList.map fun c => UInt8.ofNat c.toNat

/-- `struct VectorParamName`. -/
structure VectorParamName where
  zName : List UInt8
  tag : ParamId
  /-- `0` - string enum, `1` - integer, `2` - float. -/
  type : ℕ
  zValueStr : List UInt8
  value : ℕ
deriving DecidableEq

/-- `VECTOR_PARAM_NAMES`. -/
def vectorParamNames : List VectorParamName := [
  ⟨bytesOf "type", .indexType, 0, bytesOf "diskann", 1⟩,
  ⟨bytesOf "metric", .metricType, 0, bytesOf "cosine", 1⟩,
  ⟨bytesOf "metric", .metricType, 0, bytesOf "l2", 2⟩,
  ⟨bytesOf "compress_neighbors", .compressNeighbors, 0, bytesOf "float1bit", 3⟩,
  ⟨bytesOf "compress_neighbors", .compressNeighbors, 0, bytesOf "float8", 4⟩,
  ⟨bytesOf "compress_neighbors", .compressNeighbors, 0, bytesOf "float16", 5⟩,
  ⟨bytesOf "compress_neighbors", .compressNeighbors, 0, bytesOf "floatb16", 6⟩,
  ⟨bytesOf "compress_neighbors", .compressNeighbors, 0, bytesOf "float32", 1⟩,
  ⟨bytesOf "alpha", .pruningAlpha, 2, [], 0⟩,
  ⟨bytesOf "search_l", .searchL, 1, [], 0⟩,
  ⟨bytesOf "insert_l", .insertL, 1, [], 0⟩,
  ⟨bytesOf "max_neighbors", .maxNeighbors, 1, [], 0⟩]

/-! ### Parsing -/

/-- `sqlite4GetInt32`, and `0` where it finds no integer, as `sqlite4Atoi` does. -/
def sqlite4Atoi (z : List UInt8) : ℤ :=
  let neg := z.headD 0 = 0x2d
  let zNum := if z.headD 0 = 0x2d ∨ z.headD 0 = 0x2b then z.tail else z
  let zNum := zNum.dropWhile (· = 0x30)
  let digits := (zNum.takeWhile isDigit).take 11
  let v : ℤ := digits.foldl (fun v c => v * 10 + ((c.toNat : ℤ) - 0x30)) 0
  if digits.length > 10 then 0
  else if v - (if neg then 1 else 0) > 2147483647 then 0
  else if neg then -v else v

/-- `sqlite4Strlen30`. -/
def sqlite4Strlen30 (z : List UInt8) : ℕ := z.length % 2 ^ 30

/-- `vectorIdxParamsPutU64`, and the message where the buffer is full. -/
def putParam (pParams : VectorIdxParams) (tag : ParamId) (value : ℕ) (pErrMsg : String) :
    VectorIdxParams × Except String Unit :=
  match vectorIdxParamsPutU64 pParams tag value with
  | none => (pParams, .error pErrMsg)
  | some pParams => (pParams, .ok ())

/-- The loop of `parseVectorIdxParam` over the rows of the table.  `strtod` is the `double`
that a text begins with, by its bits. -/
def parseRows (strtod : List UInt8 → ℕ) (zParam : List UInt8) (iDelimiter : ℕ)
    (zValue : List UInt8) (pParams : VectorIdxParams) :
    List VectorParamName → VectorIdxParams × Except String Unit
  | [] => (pParams, .error "invalid parameter")
  | row :: rows =>
      if iDelimiter ≠ row.zName.length ∨ sqlite4Strnicmp row.zName zParam iDelimiter ≠ 0 then
        parseRows strtod zParam iDelimiter zValue pParams rows
      else if row.type = 1 then
        let value := sqlite4Atoi zValue
        if value = 0 then
          (pParams, .error "invalid representation of integer vector index parameter")
        else if value < 0 then
          (pParams, .error "integer vector index parameter must be positive")
        else
          putParam pParams row.tag value.toNat
            "unable to serialize integer vector index parameter"
      else if row.type = 2 then
        if strtodConverts zValue = false then
          (pParams, .error "invalid representation of floating point vector index parameter")
        else
          putParam pParams row.tag (strtod zValue)
            "unable to serialize floating point vector index parameter"
      else if row.type = 0 then
        -- the length is that of the value alone
        if sqlite4Strnicmp row.zValueStr zValue (sqlite4Strlen30 zValue) = 0 then
          putParam pParams row.tag row.value "unable to serialize vector index parameter"
        else parseRows strtod zParam iDelimiter zValue pParams rows
      else (pParams, .error "unexpected parameter type")

/-- `parseVectorIdxParam` of a text. -/
def parseVectorIdxParamText (strtod : List UInt8 → ℕ) (zParam : List UInt8)
    (pParams : VectorIdxParams) : VectorIdxParams × Except String Unit :=
  let iDelimiter := (zParam.takeWhile (· ≠ 0x3d)).length
  if zParam.getD iDelimiter 0 ≠ 0x3d then (pParams, .error "unexpected parameter format")
  else
    parseRows strtod zParam iDelimiter (zParam.drop (iDelimiter + 1)) pParams vectorParamNames

/-! ### Names and values -/

/-- An argument is `name=value`, cut at the first `=`. -/
structure Argument (zParam name v : List UInt8) : Prop where
  split : zParam = name ++ 0x3d :: v
  no_delimiter : (0x3d : UInt8) ∉ name

/-- The name is that of the row, case aside. -/
def VectorParamName.Named (row : VectorParamName) (name : List UInt8) : Prop :=
  foldBytes name = foldBytes row.zName

/-- The row of a word: the name and the whole value, case aside. -/
structure VectorParamName.Matches (row : VectorParamName) (name v : List UInt8) : Prop where
  type_eq : row.type = 0
  named : row.Named name
  value_eq : sqlite4Stricmp row.zValueStr v = 0

/-- The row of a word that the value is the beginning of. -/
structure VectorParamName.Begins (row : VectorParamName) (name v : List UInt8) : Prop where
  type_eq : row.type = 0
  named : row.Named name
  proper : ProperPrefix v row.zValueStr

set_option maxRecDepth 2000 in
theorem vectorParamNames_ascii : ∀ row ∈ vectorParamNames,
    IsAscii row.zName ∧ IsAscii row.zValueStr ∧ 0 < row.zName.length ∧
      0x3d ∉ foldBytes row.zName ∧ (row.type = 0 → row.zValueStr ≠ []) := by
  decide

set_option maxRecDepth 2000 in
/-- No word of the table is the beginning of another one with the same name, and each stands
there once. -/
theorem vectorParamNames_apart : ∀ row ∈ vectorParamNames, ∀ row' ∈ vectorParamNames,
    row.type = 0 → row'.type = 0 → foldBytes row.zName = foldBytes row'.zName →
      ¬ProperPrefix row.zValueStr row'.zValueStr ∧
        (foldBytes row.zValueStr = foldBytes row'.zValueStr → row = row') := by
  decide

section Table

variable {zParam name v : List UInt8} (harg : Argument zParam name v)
include harg

theorem Argument.takeWhile : zParam.takeWhile (· ≠ 0x3d) = name := by
  rw [harg.split, List.takeWhile_append_of_pos]
  · simp
  · intro x hx
    simp only [decide_eq_true_eq]
    exact fun heq => harg.no_delimiter (heq ▸ hx)

/-- **The name that is found**: the lengths are compared as well. -/
theorem Argument.named_iff {row : VectorParamName} (hrow : row ∈ vectorParamNames) :
    ¬(name.length ≠ row.zName.length ∨ sqlite4Strnicmp row.zName zParam name.length ≠ 0) ↔
      row.Named name := by
  obtain ⟨hascii, -, hpos, hdelim, -⟩ := vectorParamNames_ascii row hrow
  rw [not_or, not_not, not_not, harg.split]
  constructor
  · rintro ⟨hlen, hcmp⟩
    exact (strnicmp_delimited_iff (x := 0x3d) hascii (by decide) hdelim v hlen hpos).mp hcmp
  · intro hnamed
    have hlen : name.length = row.zName.length := by
      have := congrArg List.length hnamed
      rwa [foldBytes, foldBytes, List.length_map, List.length_map] at this
    exact ⟨hlen, (strnicmp_delimited_iff (x := 0x3d) hascii (by decide) hdelim v hlen hpos).mpr hnamed⟩

end Table

/-- **The word that is found**: the whole of it, or its beginning. -/
theorem value_found_iff {row : VectorParamName} (hrow : row ∈ vectorParamNames)
    (htype : row.type = 0) {v : List UInt8} (hv : v.length < 2 ^ 30) :
    sqlite4Strnicmp row.zValueStr v (sqlite4Strlen30 v) = 0 ↔
      sqlite4Stricmp row.zValueStr v = 0 ∨ ProperPrefix v row.zValueStr := by
  obtain ⟨-, hascii, -, -, hne⟩ := vectorParamNames_ascii row hrow
  rw [sqlite4Strlen30, Nat.mod_eq_of_lt hv]
  exact strnicmp_length_iff hascii (hne htype) v

/-! ### The row that is found -/

/-- The comparisons of the code for a row of a word. -/
def VectorParamName.Hit (row : VectorParamName) (zParam name v : List UInt8) : Prop :=
  ¬(name.length ≠ row.zName.length ∨ sqlite4Strnicmp row.zName zParam name.length ≠ 0) ∧
    sqlite4Strnicmp row.zValueStr v (sqlite4Strlen30 v) = 0

instance (row : VectorParamName) (zParam name v : List UInt8) : Decidable (row.Hit zParam name v) :=
  inferInstanceAs (Decidable (_ ∧ _))

/-- A name whose values are words. -/
def StringValued (name : List UInt8) : Prop :=
  ∀ row ∈ vectorParamNames, row.Named name → row.type = 0

variable {strtod : List UInt8 → ℕ} {zParam name v : List UInt8} {pParams : VectorIdxParams}

/-- **The loop stops at the first row that is hit.** -/
theorem parseRows_find (harg : Argument zParam name v) (hstr : StringValued name)
    {rows : List VectorParamName} (hsub : rows ⊆ vectorParamNames) :
    parseRows strtod zParam name.length v pParams rows =
      match rows.find? (fun row => row.Hit zParam name v) with
      | none => (pParams, .error "invalid parameter")
      | some row =>
          putParam pParams row.tag row.value "unable to serialize vector index parameter" := by
  induction rows with
  | nil => rfl
  | cons row rows ih =>
      obtain ⟨hrow, hrows⟩ := List.cons_subset.mp hsub
      rw [parseRows, List.find?_cons]
      by_cases hname : name.length ≠ row.zName.length ∨
          sqlite4Strnicmp row.zName zParam name.length ≠ 0
      · rw [if_pos hname, decide_eq_false fun h : row.Hit zParam name v => h.1 hname]
        exact ih hrows
      · have htype := hstr row hrow ((harg.named_iff hrow).mp hname)
        rw [if_neg hname, if_neg (by omega), if_neg (by omega), if_pos htype]
        by_cases hvalue : sqlite4Strnicmp row.zValueStr v (sqlite4Strlen30 v) = 0
        · rw [if_pos hvalue, decide_eq_true (p := row.Hit zParam name v) ⟨hname, hvalue⟩]
        · rw [if_neg hvalue, decide_eq_false fun h : row.Hit zParam name v => hvalue h.2]
          exact ih hrows

/-- The text behind the delimiter is what the rows are searched for. -/
theorem parseVectorIdxParamText_eq (harg : Argument zParam name v) :
    parseVectorIdxParamText strtod zParam pParams =
      parseRows strtod zParam name.length v pParams vectorParamNames := by
  have hget : zParam.getD name.length 0 = 0x3d := by
    rw [harg.split, List.getD_eq_getElem?_getD, List.getElem?_append_right le_rfl, Nat.sub_self]
    rfl
  have hdrop : zParam.drop (name.length + 1) = v := by
    rw [harg.split, List.drop_append, List.drop_eq_nil_of_le (Nat.le_succ _),
      Nat.add_sub_cancel_left]
    rfl
  unfold parseVectorIdxParamText
  dsimp only
  rw [harg.takeWhile, if_neg (not_not.mpr hget), hdrop]

/-- **A row is hit** by its word, or by the beginning of it. -/
theorem hit_iff (harg : Argument zParam name v) (hv : v.length < 2 ^ 30)
    (hstr : StringValued name) {row : VectorParamName} (hrow : row ∈ vectorParamNames) :
    row.Hit zParam name v ↔ row.Matches name v ∨ row.Begins name v := by
  unfold VectorParamName.Hit
  rw [harg.named_iff hrow]
  constructor
  · rintro ⟨hnamed, hvalue⟩
    have htype := hstr row hrow hnamed
    rcases (value_found_iff hrow htype hv).mp hvalue with h | h
    · exact .inl ⟨htype, hnamed, h⟩
    · exact .inr ⟨htype, hnamed, h⟩
  · rintro (⟨htype, hnamed, h⟩ | ⟨htype, hnamed, h⟩)
    · exact ⟨hnamed, (value_found_iff hrow htype hv).mpr (.inl h)⟩
    · exact ⟨hnamed, (value_found_iff hrow htype hv).mpr (.inr h)⟩

/-- The whole word in front of the zero byte, as far as a value goes. -/
theorem VectorParamName.Matches.foldPrefix {row : VectorParamName} (hrow : row ∈ vectorParamNames)
    (h : row.Matches name v) : foldBytes row.zValueStr ++ [0] <+: foldedChars v ++ [0] := by
  obtain ⟨-, hascii, -⟩ := vectorParamNames_ascii row hrow
  have := (stricmp_iff hascii v).mp h.value_eq
  rwa [foldedChars_ascii hascii] at this

/-- Two texts that end with the zero byte, and of which one begins the other, are equal. -/
theorem eq_of_zero_ends {l l' m : List ℕ} (hl : 0 ∉ l) (hl' : 0 ∉ l') (h : l ++ [0] <+: m)
    (h' : l' ++ [0] <+: m) : l = l' := by
  have key : ∀ {l l' : List ℕ}, 0 ∉ l' → l ++ [0] <+: m → l' ++ [0] <+: m →
      l.length ≤ l'.length → l = l' := by
    intro l l' hl' h h' hle
    obtain ⟨t, ht⟩ := List.prefix_of_prefix_length_le h h' (by simpa using hle)
    rcases Nat.eq_or_lt_of_le hle with heq | hlt
    · rw [List.append_assoc] at ht
      exact List.append_inj_left ht heq
    · exfalso
      have hget := congrArg (fun k => k[l.length]?) ht
      rw [List.append_assoc, List.getElem?_append_right le_rfl, Nat.sub_self,
        List.getElem?_append_left hlt] at hget
      exact hl' (List.mem_of_getElem? hget.symm)
  rcases Nat.le_total l.length l'.length with hle | hle
  · exact key hl' h h' hle
  · exact (key hl h' h hle).symm

theorem zero_notMem_foldBytes {row : VectorParamName} (hrow : row ∈ vectorParamNames) :
    0 ∉ foldBytes row.zValueStr := by
  obtain ⟨-, hascii, -⟩ := vectorParamNames_ascii row hrow
  intro h
  exact absurd (foldBytes_ascii hascii 0 h).1 (lt_irrefl 0)

/-- **A value names one row.** -/
theorem Matches_unique {row row' : VectorParamName} (hrow : row ∈ vectorParamNames)
    (hrow' : row' ∈ vectorParamNames) (h : row.Matches name v) (h' : row'.Matches name v) :
    row = row' :=
  (vectorParamNames_apart row hrow row' hrow' h.type_eq h'.type_eq
    (h.named.symm.trans h'.named)).2
      (eq_of_zero_ends (zero_notMem_foldBytes hrow) (zero_notMem_foldBytes hrow')
        (h.foldPrefix hrow) (h'.foldPrefix hrow'))

/-- **A whole word is not the beginning of another one.** -/
theorem Matches_not_begins {row row' : VectorParamName} (hrow : row ∈ vectorParamNames)
    (hrow' : row' ∈ vectorParamNames) (h : row.Matches name v) (h' : row'.Begins name v) :
    False := by
  obtain ⟨hne, hlt, htake⟩ := h'.proper
  have hascii' := (vectorParamNames_ascii row' hrow').2.1
  -- the value is ASCII, as far as the other word goes
  have hfold : foldedChars v = foldBytes v := by
    refine foldedChars_of_foldBytes fun c hc => ?_
    rw [htake] at hc
    exact foldBytes_ascii hascii' c (List.mem_of_mem_take hc)
  have hzero : 0 ∉ foldBytes v := by
    rw [htake]
    exact fun hmem => zero_notMem_foldBytes hrow' (List.mem_of_mem_take hmem)
  have hpre := h.foldPrefix hrow
  rw [hfold] at hpre
  have heq : foldBytes row.zValueStr = foldBytes v :=
    eq_of_zero_ends (zero_notMem_foldBytes hrow) hzero hpre List.prefix_rfl
  have hlen : row.zValueStr.length = v.length := by
    have := congrArg List.length heq
    rwa [foldBytes, foldBytes, List.length_map, List.length_map] at this
  refine (vectorParamNames_apart row hrow row' hrow' h.type_eq h'.type_eq
    (h.named.symm.trans h'.named)).1 ⟨?_, by omega, by rw [heq, hlen, htake]⟩
  exact (vectorParamNames_ascii row hrow).2.2.2.2 h.type_eq

/-! ### What is accepted -/

/-- A name and a value are treated as the table says: the row of the word is stored, and where
there is none they are refused and the parameters are left alone. -/
structure FollowsRows (name v : List UInt8) (pParams : VectorIdxParams)
    (r : VectorIdxParams × Except String Unit) : Prop where
  accepted : ∀ row ∈ vectorParamNames, row.Matches name v →
    r.2 = .ok () ∧ r.1.entries = pParams.entries ++ [(row.tag, row.value)]
  refused : (∀ row ∈ vectorParamNames, ¬row.Matches name v) →
    (∃ pErrMsg, r.2 = .error pErrMsg) ∧ r.1 = pParams

/-- Nine bytes are free. -/
def HasRoom (pParams : VectorIdxParams) : Prop := 9 * pParams.entries.length + 9 ≤ 128

theorem putParam_spec (pParams : VectorIdxParams) (tag : ParamId) (value : ℕ) (pErrMsg : String) :
    (HasRoom pParams → (putParam pParams tag value pErrMsg).2 = .ok () ∧
      (putParam pParams tag value pErrMsg).1.entries = pParams.entries ++ [(tag, value)]) ∧
    (¬HasRoom pParams → putParam pParams tag value pErrMsg = (pParams, .error pErrMsg)) := by
  unfold putParam vectorIdxParamsPutU64 HasRoom
  constructor
  · intro h
    rw [dif_neg (by omega)]
    exact ⟨rfl, rfl⟩
  · intro h
    rw [dif_pos (by omega)]

/-- When the table is followed for a name and a value. -/
theorem followsRows_iff (harg : Argument zParam name v) (hv : v.length < 2 ^ 30)
    (hstr : StringValued name) :
    FollowsRows name v pParams (parseVectorIdxParamText strtod zParam pParams) ↔
      (∀ row ∈ vectorParamNames, row.Matches name v → HasRoom pParams) ∧
        ∀ row ∈ vectorParamNames, row.Begins name v → ¬HasRoom pParams := by
  rw [parseVectorIdxParamText_eq harg, parseRows_find harg hstr (List.Subset.refl _)]
  rcases hfind : vectorParamNames.find? (fun row => row.Hit zParam name v) with - | row
  · -- no row is hit
    have hno : ∀ row ∈ vectorParamNames, ¬(row.Matches name v ∨ row.Begins name v) := by
      intro row hrow h
      have := List.find?_eq_none.mp hfind row hrow
      exact this (decide_eq_true ((hit_iff harg hv hstr hrow).mpr h))
    rw [hfind]
    refine iff_of_true ⟨fun row hrow h => absurd (.inl h) (hno row hrow), fun _ => ⟨⟨_, rfl⟩, rfl⟩⟩
      ⟨fun row hrow h => absurd (.inl h) (hno row hrow),
        fun row hrow h => absurd (.inr h) (hno row hrow)⟩
  · have hrow := List.mem_of_find?_eq_some hfind
    have hhit : row.Hit zParam name v := by
      have := List.find?_some hfind
      exact of_decide_eq_true this
    rw [hfind]
    obtain ⟨hroom, hfull⟩ := putParam_spec pParams row.tag row.value
      "unable to serialize vector index parameter"
    dsimp only
    rcases (hit_iff harg hv hstr hrow).mp hhit with hmatch | hbegin
    · -- the whole word
      constructor
      · intro h
        refine ⟨fun _ _ _ => ?_, fun row' hrow' h' => (Matches_not_begins hrow hrow' hmatch h').elim⟩
        by_contra hno
        have := (h.accepted row hrow hmatch).1
        rw [hfull hno] at this
        cases this
      · rintro ⟨h, -⟩
        refine ⟨fun row' hrow' h' => ?_, fun h' => absurd hmatch (h' row hrow)⟩
        obtain rfl := Matches_unique hrow hrow' hmatch h'
        exact hroom (h row hrow hmatch)
    · -- the beginning of a word
      have hnone : ∀ row' ∈ vectorParamNames, ¬row'.Matches name v :=
        fun row' hrow' h' => Matches_not_begins hrow' hrow h' hbegin
      constructor
      · intro h
        refine ⟨fun row' hrow' h' => absurd h' (hnone row' hrow'), fun _ _ _ hyes => ?_⟩
        obtain ⟨⟨pErrMsg, herr⟩, -⟩ := h.refused hnone
        rw [(hroom hyes).1] at herr
        cases herr
      · rintro ⟨-, h⟩
        refine ⟨fun row' hrow' h' => absurd h' (hnone row' hrow'), fun _ => ?_⟩
        rw [hfull (h row hrow hbegin)]
        exact ⟨⟨_, rfl⟩, rfl⟩

/-- A text is cut in one way. -/
theorem Argument.unique {name' v' : List UInt8} (harg : Argument zParam name v)
    (harg' : Argument zParam name' v') : name = name' ∧ v = v' := by
  have hname : name = name' := harg.takeWhile.symm.trans harg'.takeWhile
  refine ⟨hname, ?_⟩
  have hsplit := harg.split.symm.trans harg'.split
  rw [hname] at hsplit
  exact (List.cons.inj (List.append_cancel_left hsplit)).2

/-- A text with a delimiter is an argument. -/
theorem exists_argument (h : (0x3d : UInt8) ∈ zParam) : ∃ name v, Argument zParam name v := by
  obtain ⟨name, v, hsplit, hno⟩ := List.eq_append_cons_of_mem h
  exact ⟨name, v, hsplit, hno⟩

/-- The text is treated as the table says. -/
structure FollowsTable (zParam : List UInt8) (pParams : VectorIdxParams)
    (r : VectorIdxParams × Except String Unit) : Prop where
  accepted : ∀ name v, Argument zParam name v → ∀ row ∈ vectorParamNames, row.Matches name v →
    r.2 = .ok () ∧ r.1.entries = pParams.entries ++ [(row.tag, row.value)]
  refused : (∀ name v, Argument zParam name v → ∀ row ∈ vectorParamNames, ¬row.Matches name v) →
    (∃ pErrMsg, r.2 = .error pErrMsg) ∧ r.1 = pParams

/-- **When the table is followed**, for any text whose name is not that of a number: when a
word of the table finds room, and the beginning of a word does not. -/
theorem parseVectorIdxParam_iff (hlen : zParam.length < 2 ^ 30)
    (hstr : ∀ name v, Argument zParam name v → StringValued name) :
    FollowsTable zParam pParams (parseVectorIdxParamText strtod zParam pParams) ↔
      ∀ name v, Argument zParam name v → ∀ row ∈ vectorParamNames,
        (row.Matches name v → HasRoom pParams) ∧ (row.Begins name v → ¬HasRoom pParams) := by
  by_cases hdelim : (0x3d : UInt8) ∈ zParam
  · obtain ⟨name, v, harg⟩ := exists_argument hdelim
    have hv : v.length < 2 ^ 30 := by
      have := congrArg List.length harg.split
      rw [List.length_append, List.length_cons] at this
      omega
    have hrows : FollowsRows name v pParams (parseVectorIdxParamText strtod zParam pParams) ↔ _ :=
      followsRows_iff harg hv (hstr name v harg)
    constructor
    · intro h name' v' harg' row hrow
      obtain ⟨rfl, rfl⟩ := harg.unique harg'
      obtain ⟨hmatch, hbegin⟩ := hrows.mp
        ⟨h.accepted name v harg, fun hno => h.refused fun name' v' harg' => by
          obtain ⟨rfl, rfl⟩ := harg.unique harg'
          exact hno⟩
      exact ⟨hmatch row hrow, hbegin row hrow⟩
    · intro h
      have hfollows := hrows.mpr
        ⟨fun row hrow => (h name v harg row hrow).1, fun row hrow => (h name v harg row hrow).2⟩
      refine ⟨fun name' v' harg' => ?_, fun hno => hfollows.refused (hno name v harg)⟩
      obtain ⟨rfl, rfl⟩ := harg.unique harg'
      exact hfollows.accepted
  · -- a text without a delimiter
    have hno : ∀ name v, ¬Argument zParam name v := by
      intro name v harg
      rw [harg.split] at hdelim
      exact hdelim (List.mem_append_right _ List.mem_cons_self)
    have hparse : parseVectorIdxParamText strtod zParam pParams =
        (pParams, .error "unexpected parameter format") := by
      have htake : zParam.takeWhile (· ≠ 0x3d) = zParam :=
        List.takeWhile_eq_self_iff.mpr fun x hx => by
          rw [decide_eq_true_eq]
          exact fun heq => hdelim (heq ▸ hx)
      unfold parseVectorIdxParamText
      dsimp only
      rw [htake, List.getD_eq_default _ _ le_rfl, if_pos (by decide)]
    rw [hparse]
    exact iff_of_true ⟨fun name v harg => absurd harg (hno name v), fun _ => ⟨⟨_, rfl⟩, rfl⟩⟩
      fun name v harg => absurd harg (hno name v)

/-- `metric=l2` is stored in parameters with room. -/
theorem parseVectorIdxParam_iff_l2 :
    FollowsTable (bytesOf "metric=l2") ⟨[], by decide⟩
        (parseVectorIdxParamText (fun _ => 0) (bytesOf "metric=l2") ⟨[], by decide⟩) ↔
      ∀ name v, Argument (bytesOf "metric=l2") name v → ∀ row ∈ vectorParamNames,
        (row.Matches name v → HasRoom ⟨[], by decide⟩) ∧
          (row.Begins name v → ¬HasRoom ⟨[], by decide⟩) := by
  refine parseVectorIdxParam_iff (by decide) fun name v harg => ?_
  obtain ⟨rfl, -⟩ := harg.unique
    (show Argument (bytesOf "metric=l2") (bytesOf "metric") (bytesOf "l2") from
      ⟨by decide, by decide⟩)
  intro row hrow hnamed
  have hall : ∀ row ∈ vectorParamNames, foldBytes (bytesOf "metric") = foldBytes row.zName →
      row.type = 0 := by
    decide
  exact hall row hrow hnamed

/-- `metric=cos` is not in the table, and stores the cosine metric. -/
theorem parseVectorIdxParam_cos :
    ¬FollowsTable (bytesOf "metric=cos") ⟨[], by decide⟩
      (parseVectorIdxParamText (fun _ => 0) (bytesOf "metric=cos") ⟨[], by decide⟩) := by
  intro h
  have hno : ∀ name v, Argument (bytesOf "metric=cos") name v → ∀ row ∈ vectorParamNames,
      ¬row.Matches name v := by
    intro name v harg row hrow hmatch
    obtain ⟨rfl, rfl⟩ := harg.unique
      (show Argument (bytesOf "metric=cos") (bytesOf "metric") (bytesOf "cos") from
        ⟨by decide, by decide⟩)
    have hall : ∀ row ∈ vectorParamNames, row.type = 0 →
        ¬sqlite4Stricmp row.zValueStr (bytesOf "cos") = 0 := by
      decide
    exact hall row hrow hmatch.type_eq hmatch.value_eq
  obtain ⟨⟨pErrMsg, herr⟩, -⟩ := h.refused hno
  have hok : (parseVectorIdxParamText (fun _ => 0) (bytesOf "metric=cos")
      ⟨[], by decide⟩).2 = .ok () := by
    decide
  rw [hok] at herr
  cases herr

/-! ### The arguments that the text stands for -/

theorem putParam_ok {tag : ParamId} {value : ℕ} {pErrMsg : String}
    (h : (putParam pParams tag value pErrMsg).2 = .ok ()) :
    vectorIdxParamsPutU64 pParams tag value = some (putParam pParams tag value pErrMsg).1 := by
  unfold putParam at h ⊢
  rcases hput : vectorIdxParamsPutU64 pParams tag value with - | q
  · rw [hput] at h
    cases h
  · rfl

theorem sqlite4Atoi_le (z : List UInt8) : sqlite4Atoi z ≤ 2147483647 := by
  have hnonneg : ∀ (l : List UInt8) (v : ℤ), (∀ c ∈ l, isDigit c = true) → 0 ≤ v →
      0 ≤ l.foldl (fun v c => v * 10 + ((c.toNat : ℤ) - 0x30)) v := by
    intro l
    induction l with
    | nil => exact fun v _ hv => hv
    | cons c l ih =>
        intro v hl hv
        have hc : 0x30 ≤ c.toNat := by
          have := hl c List.mem_cons_self
          rw [isDigit, Bool.and_eq_true, decide_eq_true_eq] at this
          exact UInt8.le_iff_toNat_le.mp this.1
        exact ih _ (fun c hc => hl c (List.mem_cons_of_mem _ hc)) (by dsimp only; omega)
  unfold sqlite4Atoi
  dsimp only
  generalize (if z.headD 0 = 0x2d ∨ z.headD 0 = 0x2b then z.tail else z).dropWhile
    (fun x => decide (x = 0x30)) = zNum
  have hv := hnonneg ((zNum.takeWhile isDigit).take 11) 0
    (fun c hc => List.mem_takeWhile_imp (List.mem_of_mem_take hc)) le_rfl
  generalize ((zNum.takeWhile isDigit).take 11).foldl _ _ = v at *
  split_ifs <;> omega

/-- The row of a word is an argument. -/
theorem word_argument : ∀ row ∈ vectorParamNames, row.type = 0 →
    ∃ arg, ∀ p q, vectorIdxParamsPutU64 p row.tag row.value = some q →
      parseVectorIdxParam p arg = .ok q := by
  have hall : ∀ row ∈ vectorParamNames, row.type = 0 →
      (row.tag = .indexType ∧ row.value = 1) ∨
        (∃ m ∈ [MetricType.cos, .l2], row.tag = .metricType ∧ row.value = m.code) ∨
        ∃ t ∈ [VectorType.float32, .float1bit, .float8, .float16, .floatb16],
          row.tag = .compressNeighbors ∧ row.value = t.code := by
    decide
  intro row hrow htype
  rcases hall row hrow htype with ⟨htag, hvalue⟩ | ⟨m, -, htag, hvalue⟩ | ⟨t, ht, htag, hvalue⟩
  · refine ⟨.type, fun p q hput => ?_⟩
    rw [htag, hvalue] at hput
    rw [parseVectorIdxParam, hput]
  · refine ⟨.metric m, fun p q hput => ?_⟩
    rw [htag, hvalue] at hput
    rw [parseVectorIdxParam, hput]
  · refine ⟨.compressNeighbors t, fun p q hput => ?_⟩
    have hne : t ≠ .float64 := by
      rintro rfl
      exact absurd ht (by decide)
    rw [htag, hvalue] at hput
    rw [parseVectorIdxParam, if_neg hne, hput]

theorem parseRows_refines (hstrtod : ∀ z, strtod z < 2 ^ 64) {iDelimiter : ℕ}
    {zValue : List UInt8} {rows : List VectorParamName} (hsub : rows ⊆ vectorParamNames)
    (h : (parseRows strtod zParam iDelimiter zValue pParams rows).2 = .ok ()) :
    ∃ arg, parseVectorIdxParam pParams arg =
      .ok (parseRows strtod zParam iDelimiter zValue pParams rows).1 := by
  induction rows with
  | nil => cases h
  | cons row rows ih =>
      obtain ⟨hrow, hrest⟩ := List.cons_subset.mp hsub
      rw [parseRows] at h ⊢
      dsimp only at h ⊢
      split_ifs at h ⊢ with hname htype hzero hneg htype2 hconv htype0
      · exact ih hrest h
      · -- an integer
        have hput := putParam_ok h
        have hall : ∀ row ∈ vectorParamNames, row.type = 1 →
            row.tag = .searchL ∨ row.tag = .insertL ∨ row.tag = .maxNeighbors := by decide
        have hle := sqlite4Atoi_le zValue
        have hparse : parseInteger pParams row.tag (sqlite4Atoi zValue) = .ok (putParam pParams
            row.tag (sqlite4Atoi zValue).toNat
              "unable to serialize integer vector index parameter").1 := by
          rw [parseInteger, if_neg hzero, if_neg hneg, if_neg (by omega), hput]
        rcases hall row hrow htype with htag | htag | htag <;> rw [htag] at hparse ⊢
        · exact ⟨.searchL _, hparse⟩
        · exact ⟨.insertL _, hparse⟩
        · exact ⟨.maxNeighbors _, hparse⟩
      · -- a floating point number
        have hput := putParam_ok h
        have hall : ∀ row ∈ vectorParamNames, row.type = 2 → row.tag = .pruningAlpha := by decide
        refine ⟨.alpha (strtod zValue), ?_⟩
        rw [hall row hrow htype2] at hput ⊢
        rw [parseVectorIdxParam, Nat.mod_eq_of_lt (hstrtod zValue), hput]
      · -- a word
        obtain ⟨arg, harg⟩ := word_argument row hrow htype0
        exact ⟨arg, harg _ _ (putParam_ok h)⟩
      · exact ih hrest h

/-- **What is accepted is an argument of the parser**: a type, a metric, a compression or a
number. -/
theorem parseVectorIdxParamText_refines (hstrtod : ∀ z, strtod z < 2 ^ 64)
    (h : (parseVectorIdxParamText strtod zParam pParams).2 = .ok ()) :
    ∃ arg, parseVectorIdxParam pParams arg =
      .ok (parseVectorIdxParamText strtod zParam pParams).1 := by
  unfold parseVectorIdxParamText at h ⊢
  dsimp only at h ⊢
  split_ifs at h ⊢
  exact parseRows_refines hstrtod (List.Subset.refl _) h

end MoVeBench
