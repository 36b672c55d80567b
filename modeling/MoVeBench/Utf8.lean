/-
MoVeBench/Utf8.lean

Text that is compared without regard to case (`sqlite4_stricmp` and `sqlite4_strnicmp` of
`utf.c`).

Both read characters of UTF-8 and fold them to lower case.  A text is a list of bytes, and
its terminating zero byte is not part of the list.  What is compared is the sequence of
folded characters (`foldedChars`).  Where the left text is ASCII, `sqlite4_stricmp` compares
the whole of it, and `sqlite4_strnicmp` with `N` no more than `N` characters, but at least
one (`strnicmp_iff`); so it takes a text for equal to each longer one that it begins
(`strnicmp_length_iff`).
-/
import Mathlib

namespace MoVeBench

/-! ### Folding to lower case -/

/-- `aEntry` of `sqlite4_tolower`: `iCode`, `flags` and `nRange`. -/
def caseEntries : List (ℕ × ℕ × ℕ) := [
  (65, 14, 26), (181, 64, 1), (192, 14, 23), (216, 14, 7), (256, 1, 48), (306, 1, 6),
  (313, 1, 16), (330, 1, 46), (376, 116, 1), (377, 1, 6), (383, 104, 1), (385, 50, 1),
  (386, 1, 4), (390, 44, 1), (391, 0, 1), (393, 42, 2), (395, 0, 1), (398, 32, 1), (399, 38, 1),
  (400, 40, 1), (401, 0, 1), (403, 42, 1), (404, 46, 1), (406, 52, 1), (407, 48, 1), (408, 0, 1),
  (412, 52, 1), (413, 54, 1), (415, 56, 1), (416, 1, 6), (422, 60, 1), (423, 0, 1), (425, 60, 1),
  (428, 0, 1), (430, 60, 1), (431, 0, 1), (433, 58, 2), (435, 1, 4), (439, 62, 1), (440, 0, 1),
  (444, 0, 1), (452, 2, 1), (453, 0, 1), (455, 2, 1), (456, 0, 1), (458, 2, 1), (459, 1, 18),
  (478, 1, 18), (497, 2, 1), (498, 1, 4), (502, 122, 1), (503, 134, 1), (504, 1, 40),
  (544, 110, 1), (546, 1, 18), (570, 70, 1), (571, 0, 1), (573, 108, 1), (574, 68, 1),
  (577, 0, 1), (579, 106, 1), (580, 28, 1), (581, 30, 1), (582, 1, 10), (837, 36, 1), (880, 1, 4),
  (886, 0, 1), (902, 18, 1), (904, 16, 3), (908, 26, 1), (910, 24, 2), (913, 14, 17),
  (931, 14, 9), (962, 0, 1), (975, 4, 1), (976, 140, 1), (977, 142, 1), (981, 146, 1),
  (982, 144, 1), (984, 1, 24), (1008, 136, 1), (1009, 138, 1), (1012, 130, 1), (1013, 128, 1),
  (1015, 0, 1), (1017, 152, 1), (1018, 0, 1), (1021, 110, 3), (1024, 34, 16), (1040, 14, 32),
  (1120, 1, 34), (1162, 1, 54), (1216, 6, 1), (1217, 1, 14), (1232, 1, 88), (1329, 22, 38),
  (4256, 66, 38), (4295, 66, 1), (4301, 66, 1), (7680, 1, 150), (7835, 132, 1), (7838, 96, 1),
  (7840, 1, 96), (7944, 150, 8), (7960, 150, 6), (7976, 150, 8), (7992, 150, 8), (8008, 150, 6),
  (8025, 151, 8), (8040, 150, 8), (8072, 150, 8), (8088, 150, 8), (8104, 150, 8), (8120, 150, 2),
  (8122, 126, 2), (8124, 148, 1), (8126, 100, 1), (8136, 124, 4), (8140, 148, 1), (8152, 150, 2),
  (8154, 120, 2), (8168, 150, 2), (8170, 118, 2), (8172, 152, 1), (8184, 112, 2), (8186, 114, 2),
  (8188, 148, 1), (8486, 98, 1), (8490, 92, 1), (8491, 94, 1), (8498, 12, 1), (8544, 8, 16),
  (8579, 0, 1), (9398, 10, 26), (11264, 22, 47), (11360, 0, 1), (11362, 88, 1), (11363, 102, 1),
  (11364, 90, 1), (11367, 1, 6), (11373, 84, 1), (11374, 86, 1), (11375, 80, 1), (11376, 82, 1),
  (11378, 0, 1), (11381, 0, 1), (11390, 78, 2), (11392, 1, 100), (11499, 1, 4), (11506, 0, 1),
  (42560, 1, 46), (42624, 1, 24), (42786, 1, 14), (42802, 1, 62), (42873, 1, 4), (42877, 76, 1),
  (42878, 1, 10), (42891, 0, 1), (42893, 74, 1), (42896, 1, 4), (42912, 1, 10), (42922, 72, 1),
  (65313, 14, 26)]

/-- `aiOff` of `sqlite4_tolower`. -/
def caseOffsets : List ℕ := [
  1, 2, 8, 15, 16, 26, 28, 32, 37, 38, 40, 48, 63, 64, 69, 71, 79, 80, 116, 202, 203, 205, 206,
  207, 209, 210, 211, 213, 214, 217, 218, 219, 775, 7264, 10792, 10795, 23228, 23256, 30204,
  54721, 54753, 54754, 54756, 54787, 54793, 54809, 57153, 57274, 57921, 58019, 58363, 61722,
  65268, 65341, 65373, 65406, 65408, 65410, 65415, 65424, 65436, 65439, 65450, 65462, 65472,
  65476, 65478, 65480, 65482, 65488, 65506, 65511, 65514, 65521, 65527, 65528, 65529]

/-- The binary search of `sqlite4_tolower`, from `iLo` to `iHi - 1`: the last entry, if there
is one, whose `iCode` is no more than `c`. -/
def searchEntry (c : ℕ) : ℕ → ℕ → ℕ → Option ℕ → Option ℕ
  | 0, _, _, iRes => iRes
  | fuel + 1, iLo, iHi, iRes =>
      if iLo < iHi then
        let iTest := (iHi - 1 + iLo) / 2
        if (caseEntries.getD iTest (0, 0, 0)).1 ≤ c then
          searchEntry c fuel (iTest + 1) iHi (some iTest)
        else searchEntry c fuel iLo iTest iRes
      else iRes

/-- `sqlite4_tolower`. -/
def sqlite4Tolower (c : ℕ) : ℕ :=
  if c < 128 then if 65 ≤ c ∧ c ≤ 90 then c + 32 else c
  else if c < 65536 then
    match searchEntry c 9 0 caseEntries.length none with
    | none => c
    | some iRes =>
        let (iCode, flags, nRange) := caseEntries.getD iRes (0, 0, 0)
        if c < iCode + nRange ∧ 1 &&& flags &&& (iCode ^^^ c) = 0 then
          (c + caseOffsets.getD (flags >>> 1) 0) &&& 0xffff
        else c
  else if 66560 ≤ c ∧ c < 66600 then c + 40
  else c

theorem sqlite4Tolower_ascii_pos {c : ℕ} (h0 : 0 < c) (h : c < 128) :
    0 < sqlite4Tolower c ∧ sqlite4Tolower c < 128 := by
  unfold sqlite4Tolower
  rw [if_pos h]
  split_ifs <;> omega

/-! ### Reading characters -/

/-- `sqlite4Utf8Trans1`. -/
def utf8Trans1 : List ℕ := [
  0x00, 0x01, 0x02, 0x03, 0x04, 0x05, 0x06, 0x07,
  0x08, 0x09, 0x0a, 0x0b, 0x0c, 0x0d, 0x0e, 0x0f,
  0x10, 0x11, 0x12, 0x13, 0x14, 0x15, 0x16, 0x17,
  0x18, 0x19, 0x1a, 0x1b, 0x1c, 0x1d, 0x1e, 0x1f,
  0x00, 0x01, 0x02, 0x03, 0x04, 0x05, 0x06, 0x07,
  0x08, 0x09, 0x0a, 0x0b, 0x0c, 0x0d, 0x0e, 0x0f,
  0x00, 0x01, 0x02, 0x03, 0x04, 0x05, 0x06, 0x07,
  0x00, 0x01, 0x02, 0x03, 0x00, 0x01, 0x00, 0x00]

/-- The loop of `READ_UTF8` over the bytes that continue a character. -/
def readContinuation (c : ℕ) : List UInt8 → ℕ × List UInt8
  | [] => (c, [])
  | x :: zIn =>
      if x.toNat &&& 0xc0 = 0x80 then
        readContinuation ((c <<< 6 + (0x3f &&& x.toNat)) % 2 ^ 32) zIn
      else (c, x :: zIn)

/-- `READ_UTF8`: the character, and what follows it.  The texts here end with a zero byte or
with `=`, so that the end that is passed along is never met inside a character. -/
def readUtf8 : List UInt8 → ℕ × List UInt8
  | [] => (0, [])
  | x :: zIn =>
      if x.toNat < 0xc0 then (x.toNat, zIn)
      else
        let (c, zIn) := readContinuation (utf8Trans1.getD (x.toNat - 0xc0) 0) zIn
        (if c < 0x80 ∨ c &&& 0xfffff800 = 0xd800 ∨ c &&& 0xfffffffe = 0xfffe then 0xfffd else c, zIn)

/-- The loop of `sqlite4_strnicmp`, with `N` bytes up to `aTerm`. -/
def strnicmpLoop : ℕ → ℕ → List UInt8 → List UInt8 → ℤ
  | 0, _, _, _ => 0
  | fuel + 1, N, a, b =>
      let (ac, a') := readUtf8 a
      let ac := sqlite4Tolower ac
      let (bc, b') := readUtf8 b
      let bc := sqlite4Tolower bc
      if ac = bc ∧ ac ≠ 0 ∧ a.length - a'.length < N then
        strnicmpLoop fuel (N - (a.length - a'.length)) a' b'
      else (ac : ℤ) - bc

/-- `sqlite4_strnicmp`. -/
def sqlite4Strnicmp (zLeft zRight : List UInt8) (N : ℕ) : ℤ :=
  strnicmpLoop (zLeft.length + 1) N zLeft zRight

/-- The loop of `sqlite4_stricmp`. -/
def stricmpLoop : ℕ → List UInt8 → List UInt8 → ℤ
  | 0, _, _ => 0
  | fuel + 1, a, b =>
      let (ac, a') := readUtf8 a
      let ac := sqlite4Tolower ac
      let (bc, b') := readUtf8 b
      let bc := sqlite4Tolower bc
      if ac = bc ∧ ac ≠ 0 then stricmpLoop fuel a' b' else (ac : ℤ) - bc

/-- `sqlite4_stricmp`. -/
def sqlite4Stricmp (zLeft zRight : List UInt8) : ℤ :=
  stricmpLoop (zLeft.length + 1) zLeft zRight

/-! ### Folded characters -/

theorem readContinuation_length (c : ℕ) (z : List UInt8) :
    (readContinuation c z).2.length ≤ z.length := by
  induction z generalizing c with
  | nil => exact le_rfl
  | cons x z ih =>
      rw [readContinuation]
      split_ifs
      · exact le_trans (ih _) (Nat.le_succ _)
      · exact le_rfl

theorem readUtf8_length (x : UInt8) (z : List UInt8) :
    (readUtf8 (x :: z)).2.length ≤ z.length := by
  rw [readUtf8]
  split_ifs
  · exact le_rfl
  · exact readContinuation_length _ _

/-- The characters of a text, folded to lower case. -/
def foldedChars (z : List UInt8) : List ℕ :=
  match z with
  | [] => []
  | x :: z =>
      have := readUtf8_length x z
      sqlite4Tolower (readUtf8 (x :: z)).1 :: foldedChars (readUtf8 (x :: z)).2
termination_by z.length

theorem foldedChars_nil : foldedChars [] = [] := by
  rw [foldedChars]

theorem foldedChars_cons (x : UInt8) (z : List UInt8) : foldedChars (x :: z) =
    sqlite4Tolower (readUtf8 (x :: z)).1 :: foldedChars (readUtf8 (x :: z)).2 := by
  rw [foldedChars]

theorem readUtf8_ascii {x : UInt8} (hx : x.toNat < 128) (z : List UInt8) :
    readUtf8 (x :: z) = (x.toNat, z) := by
  rw [readUtf8, if_pos (by omega)]

/-- A text of ASCII characters. -/
def IsAscii (z : List UInt8) : Prop := ∀ x ∈ z, 0 < x.toNat ∧ x.toNat < 128

instance (z : List UInt8) : Decidable (IsAscii z) :=
  inferInstanceAs (Decidable (∀ x ∈ z, _ ∧ _))

theorem foldedChars_ascii {z : List UInt8} (h : IsAscii z) :
    foldedChars z = z.map fun x => sqlite4Tolower x.toNat := by
  induction z with
  | nil => exact foldedChars_nil
  | cons x z ih =>
      rw [foldedChars_cons, readUtf8_ascii (h x List.mem_cons_self).2, List.map_cons,
        ih fun y hy => h y (List.mem_cons_of_mem _ hy)]

theorem foldedChars_length (z : List UInt8) : (foldedChars z).length ≤ z.length := by
  induction hn : z.length using Nat.strong_induction_on generalizing z with
  | _ n ih =>
      rcases z with - | ⟨x, z⟩
      · rw [foldedChars_nil]
        exact Nat.zero_le _
      · have hread := readUtf8_length x z
        rw [List.length_cons] at hn
        rw [foldedChars_cons, List.length_cons]
        have := ih _ (by omega) (readUtf8 (x :: z)).2 rfl
        omega

/-- A character that a single byte stands for. -/
def byteChar (x : UInt8) : ℕ := if x.toNat < 0xc0 then x.toNat else 0xfffd

theorem utf8Trans1_lt (n : ℕ) : utf8Trans1.getD n 0 < 0x80 := by
  have hall : ∀ c ∈ utf8Trans1, c < 0x80 := by decide
  rw [List.getD_eq_getElem?_getD]
  rcases h : utf8Trans1[n]? with - | c
  · decide
  · exact hall c (List.mem_of_getElem? h)

/-- A character that takes one byte only. -/
theorem readUtf8_single {x : UInt8} {z : List UInt8} (h : z.length ≤ (readUtf8 (x :: z)).2.length) :
    readUtf8 (x :: z) = (byteChar x, z) := by
  have hstop : ∀ c, z.length ≤ (readContinuation c z).2.length → readContinuation c z = (c, z) := by
    intro c hle
    rcases z with - | ⟨y, z⟩
    · rfl
    · rw [readContinuation] at hle ⊢
      split_ifs at hle ⊢
      · have := readContinuation_length ((c <<< 6 + (0x3f &&& y.toNat)) % 2 ^ 32) z
        rw [List.length_cons] at hle
        omega
      · rfl
  rw [readUtf8] at h ⊢
  rw [byteChar]
  split_ifs at h ⊢ with hx
  · rfl
  · rw [hstop _ h]
    dsimp only
    rw [if_pos (Or.inl (utf8Trans1_lt _))]

/-- A text with as many characters as bytes. -/
theorem foldedChars_single {z : List UInt8} (h : z.length ≤ (foldedChars z).length) :
    foldedChars z = z.map fun x => sqlite4Tolower (byteChar x) := by
  induction z with
  | nil => exact foldedChars_nil
  | cons x z ih =>
      have hread := readUtf8_length x z
      have hrest := foldedChars_length (readUtf8 (x :: z)).2
      rw [foldedChars_cons, List.length_cons, List.length_cons] at h
      have hsingle := readUtf8_single (x := x) (z := z) (by omega)
      rw [hsingle] at h
      dsimp only at h
      rw [foldedChars_cons, hsingle, List.map_cons, ih (by omega)]

/-- A single byte that folds to an ASCII character is one. -/
theorem ascii_of_byteChar : ∀ n < 256, sqlite4Tolower (byteChar (.ofNat n)) < 128 → n < 128 := by
  decide +kernel

/-! ### What is compared -/

theorem sqlite4Tolower_zero : sqlite4Tolower 0 = 0 := by decide

/-- A text with its end is the character that is read first, and what is behind it. -/
theorem foldedChars_head (b : List UInt8) : ∃ t,
    foldedChars b ++ [0] = sqlite4Tolower (readUtf8 b).1 :: t ∧
      (sqlite4Tolower (readUtf8 b).1 ≠ 0 → t = foldedChars (readUtf8 b).2 ++ [0]) := by
  cases b with
  | nil =>
      refine ⟨[], ?_, fun h => absurd sqlite4Tolower_zero h⟩
      rw [foldedChars_nil, readUtf8, sqlite4Tolower_zero, List.nil_append]
  | cons y b =>
      refine ⟨_, ?_, fun _ => rfl⟩
      rw [foldedChars_cons, List.cons_append]

/-- **What `sqlite4_strnicmp` compares**, with ASCII text on the left: no more than `N`
characters and at least one, the zero byte at the end being one of them. -/
theorem strnicmp_iff {a : List UInt8} (ha : IsAscii a) (b : List UInt8) (N : ℕ) :
    sqlite4Strnicmp a b N = 0 ↔
      (foldedChars a ++ [0]).take (max N 1) <+: foldedChars b ++ [0] := by
  suffices key : ∀ fuel, a.length < fuel → (strnicmpLoop fuel N a b = 0 ↔
      (foldedChars a ++ [0]).take (max N 1) <+: foldedChars b ++ [0]) from
    key _ (Nat.lt_succ_self _)
  induction a generalizing b N with
  | nil =>
      intro fuel hfuel
      obtain ⟨fuel, rfl⟩ : ∃ f, fuel = f + 1 := ⟨fuel - 1, by omega⟩
      obtain ⟨t, hb, -⟩ := foldedChars_head b
      have htake : (foldedChars [] ++ [0]).take (max N 1) = [0] := by
        rw [foldedChars_nil, List.nil_append, List.take_of_length_le (by simp)]
      rw [htake, hb, List.cons_prefix_cons, and_iff_left List.nil_prefix, strnicmpLoop,
        show readUtf8 [] = (0, []) from rfl]
      dsimp only
      rw [sqlite4Tolower_zero, if_neg (by omega)]
      omega
  | cons x a ih =>
      intro fuel hfuel
      obtain ⟨fuel, rfl⟩ : ∃ f, fuel = f + 1 := ⟨fuel - 1, by omega⟩
      obtain ⟨hx0, hx⟩ := ha x List.mem_cons_self
      have hpos := (sqlite4Tolower_ascii_pos hx0 hx).1
      have htail : IsAscii a := fun y hy => ha y (List.mem_cons_of_mem _ hy)
      obtain ⟨t, hb, ht⟩ := foldedChars_head b
      rw [List.length_cons] at hfuel
      have hmax : max N 1 = max N 1 - 1 + 1 := by omega
      rw [foldedChars_cons, readUtf8_ascii hx, strnicmpLoop, readUtf8_ascii hx, List.cons_append,
        hmax, List.take_succ_cons, hb, List.cons_prefix_cons]
      dsimp only
      rw [List.length_cons, Nat.add_sub_cancel_left]
      by_cases heq : sqlite4Tolower x.toNat = sqlite4Tolower (readUtf8 b).1
      · by_cases hN : 1 < N
        · -- the character is the same, and the comparison goes on
          rw [if_pos ⟨heq, by omega, hN⟩, ih htail (readUtf8 b).2 (N - 1) fuel (by omega),
            show max (N - 1) 1 = max N 1 - 1 by omega, ht (by omega)]
          exact (and_iff_right heq).symm
        · rw [if_neg fun h => hN h.2.2, show max N 1 - 1 = 0 by omega, List.take_zero]
          exact iff_of_true (by omega) ⟨heq, List.nil_prefix⟩
      · rw [if_neg fun h => heq h.1]
        exact iff_of_false (by omega) fun h => heq h.1

/-- **What `sqlite4_stricmp` compares**, with ASCII text on the left: all the characters. -/
theorem stricmp_iff {a : List UInt8} (ha : IsAscii a) (b : List UInt8) :
    sqlite4Stricmp a b = 0 ↔ foldedChars a ++ [0] <+: foldedChars b ++ [0] := by
  suffices key : ∀ fuel, a.length < fuel → (stricmpLoop fuel a b = 0 ↔
      foldedChars a ++ [0] <+: foldedChars b ++ [0]) from key _ (Nat.lt_succ_self _)
  induction a generalizing b with
  | nil =>
      intro fuel hfuel
      obtain ⟨fuel, rfl⟩ : ∃ f, fuel = f + 1 := ⟨fuel - 1, by omega⟩
      obtain ⟨t, hb, -⟩ := foldedChars_head b
      rw [foldedChars_nil, List.nil_append, hb, List.cons_prefix_cons,
        and_iff_left List.nil_prefix, stricmpLoop, show readUtf8 [] = (0, []) from rfl]
      dsimp only
      rw [sqlite4Tolower_zero, if_neg (by omega)]
      omega
  | cons x a ih =>
      intro fuel hfuel
      obtain ⟨fuel, rfl⟩ : ∃ f, fuel = f + 1 := ⟨fuel - 1, by omega⟩
      obtain ⟨hx0, hx⟩ := ha x List.mem_cons_self
      have hpos := (sqlite4Tolower_ascii_pos hx0 hx).1
      have htail : IsAscii a := fun y hy => ha y (List.mem_cons_of_mem _ hy)
      obtain ⟨t, hb, ht⟩ := foldedChars_head b
      rw [List.length_cons] at hfuel
      rw [foldedChars_cons, readUtf8_ascii hx, stricmpLoop, readUtf8_ascii hx, List.cons_append,
        hb, List.cons_prefix_cons]
      dsimp only
      by_cases heq : sqlite4Tolower x.toNat = sqlite4Tolower (readUtf8 b).1
      · rw [if_pos ⟨heq, by omega⟩, ih htail (readUtf8 b).2 fuel (by omega), ht (by omega)]
        exact (and_iff_right heq).symm
      · rw [if_neg fun h => heq h.1]
        exact iff_of_false (by omega) fun h => heq h.1

/-- Bytes folded to lower case. -/
def foldBytes (z : List UInt8) : List ℕ := z.map fun x => sqlite4Tolower x.toNat

/-- `v` is the beginning of `a`, case aside: neither empty nor the whole of it. -/
def ProperPrefix (v a : List UInt8) : Prop :=
  v ≠ [] ∧ v.length < a.length ∧ foldBytes v = (foldBytes a).take v.length

instance (v a : List UInt8) : Decidable (ProperPrefix v a) :=
  inferInstanceAs (Decidable (_ ∧ _ ∧ _))

theorem foldBytes_ascii {z : List UInt8} (h : IsAscii z) :
    ∀ c ∈ foldBytes z, 0 < c ∧ c < 128 := by
  intro c hc
  obtain ⟨x, hx, rfl⟩ := List.mem_map.mp hc
  exact sqlite4Tolower_ascii_pos (h x hx).1 (h x hx).2

/-- A text with as many characters as bytes, all of which fold to ASCII. -/
theorem foldedChars_eq_foldBytes {z : List UInt8} (h : z.length ≤ (foldedChars z).length)
    (hascii : ∀ c ∈ foldedChars z, c < 128) : foldedChars z = foldBytes z := by
  rw [foldedChars_single h] at hascii ⊢
  refine List.map_congr_left fun x hx => ?_
  have hlt := hascii _ (List.mem_map_of_mem hx)
  have hx' := ascii_of_byteChar x.toNat x.toNat_lt
  rw [UInt8.ofNat_toNat] at hx'
  rw [byteChar, if_pos (by have := hx' hlt; omega)]

/-- Bytes that fold to ASCII characters are read one by one. -/
theorem foldedChars_of_foldBytes {z : List UInt8} (h : ∀ c ∈ foldBytes z, 0 < c ∧ c < 128) :
    foldedChars z = foldBytes z := by
  have hascii : IsAscii z := by
    intro x hx
    obtain ⟨h0, h1⟩ := h _ (List.mem_map_of_mem hx)
    have hx' : ∀ n < 256, 0 < sqlite4Tolower n → sqlite4Tolower n < 128 → 0 < n ∧ n < 128 := by
      decide +kernel
    exact hx' x.toNat x.toNat_lt h0 h1
  exact foldedChars_ascii hascii

section Compare

variable {a : List UInt8} (ha : IsAscii a)
include ha

/-- The characters in front of the end, as far as they go. -/
theorem take_prefix_iff {N : ℕ} (hN : N ≤ a.length) {l : List ℕ} :
    (foldedChars a ++ [0]).take N <+: l ++ [0] ↔ (foldBytes a).take N <+: l := by
  have hfold : foldedChars a = foldBytes a := foldedChars_ascii ha
  have hlen : (foldBytes a).length = a.length := List.length_map _
  rw [hfold, List.take_append_of_le_length (by omega)]
  constructor
  · intro h
    rcases Nat.lt_or_ge l.length ((foldBytes a).take N).length with hlt | hge
    · -- the last of them would be the zero byte
      exfalso
      have hle := h.length_le
      rw [List.length_append, List.length_singleton] at hle
      have heq : (foldBytes a).take N = l ++ [0] :=
        h.eq_of_length (by rw [List.length_append, List.length_singleton]; omega)
      have hmem : (0 : ℕ) ∈ (foldBytes a).take N := by
        rw [heq]
        exact List.mem_append_right _ (List.mem_singleton.mpr rfl)
      exact absurd (foldBytes_ascii ha 0 (List.mem_of_mem_take hmem)).1 (lt_irrefl 0)
    · exact List.prefix_of_prefix_length_le h (List.prefix_append l [0]) hge
  · intro h
    exact h.trans (List.prefix_append l [0])

/-- **A comparison of as many bytes as the right text has** finds the whole left text, or
one that goes on. -/
theorem strnicmp_length_iff (hne : a ≠ []) (v : List UInt8) :
    sqlite4Strnicmp a v v.length = 0 ↔ sqlite4Stricmp a v = 0 ∨ ProperPrefix v a := by
  have hfold : foldedChars a = foldBytes a := foldedChars_ascii ha
  have hlen : (foldBytes a).length = a.length := List.length_map _
  have hpos : 0 < a.length := List.length_pos_of_ne_nil hne
  have hv : (foldBytes v).length = v.length := List.length_map _
  have hchars := foldedChars_length v
  rw [strnicmp_iff ha, stricmp_iff ha]
  constructor
  · intro h
    rcases Nat.lt_or_ge a.length (max v.length 1) with hlong | hshort
    · rw [List.take_of_length_le (by
        rw [List.length_append, List.length_singleton, hfold, hlen]; omega)] at h
      exact .inl h
    · rw [take_prefix_iff ha hshort] at h
      have hle := h.length_le
      rw [List.length_take, hlen] at hle
      have hv1 : max v.length 1 = v.length := by omega
      rw [hv1] at h
      have heq : (foldBytes a).take v.length = foldedChars v :=
        h.eq_of_length (by rw [List.length_take, hlen]; omega)
      have hsingle : foldedChars v = foldBytes v := by
        refine foldedChars_eq_foldBytes (by omega) fun c hc => ?_
        rw [← heq] at hc
        exact (foldBytes_ascii ha c (List.mem_of_mem_take hc)).2
      rcases Nat.lt_or_ge v.length a.length with hlt | hge
      · refine .inr ⟨fun hnil => ?_, hlt, by rw [← hsingle, heq]⟩
        rw [hnil] at hv1
        simp at hv1
      · rw [List.take_of_length_le (by omega)] at heq
        rw [hfold, heq]
        exact .inl List.prefix_rfl
  · rintro (h | ⟨hnil, hlt, hpre⟩)
    · exact (List.take_prefix _ _).trans h
    · have hv1 : max v.length 1 = v.length := by
        have := List.length_pos_of_ne_nil hnil
        omega
      have hsingle : foldedChars v = foldBytes v := by
        refine foldedChars_of_foldBytes fun c hc => ?_
        rw [hpre] at hc
        exact foldBytes_ascii ha c (List.mem_of_mem_take hc)
      rw [hv1, take_prefix_iff ha hlt.le, hsingle, hpre]

end Compare

/-! ### Text in front of a delimiter -/

theorem readContinuation_append (c : ℕ) (z : List UInt8) {x : UInt8} (hx : x.toNat < 128)
    (r : List UInt8) : readContinuation c (z ++ x :: r) =
      ((readContinuation c z).1, (readContinuation c z).2 ++ x :: r) := by
  induction z generalizing c with
  | nil =>
      have hbit : ∀ n < 128, n &&& 0xc0 ≠ 0x80 := by decide
      rw [List.nil_append]
      exact if_neg (hbit _ hx)
  | cons y z ih =>
      rw [List.cons_append, readContinuation, readContinuation, ih]
      split_ifs <;> rfl

/-- An ASCII character ends the one in front of it. -/
theorem foldedChars_append (z : List UInt8) {x : UInt8} (hx : x.toNat < 128) (r : List UInt8) :
    foldedChars (z ++ x :: r) = foldedChars z ++ sqlite4Tolower x.toNat :: foldedChars r := by
  induction hn : z.length using Nat.strong_induction_on generalizing z with
  | _ n ih =>
      rcases z with - | ⟨y, z⟩
      · rw [List.nil_append, foldedChars_nil, List.nil_append, foldedChars_cons, readUtf8_ascii hx]
      · have hread : readUtf8 (y :: (z ++ x :: r)) =
            ((readUtf8 (y :: z)).1, (readUtf8 (y :: z)).2 ++ x :: r) := by
          rw [readUtf8, readUtf8, readContinuation_append _ _ hx]
          split_ifs <;> rfl
        have hlt := readUtf8_length y z
        rw [List.length_cons] at hn
        rw [List.cons_append, foldedChars_cons, hread, foldedChars_cons, List.cons_append]
        dsimp only
        rw [ih _ (by omega) _ rfl]

/-- **A comparison with the text in front of a delimiter**, of as many bytes as that text
has: it finds the same bytes, case aside. -/
theorem strnicmp_delimited_iff {a name : List UInt8} (ha : IsAscii a) {x : UInt8}
    (hx : x.toNat < 128) (hdelim : sqlite4Tolower x.toNat ∉ foldBytes a) (r : List UInt8)
    (hlen : name.length = a.length) (hpos : 0 < a.length) :
    sqlite4Strnicmp a (name ++ x :: r) name.length = 0 ↔ foldBytes name = foldBytes a := by
  have hfold : foldedChars a = foldBytes a := foldedChars_ascii ha
  have halen : (foldBytes a).length = a.length := List.length_map _
  have hnlen : (foldBytes name).length = name.length := List.length_map _
  have hchars := foldedChars_length name
  rw [strnicmp_iff ha, show max name.length 1 = name.length by omega,
    take_prefix_iff ha hlen.le, List.take_of_length_le (by omega), foldedChars_append _ hx]
  constructor
  · intro h
    have hge : (foldBytes a).length ≤ (foldedChars name).length := by
      by_contra hlt
      have hget : (foldBytes a)[(foldedChars name).length]? = some (sqlite4Tolower x.toNat) := by
        obtain ⟨t, ht⟩ := h
        have hget := congrArg (fun l => l[(foldedChars name).length]?) ht
        rw [List.getElem?_append_left (by omega), List.getElem?_append_right le_rfl,
          Nat.sub_self] at hget
        exact hget
      exact hdelim (List.mem_of_getElem? hget)
    have heq : foldBytes a = foldedChars name :=
      (List.prefix_of_prefix_length_le h (List.prefix_append _ _) hge).eq_of_length (by omega)
    have hsingle : foldedChars name = foldBytes name := by
      refine foldedChars_eq_foldBytes (by omega) fun c hc => ?_
      rw [← heq] at hc
      exact (foldBytes_ascii ha c hc).2
    rw [heq, hsingle]
  · intro h
    have hsingle : foldedChars name = foldBytes name := by
      refine foldedChars_of_foldBytes fun c hc => ?_
      rw [h] at hc
      exact foldBytes_ascii ha c hc
    rw [hsingle, h]
    exact List.prefix_append _ _

end MoVeBench
