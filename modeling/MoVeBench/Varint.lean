/-
MoVeBench/Varint.lean

The variable-length integers of `varint.c`: nine length classes, selected by
the first byte, all tails big-endian.

Two facts about the format carry the key encodings built on it:

* `sqlite4GetVarint64_put` — a varint at the front of any byte string reads
  back as the number that was written, and as many bytes as were written;
* `sqlite4PutVarint64_diverges` — two varints part inside both byte strings
  and compare there as the numbers do, so the format preserves the order of
  numbers under `memcmp` even when other bytes follow.
-/
import MoVeBench.Lib.Bytes

namespace MoVeBench

open LexCode Bytes

/-! ### Writing and reading -/

/-- `varintWrite32`: four big-endian bytes. -/
def varintWrite32 (y : ℕ) : List UInt8 :=
  [.ofNat (y >>> 24), .ofNat (y >>> 16), .ofNat (y >>> 8), .ofNat y]

/-- `sqlite4PutVarint64`, for a value `x < 2^64`. -/
def sqlite4PutVarint64 (x : ℕ) : List UInt8 :=
  if x ≤ 240 then [.ofNat x]
  else if x ≤ 2287 then
    let y := x - 240
    [.ofNat (y / 256 + 241), .ofNat (y % 256)]
  else if x ≤ 67823 then
    let y := x - 2288
    [249, .ofNat (y / 256), .ofNat (y % 256)]
  else
    let y := x % 2 ^ 32
    let w := x >>> 32
    if w = 0 then
      if y ≤ 16777215 then [250, .ofNat (y >>> 16), .ofNat (y >>> 8), .ofNat y]
      else 251 :: varintWrite32 y
    else if w ≤ 255 then 252 :: .ofNat w :: varintWrite32 y
    else if w ≤ 65535 then
      253 :: .ofNat (w >>> 8) :: .ofNat w :: varintWrite32 y
    else if w ≤ 16777215 then
      254 :: .ofNat (w >>> 16) :: .ofNat (w >>> 8) :: .ofNat w :: varintWrite32 y
    else 255 :: (varintWrite32 w ++ varintWrite32 y)

/-- `sqlite4GetVarint64`: the value and the number of bytes read, `none` where
the source returns `0` for want of bytes. -/
def sqlite4GetVarint64 (z : List UInt8) : Option (ℕ × ℕ) :=
  let b (i : ℕ) : ℕ := (z.getD i 0).toNat
  let n := z.length
  if n < 1 then none
  else if b 0 ≤ 240 then some (b 0, 1)
  else if b 0 ≤ 248 then
    if n < 2 then none else some ((b 0 - 241) * 256 + b 1 + 240, 2)
  -- the first byte says how many follow
  else if n < b 0 - 246 then none
  else if b 0 = 249 then some (2288 + 256 * b 1 + b 2, 3)
  else if b 0 = 250 then some (b 1 <<< 16 + b 2 <<< 8 + b 3, 4)
  else
    let x := b 1 <<< 24 + b 2 <<< 16 + b 3 <<< 8 + b 4
    if b 0 = 251 then some (x, 5)
    else if b 0 = 252 then some (x <<< 8 + b 5, 6)
    else if b 0 = 253 then some (x <<< 16 + b 5 <<< 8 + b 6, 7)
    else if b 0 = 254 then some (x <<< 24 + b 5 <<< 16 + b 6 <<< 8 + b 7, 8)
    else
      some (x <<< 32 + (b 5 <<< 24 + b 6 <<< 16 + b 7 <<< 8 + b 8), 9)

/-! ### The length classes -/

/-- The class of `x`: first byte, number of bytes that follow, and the number
those bytes stand for. -/
def varintClass (x : ℕ) : ℕ × ℕ × ℕ :=
  if x ≤ 240 then (x, 0, 0)
  else if x ≤ 2287 then ((x - 240) / 256 + 241, 1, (x - 240) % 256)
  else if x ≤ 67823 then (249, 2, x - 2288)
  else if x < 2 ^ 24 then (250, 3, x)
  else if x < 2 ^ 32 then (251, 4, x)
  else if x < 2 ^ 40 then (252, 5, x)
  else if x < 2 ^ 48 then (253, 6, x)
  else if x < 2 ^ 56 then (254, 7, x)
  else (255, 8, x)

theorem ofNat_congr {m n : ℕ} (h : m % 256 = n % 256) :
    UInt8.ofNat m = UInt8.ofNat n := by
  rw [← ofNat_mod m, h, ofNat_mod]

/-- The nine classes, with the numbers that fall in each. -/
theorem varintClass_cases (x : ℕ) :
    x ≤ 240 ∧ varintClass x = (x, 0, 0) ∨
    240 < x ∧ x ≤ 2287 ∧ varintClass x = ((x - 240) / 256 + 241, 1, (x - 240) % 256) ∨
    2287 < x ∧ x ≤ 67823 ∧ varintClass x = (249, 2, x - 2288) ∨
    67823 < x ∧ x < 2 ^ 24 ∧ varintClass x = (250, 3, x) ∨
    2 ^ 24 ≤ x ∧ x < 2 ^ 32 ∧ varintClass x = (251, 4, x) ∨
    2 ^ 32 ≤ x ∧ x < 2 ^ 40 ∧ varintClass x = (252, 5, x) ∨
    2 ^ 40 ≤ x ∧ x < 2 ^ 48 ∧ varintClass x = (253, 6, x) ∨
    2 ^ 48 ≤ x ∧ x < 2 ^ 56 ∧ varintClass x = (254, 7, x) ∨
    2 ^ 56 ≤ x ∧ varintClass x = (255, 8, x) := by
  unfold varintClass
  rcases le_or_gt x 240 with h | h1
  · exact .inl ⟨h, if_pos h⟩
  rw [if_neg h1.not_ge]
  rcases le_or_gt x 2287 with h | h2
  · exact .inr (.inl ⟨h1, h, if_pos h⟩)
  rw [if_neg h2.not_ge]
  rcases le_or_gt x 67823 with h | h3
  · exact .inr (.inr (.inl ⟨h2, h, if_pos h⟩))
  rw [if_neg h3.not_ge]
  rcases lt_or_ge x (2 ^ 24) with h | h4
  · exact .inr (.inr (.inr (.inl ⟨h3, h, if_pos h⟩)))
  rw [if_neg h4.not_gt]
  rcases lt_or_ge x (2 ^ 32) with h | h5
  · exact .inr (.inr (.inr (.inr (.inl ⟨h4, h, if_pos h⟩))))
  rw [if_neg h5.not_gt]
  rcases lt_or_ge x (2 ^ 40) with h | h6
  · exact .inr (.inr (.inr (.inr (.inr (.inl ⟨h5, h, if_pos h⟩)))))
  rw [if_neg h6.not_gt]
  rcases lt_or_ge x (2 ^ 48) with h | h7
  · exact .inr (.inr (.inr (.inr (.inr (.inr (.inl ⟨h6, h, if_pos h⟩))))))
  rw [if_neg h7.not_gt]
  rcases lt_or_ge x (2 ^ 56) with h | h8
  · exact .inr (.inr (.inr (.inr (.inr (.inr (.inr (.inl ⟨h7, h, if_pos h⟩)))))))
  exact .inr (.inr (.inr (.inr (.inr (.inr (.inr (.inr ⟨h8, if_neg h8.not_gt⟩)))))))

theorem varintClass_fst_lt (x : ℕ) : (varintClass x).1 < 256 := by
  rcases varintClass_cases x with ⟨hx, e⟩ | ⟨lx, hx, e⟩ | ⟨lx, hx, e⟩ | ⟨lx, hx, e⟩ |
    ⟨lx, hx, e⟩ | ⟨lx, hx, e⟩ | ⟨lx, hx, e⟩ | ⟨lx, hx, e⟩ | ⟨lx, e⟩ <;>
  rw [e] <;> simp only <;> omega

theorem varintClass_value_lt {x : ℕ} (h : x < 2 ^ 64) :
    (varintClass x).2.2 < 256 ^ (varintClass x).2.1 := by
  rcases varintClass_cases x with ⟨hx, e⟩ | ⟨lx, hx, e⟩ | ⟨lx, hx, e⟩ | ⟨lx, hx, e⟩ |
    ⟨lx, hx, e⟩ | ⟨lx, hx, e⟩ | ⟨lx, hx, e⟩ | ⟨lx, hx, e⟩ | ⟨lx, e⟩ <;>
  rw [e] <;> simp only <;> omega

/-- How many bytes follow the first one. -/
theorem varintClass_tail (x : ℕ) :
    ((varintClass x).2.1 ≤ 1 ↔ x ≤ 2287) ∧ ((varintClass x).2.1 ≤ 2 ↔ x ≤ 67823) ∧
      ((varintClass x).2.1 ≤ 3 ↔ x < 2 ^ 24) ∧ ((varintClass x).2.1 ≤ 7 ↔ x < 2 ^ 56) ∧
      (varintClass x).2.1 ≤ 8 := by
  rcases varintClass_cases x with ⟨hx, e⟩ | ⟨lx, hx, e⟩ | ⟨lx, hx, e⟩ | ⟨lx, hx, e⟩ |
    ⟨lx, hx, e⟩ | ⟨lx, hx, e⟩ | ⟨lx, hx, e⟩ | ⟨lx, hx, e⟩ | ⟨lx, e⟩ <;>
  rw [e] <;> simp only <;> omega

/-- A larger number has a larger first byte, or the same class and a larger
tail. -/
theorem varintClass_lt {x y : ℕ} (h : x < y) :
    (varintClass x).1 < (varintClass y).1 ∨
      (varintClass x).1 = (varintClass y).1 ∧
        (varintClass x).2.1 = (varintClass y).2.1 ∧
          (varintClass x).2.2 < (varintClass y).2.2 := by
  rcases varintClass_cases x with ⟨hx, e⟩ | ⟨lx, hx, e⟩ | ⟨lx, hx, e⟩ | ⟨lx, hx, e⟩ |
    ⟨lx, hx, e⟩ | ⟨lx, hx, e⟩ | ⟨lx, hx, e⟩ | ⟨lx, hx, e⟩ | ⟨lx, e⟩ <;>
  rcases varintClass_cases y with ⟨hy, e'⟩ | ⟨ly, hy, e'⟩ | ⟨ly, hy, e'⟩ | ⟨ly, hy, e'⟩ |
    ⟨ly, hy, e'⟩ | ⟨ly, hy, e'⟩ | ⟨ly, hy, e'⟩ | ⟨ly, hy, e'⟩ | ⟨ly, e'⟩ <;>
  rw [e, e'] <;> simp only [true_and] <;> omega

/-- A varint is its first byte followed by a big-endian tail. -/
theorem sqlite4PutVarint64_eq_class {x : ℕ} (h : x < 2 ^ 64) :
    sqlite4PutVarint64 x =
      .ofNat (varintClass x).1 :: beBytes (varintClass x).2.1 (varintClass x).2.2 := by
  unfold sqlite4PutVarint64 varintClass varintWrite32
  simp only [Nat.shiftRight_eq_div_pow]
  split_ifs
  all_goals try omega
  -- one goal per class is left: the two lists agree byte by byte
  all_goals
    simp only [beBytes, List.cons_append, List.nil_append]
    repeat' apply congrArg₂
  all_goals first | (apply ofNat_congr; omega) | rfl

theorem sqlite4PutVarint64_length {x : ℕ} (h : x < 2 ^ 64) :
    (sqlite4PutVarint64 x).length = 1 + (varintClass x).2.1 := by
  rw [sqlite4PutVarint64_eq_class h, List.length_cons, beBytes_length, Nat.add_comm]

/-! ### Order -/

theorem sqlite4PutVarint64_lt {x y : ℕ} (h : x < y) (hy : y < 2 ^ 64) :
    Diverges .lt (sqlite4PutVarint64 x) (sqlite4PutVarint64 y) := by
  have hx : x < 2 ^ 64 := h.trans hy
  rw [sqlite4PutVarint64_eq_class hx, sqlite4PutVarint64_eq_class hy]
  rcases varintClass_lt h with hlt | ⟨htag, hwidth, hval⟩
  · refine .head _ _ ?_ (by simp)
    rw [compare_ofNat (varintClass_fst_lt x) (varintClass_fst_lt y)]
    exact Nat.compare_eq_lt.mpr hlt
  · have hvx := varintClass_value_lt hx
    have hvy := varintClass_value_lt hy
    rw [hwidth] at hvx
    have htail := beBytes_diverges hvx hvy
    rw [Nat.compare_eq_lt.mpr hval] at htail
    rw [htag, hwidth]
    exact htail.cons _

/-- **Varints keep the order of numbers**, whatever bytes follow them. -/
theorem sqlite4PutVarint64_diverges {x y : ℕ} (hx : x < 2 ^ 64) (hy : y < 2 ^ 64) :
    Diverges (compare x y) (sqlite4PutVarint64 x) (sqlite4PutVarint64 y) := by
  rcases lt_trichotomy x y with h | rfl | h
  · rw [Nat.compare_eq_lt.mpr h]
    exact sqlite4PutVarint64_lt h hy
  · rw [Nat.compare_eq_eq.mpr rfl]
    exact .same _
  · rw [Nat.compare_eq_gt.mpr h]
    exact (sqlite4PutVarint64_lt h hx).swap

/-! ### Round trip -/

/-- **A varint reads back**, together with its own length, from the front of
any byte string that starts with it. -/
theorem sqlite4GetVarint64_put {x : ℕ} (h : x < 2 ^ 64) (rest : List UInt8) :
    sqlite4GetVarint64 (sqlite4PutVarint64 x ++ rest) =
      some (x, (sqlite4PutVarint64 x).length) := by
  rw [sqlite4PutVarint64_eq_class h]
  rcases varintClass_cases x with ⟨hx, e⟩ | ⟨lx, hx, e⟩ | hlong
  · have hb : x % 256 = x := by omega
    simp [e, sqlite4GetVarint64, beBytes, hb, hx]
  · have hb : ((x - 240) / 256 + 241) % 256 = (x - 240) / 256 + 241 := by omega
    have hlo : ¬ (x - 240) / 256 + 241 ≤ 240 := by omega
    have hhi : (x - 240) / 256 + 241 ≤ 248 := by omega
    simp [e, sqlite4GetVarint64, beBytes, hb, hhi]
    omega
  -- from here on the first byte is a constant, so the reader's class is fixed
  · rcases hlong with ⟨lx, hx, e⟩ | ⟨lx, hx, e⟩ | ⟨lx, hx, e⟩ | ⟨lx, hx, e⟩ |
      ⟨lx, hx, e⟩ | ⟨lx, hx, e⟩ | ⟨lx, e⟩ <;>
    simp [e, sqlite4GetVarint64, beBytes, Nat.shiftLeft_eq] <;> omega

end MoVeBench
