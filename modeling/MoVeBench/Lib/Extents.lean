/-
MoVeBench/Lib/Extents.lean

Extents: a sequence of places that is kept in several runs of addresses, one after the other.

A place is a number counted through the runs in their order, and `addr` is the address at which
it lies.  `Stores disk es xs` says that the memory has the values `xs` at the first places.

* Places in extents that lie apart have different addresses (`addr_inj`), and values written
  behind the stored ones are stored behind them (`Stores.write`).
* `Near es a z`: the `z` places from `a` on lie in one extent or in two consecutive ones.
-/
import Mathlib

namespace Extents

variable {α : Type*} {es fs pre post : List (ℤ × ℕ)} {e : ℤ × ℕ} {p a z : ℕ}

/-! ### Places and addresses -/

/-- The number of places in the extents, of which each has a first address and a length. -/
def total (es : List (ℤ × ℕ)) : ℕ := (es.map Prod.snd).sum

@[simp] theorem total_nil : total [] = 0 := rfl

@[simp] theorem total_cons : total (e :: es) = e.2 + total es := by simp [total]

@[simp] theorem total_append : total (es ++ fs) = total es + total fs := by simp [total]

/-- The address of a place. -/
def addr : List (ℤ × ℕ) → ℕ → ℤ
  | [], _ => 0
  | e :: es, p => if p < e.2 then e.1 + p else addr es (p - e.2)

theorem addr_append_left (h : p < total es) : addr (es ++ fs) p = addr es p := by
  induction es generalizing p with
  | nil => simp at h
  | cons e es ih =>
      rw [List.cons_append, addr, addr]
      split
      · rfl
      · rw [total_cons] at h
        exact ih (by omega)

theorem addr_append_right (h : total es ≤ p) : addr (es ++ fs) p = addr fs (p - total es) := by
  induction es generalizing p with
  | nil => simp
  | cons e es ih =>
      rw [total_cons] at h
      rw [List.cons_append, addr, if_neg (by omega), ih (by omega), total_cons, Nat.sub_sub]

/-- A place of the extent `e`. -/
theorem addr_split (hlo : total pre ≤ p) (hhi : p < total pre + e.2) :
    addr (pre ++ e :: post) p = e.1 + (p - total pre : ℕ) := by
  rw [addr_append_right hlo, addr, if_pos (by omega)]

/-- Each place lies in one of the extents. -/
theorem exists_split (h : p < total es) :
    ∃ pre e post, es = pre ++ e :: post ∧ total pre ≤ p ∧ p < total pre + e.2 := by
  induction es generalizing p with
  | nil => simp at h
  | cons e es ih =>
      by_cases hp : p < e.2
      · exact ⟨[], e, es, rfl, Nat.zero_le p, by simpa using hp⟩
      · rw [total_cons] at h
        obtain ⟨pre, f, post, rfl, hlo, hhi⟩ := ih (p := p - e.2) (by omega)
        refine ⟨e :: pre, f, post, rfl, ?_, ?_⟩ <;> rw [total_cons] <;> omega

/-! ### Extents that lie apart -/

/-- No two of the extents have an address in common. -/
def Apart (es : List (ℤ × ℕ)) : Prop :=
  es.Pairwise fun e f : ℤ × ℕ => e.1 + e.2 ≤ f.1 ∨ f.1 + f.2 ≤ e.1

theorem addr_mem (h : p < total es) : ∃ e ∈ es, e.1 ≤ addr es p ∧ addr es p < e.1 + e.2 := by
  obtain ⟨pre, e, post, rfl, hlo, hhi⟩ := exists_split h
  refine ⟨e, by simp, ?_⟩
  rw [addr_split hlo hhi]
  omega

/-- Places in front of `p` have other addresses than those of the last extent from `p` on. -/
theorem addr_before (hes : Apart (pre ++ [e])) (hp : p < a) (hlo : total pre ≤ a) :
    p < total pre + e.2 → addr (pre ++ [e]) p < e.1 + (a - total pre : ℕ) ∨
      e.1 + e.2 ≤ addr (pre ++ [e]) p := by
  intro hhi
  by_cases hpre : p < total pre
  · obtain ⟨f, hf, h1, h2⟩ := addr_mem hpre
    rw [addr_append_left hpre]
    have hef : f.1 + f.2 ≤ e.1 ∨ e.1 + e.2 ≤ f.1 :=
      (List.pairwise_append.mp hes).2.2 f hf e (List.mem_singleton_self e)
    omega
  · rw [addr_split (by omega) hhi]
    omega

theorem addr_inj (hes : Apart es) {q : ℕ} (hp : p < total es) (hq : q < total es)
    (h : addr es p = addr es q) : p = q := by
  induction es generalizing p q with
  | nil => simp at hp
  | cons e es ih =>
      rw [total_cons] at hp hq
      obtain ⟨hhead, htail⟩ := List.pairwise_cons.mp hes
      have hcross : ∀ r < total es, addr es r < e.1 ∨ e.1 + e.2 ≤ addr es r := by
        intro r hr
        obtain ⟨f, hf, h1, h2⟩ := addr_mem hr
        have := hhead f hf
        omega
      rw [addr, addr] at h
      split at h <;> split at h
      · omega
      · have := hcross (q - e.2) (by omega)
        omega
      · have := hcross (p - e.2) (by omega)
        omega
      · have := ih htail (p := p - e.2) (q := q - e.2) (by omega) (by omega) h
        omega

/-! ### What a memory stores -/

/-- The memory has `xs` at the first places. -/
def Stores (disk : ℤ → α) (es : List (ℤ × ℕ)) (xs : List α) : Prop :=
  ∀ p (h : p < xs.length), disk (addr es p) = xs[p]

/-- Write `ys` from address `off` on. -/
def writeAt (disk : ℤ → α) (off : ℤ) (ys : List α) : ℤ → α := fun b =>
  if off ≤ b then ys.getD (b - off).toNat (disk b) else disk b

/-- Read `n` values from address `off` on. -/
def readAt (disk : ℤ → α) (off : ℤ) (n : ℕ) : List α :=
  (List.range n).map fun i : ℕ => disk (off + i)

@[simp] theorem readAt_length {disk : ℤ → α} {off : ℤ} {n : ℕ} :
    (readAt disk off n).length = n := by simp [readAt]

@[simp] theorem readAt_getElem {disk : ℤ → α} {off : ℤ} {n i : ℕ}
    (h : i < (readAt disk off n).length) : (readAt disk off n)[i] = disk (off + i) := by
  simp [readAt]

variable {disk disk' : ℤ → α} {off b : ℤ} {xs ys : List α} {n : ℕ}

theorem writeAt_out (h : b < off ∨ off + ys.length ≤ b) : writeAt disk off ys b = disk b := by
  rw [writeAt]
  split
  · rw [List.getD_eq_default _ _ (by omega)]
  · rfl

theorem writeAt_in {i : ℕ} (h : i < ys.length) : writeAt disk off ys (off + i) = ys[i] := by
  rw [writeAt, if_pos (by omega), show (off + i - off).toNat = i by omega,
    List.getD_eq_getElem _ _ h]

/-- A value that was written is read, whatever was written elsewhere since. -/
theorem readAt_writeAt {m : ℤ → α} (ys : List α)
    (h : ∀ i < ys.length, disk' (off + i) = writeAt m off ys (off + i)) :
    readAt disk' off ys.length = ys := by
  refine List.ext_getElem (by simp) fun i hi hi' => ?_
  rw [readAt_getElem, h i hi', writeAt_in hi']

theorem readAt_congr (h : ∀ i < n, disk' (off + i) = disk (off + i)) :
    readAt disk' off n = readAt disk off n :=
  List.map_congr_left fun i hi => h i (List.mem_range.mp hi)

theorem Stores.congr (h : Stores disk es xs)
    (hd : ∀ p < xs.length, disk' (addr es p) = disk (addr es p)) : Stores disk' es xs :=
  fun p hp => (hd p hp).trans (h p hp)

theorem Stores.append_extents (h : Stores disk es xs) (hlen : xs.length ≤ total es) :
    Stores disk (es ++ fs) xs := fun p hp => by
  rw [addr_append_left (by omega)]
  exact h p hp

/-- Values written into the last extent behind the stored ones are stored behind them. -/
theorem Stores.write (h : Stores disk (pre ++ [e]) xs) (hes : Apart (pre ++ [e]))
    (hlo : total pre ≤ xs.length) (hhi : xs.length + ys.length ≤ total pre + e.2) :
    Stores (writeAt disk (e.1 + (xs.length - total pre : ℕ)) ys) (pre ++ [e]) (xs ++ ys) := by
  intro p hp
  rw [List.length_append] at hp
  by_cases hpx : p < xs.length
  · have hout := addr_before hes hpx hlo (by omega)
    rw [writeAt_out (by omega), List.getElem_append_left hpx]
    exact h p hpx
  · rw [addr_split (by omega) (by omega), List.getElem_append_right (by omega),
      show e.1 + ((p - total pre : ℕ) : ℤ) =
        e.1 + (xs.length - total pre : ℕ) + (p - xs.length : ℕ) by omega]
    exact writeAt_in (by omega)

/-- Reading inside of one extent. -/
theorem Stores.read (h : Stores disk (pre ++ e :: post) xs) (hlo : total pre ≤ p)
    (hhi : p + n ≤ total pre + e.2) (hn : p + n ≤ xs.length) :
    readAt disk (e.1 + (p - total pre : ℕ)) n = (xs.drop p).take n := by
  refine List.ext_getElem (by simp; omega) fun i hi _ => ?_
  rw [readAt_length] at hi
  rw [readAt_getElem, List.getElem_take, List.getElem_drop, ← h (p + i) (by omega),
    addr_split (by omega) (by omega)]
  congr 1
  omega

/-! ### Places in one extent or in two -/

/-- The `z` places from `a` on reach over the end of at most one extent. -/
def Near (es : List (ℤ × ℕ)) (a z : ℕ) : Prop :=
  ∃ pre e post, es = pre ++ e :: post ∧ total pre ≤ a ∧ a < total pre + e.2 ∧
    a + z ≤ total pre + e.2 + total (post.take 1)

theorem Near.append (h : Near es a z) : Near (es ++ fs) a z := by
  obtain ⟨pre, e, post, rfl, hlo, hhi, hz⟩ := h
  refine ⟨pre, e, post ++ fs, by simp, hlo, hhi, ?_⟩
  cases post with
  | nil =>
      simp only [List.take_nil, total_nil] at hz
      omega
  | cons f post => simpa using hz

theorem Near.mono {y : ℕ} (h : Near es a z) (hy : y ≤ z) : Near es a y := by
  obtain ⟨pre, e, post, rfl, hlo, hhi, hz⟩ := h
  exact ⟨pre, e, post, rfl, hlo, hhi, by omega⟩

theorem Near.le_total (h : Near es a z) : a + z ≤ total es := by
  obtain ⟨pre, e, post, rfl, hlo, hhi, hz⟩ := h
  cases post with
  | nil => simpa using hz
  | cons f post =>
      simp only [List.take_succ_cons, List.take_zero, total_cons, total_nil] at hz
      simp only [total_append, total_cons]
      omega

/-- The later ones of such places. -/
theorem Near.drop {k : ℕ} (h : Near es a z) (hk : k < z) : Near es (a + k) (z - k) := by
  obtain ⟨pre, e, post, rfl, hlo, hhi, hz⟩ := h
  by_cases hin : a + k < total pre + e.2
  · exact ⟨pre, e, post, rfl, by omega, hin, by omega⟩
  · cases post with
    | nil =>
        simp only [List.take_nil, total_nil] at hz
        omega
    | cons f post =>
        simp only [List.take_succ_cons, List.take_zero, total_cons, total_nil] at hz
        refine ⟨pre ++ [e], f, post, by simp, ?_, ?_, ?_⟩ <;>
          simp only [total_append, total_cons, total_nil] <;> omega

/-- Few places are near each other when the extents behind the first are long. -/
theorem near_of_le {k : ℕ} (hes : ∀ f ∈ es.tail, k ≤ f.2) (hz : z ≤ k) (ha : a < total es)
    (h : a + z ≤ total es) : Near es a z := by
  obtain ⟨pre, e, post, rfl, hlo, hhi⟩ := exists_split ha
  refine ⟨pre, e, post, rfl, hlo, hhi, ?_⟩
  cases post with
  | nil => simpa using h
  | cons f post =>
      have hf : k ≤ f.2 := hes f (by cases pre <;> simp)
      simp only [List.take_succ_cons, List.take_zero, total_cons, total_nil]
      omega

end Extents
