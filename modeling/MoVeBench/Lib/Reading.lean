/-
MoVeBench/Lib/Reading.lean

Programs that take words from the front of a list, and the lists that they read.

A format is written by functions that append words, and read back by a program that takes
them one after the other.  `Reads r l a` says that the words `l` are what the program takes
for the value `a`, whatever comes after them; the rules follow the program.
-/
import Mathlib

namespace MoVeBench

namespace Reading

variable {ω α β : Type}

/-- A program that takes words from the front of a list. -/
abbrev Reader (ω α : Type) := StateM (List ω) α

/-- The next word; past the end of the list, a default. -/
def word [Inhabited ω] : Reader ω ω := fun l => (l.headD default, l.tail)

/-- A number of values in a row. -/
def times (r : Reader ω α) : ℕ → Reader ω (List α)
  | 0 => pure []
  | n + 1 => do
      let a ← r
      let as ← times r n
      return a :: as

/-- The words `l` are what `r` takes for `a`. -/
def Reads (r : Reader ω α) (l : List ω) (a : α) : Prop := ∀ rest, r.run (l ++ rest) = (a, rest)

theorem Reads.pure (a : α) : Reads (Pure.pure a : Reader ω α) [] a := fun _ => rfl

theorem Reads.word [Inhabited ω] (w : ω) : Reads Reading.word [w] w := fun _ => rfl

theorem Reads.bind {r : Reader ω α} {f : α → Reader ω β} {l l' : List ω} {a : α} {b : β}
    (h : Reads r l a) (h' : Reads (f a) l' b) : Reads (r >>= f) (l ++ l') b := by
  intro rest
  show (f (r.run (l ++ l' ++ rest)).1).run (r.run (l ++ l' ++ rest)).2 = (b, rest)
  rw [List.append_assoc, h]
  exact h' rest

/-- The last step of a program makes a value of what was read. -/
theorem Reads.map {r : Reader ω α} {f : α → β} {l : List ω} {a : α} (h : Reads r l a) :
    Reads (do let a ← r; return f a) l (f a) := by
  have hbind := Reads.bind (f := fun a => (Pure.pure (f a) : Reader ω β)) h (Reads.pure (f a))
  rwa [List.append_nil] at hbind

theorem Reads.times {r : Reader ω α} {write : α → List ω} (as : List α)
    (h : ∀ a ∈ as, Reads r (write a) a) :
    Reads (times r as.length) (as.flatMap write) as := by
  induction as with
  | nil => exact Reads.pure []
  | cons a as ih =>
      rw [List.flatMap_cons]
      exact (h a List.mem_cons_self).bind
        (ih fun b hb => h b (List.mem_cons_of_mem a hb)).map

end Reading

end MoVeBench
