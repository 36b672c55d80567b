/-
MoVeBench/Lib/SharedLock.lean

Locks that are held shared by many or exclusively by one.

`Table ι L` says how each party of `ι` holds each lock of `L`.  `Exclusive` is
what the lock operations keep: a party that holds a lock exclusively holds it
alone.
-/
import Mathlib

namespace SharedLock

variable {ι L : Type*}

/-- How a party holds a lock. -/
inductive Hold
  | free
  | shared
  | excl
  deriving DecidableEq

/-- How every party holds every lock. -/
abbrev Table (ι L : Type*) := ι → L → Hold

/-- Who holds a lock exclusively holds it alone. -/
def Exclusive (t : Table ι L) : Prop := ∀ l c d, c ≠ d → t c l = .excl → t d l = .free

/-- Nobody else holds the lock. -/
def Alone (t : Table ι L) (c : ι) (l : L) : Prop := ∀ d, d ≠ c → t d l = .free

variable [DecidableEq ι] [DecidableEq L] {t : Table ι L} {c d : ι} {l m : L}

/-- Party `c` holds lock `l` as `h`. -/
def Table.set (t : Table ι L) (c : ι) (l : L) (h : Hold) : Table ι L :=
  fun d m => if d = c ∧ m = l then h else t d m

@[simp] theorem set_self (h : Hold) : t.set c l h c l = h := if_pos ⟨rfl, rfl⟩

theorem set_other (h : Hold) (hd : d ≠ c) : t.set c l h d m = t d m :=
  if_neg fun hc => hd hc.1

theorem set_otherLock (h : Hold) (hm : m ≠ l) : t.set c l h d m = t d m :=
  if_neg fun hc => hm hc.2

theorem set_eq_self {h : Hold} (hl : t c l = h) : t.set c l h = t := by
  funext d m
  unfold Table.set
  split_ifs with hdm
  · rw [hdm.1, hdm.2, hl]
  · rfl

theorem Exclusive.release (h : Exclusive t) (c : ι) (l : L) : Exclusive (t.set c l .free) := by
  intro m a b hab ha
  unfold Table.set at ha ⊢
  split_ifs at ha with hac
  split_ifs with hbc
  · rfl
  · exact h m a b hab ha

theorem Exclusive.share (h : Exclusive t) (hl : ∀ d, d ≠ c → t d l ≠ .excl) :
    Exclusive (t.set c l .shared) := by
  intro m a b hab ha
  unfold Table.set at ha ⊢
  split_ifs at ha with hac
  split_ifs with hbc
  · obtain ⟨rfl, rfl⟩ := hbc
    exact absurd ha (hl a hab)
  · exact h m a b hab ha

theorem Exclusive.lock (h : Exclusive t) (hl : Alone t c l) : Exclusive (t.set c l .excl) := by
  intro m a b hab ha
  unfold Table.set at ha ⊢
  split_ifs at ha with hac
  · obtain ⟨rfl, rfl⟩ := hac
    rw [if_neg fun hb => hab hb.1.symm]
    exact hl b hab.symm
  · split_ifs with hbc
    · obtain ⟨rfl, rfl⟩ := hbc
      rw [hl a hab] at ha
      cases ha
    · exact h m a b hab ha

end SharedLock
