/-
MoVeBench/KvMem/Depth.lean

How deep the searches go.

The tree stays balanced, so its height grows with the logarithm of the number of its nodes, deleted
ones included, and so do the rounds that `kvmemSeek` and `kvmemReplace` take to find a place
(`search_depth`).
-/
import MoVeBench.KvMem.Scan

namespace MoVeBench

namespace KvMem

open AvlTree AvlTree.BinTree UndoLog Runs
open Lsm (Bytes)

variable {p : KVMem} {t : BinTree Ptr} {up r x : Ptr} {n m : ℕ} {aKey : Bytes} {direction : ℤ}
  {best : Ptr × Rc} {s : Session}

/-- The heights in the nodes are those of subtrees. -/
theorem Linked.height_le (hl : Linked p.links up t r) (hx : x ∈ t.toList) :
    (p.links x).height ≤ t.height := by
  induction t generalizing up r with
  | nil => simp at hx
  | node l y u ihl ihu =>
      obtain ⟨rfl, -, -, hlb, hla, hheight, -⟩ := hl
      have hmax : (node l r u).height = max l.height u.height + 1 := rfl
      rcases mem_mk (d := .before).mp hx with hx | rfl | hx
      · have h := ihl hlb hx
        omega
      · rw [hheight, hmax]
      · have h := ihu hla hx
        omega

/-- The loop of `kvmemSeek` goes down once a round. -/
theorem seekLoop_depth (hl : Linked p.links up t r) (hn : t.height ≤ n) (hm : t.height ≤ m) :
    seekLoop p aKey direction n r best = seekLoop p aKey direction m r best := by
  induction t generalizing up r n m best with
  | nil =>
      obtain rfl : r = 0 := hl
      cases n <;> cases m <;> simp [seekLoop]
  | node l y u ihl ihu =>
      obtain ⟨rfl, h0, -, hlb, hla, -, -⟩ := hl
      have hmax : (node l r u).height = max l.height u.height + 1 := rfl
      obtain ⟨n, rfl⟩ : ∃ k, n = k + 1 := ⟨n - 1, by omega⟩
      obtain ⟨m, rfl⟩ : ∃ k, m = k + 1 := ⟨m - 1, by omega⟩
      rw [seekLoop, seekLoop, if_neg h0, if_neg h0]
      dsimp only
      rw [ihu (n := n) (m := m) hla (by omega) (by omega),
        ihl (n := n) (m := m) hlb (by omega) (by omega)]

/-- So does the search of `kvmemReplace`. -/
theorem findPlace_depth (hl : Linked p.links up t r) (hr : r ≠ 0) (hn : t.height ≤ n)
    (hm : t.height ≤ m) : findPlace n p aKey r = findPlace m p aKey r := by
  induction t generalizing up r n m with
  | nil => exact absurd hl hr
  | node l y u ihl ihu =>
      obtain ⟨rfl, -, -, hlb, hla, -, -⟩ := hl
      have hmax : (node l r u).height = max l.height u.height + 1 := rfl
      obtain ⟨n, rfl⟩ : ∃ k, n = k + 1 := ⟨n - 1, by omega⟩
      obtain ⟨m, rfl⟩ : ∃ k, m = k + 1 := ⟨m - 1, by omega⟩
      rw [findPlace, findPlace]
      split_ifs with hneg hb hpos ha
      · exact ihl hlb hb (by omega) (by omega)
      · rfl
      · exact ihu hla ha (by omega) (by omega)
      · rfl
      · rfl

/-- **Searches take a logarithmic number of rounds**: `h` rounds are enough, and a tree of height
`h` has at least `fib (h + 2) - 1` nodes. -/
theorem search_depth (hrun : FittingRun s) :
    ∃ h, Nat.fib (h + 2) ≤
        (treeNodes s.store.pFresh s.store.links s.store.pRoot).length + 1 ∧
      (∀ x ∈ treeNodes s.store.pFresh s.store.links s.store.pRoot, (s.store.links x).height ≤ h) ∧
      ∀ n ≥ h, ∀ aKey : Bytes,
        (∀ direction best, seekLoop s.store aKey direction n s.store.pRoot best =
          seekLoop s.store aKey direction s.store.pFresh s.store.pRoot best) ∧
        (s.store.pRoot ≠ 0 → findPlace n s.store aKey s.store.pRoot =
          findPlace s.store.pFresh s.store aKey s.store.pRoot) := by
  obtain ⟨t, hk⟩ := hrun.kept
  have hs := hk.sound.shaped
  have hfresh : t.height ≤ s.store.pFresh := (height_le_length t).trans hs.length_lt.le
  rw [hs.treeNodes]
  exact ⟨t.height, hs.balanced.fib_le, fun x hx => hs.linked.height_le hx, fun n hn aKey =>
    ⟨fun _ _ => seekLoop_depth hs.linked hn hfresh,
      fun h0 => findPlace_depth hs.linked h0 hn hfresh⟩⟩

/-- Three nodes lie in two levels. -/
theorem search_depth_gap : ∃ h ≤ 2, ∀ direction best,
    seekLoop gapStore.store [3] direction h gapStore.store.pRoot best =
      seekLoop gapStore.store [3] direction gapStore.store.pFresh gapStore.store.pRoot best := by
  obtain ⟨h, hfib, -, hall⟩ := search_depth fittingRun_gap
  have hnodes : (treeNodes gapStore.store.pFresh gapStore.store.links
      gapStore.store.pRoot).length = 3 := by decide +kernel
  rw [hnodes] at hfib
  refine ⟨h, ?_, (hall h (le_refl h) [3]).1⟩
  by_contra hlt
  have hmono : Nat.fib 5 ≤ Nat.fib (h + 2) := Nat.fib_mono (by omega)
  have hfive : Nat.fib 5 = 5 := by decide
  omega

end KvMem

end MoVeBench
