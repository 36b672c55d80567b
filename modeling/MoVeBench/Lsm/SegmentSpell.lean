/-
MoVeBench/Lsm/SegmentSpell.lean

Records laid out over leaves.

The data of the leaves of a segment is one string of bytes (`stream`).  A record starts at a
cell of a leaf, its header lies within the leaf, and all its bytes are found from there on.
`Spells tail ls cs` says that the cells of `ls` are the records `cs`, once the bytes `tail`
are written behind the leaves as well.  So it stays true while a record is being written, and
whatever follows a record does not change it.
-/
import MoVeBench.Lsm.SegmentPage

namespace MoVeBench

namespace Lsm

namespace Seg

/-- The data of leaves, one after the other. -/
def stream (ls : List Leaf) : List UInt8 := ls.flatMap Leaf.body

@[simp] theorem stream_nil : stream [] = [] := rfl

@[simp] theorem stream_cons (l : Leaf) (ls : List Leaf) : stream (l :: ls) = l.body ++ stream ls :=
  rfl

theorem stream_append (ls ls' : List Leaf) : stream (ls ++ ls') = stream ls ++ stream ls' :=
  List.flatMap_append

/-- The cell at `off` of a leaf is a record, `more` being the bytes behind the leaf. -/
structure CellAt (l : Leaf) (more : List UInt8) (off : ℕ) (c : Cell) : Prop where
  header : off + (cellHeader (c.iPtr - l.iPtr) c).length ≤ l.body.length
  bytes : cellHeader (c.iPtr - l.iPtr) c ++ (c.pKey ++ c.pVal) <+: l.body.drop off ++ more

/-- The records that leaves spell, with the bytes behind them. -/
def Spells (tail : List UInt8) : List Leaf → List Cell → Prop
  | [], cs => cs = []
  | l :: ls, cs => ∃ cs1 cs2, cs = cs1 ++ cs2 ∧
      List.Forall₂ (CellAt l (stream ls ++ tail)) l.cells cs1 ∧ Spells tail ls cs2

variable {tail : List UInt8} {l : Leaf} {ls ls' : List Leaf} {c : Cell} {cs : List Cell}

theorem CellAt.mono {more more' : List UInt8} {off : ℕ} (h : CellAt l more off c)
    (hmore : more <+: more') : CellAt l more' off c :=
  ⟨h.header, h.bytes.trans ((List.prefix_append_right_inj _).mpr hmore)⟩

/-- Bytes written at the end of a leaf. -/
theorem CellAt.grow {data : List UInt8} {off : ℕ} (h : CellAt l (data ++ tail) off c) :
    CellAt { l with body := l.body ++ data } tail off c := by
  have hheader := h.header
  refine ⟨?_, ?_⟩
  · simp only [List.length_append]
    omega
  · have hdrop : l.body.drop off ++ (data ++ tail) = (l.body ++ data).drop off ++ tail := by
      rw [List.drop_append_of_le_length (by omega), List.append_assoc]
    rw [← hdrop]
    exact h.bytes

theorem Spells.mono {tail' : List UInt8} (htail : tail <+: tail') (h : Spells tail ls cs) :
    Spells tail' ls cs := by
  induction ls generalizing cs with
  | nil => exact h
  | cons l ls ih =>
      obtain ⟨cs1, cs2, rfl, hcells, hrest⟩ := h
      refine ⟨cs1, cs2, rfl, hcells.imp fun _ _ hcell => hcell.mono ?_, ih hrest⟩
      exact (List.prefix_append_right_inj _).mpr htail

theorem spells_append : Spells tail (ls ++ ls') cs ↔
    ∃ cs1 cs2, cs = cs1 ++ cs2 ∧ Spells (stream ls' ++ tail) ls cs1 ∧ Spells tail ls' cs2 := by
  induction ls generalizing cs with
  | nil =>
      refine ⟨fun h => ⟨[], cs, rfl, rfl, h⟩, ?_⟩
      rintro ⟨cs1, cs2, rfl, rfl, h⟩
      exact h
  | cons l ls ih =>
      rw [List.cons_append]
      refine ⟨?_, ?_⟩
      · rintro ⟨cs1, cs2, rfl, hcells, hrest⟩
        obtain ⟨cs3, cs4, rfl, hls, hls'⟩ := ih.mp hrest
        rw [stream_append, List.append_assoc] at hcells
        exact ⟨cs1 ++ cs3, cs4, (List.append_assoc ..).symm, ⟨cs1, cs3, rfl, hcells, hls⟩, hls'⟩
      · rintro ⟨cs1, cs2, rfl, ⟨cs3, cs4, rfl, hcells, hls⟩, hls'⟩
        rw [← List.append_assoc, ← stream_append] at hcells
        exact ⟨cs3, cs4 ++ cs2, List.append_assoc .., hcells, ih.mpr ⟨cs4, cs2, rfl, hls, hls'⟩⟩

theorem spells_singleton : Spells tail [l] cs ↔ List.Forall₂ (CellAt l tail) l.cells cs := by
  refine ⟨?_, fun h => ⟨cs, [], (List.append_nil _).symm, h, rfl⟩⟩
  rintro ⟨cs1, cs2, rfl, hcells, rfl⟩
  rwa [List.append_nil]

/-! ### What is written at the end -/

/-- The next bytes go to the last leaf. -/
theorem Spells.grow {data : List UInt8} (h : Spells (data ++ tail) (ls ++ [l]) cs) :
    Spells tail (ls ++ [{ l with body := l.body ++ data }]) cs := by
  obtain ⟨cs1, cs2, rfl, hls, hl⟩ := spells_append.mp h
  refine spells_append.mpr ⟨cs1, cs2, rfl, ?_, ?_⟩
  · simpa [List.append_assoc] using hls
  · exact spells_singleton.mpr ((spells_singleton.mp hl).imp fun _ _ hcell => hcell.grow)

/-- The rest of the last leaf, once all records are complete. -/
theorem Spells.fill {body : List UInt8} (h : Spells [] (ls ++ [l]) cs) (hbody : l.body <+: body) :
    Spells [] (ls ++ [{ l with body }]) cs := by
  obtain ⟨data, rfl⟩ := hbody
  apply Spells.grow
  rw [List.append_nil]
  exact h.mono List.nil_prefix

/-- A new leaf. -/
theorem Spells.newLeaf (h : Spells tail ls cs) (iPtr : BitVec 64) :
    Spells tail (ls ++ [⟨iPtr, [], []⟩]) cs :=
  spells_append.mpr ⟨cs, [], (List.append_nil _).symm, h, spells_singleton.mpr .nil⟩

/-- A new cell: its header is written, its key and value are to come. -/
theorem Spells.newCell (h : Spells [] (ls ++ [l]) cs) :
    Spells (c.pKey ++ c.pVal) (ls ++ [{ l with
      cells := l.cells ++ [l.body.length]
      body := l.body ++ cellHeader (c.iPtr - l.iPtr) c }]) (cs ++ [c]) := by
  have hgrow := (h.mono (List.nil_prefix (l := cellHeader (c.iPtr - l.iPtr) c ++
    (c.pKey ++ c.pVal)))).grow
  obtain ⟨cs1, cs2, rfl, hls, hl⟩ := spells_append.mp hgrow
  rw [List.append_assoc]
  refine spells_append.mpr ⟨cs1, cs2 ++ [c], rfl, hls, spells_singleton.mpr ?_⟩
  have hold := (spells_singleton.mp hl).imp (S := CellAt
    ⟨l.iPtr, l.cells ++ [l.body.length], l.body ++ cellHeader (c.iPtr - l.iPtr) c⟩
    (c.pKey ++ c.pVal)) fun _ _ hcell => ⟨hcell.header, hcell.bytes⟩
  refine List.rel_append hold (.cons ⟨?_, ?_⟩ .nil)
  · simp only [List.length_append]
    exact le_rfl
  · simp only [List.drop_left]
    exact List.prefix_rfl

end Seg

end Lsm

end MoVeBench
