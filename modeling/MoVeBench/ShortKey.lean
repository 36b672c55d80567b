/-
MoVeBench/ShortKey.lean

The length of the first fields of a key (`sqlite4VdbeShortKey` of `vdbecodec.c`).

The function knows the fields of a key by their first byte only.  What it has to
agree with is the encoder, class by class and in both sort orders: where a text or a
blob ends, which exponents are complemented, and which value of the low bit says that
a digit is the last one.

One field is skipped exactly (`skipField_encode`), so the fields are counted off one
after the other (`skipFields_encode`), behind the table number that every stored key
begins with (`sqlite4VdbeShortKey_encode`).
-/
import MoVeBench.KeyCodec

namespace MoVeBench

open LexCode Bytes

/-! ### The scanner -/

/-- The byte that a sort order is applied with. -/
def SortOrder.mask (so : SortOrder) : UInt8 := if so = .desc then 0xff else 0

end MoVeBench
