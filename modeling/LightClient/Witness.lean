import LightClient.Wire

/-!
# Witnesses

The witness of an input is a stack of byte strings. On the wire it is a count and, for each item,
its length and its octets.
-/

namespace LightClient

/-- The witness stack of one input, bottom first. -/
structure Witness where
  items : List Bytes
  deriving DecidableEq

namespace Witness

/-- No item at all. -/
def empty : Witness :=
  ⟨[]⟩

instance : Inhabited Witness :=
  ⟨empty⟩

/-- Whether the stack has no item. -/
def isEmpty (w : Witness) : Bool :=
  w.items.isEmpty

/-- The witness with one more item on top. -/
def push (w : Witness) (item : Bytes) : Witness :=
  ⟨w.items ++ [item]⟩

/-- The item on top. -/
def top? (w : Witness) : Option Bytes :=
  w.items.getLast?

instance : Wire Witness where
  size w := CompactSize.size w.items.length + Wire.sumBy Wire.varBytesSize w.items
  pieces w := CompactSize.encode w.items.length :: w.items.flatMap Wire.varBytesPieces
  decode := do return ⟨← Decoder.list Decoder.varBytes⟩

end Witness

end LightClient
