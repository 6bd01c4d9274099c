import LightClient.Bytes

/-!
# Suffixes

Reading goes from the front of a byte string to its end. What is left keeps its place in the
whole, so that an error can name it.
-/

namespace LightClient

/-- What is left of a byte string from an offset on. -/
structure Suffix where
  offset : Nat
  bytes : Bytes
  deriving DecidableEq

namespace Suffix

/-- The part of a byte string from an offset on. -/
def ofData (data : Bytes) (offset : Nat) : Suffix :=
  ⟨offset, data.drop offset⟩

/-- The suffix after `n` more octets. -/
def advance (s : Suffix) (n : Nat) : Suffix :=
  ⟨s.offset + n, s.bytes.drop n⟩

end Suffix

end LightClient
