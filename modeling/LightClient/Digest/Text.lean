import LightClient.Error

/-!
# Reading digests and headers

A byte string becomes a digest when it has the digest's length; a text becomes one when it is
hexadecimal of that length. The same text read in the two orders gives digests that are each other's
reversal.
-/

namespace LightClient

namespace Bytes

/-- The byte string that hexadecimal text spells. -/
def ofHex (text : String) : Except Error Bytes :=
  (Hex.decode text).mapError Error.hex

end Bytes

namespace FixedBytes

/-- A byte string as one of length `n`, or the two lengths that differ. -/
def ofBytes (n : Nat) (bs : Bytes) : Except Error (FixedBytes n) :=
  match ofBytes? n bs with
  | some a => .ok a
  | none => .error (.invalidLength n bs.length)

end FixedBytes

namespace Hash256

/-- A byte string in wire order as a digest. -/
def ofBytes (bs : Bytes) : Except Error Hash256 :=
  FixedBytes.ofBytes 32 bs

/-- Reads hexadecimal text in wire order. -/
def ofHexWire (text : String) : Except Error Hash256 := do
  ofBytes (← Bytes.ofHex text)

/-- Reads hexadecimal text in display order, last octet first. -/
def ofHex (text : String) : Except Error Hash256 := do
  return (← ofHexWire text).reverse

end Hash256

namespace Hash160

/-- A byte string as a digest. -/
def ofBytes (bs : Bytes) : Except Error Hash160 :=
  FixedBytes.ofBytes 20 bs

end Hash160

namespace RawHeader

/-- A byte string as a raw header. -/
def ofBytes (bs : Bytes) : Except Error RawHeader :=
  match FixedBytes.ofBytes? 80 bs with
  | some raw => .ok raw
  | none => .error .wrongLengthHeader

end RawHeader

end LightClient
