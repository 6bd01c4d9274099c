import LightClient.Error
import LightClient.Suffix

/-!
# Compact sizes

Counts and lengths travel in one to nine octets. A value below 253 is its own octet; a larger one is
announced by a marker octet that fixes the width of a little-endian payload. A value is read only in
the shortest form that can hold it, so each value has one spelling.
-/

namespace LightClient

namespace CompactSize

/-- A marker octet's payload width, and the least value that needs this width. -/
def wideForm? (marker : UInt8) : Option (Nat × Nat) :=
  if marker = 0xfd then some (2, 0xfd)
  else if marker = 0xfe then some (4, 0x10000)
  else if marker = 0xff then some (8, 0x100000000)
  else none

/-- The shortest form of a value. -/
def encode (value : Nat) : Bytes :=
  if value < 0xfd then [UInt8.ofNat value]
  else if value < 0x10000 then 0xfd :: Bytes.ofNat .little 2 value
  else if value < 0x100000000 then 0xfe :: Bytes.ofNat .little 4 value
  else 0xff :: Bytes.ofNat .little 8 value

/-- The length of the shortest form of a value. -/
def size (value : Nat) : Nat :=
  if value < 0xfd then 1
  else if value < 0x10000 then 3
  else if value < 0x100000000 then 5
  else 9

/-- The length of the shortest form is what `size` says. -/
@[simp] theorem length_encode (value : Nat) : (encode value).length = size value := by
  unfold encode size
  split
  · rfl
  · split
    · simp
    · split <;> simp

/-- Reads the size at the start of a suffix, with the number of octets that it takes. -/
def decode (s : Suffix) : Except Error (Nat × Nat) :=
  match s.bytes with
  | [] => .error (.outOfBounds s.offset)
  | marker :: rest =>
    match wideForm? marker with
    | none => .ok (marker.toNat, 1)
    | some (width, least) =>
      if rest.length < width then .error (.outOfBounds (s.offset + 1))
      else
        let value := Bytes.toNat .little (rest.take width)
        if value < least then .error (.nonCanonicalSize s.offset)
        else .ok (value, width + 1)

/-- Reads the size at an offset of a byte string. -/
def decodeAt (data : Bytes) (offset : Nat) : Except Error (Nat × Nat) :=
  decode (.ofData data offset)

end CompactSize

end LightClient
