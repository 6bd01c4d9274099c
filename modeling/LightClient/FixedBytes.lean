import LightClient.Hex

/-!
# Byte strings of a fixed length

Digests and raw headers have a length that is part of what they are, so it is part of their type.
-/

namespace LightClient

/-- A byte string of exactly `n` octets. -/
structure FixedBytes (n : Nat) where
  bytes : Bytes
  length_eq : bytes.length = n
  deriving DecidableEq

namespace FixedBytes

variable {n : Nat}

@[ext] theorem ext {a b : FixedBytes n} (hbytes : a.bytes = b.bytes) : a = b := by
  cases a
  cases b
  simp_all

@[simp] theorem length_bytes (a : FixedBytes n) : a.bytes.length = n :=
  a.length_eq

/-- A byte string as one of length `n`, if it has that length. -/
def ofBytes? (n : Nat) (bs : Bytes) : Option (FixedBytes n) :=
  if hlength : bs.length = n then some ⟨bs, hlength⟩ else none

/-- A string of the right length is read from its octets. -/
@[simp] theorem ofBytes?_bytes (a : FixedBytes n) : ofBytes? n a.bytes = some a :=
  dif_pos a.length_eq

/-- All octets zero. -/
def zero (n : Nat) : FixedBytes n :=
  ⟨List.replicate n 0, List.length_replicate⟩

instance : Inhabited (FixedBytes n) :=
  ⟨zero n⟩

/-- Whether every octet is zero. -/
def isZero (a : FixedBytes n) : Bool :=
  a = zero n

/-- The octets in opposite order. -/
def reverse (a : FixedBytes n) : FixedBytes n :=
  ⟨a.bytes.reverse, by simp⟩

@[simp] theorem reverse_reverse (a : FixedBytes n) : a.reverse.reverse = a := by
  ext1
  simp [reverse]

/-- The octets in hexadecimal, in order. -/
def hex (a : FixedBytes n) : String :=
  Hex.encode a.bytes

/-- The lexicographic order on octets. -/
def le (a b : FixedBytes n) : Bool :=
  a.bytes ≤ b.bytes

/-- Sorts in lexicographic order. -/
def sort (as : List (FixedBytes n)) : List (FixedBytes n) :=
  as.mergeSort le

/-- The `n` octets that start at `offset`, within a longer string of fixed length. -/
def slice (a : FixedBytes n) (offset width : Nat) (hfits : offset + width ≤ n) :
    FixedBytes width :=
  ⟨(a.bytes.drop offset).take width, by
    have := a.length_eq
    simp
    omega⟩

end FixedBytes

end LightClient
