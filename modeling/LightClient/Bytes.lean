/-!
# Byte strings

Everything that travels on the wire is a list of octets. This file fixes the two orders in which an
unsigned integer is laid out in a given number of octets, and the division of a byte string into
consecutive pieces of one length.
-/

namespace LightClient

/-- A byte string, in wire order. -/
abbrev Bytes := List UInt8

/-- The order in which the octets of an integer are laid out. -/
inductive ByteOrder where
  /-- The least significant octet comes first. -/
  | little
  /-- The most significant octet comes first. -/
  | big
  deriving DecidableEq, Repr

namespace Bytes

/-- The `width` low octets of a natural number, least significant first. -/
def ofNatLittle : (width : Nat) → Nat → Bytes
  | 0, _ => []
  | width + 1, n => UInt8.ofNat n :: ofNatLittle width (n / 256)

/-- The natural number whose base-256 digits, least significant first, are the given octets. -/
def toNatLittle : Bytes → Nat
  | [] => 0
  | b :: bs => b.toNat + 256 * toNatLittle bs

/-- The `width` low octets of a natural number in the given order; higher octets are dropped. -/
def ofNat (order : ByteOrder) (width n : Nat) : Bytes :=
  match order with
  | .little => ofNatLittle width n
  | .big => (ofNatLittle width n).reverse

/-- The natural number that the octets spell in the given order. -/
def toNat (order : ByteOrder) (bs : Bytes) : Nat :=
  match order with
  | .little => toNatLittle bs
  | .big => toNatLittle bs.reverse

@[simp] theorem length_ofNatLittle (width n : Nat) : (ofNatLittle width n).length = width := by
  induction width generalizing n with
  | zero => rfl
  | succ width ih => simp [ofNatLittle, ih]

@[simp] theorem length_ofNat (order : ByteOrder) (width n : Nat) :
    (ofNat order width n).length = width := by
  cases order <;> simp [ofNat]

/-- The first `count` consecutive pieces of `width` octets each. -/
def pieces (width : Nat) : (count : Nat) → Bytes → List Bytes
  | 0, _ => []
  | count + 1, bs => bs.take width :: pieces width count (bs.drop width)

/-- The consecutive pieces of `width` octets; an incomplete last piece is dropped. -/
def chunks (width : Nat) (bs : Bytes) : List Bytes :=
  pieces width (bs.length / width) bs

end Bytes

end LightClient
