import LightClient.CompactSize

/-!
# Decoders

A decoder takes octets from the front of a suffix and makes a value of them, or stops with an error
that names the place where it could not go on. What it took before it failed stays taken.
-/

namespace LightClient

/-- A computation that consumes a suffix from its front. -/
abbrev Decoder (α : Type) := EStateM Error Suffix α

namespace Decoder

variable {α β : Type}

/-- The next `n` octets. -/
def fixed (n : Nat) : Decoder (FixedBytes n) := fun s =>
  if hn : n ≤ s.bytes.length then
    .ok ⟨s.bytes.take n, by simp [hn]⟩ (s.advance n)
  else
    .error (.outOfBounds s.offset) s

/-- The next `n` octets, as a list. -/
def take (n : Nat) : Decoder Bytes := do
  return (← fixed n).bytes

/-- Up to `n` octets that come next, left in place. -/
def lookahead (n : Nat) : Decoder Bytes := fun s =>
  .ok (s.bytes.take n) s

/-- The unsigned integer in the next `width` octets. -/
def natural (order : ByteOrder) (width : Nat) : Decoder Nat := do
  return Bytes.toNat order (← take width)

/-- The next octet. -/
def byte : Decoder UInt8 := do
  return UInt8.ofNat (← natural .little 1)

/-- The next four octets as a little-endian word. -/
def uint32 : Decoder UInt32 := do
  return UInt32.ofNat (← natural .little 4)

/-- The next eight octets as a little-endian word. -/
def uint64 : Decoder UInt64 := do
  return UInt64.ofNat (← natural .little 8)

/-- The next digest, in wire order. -/
def hash256 : Decoder Hash256 :=
  fixed 32

/-- The next compact size. Nothing is taken when it fails. -/
def compactSize : Decoder Nat := fun s =>
  match CompactSize.decode s with
  | .ok (value, taken) => .ok value (s.advance taken)
  | .error e => .error e s

/-- A compact size and as many octets. -/
def varBytes : Decoder Bytes := do
  take (← compactSize)

/-- A given number of values, one after the other. -/
def many (d : Decoder α) : (count : Nat) → Decoder (List α)
  | 0 => return []
  | count + 1 => do
    let a ← d
    let as ← many d count
    return a :: as

/-- A compact size and as many values. -/
def list (d : Decoder α) : Decoder (List α) := do
  many d (← compactSize)

end Decoder

end LightClient
