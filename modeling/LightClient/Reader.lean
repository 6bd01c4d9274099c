import LightClient.Decoder

/-!
# Reading with marks

A reader walks over a byte string in both directions and keeps a stack of marks. A mark opens a
region at the current offset; closing a region tells how many octets it spans, or which. A checksum
covers the innermost open region, or everything from the start if none is open.
-/

namespace LightClient

/-- A place in a byte string, and the places where regions were opened, innermost first. -/
structure Reader where
  data : Bytes
  offset : Nat
  marks : List Nat
  deriving DecidableEq

/-- A computation that moves a reader. What it did before it failed stays done. -/
abbrev Read (α : Type) := EStateM Error Reader α

namespace Reader

/-- A reader at the start of a byte string. -/
def ofData (data : Bytes) : Reader :=
  ⟨data, 0, []⟩

/-- The number of octets in the whole byte string. -/
def size (r : Reader) : Nat :=
  r.data.length

/-- The number of octets after the offset. -/
def left (r : Reader) : Nat :=
  r.size - r.offset

/-- Whether no octet is left. -/
def atEnd (r : Reader) : Bool :=
  r.offset = r.size

/-- What is left of the byte string. -/
def suffix (r : Reader) : Suffix :=
  .ofData r.data r.offset

/-- The octets from one offset to another, if the first does not lie after the second. -/
def region? (r : Reader) (start stop : Nat) : Option Bytes :=
  if start ≤ stop then some ((r.data.take stop).drop start) else none

end Reader

namespace Read

variable {α : Type}

/-- Lets a decoder take octets from the offset on. -/
def decode (d : Decoder α) : Read α := fun r =>
  match d r.suffix with
  | .ok a s => .ok a { r with offset := s.offset }
  | .error e s => .error e { r with offset := s.offset }

/-- The next `n` octets, left in place. -/
def peek (n : Nat) : Read Bytes := do
  let r ← get
  if r.left < n then throw (.outOfBounds r.offset)
  return r.suffix.bytes.take n

/-- Moves the offset by a signed distance, within the byte string. -/
def seek (distance : Int) : Read Unit := do
  let r ← get
  let destination := r.offset + distance
  if destination < 0 ∨ (r.size : Int) < destination then throw (.outOfBounds r.offset)
  set { r with offset := destination.toNat }

/-- Opens a region at the offset, which is returned. -/
def mark : Read Nat := do
  let r ← get
  set { r with marks := r.offset :: r.marks }
  return r.offset

/-- Closes the innermost region and returns where it was opened. -/
def unmark : Read Nat := do
  let r ← get
  match r.marks with
  | [] => throw .noMark
  | start :: marks =>
    set { r with marks := marks }
    return start

/-- Closes the innermost region and returns its length. -/
def span : Read Nat := do
  let start ← unmark
  let r ← get
  if r.offset < start then throw (.outOfBounds r.offset)
  return r.offset - start

/-- Closes the innermost region and returns its octets. -/
def spanData : Read Bytes := do
  let start ← unmark
  let r ← get
  match r.region? start r.offset with
  | some bs => return bs
  | none => throw (.outOfBounds r.offset)

/-- The checksum of the innermost region, which stays open, or of everything so far. -/
def checksum : Read UInt32 := do
  let r ← get
  match r.region? (r.marks.headD 0) r.offset with
  | some bs => return (hash256 bs).checksum
  | none => throw .reversedRegion

/-- Reads a checksum and compares it with that of the innermost region before it. -/
def verifyChecksum : Read UInt32 := do
  let actual ← checksum
  let expected ← decode Decoder.uint32
  if actual ≠ expected then throw (.checksumMismatch (← get).offset)
  return actual

/-- Demands that no octet is left. -/
def finish : Read Unit := do
  let r ← get
  if r.atEnd = false then throw (.trailingData r.left)

end Read

end LightClient
