import LightClient.CompactSize

/-!
# Writing within a limit

A writer collects pieces. If it was given a limit it refuses a piece that does not fit, whole, and
counts as finished only when the limit is reached exactly. Without a limit it takes everything.

Filling up is no piece: nothing of it is in memory before it is written. Its new length is a machine
word, and a sum that passes the last word starts again at zero. What is written is brought to that
length even if it is longer already.
-/

namespace LightClient

/-- What was written so far, and the length that the result must have, if one is set. -/
structure Writer where
  data : Bytes
  limit : Option Nat
  deriving DecidableEq

/-- A computation that writes. What it wrote before it failed stays written. -/
abbrev Write (α : Type) := EStateM Error Writer α

namespace Writer

/-- A writer without a limit. -/
def growing : Writer :=
  ⟨[], none⟩

/-- A writer for exactly `size` octets. -/
def sized (size : Nat) : Writer :=
  ⟨[], some size⟩

/-- The number of octets written. -/
def offset (w : Writer) : Nat :=
  w.data.length

/-- Whether a length keeps within the limit. -/
def allows (w : Writer) (length : Nat) : Bool :=
  match w.limit with
  | none => true
  | some limit => length ≤ limit

/-- Whether `n` more octets keep within the limit. -/
def hasRoom (w : Writer) (n : Nat) : Bool :=
  w.allows (w.offset + n)

/-- The length of what is written and `n` more octets, as a machine word of 64 bits. -/
def wordLength (w : Writer) (n : Nat) : Nat :=
  (w.offset + n) % UInt64.size

/-- Brings what is written to a length: cuts its end off, or fills it up with one octet. -/
def resize (w : Writer) (length : Nat) (octet : UInt8) : Writer :=
  { w with data := w.data.take length ++ List.replicate (length - w.offset) octet }

/-- The written octets, if they are as many as the limit says. -/
def finish (w : Writer) : Except Error Bytes :=
  match w.limit with
  | none => .ok w.data
  | some limit => if w.offset = limit then .ok w.data else .error (.outOfBounds w.offset)

end Writer

namespace Write

/-- Refuses if `n` more octets would pass the limit. -/
def reserve (n : Nat) : Write Unit := do
  let w ← get
  if w.hasRoom n = false then throw (.outOfBounds w.offset)

/-- Writes one piece, whole or not at all. -/
def piece (bs : Bytes) : Write Unit := do
  reserve bs.length
  modify fun w => { w with data := w.data ++ bs }

/-- Writes several pieces up to the first that does not fit. -/
def pieces (bss : List Bytes) : Write Unit :=
  bss.forM piece

/-- Writes the low `width` octets of a number. -/
def natural (order : ByteOrder) (width n : Nat) : Write Unit :=
  piece (Bytes.ofNat order width n)

/-- Writes a compact size. -/
def compactSize (value : Nat) : Write Unit :=
  piece (CompactSize.encode value)

/-- Writes the length of a byte string and then the string. -/
def varBytes (bs : Bytes) : Write Unit := do
  compactSize bs.length
  piece bs

/-- Writes a digest in wire order. -/
def hash256 (hash : Hash256) : Write Unit :=
  piece hash.bytes

/-- Writes one octet `count` times, as far as a machine word counts. -/
def fill (octet : UInt8) (count : Nat) : Write Unit := do
  let w ← get
  let length := w.wordLength count
  if w.allows length = false then throw (.outOfBounds w.offset)
  set (w.resize length octet)

/-- Writes the first four octets of the digest of everything so far. -/
def checksum : Write Unit := do
  let w ← get
  piece ((LightClient.hash256 w.data).bytes.take 4)

end Write

end LightClient
