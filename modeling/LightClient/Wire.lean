import LightClient.Decoder
import LightClient.Writer
import LightClient.Digest.Text

/-!
# Wire formats

A type with a wire format knows the length of its encoding beforehand, the pieces of which the
encoding consists, and how to take a value back from the front of a byte string. Serialization
writes the pieces into exactly the announced length; parsing demands that nothing is left over.
-/

namespace LightClient

/-- Types with a canonical encoding on the wire. -/
class Wire (α : Type) where
  /-- The length of the encoding. -/
  size : α → Nat
  /-- The encoding, cut where separate writes meet. -/
  pieces : α → List Bytes
  /-- Takes a value from the front. -/
  decode : Decoder α

namespace Wire

variable {α : Type} [Wire α]

/-- The encoding of a value. -/
def bytes (a : α) : Bytes :=
  (pieces a).flatten

/-- Writes a value. -/
def write (a : α) : Write Unit :=
  Write.pieces (pieces a)

/-- Writes pieces into a result of the announced length. -/
def serializePieces (size : Nat) (pieces : List Bytes) : Except Error Bytes :=
  match Write.pieces pieces (.sized size) with
  | .ok () w => w.finish
  | .error e _ => .error e

/-- The encoding of a value, written into exactly the announced length. -/
def serialize (a : α) : Except Error Bytes :=
  serializePieces (size a) (pieces a)

/-- Reads a value that takes up a whole byte string. -/
def parse (bs : Bytes) : Except Error α :=
  match decode (Suffix.ofData bs 0) with
  | .ok a s => if s.bytes = [] then .ok a else .error (.trailingData s.bytes.length)
  | .error e _ => .error e

/-- Reads a value from hexadecimal text. -/
def parseHex (text : String) : Except Error α := do
  parse (← Bytes.ofHex text)

/-- The sum of a measure over a list. -/
def sumBy {β : Type} (measure : β → Nat) : List β → Nat
  | [] => 0
  | b :: bs => measure b + sumBy measure bs

/-- The length of a list's encoding: its count and its values. -/
def listSize (as : List α) : Nat :=
  CompactSize.size as.length + sumBy size as

/-- The pieces of a list's encoding: its count and its values. -/
def listPieces (as : List α) : List Bytes :=
  CompactSize.encode as.length :: as.flatMap pieces

/-- The encoding of a list, written into exactly the announced length. -/
def serializeList (as : List α) : Except Error Bytes :=
  serializePieces (listSize as) (listPieces as)

/-- The pieces of a byte string that announces its length. -/
def varBytesPieces (bs : Bytes) : List Bytes :=
  [CompactSize.encode bs.length, bs]

/-- The length of a byte string together with its announcement. -/
def varBytesSize (bs : Bytes) : Nat :=
  CompactSize.size bs.length + bs.length

end Wire

end LightClient
