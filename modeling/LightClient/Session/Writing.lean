import LightClient.Block.Basic

/-!
# Writing step by step

A session of writing is a list of steps, each of which runs on the writer as the one before left it,
whether that one failed or not.
-/

namespace LightClient

/-- What can be asked of a writer. -/
inductive WriteStep where
  | natural (order : ByteOrder) (width value : Nat)
  | int32 (value : Int32)
  | int64 (value : Int64)
  | compactSize (value : UInt64)
  | bytes (value : Bytes)
  | varBytes (value : Bytes)
  | hash (value : Hash256)
  | fill (octet : UInt8) (count : Nat)
  | checksum
  | script (value : Script)
  | witness (value : Witness)
  | outpoint (value : Outpoint)
  | input (value : Input)
  | output (value : Output)
  | transaction (value : Transaction)
  | header (value : Header)
  | block (value : Block)

namespace WriteStep

/-- Runs one step. -/
def run : WriteStep → Write Unit
  | .natural order width value => Write.natural order width value
  | .int32 value => Write.natural .little 4 value.toUInt32.toNat
  | .int64 value => Write.natural .little 8 value.toUInt64.toNat
  | .compactSize value => Write.compactSize value.toNat
  | .bytes value => Write.piece value
  | .varBytes value => Write.varBytes value
  | .hash value => Write.hash256 value
  | .fill octet count => Write.fill octet count
  | .checksum => Write.checksum
  | .script value => Wire.write value
  | .witness value => Wire.write value
  | .outpoint value => Wire.write value
  | .input value => Wire.write value
  | .output value => Wire.write value
  | .transaction value => Wire.write value
  | .header value => Wire.write value
  | .block value => Wire.write value

/-- The answer to a step and the writer after it. -/
def perform (step : WriteStep) (w : Writer) : Except Error Unit × Writer :=
  match step.run w with
  | .ok () next => (.ok (), next)
  | .error e next => (.error e, next)

/-- The answers to a list of steps, each with the writer after it. -/
def session : List WriteStep → Writer → List (Except Error Unit × Writer)
  | [], _ => []
  | step :: steps, w =>
    let answer := step.perform w
    answer :: session steps answer.2

end WriteStep

end LightClient
