import LightClient.Block.Basic
import LightClient.Reader

/-!
# Reading step by step

A session of reading is a list of steps, each of which runs on the reader as the one before left it,
whether that one failed or not.
-/

namespace LightClient

/-- What can be asked of a reader. -/
inductive ReadStep where
  | natural (order : ByteOrder) (width : Nat)
  | int32
  | int64
  | compactSize
  | bytes (count : Nat)
  | peek (count : Nat)
  | varBytes
  | hash
  | seek (distance : Int)
  | mark
  | span
  | spanData
  | checksum
  | verifyChecksum
  | finish
  | size
  | atEnd
  | script
  | witness
  | outpoint
  | input
  | output
  | transaction
  | header
  | block

/-- What a reader answers. -/
inductive ReadValue where
  | done
  | natural (value : Nat)
  | integer (value : Int)
  | flag (value : Bool)
  | bytes (value : Bytes)
  | hash (value : Hash256)
  | script (value : Script)
  | witness (value : Witness)
  | outpoint (value : Outpoint)
  | input (value : Input)
  | output (value : Output)
  | transaction (value : Transaction)
  | header (value : Header)
  | block (value : Block)

namespace ReadStep

/-- Runs one step. -/
def run : ReadStep → Read ReadValue
  | .natural order width => return .natural (← Read.decode (Decoder.natural order width))
  | .int32 => return .integer (← Read.decode Decoder.uint32).toInt32.toInt
  | .int64 => return .integer (← Read.decode Decoder.uint64).toInt64.toInt
  | .compactSize => return .natural (← Read.decode Decoder.compactSize)
  | .bytes count => return .bytes (← Read.decode (Decoder.take count))
  | .peek count => return .bytes (← Read.peek count)
  | .varBytes => return .bytes (← Read.decode Decoder.varBytes)
  | .hash => return .hash (← Read.decode Decoder.hash256)
  | .seek distance => do
    Read.seek distance
    return .done
  | .mark => return .natural (← Read.mark)
  | .span => return .natural (← Read.span)
  | .spanData => return .bytes (← Read.spanData)
  | .checksum => return .natural (← Read.checksum).toNat
  | .verifyChecksum => return .natural (← Read.verifyChecksum).toNat
  | .finish => do
    Read.finish
    return .done
  | .size => return .natural (← get).size
  | .atEnd => return .flag (← get).atEnd
  | .script => return .script (← Read.decode Wire.decode)
  | .witness => return .witness (← Read.decode Wire.decode)
  | .outpoint => return .outpoint (← Read.decode Wire.decode)
  | .input => return .input (← Read.decode Wire.decode)
  | .output => return .output (← Read.decode Wire.decode)
  | .transaction => return .transaction (← Read.decode Wire.decode)
  | .header => return .header (← Read.decode Wire.decode)
  | .block => return .block (← Read.decode Wire.decode)

/-- The answer to a step and the reader after it. -/
def perform (step : ReadStep) (r : Reader) : Except Error ReadValue × Reader :=
  match step.run r with
  | .ok value next => (.ok value, next)
  | .error e next => (.error e, next)

/-- The answers to a list of steps, each with the reader after it. -/
def session : List ReadStep → Reader → List (Except Error ReadValue × Reader)
  | [], _ => []
  | step :: steps, r =>
    let answer := step.perform r
    answer :: session steps answer.2

end ReadStep

end LightClient
