import LightClient.Transaction.Basic

/-!
# Input and output vectors

A proof carries the inputs and the outputs of a transaction as two byte strings, each a counted
list. Such a vector must hold at least one element and nothing behind the last one.
-/

namespace LightClient

namespace Transaction

/-- Reads a counted list that fills a byte string and is not empty; any other gives `fault`. -/
def parseVector {α : Type} (d : Decoder α) (fault : Error) (bs : Bytes) : Except Error (List α) :=
  match Decoder.list d (.ofData bs 0) with
  | .ok as rest => if as.isEmpty || !rest.bytes.isEmpty then .error fault else .ok as
  | .error _ _ => .error fault

/-- Reads an input vector. -/
def parseInputs (vin : Bytes) : Except Error (List Input) :=
  parseVector Wire.decode .invalidVin vin

/-- Reads an output vector. -/
def parseOutputs (vout : Bytes) : Except Error (List Output) :=
  parseVector Wire.decode .invalidVout vout

/-- The transaction of two vectors, without witnesses. -/
def ofVectors (version : UInt32) (vin vout : Bytes) (locktime : UInt32) :
    Except Error Transaction := do
  let inputs ← parseInputs vin
  let outputs ← parseOutputs vout
  ofParts version inputs outputs locktime

/-- The input vector of a transaction. -/
def inputVector (tx : Transaction) : Except Error Bytes :=
  Wire.serializeList tx.inputs

/-- The output vector of a transaction. -/
def outputVector (tx : Transaction) : Except Error Bytes :=
  Wire.serializeList tx.outputs

end Transaction

end LightClient
