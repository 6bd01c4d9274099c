import LightClient.Transaction.Input
import LightClient.Transaction.Output

/-!
# Transactions

A transaction has two serializations. The legacy one leaves witnesses out, and its digest is the
transaction's id. The other puts a marker and a flag behind the version and the witnesses behind the
outputs; it is used as soon as one witness is not empty. A reader tells them apart by the marker,
which in a legacy serialization would count no inputs at all: so a transaction without inputs must
not have outputs.
-/

namespace LightClient

/-- A transaction. -/
structure Transaction where
  version : UInt32
  inputs : List Input
  outputs : List Output
  locktime : UInt32
  /-- Only what is spent can be paid out. -/
  funded : inputs = [] → outputs = []
  deriving DecidableEq

namespace Transaction

/-- A transaction from its parts, unless it has outputs but no inputs. -/
def ofParts (version : UInt32) (inputs : List Input) (outputs : List Output) (locktime : UInt32) :
    Except Error Transaction :=
  if hfunded : inputs = [] → outputs = [] then
    .ok ⟨version, inputs, outputs, locktime, hfunded⟩
  else .error .zeroInputsWithOutputs

/-- Whether some input has a witness that is not empty. -/
def hasWitness (tx : Transaction) : Bool :=
  tx.inputs.any fun i => !i.witness.isEmpty

/-- Whether the transaction creates new coins: its one input spends nothing. -/
def isCoinbase (tx : Transaction) : Bool :=
  match tx.inputs with
  | [i] => i.prevout.isNull
  | _ => false

/-- The pieces of the legacy serialization. -/
def legacyPieces (tx : Transaction) : List Bytes :=
  [Bytes.ofNat .little 4 tx.version.toNat] ++ Wire.listPieces tx.inputs ++
    Wire.listPieces tx.outputs ++ [Bytes.ofNat .little 4 tx.locktime.toNat]

/-- The pieces of the serialization with witnesses. -/
def segwitPieces (tx : Transaction) : List Bytes :=
  [Bytes.ofNat .little 4 tx.version.toNat, [0x00], [0x01]] ++ Wire.listPieces tx.inputs ++
    Wire.listPieces tx.outputs ++ tx.inputs.flatMap (fun i => Wire.pieces i.witness) ++
    [Bytes.ofNat .little 4 tx.locktime.toNat]

/-- The length of the legacy serialization. -/
def baseSize (tx : Transaction) : Nat :=
  4 + Wire.listSize tx.inputs + Wire.listSize tx.outputs + 4

/-- The length of the serialization in use. -/
def totalSize (tx : Transaction) : Nat :=
  if tx.hasWitness then
    tx.baseSize + 2 + Wire.sumBy (fun i => Wire.size i.witness) tx.inputs
  else tx.baseSize

/-- The weight: an octet outside the witnesses counts four times. -/
def weight (tx : Transaction) : Nat :=
  3 * tx.baseSize + tx.totalSize

/-- A quarter of the weight, rounded up. -/
def virtualSize (tx : Transaction) : Nat :=
  (tx.weight + 3) / 4

/-- The transaction with witnesses given to its inputs in order. -/
def withWitnesses (tx : Transaction) (witnesses : List Witness) : Transaction where
  version := tx.version
  inputs := Input.attachWitnesses tx.inputs witnesses
  outputs := tx.outputs
  locktime := tx.locktime
  funded := by
    intro hnil
    apply tx.funded
    rw [← List.length_eq_zero_iff, ← Input.length_attachWitnesses tx.inputs witnesses, hnil]
    rfl

/-- What stands behind the version: a marker and a flag, or the inputs of a legacy serialization.
Answers whether witnesses follow. -/
def decodeMarker : Decoder Bool := do
  match ← Decoder.lookahead 2 with
  | [0x00, flag] =>
    if flag = 0x00 then return false
    if flag ≠ 0x01 then throw (.unknownWitnessFlag flag)
    let _ ← Decoder.take 2
    return true
  | _ => return false

/-- Takes a transaction in either serialization. -/
def decode : Decoder Transaction := do
  let version ← Decoder.uint32
  let segwit ← decodeMarker
  let inputs ← Decoder.list (Wire.decode (α := Input))
  let outputs ← Decoder.list (Wire.decode (α := Output))
  if hfunded : inputs = [] → outputs = [] then
    let witnesses ←
      if segwit then Decoder.many (Wire.decode (α := Witness)) inputs.length else pure []
    let locktime ← Decoder.uint32
    return withWitnesses ⟨version, inputs, outputs, locktime, hfunded⟩ witnesses
  else throw .zeroInputsWithOutputs

/-- A transaction travels with its witnesses if it has any. -/
instance : Wire Transaction where
  size := totalSize
  pieces tx := if tx.hasWitness then tx.segwitPieces else tx.legacyPieces
  decode := decode

/-- The legacy serialization. -/
def legacyBytes (tx : Transaction) : Bytes :=
  tx.legacyPieces.flatten

/-- The legacy serialization, written into exactly the announced length. -/
def serializeLegacy (tx : Transaction) : Except Error Bytes :=
  Wire.serializePieces tx.baseSize tx.legacyPieces

/-- The transaction's id: the digest of the legacy serialization. -/
def txid (tx : Transaction) : Hash256 :=
  hash256 tx.legacyBytes

/-- The digest of the serialization in use. -/
def wtxid (tx : Transaction) : Hash256 :=
  hash256 (Wire.bytes tx)

/-- The transaction without its witnesses. -/
def stripped (tx : Transaction) : Transaction where
  version := tx.version
  inputs := tx.inputs.map Input.stripped
  outputs := tx.outputs
  locktime := tx.locktime
  funded := fun hnil => tx.funded (List.map_eq_nil_iff.mp hnil)

end Transaction

end LightClient
