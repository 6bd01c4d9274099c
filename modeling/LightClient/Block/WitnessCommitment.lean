import LightClient.Block.Basic

/-!
# Witness commitments

The header commits to transaction ids, which leave witnesses out. The coinbase transaction makes up
for that: an output of its own commits to the Merkle root of the witness digests, in which its own
digest counts as zero, together with a reserved value that stands in its witness.
-/

namespace LightClient

/-- What an output that commits to witnesses starts with: `OP_RETURN`, a push of 36 octets, and a
tag. -/
def witnessCommitmentTag : Bytes :=
  [0x6a, 0x24, 0xaa, 0x21, 0xa9, 0xed]

/-- The digest to which a coinbase transaction commits. -/
def witnessCommitment (witnessRoot : Hash256) (reserved : Bytes) : Hash256 :=
  hash256Parts [witnessRoot.bytes, reserved]

/-- The witness digests of a block's transactions, the first of which counts as zero. -/
def witnessLeaves : List Transaction → List Hash256
  | [] => []
  | _ :: txs => Hash256.zero :: txs.map Transaction.wtxid

/-- The Merkle root of the witness digests. -/
def witnessMerkleRoot (txs : List Transaction) : Except Error Merkle.Root :=
  Merkle.root (witnessLeaves txs)

/-- Whether an output's script has the tag and room for a digest. -/
def Script.isWitnessCommitment (s : Script) : Bool :=
  38 ≤ s.bytes.length && witnessCommitmentTag.isPrefixOf s.bytes

/-- The commitment in the last output of a transaction that has one. -/
def Transaction.witnessCommitment? (tx : Transaction) : Option Hash256 := do
  let output ← tx.outputs.reverse.find? (·.scriptPubKey.isWitnessCommitment)
  FixedBytes.ofBytes? 32 (output.scriptPubKey.field 6 32)

/-- The reserved value: the only item, of 32 octets, in the witness of the first input. -/
def Transaction.reservedValue? (tx : Transaction) : Option Bytes := do
  let input ← tx.inputs.head?
  match input.witness.items with
  | [value] => if value.length = 32 then some value else none
  | _ => none

namespace Block

/-- Demands that the coinbase transaction commits to the block's witnesses. A block without a
commitment must not have any. -/
def checkWitnessCommitment (b : Block) : Except Error Unit :=
  match b.transactions with
  | [] => .error .emptyMerkleTree
  | coinbase :: _ =>
    match coinbase.witnessCommitment? with
    | none =>
      if b.transactions.any Transaction.hasWitness then .error .witnessCommitmentMismatch
      else .ok ()
    | some commitment =>
      match coinbase.reservedValue? with
      | none => .error .witnessCommitmentMismatch
      | some reserved => do
        let root ← witnessMerkleRoot b.transactions
        if root.malleated then throw .merkleMalleated
        if witnessCommitment root.hash reserved ≠ commitment then throw .witnessCommitmentMismatch

/-- Checks the transactions against the header, and their witnesses against the coinbase. -/
def validate (b : Block) : Except Error Unit := do
  b.checkMerkleRoot
  b.checkWitnessCommitment

end Block

end LightClient
