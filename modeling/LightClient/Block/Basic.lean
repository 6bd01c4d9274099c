import LightClient.Header.Basic
import LightClient.Transaction.Basic
import LightClient.Merkle.Root

/-!
# Blocks

A block is a header and its transactions; the header commits to the ids of the transactions by their
Merkle root.
-/

namespace LightClient

/-- A block. -/
structure Block where
  header : Header
  transactions : List Transaction
  deriving DecidableEq

namespace Block

/-- The digest of the header. -/
def hash (b : Block) : Hash256 :=
  b.header.hash

/-- The ids of the transactions, in order. -/
def txids (b : Block) : List Hash256 :=
  b.transactions.map Transaction.txid

/-- The length with every transaction in legacy form. -/
def baseSize (b : Block) : Nat :=
  80 + CompactSize.size b.transactions.length + Wire.sumBy Transaction.baseSize b.transactions

/-- The length. -/
def totalSize (b : Block) : Nat :=
  80 + CompactSize.size b.transactions.length + Wire.sumBy Transaction.totalSize b.transactions

/-- The weight: an octet outside the witnesses counts four times. -/
def weight (b : Block) : Nat :=
  3 * b.baseSize + b.totalSize

/-- The Merkle root of the transactions' ids. -/
def merkleRoot (b : Block) : Except Error Merkle.Root :=
  Merkle.root b.txids

/-- Demands that the transactions have the root in the header and no list but theirs can have it. -/
def checkMerkleRoot (b : Block) : Except Error Unit := do
  let root ← b.merkleRoot
  if root.malleated then throw .merkleMalleated
  if root.hash ≠ b.header.merkleRoot then throw .merkleRootMismatch

instance : Wire Block where
  size := totalSize
  pieces b := Wire.pieces b.header ++ Wire.listPieces b.transactions
  decode := do
    let header ← Wire.decode
    let transactions ← Decoder.list Wire.decode
    return ⟨header, transactions⟩

end Block

end LightClient
