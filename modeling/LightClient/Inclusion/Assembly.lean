import LightClient.Inclusion.Record

/-!
# Assembling inclusion proofs

A proof is assembled from what a source of chain data answers. Nothing is taken on trust: the
transaction must have the id that was asked for, the reported header must agree with its octets, and
the reported ids must have the Merkle root in the header, unmalleated.
-/

namespace LightClient

/-- A block, by its height or by its hash. -/
inductive BlockRef where
  | height (height : UInt32)
  | hash (hash : Hash256)
  deriving DecidableEq

/-- A reference in words. -/
def BlockRef.describe : BlockRef → String
  | .height n => "height " ++ toString n.toNat
  | .hash h => "block " ++ h.display

/-- A header as a source reports it. -/
structure HeaderReport where
  hash : Hash256
  height : UInt32
  prevBlock : Hash256
  merkleRoot : Hash256
  raw : RawHeader

/-- Read access to chain data. -/
structure ChainSource where
  /-- A transaction in hexadecimal, by its id. -/
  rawTransaction : Hash256 → Except Error String
  blockHeader : BlockRef → Except Error HeaderReport
  /-- The ids of a block's transactions, in order. -/
  blockTxids : BlockRef → Except Error (List Hash256)

namespace ChainSource

/-- The transaction that a source has for an id, if it has that id. -/
def transaction (source : ChainSource) (txid : Hash256) : Except Error Transaction := do
  let tx : Transaction ← Wire.parseHex (← source.rawTransaction txid)
  if tx.txid ≠ txid then throw .wrongTxId
  return tx

/-- The header that a source has for a block, if the report agrees with the octets. -/
def header (source : ChainSource) (block : BlockRef) : Except Error ConfirmingHeader := do
  let report ← source.blockHeader block
  let header := ConfirmingHeader.ofRaw report.raw report.height
  if header.hash ≠ report.hash then throw .wrongDigest
  if header.merkleRoot ≠ report.merkleRoot then throw .wrongMerkleRoot
  if header.prevHash ≠ report.prevBlock then throw .wrongPrevHash
  return header

end ChainSource

namespace InclusionProof

/-- The branch from the first transaction with an id to the root, if the ids have that root and no
other list can have it. -/
def locate (txids : List Hash256) (txid merkleRoot : Hash256) : Except Error Merkle.Branch := do
  let index ← match txids.findIdx? (· = txid) with
    | some index => pure index
    | none => throw (.txNotInBlock txid)
  let root ← Merkle.root txids
  if root.malleated then throw .merkleMalleated
  if root.hash ≠ merkleRoot then throw .merkleRootMismatch
  Merkle.branch txids index

/-- Assembles a proof that a transaction is in a block. -/
def assemble (config : Config) (source : ChainSource) (txid : Hash256) (block : BlockRef) :
    Except Error InclusionProof := do
  let tx ← source.transaction txid
  let header ← source.header block
  if config.checkHeaderWork then checkWork header.raw
  let txids ← source.blockTxids block
  let branch ← locate txids txid header.merkleRoot
  return {
    version := tx.version
    vin := ← tx.inputVector
    vout := ← tx.outputVector
    locktime := tx.locktime
    txid := tx.txid
    txidLe := tx.txid
    index := branch.index
    header := header
    siblings := branch.bytes }

end InclusionProof

end LightClient
