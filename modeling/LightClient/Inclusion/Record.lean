import LightClient.Config.Basic
import LightClient.Header.Basic
import LightClient.Merkle.Branch
import LightClient.Transaction.Vectors

/-!
# Inclusion proofs

An inclusion proof shows that a transaction is in a block, to someone who has the block's header
only. It holds the transaction without its witnesses, the header, and the Merkle branch between
them. The digests stand in it twice, and both copies are compared.
-/

namespace LightClient

/-- The header in an inclusion proof, together with what follows from its octets. -/
structure ConfirmingHeader where
  raw : RawHeader
  hash : Hash256
  hashLe : Hash256
  height : UInt32
  prevHash : Hash256
  prevHashLe : Hash256
  merkleRoot : Hash256
  merkleRootLe : Hash256
  deriving DecidableEq

namespace ConfirmingHeader

/-- A header with every field as its octets say. -/
def ofRaw (raw : RawHeader) (height : UInt32) : ConfirmingHeader where
  raw := raw
  hash := raw.hash
  hashLe := raw.hash
  height := height
  prevHash := raw.prevBlock
  prevHashLe := raw.prevBlock
  merkleRoot := raw.merkleRoot
  merkleRootLe := raw.merkleRoot

/-- Compares the fields with each other and with the octets. -/
def validate (h : ConfirmingHeader) : Except Error Unit := do
  if h.hash ≠ h.hashLe then throw .nonMatchingDigests
  if h.hash ≠ h.raw.hash then throw .wrongDigest
  if h.merkleRoot ≠ h.merkleRootLe then throw .nonMatchingMerkleRoots
  if h.merkleRoot ≠ h.raw.merkleRoot then throw .wrongMerkleRoot
  if h.prevHash ≠ h.prevHashLe then throw .nonMatchingPrevHashes
  if h.prevHash ≠ h.raw.prevBlock then throw .wrongPrevHash

end ConfirmingHeader

/-- A proof that a transaction is in a block. -/
structure InclusionProof where
  version : UInt32
  /-- The input vector. -/
  vin : Bytes
  /-- The output vector. -/
  vout : Bytes
  locktime : UInt32
  txid : Hash256
  txidLe : Hash256
  /-- The position of the transaction in the block. -/
  index : UInt64
  header : ConfirmingHeader
  /-- The siblings from the transaction to the root, one after the other. -/
  siblings : Bytes
  deriving DecidableEq

namespace InclusionProof

/-- The digest of version, inputs, outputs and locktime. -/
def computedTxid (p : InclusionProof) : Hash256 :=
  hash256Parts [Bytes.ofNat .little 4 p.version.toNat, p.vin, p.vout,
    Bytes.ofNat .little 4 p.locktime.toNat]

/-- The transaction, without its witnesses. -/
def transaction (p : InclusionProof) : Except Error Transaction :=
  Transaction.ofVectors p.version p.vin p.vout p.locktime

/-- The Merkle branch. -/
def branch (p : InclusionProof) : Except Error Merkle.Branch :=
  Merkle.Branch.ofBytes p.siblings p.index

/-- Demands that a header meets its own target. -/
def checkWork (raw : RawHeader) : Except Error Unit := do
  if (← raw.meetsTarget.mapError Error.target) = false then throw .insufficientWork

/-- Checks every part of a proof and stops at the first failure. -/
def validateWith (config : Config) (p : InclusionProof) : Except Error Unit := do
  let _ ← Transaction.parseInputs p.vin
  let _ ← Transaction.parseOutputs p.vout
  if p.txid ≠ p.txidLe then throw .nonMatchingTxIds
  if p.computedTxid ≠ p.txid then throw .wrongTxId
  p.header.validate
  if config.checkHeaderWork then checkWork p.header.raw
  let branch ← p.branch
  if (← branch.verifies p.txid p.header.merkleRoot) = false then throw .badMerkleProof

/-- Checks a proof under the default configuration. -/
def validate (p : InclusionProof) : Except Error Unit :=
  p.validateWith default

end InclusionProof

end LightClient
