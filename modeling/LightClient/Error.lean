import LightClient.Digest

/-!
# What can go wrong

Every operation of the library fails with one of these causes. `Error.message` gives the wording.
-/

namespace LightClient

/-- Why a compact target does not stand for a usable target. -/
inductive TargetFault where
  /-- The value does not fit, or passes the limit in force. -/
  | overflow
  /-- The sign bit is set on a value other than zero. -/
  | negative
  /-- A difficulty cannot be measured against a target of zero. -/
  | zero
  deriving DecidableEq, Repr

/-- Why a Merkle branch cannot be folded. -/
inductive BranchFault where
  /-- The packed nodes end within a hash. -/
  | partialNode (length : Nat)
  /-- Only the first leaf of a tree of one can have no siblings. -/
  | emptyForNonzeroIndex
  /-- The index has more bits than the branch has nodes. -/
  | indexTooWide (index depth : Nat)
  deriving DecidableEq, Repr

/-- Why chain parameters are refused. -/
inductive ConfigFault where
  | zeroPeriod
  | timespanTooLarge
  | powLimit (fault : TargetFault)
  | zeroPowLimit
  deriving DecidableEq, Repr

/-- The causes of failure. -/
inductive Error where
  /-- A read or write at this offset passes the end. -/
  | outOfBounds (offset : Nat)
  /-- The size that starts at this offset has a shorter form. -/
  | nonCanonicalSize (offset : Nat)
  /-- A region is closed that was never opened. -/
  | noMark
  /-- A checksum is asked for over a region that starts after the place where it ends. -/
  | reversedRegion
  /-- The checksum that ends at this offset is not that of its region. -/
  | checksumMismatch (offset : Nat)
  | unknownWitnessFlag (flag : UInt8)
  | zeroInputsWithOutputs
  | trailingData (count : Nat)
  | invalidLength (expected got : Nat)
  | notHashScript
  | notNulldata
  /-- The push at this offset has a shorter form. -/
  | nonMinimalPush (offset : Nat)
  | pushTooLarge (size : Nat)
  | invalidVin
  | invalidVout
  | emptyMerkleTree
  | indexOutOfRange (index count : Nat)
  | malformedBranch (fault : BranchFault)
  | merkleMalleated
  | merkleRootMismatch
  | witnessCommitmentMismatch
  | target (fault : TargetFault)
  | wrongLengthHeader
  | insufficientWork
  | invalidChain
  | wrongDigest
  | nonMatchingDigests
  | wrongMerkleRoot
  | nonMatchingMerkleRoots
  | wrongPrevHash
  | nonMatchingPrevHashes
  | wrongTxId
  | nonMatchingTxIds
  | badMerkleProof
  | txNotInBlock (txid : Hash256)
  | hex (fault : Hex.Fault)
  /-- A JSON text does not describe a value of the type asked for. -/
  | json
  /-- The source of chain data gave no answer, for this reason. -/
  | source (reason : String)
  | invalidConfig (fault : ConfigFault)
  deriving DecidableEq

/-- A target's fault in words. -/
def TargetFault.message : TargetFault → String
  | .overflow => "Target overflows the proof of work limit"
  | .negative => "Negative compact target"
  | .zero => "Zero target"

/-- A branch's fault in words. -/
def BranchFault.message : BranchFault → String
  | .partialNode length => toString length ++ " bytes is not a whole number of hashes"
  | .emptyForNonzeroIndex => "empty branch for a non-zero index"
  | .indexTooWide index depth =>
    "index " ++ toString index ++ " does not fit a branch of depth " ++ toString depth

/-- A fault of the chain parameters in words. -/
def ConfigFault.message : ConfigFault → String
  | .zeroPeriod => "retarget interval and target spacing must be non-zero"
  | .timespanTooLarge => "target timespan too large"
  | .powLimit fault => "pow limit: " ++ fault.message
  | .zeroPowLimit => "pow limit is zero"

/-- The cause in words. -/
def Error.message : Error → String
  | .outOfBounds offset => "Out of bounds access at offset " ++ toString offset
  | .nonCanonicalSize offset => "Non-canonical varint at offset " ++ toString offset
  | .noMark => "Cannot end without a mark"
  | .reversedRegion => "Checksum region ends before it starts"
  | .checksumMismatch offset => "Checksum mismatch at offset " ++ toString offset
  | .unknownWitnessFlag flag => "Unknown witness flag: 0x" ++ Hex.encode [flag]
  | .zeroInputsWithOutputs => "Transaction has zero inputs and non-empty outputs"
  | .trailingData count => "Trailing data after structure: " ++ toString count ++ " bytes"
  | .invalidLength expected got =>
    "Invalid length: expected " ++ toString expected ++ ", got " ++ toString got
  | .notHashScript => "Script is not a hash script"
  | .notNulldata => "Script is not nulldata"
  | .nonMinimalPush offset => "Non-minimal push at offset " ++ toString offset
  | .pushTooLarge size => "Push of " ++ toString size ++ " bytes exceeds the element size limit"
  | .invalidVin => "Invalid vin"
  | .invalidVout => "Invalid vout"
  | .emptyMerkleTree => "Empty merkle tree"
  | .indexOutOfRange index count =>
    "Leaf index " ++ toString index ++ " out of range for " ++ toString count ++ " leaves"
  | .malformedBranch fault => "Malformed merkle branch: " ++ fault.message
  | .merkleMalleated => "Merkle tree is malleated"
  | .merkleRootMismatch => "Merkle root mismatch"
  | .witnessCommitmentMismatch => "Witness commitment mismatch"
  | .target fault => fault.message
  | .wrongLengthHeader => "Header not exactly 80 bytes"
  | .insufficientWork => "Header does not meet its own difficulty target"
  | .invalidChain => "Header does not reference its parent"
  | .wrongDigest => "Header hash is not the digest of the raw header"
  | .nonMatchingDigests => "Header hash and hash_le do not match"
  | .wrongMerkleRoot => "Merkle root does not match the raw header"
  | .nonMatchingMerkleRoots => "Merkle root and merkle_root_le do not match"
  | .wrongPrevHash => "Previous hash does not match the raw header"
  | .nonMatchingPrevHashes => "Previous hash and prevhash_le do not match"
  | .wrongTxId => "Transaction id is not the digest of the transaction"
  | .nonMatchingTxIds => "Transaction id and tx_id_le do not match"
  | .badMerkleProof => "Merkle proof does not connect the transaction to the header"
  | .txNotInBlock txid => "Transaction " ++ txid.display ++ " index not found in block"
  | .hex fault => "Invalid hex: " ++ fault.message
  | .json => "JSON error"
  | .source reason => "Chain source error: " ++ reason
  | .invalidConfig fault => "Invalid configuration: " ++ fault.message

end LightClient
