import LightClient.Wire
import LightClient.Target.Retarget

/-!
# Block headers

A header is 80 octets: version, digest of the header before it, Merkle root of the transactions,
time, compact target and nonce. Its fields can be read off the raw octets or from the decoded
form.
-/

namespace LightClient

namespace RawHeader

/-- The little-endian word at an offset. -/
def word (raw : RawHeader) (offset : Nat) (hfits : offset + 4 ≤ 80) : UInt32 :=
  UInt32.ofNat (Bytes.toNat .little (raw.slice offset 4 hfits).bytes)

/-- The version. -/
def version (raw : RawHeader) : Int32 :=
  (raw.word 0 (by decide)).toInt32

/-- The digest of the header before. -/
def prevBlock (raw : RawHeader) : Hash256 :=
  raw.slice 4 32 (by decide)

/-- The Merkle root. -/
def merkleRoot (raw : RawHeader) : Hash256 :=
  raw.slice 36 32 (by decide)

/-- The time, in seconds. -/
def time (raw : RawHeader) : UInt32 :=
  raw.word 68 (by decide)

/-- The target, in compact form. -/
def bits (raw : RawHeader) : UInt32 :=
  raw.word 72 (by decide)

/-- The nonce. -/
def nonce (raw : RawHeader) : UInt32 :=
  raw.word 76 (by decide)

/-- The digest of the header. -/
def hash (raw : RawHeader) : Hash256 :=
  hash256 raw.bytes

/-- The target. -/
def target (raw : RawHeader) : Except TargetFault Target :=
  Target.ofCompact raw.bits

/-- The difficulty of the target. -/
def difficulty (raw : RawHeader) : Except TargetFault Nat := do
  (← raw.target).difficulty

/-- Whether the header's digest meets the header's target. -/
def meetsTarget (raw : RawHeader) : Except TargetFault Bool := do
  return (← raw.target).isMetBy raw.hash

end RawHeader

/-- A block header. -/
structure Header where
  version : Int32
  prevBlock : Hash256
  merkleRoot : Hash256
  time : UInt32
  bits : UInt32
  nonce : UInt32
  deriving DecidableEq

namespace Header

/-- The fields of a raw header. -/
def ofRaw (raw : RawHeader) : Header :=
  ⟨raw.version, raw.prevBlock, raw.merkleRoot, raw.time, raw.bits, raw.nonce⟩

/-- The octets of a header. -/
def bytes (h : Header) : Bytes :=
  Bytes.ofNat .little 4 h.version.toUInt32.toNat ++ h.prevBlock.bytes ++ h.merkleRoot.bytes ++
    Bytes.ofNat .little 4 h.time.toNat ++ Bytes.ofNat .little 4 h.bits.toNat ++
    Bytes.ofNat .little 4 h.nonce.toNat

/-- The fields of a header fill 80 octets. -/
@[simp] theorem length_bytes (h : Header) : h.bytes.length = 80 := by
  simp [bytes]

/-- The raw form of a header. -/
def raw (h : Header) : RawHeader :=
  ⟨h.bytes, h.length_bytes⟩

/-- The digest of the header. -/
def hash (h : Header) : Hash256 :=
  hash256 h.bytes

/-- The target. -/
def target (h : Header) : Except TargetFault Target :=
  Target.ofCompact h.bits

/-- The difficulty of the target. -/
def difficulty (h : Header) : Except TargetFault Nat := do
  (← h.target).difficulty

/-- Whether the header's digest meets the header's target. -/
def meetsTarget (h : Header) : Except TargetFault Bool := do
  return (← h.target).isMetBy h.hash

instance : Wire Header where
  size _ := 80
  pieces h := [h.bytes]
  decode := do return ofRaw (← Decoder.fixed 80)

/-- The compact target of the block after `last`, given the first header of the period. -/
def nextWorkRequired (first last : Header) (p : ChainParams) : Except Error UInt32 :=
  Target.retargetCompact last.bits first.time last.time p

end Header

end LightClient
