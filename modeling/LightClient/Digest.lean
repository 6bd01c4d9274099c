import LightClient.FixedBytes
import LightClient.Hash.Sha256
import LightClient.Hash.Ripemd160

/-!
# Digests

Transactions, headers and nodes of Merkle trees are named by double SHA-256; output scripts also
commit to the shorter composition of SHA-256 and RIPEMD-160. A digest is kept in the order in which
it travels on the wire. People write a `Hash256` the other way round, last octet first.
-/

namespace LightClient

/-- A double SHA-256 digest, in wire order. -/
abbrev Hash256 := FixedBytes 32

/-- A digest by SHA-256 and then RIPEMD-160. -/
abbrev Hash160 := FixedBytes 20

/-- The 80 octets of a block header. -/
abbrev RawHeader := FixedBytes 80

/-- The SHA-256 digest. -/
def sha256 (message : Bytes) : FixedBytes 32 :=
  ⟨Sha256.hash message, Sha256.length_hash message⟩

/-- The RIPEMD-160 digest of the SHA-256 digest. -/
def hash160 (message : Bytes) : Hash160 :=
  ⟨Ripemd160.hash (Sha256.hash message), Ripemd160.length_hash _⟩

/-- The SHA-256 digest of the SHA-256 digest. -/
def hash256 (message : Bytes) : Hash256 :=
  ⟨Sha256.hash (Sha256.hash message), Sha256.length_hash _⟩

/-- The double digest of several strings read one after the other. -/
def hash256Parts (parts : List Bytes) : Hash256 :=
  hash256 parts.flatten

namespace Hash256

/-- The digest of nothing in particular, all octets zero. -/
def zero : Hash256 :=
  FixedBytes.zero 32

/-- The hexadecimal form that people read: last octet first. -/
def display (hash : Hash256) : String :=
  hash.reverse.hex

/-- The digest as a number whose least significant octet comes first. -/
def toNat (hash : Hash256) : Nat :=
  Bytes.toNat .little hash.bytes

/-- The first four octets, as a checksum. -/
def checksum (hash : Hash256) : UInt32 :=
  UInt32.ofNat (Bytes.toNat .little (hash.bytes.take 4))

end Hash256

end LightClient
