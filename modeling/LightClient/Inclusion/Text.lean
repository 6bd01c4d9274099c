import LightClient.Inclusion.Record
import LightClient.Json.Document
import LightClient.Json.Record

/-!
# Inclusion proofs as JSON

Byte strings, and the words of the transaction, are written as hexadecimal text in wire order. A
digest is written in display order; its second copy, whose name ends in `_le`, in wire order.
-/

namespace LightClient

namespace Json

/-- A byte string in hexadecimal. -/
def bytes? (v : Json) : Option Bytes := do
  (Bytes.ofHex (← v.text?)).toOption

/-- A digest in display order. -/
def hash? (v : Json) : Option Hash256 := do
  (Hash256.ofHex (← v.text?)).toOption

/-- A digest in wire order. -/
def wireHash? (v : Json) : Option Hash256 := do
  (Hash256.ofHexWire (← v.text?)).toOption

/-- A raw header in hexadecimal. -/
def rawHeader? (v : Json) : Option RawHeader := do
  FixedBytes.ofBytes? 80 (← v.bytes?)

/-- A little-endian word in hexadecimal. -/
def word? (v : Json) : Option UInt32 := do
  let octets ← FixedBytes.ofBytes? 4 (← v.bytes?)
  return UInt32.ofNat (Bytes.toNat .little octets.bytes)

namespace Document

/-- A byte string in hexadecimal. -/
def bytes (bs : Bytes) : Document :=
  .text (Hex.encode bs)

/-- A digest in display order. -/
def hash (h : Hash256) : Document :=
  .text h.display

/-- A digest in wire order. -/
def wireHash (h : Hash256) : Document :=
  .text h.hex

/-- A little-endian word in hexadecimal. -/
def word (w : UInt32) : Document :=
  bytes (Bytes.ofNat .little 4 w.toNat)

end Document

end Json

/-- Reads a digest in display order from a JSON string. -/
def Hash256.ofText (text : String) : Except Error Hash256 :=
  Json.read Json.hash? text

/-- Writes a digest as a JSON string. -/
def Hash256.toText (hash : Hash256) : String :=
  (Json.Document.hash hash).render

namespace ConfirmingHeader

/-- The names of the fields, in order. -/
def fieldNames : List String :=
  ["raw", "hash", "hash_le", "height", "prevhash", "prevhash_le", "merkle_root", "merkle_root_le"]

/-- A header from a record that may have other fields. -/
def ofJson? (v : Json) : Option ConfirmingHeader := do
  match ← v.allFields? .lenient fieldNames with
  | [raw, hash, hashLe, height, prevHash, prevHashLe, merkleRoot, merkleRootLe] =>
    return {
      raw := ← raw.rawHeader?
      hash := ← hash.hash?
      hashLe := ← hashLe.wireHash?
      height := ← height.uint32?
      prevHash := ← prevHash.hash?
      prevHashLe := ← prevHashLe.wireHash?
      merkleRoot := ← merkleRoot.hash?
      merkleRootLe := ← merkleRootLe.wireHash? }
  | _ => none

/-- A header as a record. -/
def document (h : ConfirmingHeader) : Json.Document :=
  .record [
    ("raw", .bytes h.raw.bytes),
    ("hash", .hash h.hash),
    ("hash_le", .wireHash h.hashLe),
    ("height", .natural h.height.toNat),
    ("prevhash", .hash h.prevHash),
    ("prevhash_le", .wireHash h.prevHashLe),
    ("merkle_root", .hash h.merkleRoot),
    ("merkle_root_le", .wireHash h.merkleRootLe)]

end ConfirmingHeader

namespace InclusionProof

/-- The names of the fields, in order. -/
def fieldNames : List String :=
  ["version", "vin", "vout", "locktime", "tx_id", "tx_id_le", "index", "confirming_header",
    "intermediate_nodes"]

/-- A proof from a record that may have other fields. -/
def ofJson? (v : Json) : Option InclusionProof := do
  match ← v.allFields? .lenient fieldNames with
  | [version, vin, vout, locktime, txid, txidLe, index, header, siblings] =>
    return {
      version := ← version.word?
      vin := ← vin.bytes?
      vout := ← vout.bytes?
      locktime := ← locktime.word?
      txid := ← txid.hash?
      txidLe := ← txidLe.wireHash?
      index := ← index.uint64?
      header := ← ConfirmingHeader.ofJson? header
      siblings := ← siblings.bytes? }
  | _ => none

/-- A proof as a record. -/
def document (p : InclusionProof) : Json.Document :=
  .record [
    ("version", .word p.version),
    ("vin", .bytes p.vin),
    ("vout", .bytes p.vout),
    ("locktime", .word p.locktime),
    ("tx_id", .hash p.txid),
    ("tx_id_le", .wireHash p.txidLe),
    ("index", .natural p.index.toNat),
    ("confirming_header", p.header.document),
    ("intermediate_nodes", .bytes p.siblings)]

/-- Reads a proof. -/
def ofText (text : String) : Except Error InclusionProof :=
  Json.read ofJson? text

/-- Writes a proof. -/
def toText (p : InclusionProof) : String :=
  p.document.render

end InclusionProof

end LightClient
