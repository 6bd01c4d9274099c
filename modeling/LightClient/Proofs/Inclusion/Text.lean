import LightClient.Inclusion.Text
import LightClient.Proofs.Bytes
import LightClient.Proofs.Digest
import LightClient.Proofs.Json.Record

/-!
# Inclusion proofs survive their JSON

Each kind of field is read back from what is written for it: byte strings and little-endian words
from hexadecimal, and digests in both orders. A record is read field by field, so a proof is read
back whole from its text, whatever it holds: nothing here asks that its copies of digests agree or
that its parts fit together.
-/

namespace LightClient

namespace Json

/-! ## Fields -/

theorem bytes?_value (bs : Bytes) : (Document.bytes bs).value.bytes? = some bs := by
  have hoctets : Bytes.ofHex (Hex.encode bs) = .ok bs :=
    Bytes.ofHex_eq_ok_iff.mpr (Hex.spells_encode bs)
  simp [Document.bytes, Document.value, bytes?, text?, hoctets, Except.toOption]

theorem hash?_value (hash : Hash256) : (Document.hash hash).value.hash? = some hash := by
  simp [Document.hash, Document.value, hash?, text?, hash.ofHex_display, Except.toOption]

theorem wireHash?_value (hash : Hash256) :
    (Document.wireHash hash).value.wireHash? = some hash := by
  simp [Document.wireHash, Document.value, wireHash?, text?, hash.ofHexWire_hex, Except.toOption]

theorem rawHeader?_value (raw : RawHeader) :
    (Document.bytes raw.bytes).value.rawHeader? = some raw := by
  simp [rawHeader?, bytes?_value, FixedBytes.ofBytes?_bytes]

/-- A word is read from its four octets. -/
theorem word?_value (word : UInt32) : (Document.word word).value.word? = some word := by
  have hoctets : FixedBytes.ofBytes? 4 (Bytes.ofNat .little 4 word.toNat) =
      some ⟨Bytes.ofNat .little 4 word.toNat, Bytes.length_ofNat _ _ _⟩ :=
    dif_pos (Bytes.length_ofNat _ _ _)
  have hvalue : Bytes.toNat .little (Bytes.ofNat .little 4 word.toNat) = word.toNat := by
    rw [Bytes.toNat_ofNat]
    exact Nat.mod_eq_of_lt word.toNat_lt
  simp [Document.word, word?, bytes?_value, hoctets, hvalue]

end Json

/-! ## Records -/

namespace ConfirmingHeader

theorem allFields?_document (h : ConfirmingHeader) :
    h.document.value.allFields? .lenient fieldNames = some [
      (Json.Document.bytes h.raw.bytes).value,
      (Json.Document.hash h.hash).value,
      (Json.Document.wireHash h.hashLe).value,
      (Json.Document.natural h.height.toNat).value,
      (Json.Document.hash h.prevHash).value,
      (Json.Document.wireHash h.prevHashLe).value,
      (Json.Document.hash h.merkleRoot).value,
      (Json.Document.wireHash h.merkleRootLe).value] := by
  have hnodup : fieldNames.Nodup := by decide
  exact Json.allFields?_record .lenient hnodup

theorem ofJson?_document (h : ConfirmingHeader) : ofJson? h.document.value = some h := by
  rw [ofJson?, h.allFields?_document]
  simp only [Option.bind_eq_bind, Option.bind_some, Json.rawHeader?_value, Json.hash?_value,
    Json.wireHash?_value, Json.uint32?_value, Option.pure_def]

end ConfirmingHeader

namespace InclusionProof

theorem allFields?_document (p : InclusionProof) :
    p.document.value.allFields? .lenient fieldNames = some [
      (Json.Document.word p.version).value,
      (Json.Document.bytes p.vin).value,
      (Json.Document.bytes p.vout).value,
      (Json.Document.word p.locktime).value,
      (Json.Document.hash p.txid).value,
      (Json.Document.wireHash p.txidLe).value,
      (Json.Document.natural p.index.toNat).value,
      p.header.document.value,
      (Json.Document.bytes p.siblings).value] := by
  have hnodup : fieldNames.Nodup := by decide
  exact Json.allFields?_record .lenient hnodup

theorem ofJson?_document (p : InclusionProof) : ofJson? p.document.value = some p := by
  rw [ofJson?, p.allFields?_document]
  simp only [Option.bind_eq_bind, Option.bind_some, Json.word?_value, Json.bytes?_value,
    Json.hash?_value, Json.wireHash?_value, Json.uint64?_value, p.header.ofJson?_document,
    Option.pure_def]

/-- Every proof is read back as it was from the text that is written for it. -/
theorem ofText_toText (p : InclusionProof) : ofText p.toText = .ok p :=
  Json.read_render p.ofJson?_document

end InclusionProof

end LightClient
