import LightClient.Proofs.Guards
import LightClient.Proofs.Hex
import LightClient.Proofs.Transaction.Grammar
import LightClient.Transaction.Vectors

/-!
# Vectors of transactions that were read

A transaction that was read fits, so its vectors can be written, and they are read back unless they
are empty. The inputs come back without their witnesses, which a vector does not hold. Nor does the
id of the transaction depend on the witnesses: it is the digest of version, vectors and lock time.
-/

namespace LightClient

namespace Transaction

/-- What is read is a spelling that takes up the whole byte string. -/
theorem parse_eq_ok_iff_spelling {tx : Transaction} {bs : Bytes} :
    Wire.parse bs = .ok tx ↔ tx.Fits ∧ tx.Spelling bs :=
  Wire.parse_eq_ok_iff_spells decode_reads

theorem fits_of_parse_eq_ok {bs : Bytes} {tx : Transaction} (hok : Wire.parse bs = .ok tx) :
    tx.Fits :=
  (parse_eq_ok_iff_spelling.mp hok).1

/-- A serialization is read as the transaction from which it was made. -/
theorem parse_bytes {tx : Transaction} (hfits : tx.Fits) :
    Wire.parse (Wire.bytes tx) = .ok tx :=
  parse_eq_ok_iff_spelling.mpr ⟨hfits, spelling_bytes tx⟩

theorem parseHex_of_spells {tx : Transaction} {text : String} (hfits : tx.Fits)
    (hspells : Hex.Spells text (Wire.bytes tx)) : Wire.parseHex text = .ok tx :=
  Guards.bind_eq_ok_iff.mpr ⟨_, Bytes.ofHex_eq_ok_iff.mpr hspells, parse_bytes hfits⟩

theorem parseHex_encode {tx : Transaction} (hfits : tx.Fits) :
    Wire.parseHex (Hex.encode (Wire.bytes tx)) = .ok tx :=
  parseHex_of_spells hfits (Hex.spells_encode _)

/-! ## Vectors -/

theorem inputVector_eq (tx : Transaction) : tx.inputVector = .ok (Wire.listBytes tx.inputs) :=
  Wire.serializeList_eq_ok Input.length_bytes tx.inputs

theorem outputVector_eq (tx : Transaction) : tx.outputVector = .ok (Wire.listBytes tx.outputs) :=
  Wire.serializeList_eq_ok Output.length_bytes tx.outputs

/-- A counted list that fills a byte string is read from it, unless it is empty. -/
theorem parseVector_listBytes {α : Type} [Wire α] {fits : α → Prop} {as : List α} (fault : Error)
    (hdecode : (Wire.decode (α := α)).Exact fits Wire.bytes) (hlength : as.length < 2 ^ 64)
    (hfits : ∀ a ∈ as, fits a) :
    parseVector Wire.decode fault (Wire.listBytes as) =
      if as = [] then .error fault else .ok as := by
  have hspan : (Suffix.ofData (Wire.listBytes as) 0).Spans (Wire.listBytes as)
      ⟨(Wire.listBytes as).length, []⟩ := by
    simp [Suffix.Spans, Suffix.ofData]
  have hlist := (Wire.list_exact hdecode _ _ _).mpr ⟨⟨hlength, hfits⟩, hspan⟩
  unfold parseVector
  rw [hlist]
  cases as with
  | nil => rfl
  | cons a as => rfl

/-- What is read is a counted list that fills the byte string and is not empty. -/
theorem parseVector_eq_ok_iff {α : Type} [Wire α] {fits : α → Prop} {as : List α} {bs : Bytes}
    {fault : Error} (hdecode : (Wire.decode (α := α)).Exact fits Wire.bytes) :
    parseVector Wire.decode fault bs = .ok as ↔
      as ≠ [] ∧ (as.length < 2 ^ 64 ∧ ∀ a ∈ as, fits a) ∧ bs = Wire.listBytes as := by
  constructor
  · intro hok
    unfold parseVector at hok
    cases hlist : Decoder.list (Wire.decode (α := α)) (Suffix.ofData bs 0) with
    | error e t =>
      rw [hlist] at hok
      cases hok
    | ok bs' t =>
      rw [hlist] at hok
      obtain ⟨hfits, hspan⟩ := (Wire.list_exact hdecode _ _ _).mp hlist
      by_cases hrefused : bs'.isEmpty || !t.bytes.isEmpty
      · simp [hrefused] at hok
      · simp only [hrefused] at hok
        obtain rfl := Except.ok.inj hok
        simp only [Bool.or_eq_true, List.isEmpty_iff, Bool.not_eq_true', not_or,
          Bool.not_eq_false] at hrefused
        have hwhole : bs = Wire.listBytes bs' := by
          simpa [Suffix.ofData, hrefused.2] using hspan.1
        exact ⟨hrefused.1, hfits, hwhole⟩
  · rintro ⟨hne, ⟨hlength, hfits⟩, rfl⟩
    rw [parseVector_listBytes fault hdecode hlength hfits, if_neg hne]

/-- Inputs are read without witnesses. -/
theorem parseInputs_eq_ok_iff {vin : Bytes} {is : List Input} :
    parseInputs vin = .ok is ↔
      is ≠ [] ∧ (is.length < 2 ^ 64 ∧ ∀ i ∈ is, i.scriptSig.Fits ∧ i.witness = .empty) ∧
        vin = Wire.listBytes is :=
  parseVector_eq_ok_iff Input.decode_exact

theorem parseOutputs_eq_ok_iff {vout : Bytes} {os : List Output} :
    parseOutputs vout = .ok os ↔
      os ≠ [] ∧ (os.length < 2 ^ 64 ∧ ∀ o ∈ os, o.Fits) ∧ vout = Wire.listBytes os :=
  parseVector_eq_ok_iff Output.decode_exact

/-- The input vector is read as the inputs without their witnesses, if there are any. -/
theorem parseInputs_listBytes {tx : Transaction} (hfits : tx.Fits) :
    parseInputs (Wire.listBytes tx.inputs) =
      if tx.inputs = [] then .error .invalidVin else .ok (tx.inputs.map Input.stripped) := by
  have hlength : (tx.inputs.map Input.stripped).length < 2 ^ 64 := by
    rw [List.length_map]
    exact hfits.inputs_lt
  have hstripped : ∀ i ∈ tx.inputs.map Input.stripped, i.scriptSig.Fits ∧ i.witness = .empty := by
    intro i hi
    obtain ⟨j, hj, rfl⟩ := List.mem_map.mp hi
    exact ⟨(hfits.input_fits j hj).1, rfl⟩
  rw [← Input.listBytes_map_stripped, parseInputs,
    parseVector_listBytes .invalidVin Input.decode_exact hlength hstripped]
  simp only [List.map_eq_nil_iff]

theorem parseOutputs_listBytes {tx : Transaction} (hfits : tx.Fits) :
    parseOutputs (Wire.listBytes tx.outputs) =
      if tx.outputs = [] then .error .invalidVout else .ok tx.outputs :=
  parseVector_listBytes .invalidVout Output.decode_exact hfits.outputs_lt hfits.output_fits

/-- The id is the digest of version, vectors and lock time. -/
theorem txid_eq (tx : Transaction) :
    tx.txid = hash256Parts [Bytes.ofNat .little 4 tx.version.toNat, Wire.listBytes tx.inputs,
      Wire.listBytes tx.outputs, Bytes.ofNat .little 4 tx.locktime.toNat] := by
  rw [txid, legacyBytes, hash256Parts, flatten_legacyPieces]
  simp only [List.flatten_cons, List.flatten_nil, List.append_nil, List.append_assoc]

end Transaction

end LightClient
