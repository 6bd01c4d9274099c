import LightClient.Proofs.Transaction.Digests

/-!
# How strictly transactions are read

Reading demands that nothing is left over and takes every count in its shortest form only, so a
byte string that is read is almost always what the transaction is serialized to. There is one
exception: a marker and a flag may announce witnesses of which every one is empty. Such a
transaction is serialized without them, so it has a second spelling that is longer than the first.
-/

namespace LightClient.Transaction

/-- A transaction without witnesses that announces them all the same: behind marker and flag, an
empty witness for each input. -/
def superfluousBytes (tx : Transaction) : Bytes :=
  Bytes.ofNat .little 4 tx.version.toNat ++ [0x00, 0x01] ++ Wire.listBytes tx.inputs ++
    Wire.listBytes tx.outputs ++ List.replicate tx.inputs.length 0x00 ++
    Bytes.ofNat .little 4 tx.locktime.toNat

/-- The byte string announces witnesses, but the transaction has none. -/
def Superfluous (tx : Transaction) (bs : Bytes) : Prop :=
  tx.hasWitness = false ∧ bs = tx.superfluousBytes

/-- An empty witness is a count of zero items. -/
theorem flatMap_witness_of_empty {is : List Input} (hempty : ∀ i ∈ is, i.witness = .empty) :
    is.flatMap (fun i => Wire.bytes i.witness) = List.replicate is.length 0x00 := by
  have hzero : Wire.bytes Witness.empty = [0x00] := rfl
  induction is with
  | nil => rfl
  | cons i is ih =>
    rw [List.forall_mem_cons] at hempty
    rw [List.flatMap_cons, hempty.1, hzero, ih hempty.2, List.length_cons, List.replicate_succ,
      List.singleton_append]

/-- The two spellings of a transaction are its serialization and, if it has no witnesses, the
superfluous one. -/
theorem spelling_iff_bytes_or_superfluous {tx : Transaction} {bs : Bytes} :
    tx.Spelling bs ↔ bs = Wire.bytes tx ∨ tx.Superfluous bs := by
  have hbytes : Wire.bytes tx =
      (if tx.hasWitness then tx.segwitPieces else tx.legacyPieces).flatten := rfl
  rw [hbytes]
  cases hwitness : tx.hasWitness with
  | true =>
    rw [if_pos rfl, flatten_segwitPieces, Superfluous, hwitness]
    constructor
    · rintro (_ | hempty)
      · exact .inl rfl
      · rw [hasWitness_eq_false_iff.mpr hempty] at hwitness
        cases hwitness
    · rintro (rfl | ⟨⟨⟩, _⟩)
      exact .witnessed
  | false =>
    have hempty := hasWitness_eq_false_iff.mp hwitness
    rw [if_neg Bool.false_ne_true, flatten_legacyPieces, Superfluous, superfluousBytes,
      ← flatMap_witness_of_empty hempty]
    constructor
    · rintro (_ | _)
      · exact .inr ⟨hwitness, rfl⟩
      · exact .inl rfl
    · rintro (rfl | ⟨_, rfl⟩)
      · exact .legacy hempty
      · exact .witnessed

/-- A superfluous spelling is longer than the serialization by the marker, the flag and the count of
every empty witness. -/
theorem length_superfluousBytes {tx : Transaction} (hwitness : tx.hasWitness = false) :
    tx.superfluousBytes.length = (Wire.bytes tx).length + 2 + tx.inputs.length := by
  have hbytes : Wire.bytes tx =
      (if tx.hasWitness then tx.segwitPieces else tx.legacyPieces).flatten := rfl
  rw [hbytes, hwitness, if_neg Bool.false_ne_true, flatten_legacyPieces, superfluousBytes]
  simp only [List.length_append, Bytes.length_ofNat, List.length_replicate, List.length_cons,
    List.length_nil]
  omega

/-- A byte string is read as a transaction exactly if it is what the transaction is serialized to or
announces superfluous witnesses, and it is never both. -/
theorem parse_eq_ok_iff_serialize (bs : Bytes) (tx : Transaction) :
    (Wire.parse bs = .ok tx ↔
      tx.Fits ∧ (Wire.serialize tx = .ok bs ∨ tx.Superfluous bs)) ∧
    ¬(Wire.serialize tx = .ok bs ∧ tx.Superfluous bs) := by
  have hserialize : Wire.serialize tx = .ok bs ↔ bs = Wire.bytes tx := by
    rw [serialize_eq_ok, Except.ok.injEq, eq_comm]
  rw [parse_eq_ok_iff_spelling, spelling_iff_bytes_or_superfluous, hserialize]
  refine ⟨Iff.rfl, ?_⟩
  rintro ⟨hbytes, hwitness, hsuperfluous⟩
  have hlength := length_superfluousBytes hwitness
  rw [← hsuperfluous, hbytes] at hlength
  omega

/-- A payment without witnesses is read from a byte string that announces witnesses, and then
serialized to a different one, from which it is read as well. -/
theorem parse_superfluousBytes_payment :
    Wire.parse payment.stripped.superfluousBytes = .ok payment.stripped ∧
      Wire.serialize payment.stripped ≠ .ok payment.stripped.superfluousBytes ∧
      Wire.parse (Wire.bytes payment.stripped) = .ok payment.stripped := by
  have hwitness : payment.stripped.hasWitness = false := rfl
  have hfits : payment.stripped.Fits := payment_fits.stripped
  have hspelling : payment.stripped.Spelling payment.stripped.superfluousBytes :=
    spelling_iff_bytes_or_superfluous.mpr (.inr ⟨hwitness, rfl⟩)
  refine ⟨parse_eq_ok_iff_spelling.mpr ⟨hfits, hspelling⟩, ?_, parse_bytes hfits⟩
  rw [serialize_eq_ok]
  intro hsame
  have hlength := length_superfluousBytes hwitness
  rw [← Except.ok.inj hsame] at hlength
  omega

end LightClient.Transaction
