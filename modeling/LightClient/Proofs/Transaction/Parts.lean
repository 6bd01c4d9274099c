import LightClient.Inclusion.Record
import LightClient.Proofs.Transaction.Digests

/-!
# Transactions and their parts

A transaction without witnesses is its version, its two vectors and its lock time. Vectors that can
be read are the vectors of the transaction that is made of them, octet by octet, so it makes no
difference whether its id is taken over them or over what it is serialized to. The parts of any
other transaction, and its legacy serialization as well, are read as what is left of it without its
witnesses.
-/

namespace LightClient.Transaction

variable {version locktime : UInt32} {vin vout : Bytes} {tx : Transaction}

theorem ofParts_eq_ok_iff {inputs : List Input} {outputs : List Output} :
    ofParts version inputs outputs locktime = .ok tx ↔
      tx.version = version ∧ tx.inputs = inputs ∧ tx.outputs = outputs ∧
        tx.locktime = locktime := by
  unfold ofParts
  constructor
  · split
    next hfunded =>
      intro hok
      obtain rfl := Except.ok.inj hok
      exact ⟨rfl, rfl, rfl, rfl⟩
    next =>
      intro hok
      cases hok
  · rintro ⟨rfl, rfl, rfl, rfl⟩
    exact dif_pos tx.funded

/-- Inputs go together with any outputs. -/
theorem exists_ofParts_eq_ok {inputs : List Input} (hinputs : inputs ≠ []) (version : UInt32)
    (outputs : List Output) (locktime : UInt32) :
    ∃ tx, ofParts version inputs outputs locktime = .ok tx :=
  ⟨⟨version, inputs, outputs, locktime, fun hnil => absurd hnil hinputs⟩,
    ofParts_eq_ok_iff.mpr ⟨rfl, rfl, rfl, rfl⟩⟩

/-- A transaction is made of what is read from its vectors. -/
theorem ofVectors_eq_ok_iff :
    ofVectors version vin vout locktime = .ok tx ↔
      tx.version = version ∧ parseInputs vin = .ok tx.inputs ∧ parseOutputs vout = .ok tx.outputs ∧
        tx.locktime = locktime := by
  simp only [ofVectors, Guards.bind_eq_ok_iff, ofParts_eq_ok_iff]
  constructor
  · rintro ⟨inputs, hinputs, outputs, houtputs, hversion, rfl, rfl, hlocktime⟩
    exact ⟨hversion, hinputs, houtputs, hlocktime⟩
  · rintro ⟨hversion, hinputs, houtputs, hlocktime⟩
    exact ⟨_, hinputs, _, houtputs, hversion, rfl, rfl, hlocktime⟩

/-- Any two vectors that can be read go together. -/
theorem exists_ofVectors_eq_ok_iff :
    (∃ tx, ofVectors version vin vout locktime = .ok tx) ↔
      (∃ inputs, parseInputs vin = .ok inputs) ∧ ∃ outputs, parseOutputs vout = .ok outputs := by
  constructor
  · rintro ⟨tx, hok⟩
    obtain ⟨-, hinputs, houtputs, -⟩ := ofVectors_eq_ok_iff.mp hok
    exact ⟨⟨_, hinputs⟩, _, houtputs⟩
  · rintro ⟨⟨inputs, hinputs⟩, outputs, houtputs⟩
    have hne := (parseInputs_eq_ok_iff.mp hinputs).1
    have hfunded : inputs = [] → outputs = [] := fun hnil => absurd hnil hne
    exact ⟨⟨version, inputs, outputs, locktime, hfunded⟩,
      ofVectors_eq_ok_iff.mpr ⟨rfl, hinputs, houtputs, rfl⟩⟩

/-- The vectors of a transaction are read as the transaction without its witnesses. -/
theorem ofVectors_listBytes (hfits : tx.Fits) (hinputs : tx.inputs ≠ [])
    (houtputs : tx.outputs ≠ []) :
    ofVectors tx.version (Wire.listBytes tx.inputs) (Wire.listBytes tx.outputs) tx.locktime =
      .ok tx.stripped := by
  refine ofVectors_eq_ok_iff.mpr ⟨rfl, ?_, ?_, rfl⟩
  · rw [parseInputs_listBytes hfits, if_neg hinputs]
    rfl
  · rw [parseOutputs_listBytes hfits, if_neg houtputs]
    rfl

/-- So is its legacy serialization. -/
theorem parse_legacyBytes (hfits : tx.Fits) : Wire.parse tx.legacyBytes = .ok tx.stripped := by
  rw [← bytes_stripped]
  exact parse_bytes hfits.stripped

/-- Without witnesses both digests are the id. -/
theorem wtxid_stripped (tx : Transaction) : tx.stripped.wtxid = tx.txid := by
  rw [wtxid, bytes_stripped, txid]

/-- Vectors and transactions correspond. Two vectors make a transaction exactly if each of them can
be read; they are then its vectors, and its id is the digest over them. The vectors of a transaction
that has inputs and outputs, and its legacy serialization, both make the transaction without its
witnesses. -/
theorem ofVectors_vectors_inverse :
    (∀ (version : UInt32) (vin vout : Bytes) (locktime : UInt32),
      ((∃ tx, ofVectors version vin vout locktime = .ok tx) ↔
        (∃ inputs, parseInputs vin = .ok inputs) ∧
          ∃ outputs, parseOutputs vout = .ok outputs) ∧
      ∀ tx, ofVectors version vin vout locktime = .ok tx →
        tx.version = version ∧ tx.locktime = locktime ∧
          tx.inputVector = .ok vin ∧ tx.outputVector = .ok vout ∧
          ∀ p : InclusionProof, p.version = version → p.vin = vin → p.vout = vout →
            p.locktime = locktime → p.computedTxid = tx.txid) ∧
    ∀ tx : Transaction, tx.Fits → tx.inputs ≠ [] → tx.outputs ≠ [] →
      ∃ vin vout legacy, tx.inputVector = .ok vin ∧ tx.outputVector = .ok vout ∧
        tx.serializeLegacy = .ok legacy ∧
        ofVectors tx.version vin vout tx.locktime = .ok tx.stripped ∧
        Wire.parse legacy = .ok tx.stripped ∧
        tx.stripped.txid = tx.txid ∧ tx.stripped.wtxid = tx.txid := by
  constructor
  · intro version vin vout locktime
    refine ⟨exists_ofVectors_eq_ok_iff, fun tx hok => ?_⟩
    obtain ⟨hversion, hinputs, houtputs, hlocktime⟩ := ofVectors_eq_ok_iff.mp hok
    have hvin : vin = Wire.listBytes tx.inputs := (parseInputs_eq_ok_iff.mp hinputs).2.2
    have hvout : vout = Wire.listBytes tx.outputs := (parseOutputs_eq_ok_iff.mp houtputs).2.2
    refine ⟨hversion, hlocktime, ?_, ?_, ?_⟩
    · rw [inputVector_eq, hvin]
    · rw [outputVector_eq, hvout]
    · rintro p rfl rfl rfl rfl
      rw [txid_eq, InclusionProof.computedTxid, hversion, hvin, hvout, hlocktime]
  · intro tx hfits hinputs houtputs
    exact ⟨_, _, _, inputVector_eq tx, outputVector_eq tx, serializeLegacy_eq_ok tx,
      ofVectors_listBytes hfits hinputs houtputs, parse_legacyBytes hfits, txid_stripped tx,
      wtxid_stripped tx⟩

/-- The vectors of a payment with a witness make the payment without it, and are its vectors. -/
theorem ofVectors_vectors_inverse_payment :
    payment.Fits ∧ payment.hasWitness = true ∧ ∃ vin vout legacy,
      payment.inputVector = .ok vin ∧ payment.outputVector = .ok vout ∧
        payment.serializeLegacy = .ok legacy ∧
        ofVectors payment.version vin vout payment.locktime = .ok payment.stripped ∧
        Wire.parse legacy = .ok payment.stripped ∧ payment.stripped.wtxid = payment.txid ∧
        payment.stripped.inputVector = .ok vin ∧ payment.stripped.outputVector = .ok vout := by
  obtain ⟨vin, vout, legacy, hvin, hvout, hlegacy, hok, hparse, -, hwtxid⟩ :=
    ofVectors_vectors_inverse.2 payment payment_fits (by decide) (by decide)
  obtain ⟨-, -, hvin', hvout', -⟩ :=
    (ofVectors_vectors_inverse.1 payment.version vin vout payment.locktime).2 _ hok
  exact ⟨payment_fits, rfl, vin, vout, legacy, hvin, hvout, hlegacy, hok, hparse, hwtxid, hvin',
    hvout'⟩

end LightClient.Transaction
