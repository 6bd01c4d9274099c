import LightClient.Proofs.Transaction.Vectors

/-!
# What the digests of a transaction stand for

The id is the digest of the legacy serialization, which is the whole transaction but for its
witnesses; the witness digest is that of the serialization in use, which is the whole of it. A
serialization is read as one transaction only, so each of them determines what it serializes.
-/

namespace LightClient.Transaction

/-- Stripping takes all witnesses away. -/
theorem witness_of_mem_stripped {tx : Transaction} {i : Input} (hi : i ∈ tx.stripped.inputs) :
    i.witness = .empty := by
  obtain ⟨j, _, rfl⟩ := List.mem_map.mp hi
  rfl

theorem hasWitness_stripped (tx : Transaction) : tx.stripped.hasWitness = false :=
  hasWitness_eq_false_iff.mpr fun _ hi => witness_of_mem_stripped hi

/-- Nothing is stripped from a transaction without witnesses. -/
theorem stripped_eq_self {tx : Transaction} (hwitness : tx.hasWitness = false) :
    tx.stripped = tx := by
  have hinputs := Input.map_stripped_eq_self (hasWitness_eq_false_iff.mp hwitness)
  cases tx
  simp only [stripped, Transaction.mk.injEq, true_and, and_true]
  exact hinputs

theorem stripped_stripped (tx : Transaction) : tx.stripped.stripped = tx.stripped :=
  stripped_eq_self tx.hasWitness_stripped

theorem Fits.stripped {tx : Transaction} (hfits : tx.Fits) : tx.stripped.Fits where
  inputs_lt := by
    rw [Transaction.stripped, List.length_map]
    exact hfits.inputs_lt
  outputs_lt := hfits.outputs_lt
  input_fits := by
    intro i hi
    obtain ⟨j, hj, rfl⟩ := List.mem_map.mp hi
    exact ⟨(hfits.input_fits j hj).1, Witness.empty_fits⟩
  output_fits := hfits.output_fits

/-- The legacy serialization is that of the transaction without its witnesses. -/
theorem bytes_stripped (tx : Transaction) : Wire.bytes tx.stripped = tx.legacyBytes := by
  have hinputs : Wire.listBytes tx.stripped.inputs = Wire.listBytes tx.inputs :=
    Input.listBytes_map_stripped tx.inputs
  show (if tx.stripped.hasWitness then tx.stripped.segwitPieces
    else tx.stripped.legacyPieces).flatten = tx.legacyPieces.flatten
  rw [hasWitness_stripped, if_neg Bool.false_ne_true, flatten_legacyPieces, flatten_legacyPieces,
    hinputs]
  rfl

theorem legacyBytes_stripped (tx : Transaction) : tx.stripped.legacyBytes = tx.legacyBytes := by
  rw [← bytes_stripped, stripped_stripped, bytes_stripped]

/-- Witnesses have no part in the id. -/
theorem txid_stripped (tx : Transaction) : tx.stripped.txid = tx.txid := by
  rw [txid, legacyBytes_stripped, txid]

/-- No two transactions are serialized alike. -/
theorem eq_of_bytes_eq {a b : Transaction} (ha : a.Fits) (hb : b.Fits)
    (hbytes : Wire.bytes a = Wire.bytes b) : a = b := by
  have hparse := parse_bytes ha
  rw [hbytes, parse_bytes hb] at hparse
  exact (Except.ok.inj hparse).symm

/-- Only transactions that differ in nothing but witnesses have the same legacy serialization. -/
theorem stripped_eq_of_legacyBytes_eq {a b : Transaction} (ha : a.Fits) (hb : b.Fits)
    (hbytes : a.legacyBytes = b.legacyBytes) : a.stripped = b.stripped := by
  rw [← bytes_stripped, ← bytes_stripped] at hbytes
  exact eq_of_bytes_eq ha.stripped hb.stripped hbytes

/-- A transaction is what is left without its witnesses, and its witnesses. -/
theorem eq_of_stripped_eq {a b : Transaction} (hstripped : a.stripped = b.stripped)
    (hwitnesses : a.inputs.map Input.witness = b.inputs.map Input.witness) : a = b := by
  have hinputs : a.inputs = b.inputs := by
    rw [← Input.attachWitnesses_map a.inputs, ← Input.attachWitnesses_map b.inputs, hwitnesses]
    exact congrArg (Input.attachWitnesses · _) (congrArg inputs hstripped)
  cases a
  cases b
  simp only [stripped, Transaction.mk.injEq] at hstripped ⊢
  exact ⟨hstripped.1, hinputs, hstripped.2.2⟩

end LightClient.Transaction
