import LightClient.Proofs.Block.Grammar

/-!
# Announced lengths

The length of an encoding is computed before anything is written, by formulas of its own: widths of
counts, marker and flag, sums over lists. They agree with what is written for every value of every
type, so that serialization into the announced length cannot fail.
-/

namespace LightClient

namespace Wire

/-- Every value takes up exactly its announced length: it is serialized into that many octets, and
the same octets are written wherever there is room for as many. -/
def Presized (α : Type) [Wire α] : Prop :=
  ∀ a : α, ∃ bs : Bytes, bs.length = size a ∧ serialize a = .ok bs ∧
    ∀ w : Writer, w.hasRoom (size a) = true → write a w = .ok () (w.append bs)

theorem presized_of_length {α : Type} [Wire α] (hsize : ∀ a : α, (bytes a).length = size a) :
    Presized α := by
  intro a
  refine ⟨bytes a, hsize a, serialize_eq_ok (hsize a), ?_⟩
  intro w hroom
  exact write_eq_ok (hsize a) hroom

end Wire

/-- Values of all types with a wire format take up exactly their announced lengths, and so do the
legacy serialization of a transaction and its two vectors. -/
theorem presized_all :
    (Wire.Presized Script ∧ Wire.Presized Witness ∧ Wire.Presized Outpoint ∧
      Wire.Presized Input ∧ Wire.Presized Output ∧ Wire.Presized Transaction ∧
      Wire.Presized Header ∧ Wire.Presized Block) ∧
    ∀ tx : Transaction,
      (∃ bs, tx.serializeLegacy = .ok bs ∧ bs.length = tx.baseSize) ∧
      (∃ vin, tx.inputVector = .ok vin ∧ vin.length = Wire.listSize tx.inputs) ∧
      (∃ vout, tx.outputVector = .ok vout ∧ vout.length = Wire.listSize tx.outputs) := by
  refine ⟨⟨?_, ?_, ?_, ?_, ?_, ?_, ?_, ?_⟩, ?_⟩
  · exact Wire.presized_of_length Script.length_bytes
  · exact Wire.presized_of_length Witness.length_bytes
  · exact Wire.presized_of_length Outpoint.length_bytes
  · exact Wire.presized_of_length Input.length_bytes
  · exact Wire.presized_of_length Output.length_bytes
  · exact Wire.presized_of_length Transaction.length_bytes
  · exact Wire.presized_of_length Header.length_wireBytes
  · exact Wire.presized_of_length Block.length_bytes
  · intro tx
    have hinputs := Wire.length_listBytes Input.length_bytes tx.inputs
    have houtputs := Wire.length_listBytes Output.length_bytes tx.outputs
    exact ⟨⟨_, tx.serializeLegacy_eq_ok, tx.length_legacyBytes⟩,
      ⟨_, tx.inputVector_eq, hinputs⟩, ⟨_, tx.outputVector_eq, houtputs⟩⟩

/-- A payment is written behind an octet that is already there, up to the limit. -/
theorem presized_payment :
    ∃ bs, bs.length = Wire.size Transaction.payment ∧
      Wire.write Transaction.payment ⟨[0x2a], some (1 + Wire.size Transaction.payment)⟩ =
        .ok () ⟨[0x2a] ++ bs, some (1 + Wire.size Transaction.payment)⟩ := by
  obtain ⟨-, -, -, -, -, hpresized, -, -⟩ := presized_all.1
  obtain ⟨bs, hlength, -, hwrite⟩ := hpresized Transaction.payment
  exact ⟨bs, hlength, hwrite _ (Writer.hasRoom_iff.mpr (Nat.le_refl _))⟩

end LightClient
