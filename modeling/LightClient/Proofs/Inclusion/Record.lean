import LightClient.Inclusion.Record
import LightClient.Proofs.Guards

/-!
# What the checks of an inclusion proof amount to

A proof is valid exactly when each of its checks passes. The vectors come first, so that an empty
one is what a proof is refused for, whatever else is wrong with it.
-/

namespace LightClient

open Guards

namespace ConfirmingHeader

/-- A header agrees with itself and with its octets exactly when its fields are what is read off the
octets. -/
theorem validate_eq_ok_iff {h : ConfirmingHeader} :
    h.validate = .ok () ↔ h = ofRaw h.raw h.height := by
  simp only [validate, refuse_eq_ok_iff, refuse_last_eq_ok_iff, ne_eq, Decidable.not_not]
  constructor
  · rintro ⟨hhashLe, hhash, hrootLe, hroot, hprevLe, hprev⟩
    cases h
    simp_all [ofRaw]
  · intro heq
    rw [heq]
    exact ⟨rfl, rfl, rfl, rfl, rfl, rfl⟩

theorem validate_ofRaw (raw : RawHeader) (height : UInt32) :
    (ofRaw raw height).validate = .ok () :=
  validate_eq_ok_iff.mpr rfl

end ConfirmingHeader

/-- Whether a header meets its target is answered as soon as the header has one. -/
theorem RawHeader.meetsTarget_eq_ok_true_iff {raw : RawHeader} :
    raw.meetsTarget = .ok true ↔
      ∃ target, Target.ofCompact raw.bits = .ok target ∧ raw.hash.toNat ≤ target.toNat := by
  simp only [meetsTarget, RawHeader.target, bind_eq_ok_iff, pure_eq_ok_iff, Target.isMetBy,
    decide_eq_true_eq]

namespace InclusionProof

variable {config : Config} {p : InclusionProof}

/-- The work is there exactly when the header meets its target. -/
theorem checkWork_eq_ok_iff {raw : RawHeader} :
    checkWork raw = .ok () ↔ raw.meetsTarget = .ok true := by
  simp only [checkWork, bind_eq_ok_iff, mapError_eq_ok_iff, refuse_last_eq_ok_iff,
    Bool.not_eq_false, exists_eq_right]

/-- A proof is valid exactly when every check passes. -/
theorem validateWith_eq_ok_iff :
    p.validateWith config = .ok () ↔
      (∃ inputs, Transaction.parseInputs p.vin = .ok inputs) ∧
      (∃ outputs, Transaction.parseOutputs p.vout = .ok outputs) ∧
      p.txid = p.txidLe ∧ p.computedTxid = p.txid ∧ p.header.validate = .ok () ∧
      (config.checkHeaderWork = true → checkWork p.header.raw = .ok ()) ∧
      ∃ b, p.branch = .ok b ∧ b.verifies p.txid p.header.merkleRoot = .ok true := by
  simp only [validateWith, bind_eq_ok_iff, refuse_eq_ok_iff, refuse_last_eq_ok_iff,
    check_when_eq_ok_iff, ne_eq, Decidable.not_not, Bool.not_eq_false]
  constructor
  · rintro ⟨inputs, hinputs, outputs, houtputs, hcopies, htxid, _, hheader, hwork, b, hbranch, _,
      hverifies, rfl⟩
    exact ⟨⟨inputs, hinputs⟩, ⟨outputs, houtputs⟩, hcopies, htxid, hheader, hwork, b, hbranch,
      hverifies⟩
  · rintro ⟨⟨inputs, hinputs⟩, ⟨outputs, houtputs⟩, hcopies, htxid, hheader, hwork, b, hbranch,
      hverifies⟩
    exact ⟨inputs, hinputs, outputs, houtputs, hcopies, htxid, (), hheader, hwork, b, hbranch,
      true, hverifies, rfl⟩

/-- An input vector that cannot be read is what the proof is refused for. -/
theorem validateWith_of_parseInputs_eq_error {e : Error}
    (hvin : Transaction.parseInputs p.vin = .error e) : p.validateWith config = .error e := by
  rw [validateWith, hvin]
  rfl

/-- An output vector that cannot be read is what the proof is refused for, if the input vector can
be read. -/
theorem validateWith_of_parseOutputs_eq_error {inputs : List Input} {e : Error}
    (hvin : Transaction.parseInputs p.vin = .ok inputs)
    (hvout : Transaction.parseOutputs p.vout = .error e) : p.validateWith config = .error e := by
  rw [validateWith, hvin, hvout]
  rfl

end InclusionProof

end LightClient
