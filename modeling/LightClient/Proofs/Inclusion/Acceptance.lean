import LightClient.Proofs.Inclusion.Record
import LightClient.Proofs.Merkle.Climb
import LightClient.Proofs.Merkle.Encoding
import LightClient.Proofs.Transaction.Parts

/-!
# Which proofs are accepted

The checks of an inclusion proof are written in the order in which they are made and in terms of
what reads the parts. Here is what they amount to in terms of the octets: the vectors are encodings,
of inputs and outputs that make up a transaction with the id in the proof; the fields of the header
are read off its octets; and the siblings, folded along the bits of the index, lead from the id to
the root at its place among the octets.
-/

namespace LightClient

open Guards

namespace InclusionProof

variable {config : Config} {p : InclusionProof} {tx : Transaction}

/-! ## The transaction in a proof -/

/-- The transaction that a proof spells: its vectors are the encodings of the inputs and outputs, of
which there are some, and witnesses have no place in it. -/
structure Spells (p : InclusionProof) (tx : Transaction) : Prop where
  version_eq : tx.version = p.version
  vin_eq : p.vin = Wire.listBytes tx.inputs
  vout_eq : p.vout = Wire.listBytes tx.outputs
  locktime_eq : tx.locktime = p.locktime
  inputs_ne_nil : tx.inputs ≠ []
  outputs_ne_nil : tx.outputs ≠ []
  hasWitness_eq : tx.hasWitness = false
  fits : tx.Fits

/-- The transaction is rebuilt exactly when the vectors are those of one. -/
theorem transaction_eq_ok_iff : p.transaction = .ok tx ↔ p.Spells tx := by
  rw [transaction, Transaction.ofVectors_eq_ok_iff, Transaction.parseInputs_eq_ok_iff,
    Transaction.parseOutputs_eq_ok_iff]
  constructor
  · rintro ⟨hversion, ⟨hinputs, ⟨hinputsLt, hinputFits⟩, hvin⟩,
      ⟨houtputs, ⟨houtputsLt, houtputFits⟩, hvout⟩, hlocktime⟩
    have hempty : ∀ i ∈ tx.inputs, i.witness = .empty := fun i hi => (hinputFits i hi).2
    refine ⟨hversion, hvin, hvout, hlocktime, hinputs, houtputs,
      Transaction.hasWitness_eq_false_iff.mpr hempty, hinputsLt, houtputsLt, ?_, houtputFits⟩
    intro i hi
    refine ⟨(hinputFits i hi).1, ?_⟩
    rw [hempty i hi]
    exact Witness.empty_fits
  · intro h
    have hempty := Transaction.hasWitness_eq_false_iff.mp h.hasWitness_eq
    refine ⟨h.version_eq, ⟨h.inputs_ne_nil, ⟨h.fits.inputs_lt, ?_⟩, h.vin_eq⟩,
      ⟨h.outputs_ne_nil, ⟨h.fits.outputs_lt, h.fits.output_fits⟩, h.vout_eq⟩, h.locktime_eq⟩
    exact fun i hi => ⟨(h.fits.input_fits i hi).1, hempty i hi⟩

/-- Once both vectors are read there is nothing left in the way of the transaction. -/
theorem exists_transaction_eq_ok_iff :
    (∃ tx, p.transaction = .ok tx) ↔
      (∃ inputs, Transaction.parseInputs p.vin = .ok inputs) ∧
        ∃ outputs, Transaction.parseOutputs p.vout = .ok outputs :=
  Transaction.exists_ofVectors_eq_ok_iff

/-- The digest of the parts is the id of the transaction that they spell. -/
theorem Spells.computedTxid_eq (h : p.Spells tx) : p.computedTxid = tx.txid := by
  rw [Transaction.txid_eq, computedTxid, h.version_eq, h.locktime_eq, h.vin_eq, h.vout_eq]

/-! ## The whole proof -/

/-- The siblings in a proof lead from its id to the root among the octets of its header. -/
def LeadsToRoot (p : InclusionProof) : Prop :=
  ∃ nodes : List Hash256, p.siblings = nodes.flatMap FixedBytes.bytes ∧
    p.index.toNat < 2 ^ nodes.length ∧
    (Merkle.Branch.foldBits nodes p.index.toNat p.txid).bytes =
      (p.header.raw.bytes.drop 36).take 32

/-- A branch to the root is read from a proof that leads to it, and from no other. -/
theorem leadsToRoot_iff (hheader : p.header = .ofRaw p.header.raw p.header.height) :
    p.LeadsToRoot ↔
      ∃ b, p.branch = .ok b ∧ b.verifies p.txid p.header.merkleRoot = .ok true := by
  have hroot : p.header.merkleRoot = p.header.raw.merkleRoot :=
    congrArg ConfirmingHeader.merkleRoot hheader
  simp only [hroot, branch, Merkle.Branch.ofBytes_eq_ok_iff, Merkle.Branch.verifies_eq_ok_true_iff,
    Merkle.Branch.impliedRoot_eq_ok_iff, Merkle.Branch.climb_eq_foldBits, FixedBytes.ext_iff]
  constructor
  · rintro ⟨nodes, hsiblings, hindex, hfold⟩
    exact ⟨⟨nodes, p.index⟩, ⟨hsiblings, rfl⟩, hindex, hfold⟩
  · rintro ⟨b, ⟨hsiblings, hindexEq⟩, hindex, hfold⟩
    rw [← hindexEq] at hindex hfold
    exact ⟨b.nodes, hsiblings, hindex, hfold⟩

/-- What a proof must be like under a configuration, part by part and in terms of the octets. -/
structure Sound (config : Config) (p : InclusionProof) : Prop where
  spells : ∃ tx, p.Spells tx ∧ p.txid = tx.txid
  txidLe_eq : p.txidLe = p.txid
  header_eq : p.header = .ofRaw p.header.raw p.header.height
  work : config.checkHeaderWork = true →
    ∃ target, Target.ofCompact p.header.raw.bits = .ok target ∧
      p.header.raw.hash.toNat ≤ target.toNat
  leadsToRoot : p.LeadsToRoot

/-- A proof is accepted exactly when it is sound, whatever its parts are. -/
theorem validateWith_eq_ok_iff_sound : p.validateWith config = .ok () ↔ p.Sound config := by
  rw [validateWith_eq_ok_iff, ← and_assoc, ← exists_transaction_eq_ok_iff]
  simp only [transaction_eq_ok_iff, ConfirmingHeader.validate_eq_ok_iff, checkWork_eq_ok_iff,
    RawHeader.meetsTarget_eq_ok_true_iff]
  constructor
  · rintro ⟨⟨tx, hspells⟩, hcopies, htxid, hheader, hwork, hbranch⟩
    refine ⟨⟨tx, hspells, ?_⟩, hcopies.symm, hheader, hwork, (leadsToRoot_iff hheader).mpr hbranch⟩
    rw [← htxid, hspells.computedTxid_eq]
  · rintro ⟨⟨tx, hspells, htxid⟩, hcopies, hheader, hwork, hleads⟩
    refine ⟨⟨tx, hspells⟩, hcopies.symm, ?_, hheader, hwork, (leadsToRoot_iff hheader).mp hleads⟩
    rw [hspells.computedTxid_eq, htxid]

end InclusionProof

end LightClient
