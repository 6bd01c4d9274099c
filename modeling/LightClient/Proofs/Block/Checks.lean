import LightClient.Block.WitnessCommitment
import LightClient.Proofs.Guards
import LightClient.Proofs.Merkle.Levels

/-!
# What the checks of a block amount to

A block is valid when two roots are unmalleated and what they should be: that of the ids, which is
in the header, and that of the witness digests, to which the coinbase commits together with a
reserved value. A block in which nothing has a witness may do without the second.
-/

namespace LightClient

open Guards

/-- The reserved value is the one item of the first input's witness. -/
theorem Transaction.reservedValue?_eq_some_iff {tx : Transaction} {reserved : Bytes} :
    tx.reservedValue? = some reserved ↔
      ∃ i rest, tx.inputs = i :: rest ∧ i.witness = ⟨[reserved]⟩ ∧ reserved.length = 32 := by
  unfold reservedValue?
  cases tx.inputs with
  | nil => simp
  | cons i rest =>
    obtain ⟨prevout, scriptSig, sequence, ⟨items⟩⟩ := i
    rcases items with _ | ⟨value, _ | ⟨second, others⟩⟩
    · simp
    · by_cases hlength : value.length = 32
      · simp only [List.head?_cons, Option.bind_eq_bind, Option.bind_some, if_pos hlength,
          Option.some.injEq]
        constructor
        · rintro rfl
          exact ⟨_, _, rfl, rfl, hlength⟩
        · rintro ⟨_, _, hinputs, hwitness, _⟩
          obtain ⟨rfl, rfl⟩ := List.cons.inj hinputs
          simpa using hwitness
      · simp only [List.head?_cons, Option.bind_eq_bind, Option.bind_some, if_neg hlength,
          reduceCtorEq, false_iff]
        rintro ⟨_, _, hinputs, hwitness, hreserved⟩
        obtain ⟨rfl, rfl⟩ := List.cons.inj hinputs
        simp only [Witness.mk.injEq, List.cons.injEq, and_true] at hwitness
        exact hlength (hwitness ▸ hreserved)
    · simp

/-- A last output that starts with the tag and a digest commits to the digest, whatever follows. -/
theorem Transaction.witnessCommitment?_of_last {tx : Transaction} {os : List Output}
    {value : UInt64} {digest : Hash256} {extra : Bytes}
    (houtputs : tx.outputs = os ++ [⟨value, ⟨witnessCommitmentTag ++ (digest.bytes ++ extra)⟩⟩]) :
    tx.witnessCommitment? = some digest := by
  have htag : witnessCommitmentTag.length = 6 := rfl
  have hlength : 38 ≤ (witnessCommitmentTag ++ (digest.bytes ++ extra)).length := by
    rw [List.length_append, List.length_append, htag, FixedBytes.length_bytes]
    omega
  have hcommits :
      (Script.mk (witnessCommitmentTag ++ (digest.bytes ++ extra))).isWitnessCommitment = true := by
    simp only [Script.isWitnessCommitment, hlength, decide_true, Bool.true_and,
      List.isPrefixOf_iff_prefix, List.prefix_append]
  have hfind : tx.outputs.reverse.find? (·.scriptPubKey.isWitnessCommitment) =
      some ⟨value, ⟨witnessCommitmentTag ++ (digest.bytes ++ extra)⟩⟩ := by
    rw [houtputs, List.reverse_append, List.reverse_singleton, List.singleton_append]
    exact List.find?_cons_of_pos hcommits
  have hfield : (Script.mk (witnessCommitmentTag ++ (digest.bytes ++ extra))).field 6 32 =
      digest.bytes := by
    rw [Script.field, ← htag, List.drop_left]
    exact List.take_left' digest.length_bytes
  rw [witnessCommitment?, hfind]
  show FixedBytes.ofBytes? 32 ((Script.mk _).field 6 32) = some digest
  rw [hfield, FixedBytes.ofBytes?_bytes]

namespace Block

variable {b : Block}

/-- The ids have the root in the header, and no other list of ids has it. -/
theorem checkMerkleRoot_eq_ok_iff :
    b.checkMerkleRoot = .ok () ↔
      ∃ root, Merkle.root b.txids = .ok root ∧ root.malleated = false ∧
        root.hash = b.header.merkleRoot := by
  simp only [checkMerkleRoot, merkleRoot, bind_eq_ok_iff, refuse_eq_ok_iff,
    refuse_last_eq_ok_iff, ne_eq, Decidable.not_not, Bool.not_eq_true]

/-- The coinbase of a block commits to an unmalleated root of the witness digests, together with the
reserved value that it carries. -/
structure Commits (b : Block) (coinbase : Transaction) (root : Merkle.Root) (reserved : Bytes) :
    Prop where
  reservedValue?_eq : coinbase.reservedValue? = some reserved
  witnessMerkleRoot_eq : witnessMerkleRoot b.transactions = .ok root
  unmalleated : root.malleated = false
  witnessCommitment?_eq :
    coinbase.witnessCommitment? = some (witnessCommitment root.hash reserved)

/-- Either there is neither a commitment nor anything to commit to, or the coinbase commits to the
witnesses. -/
theorem checkWitnessCommitment_eq_ok_iff :
    b.checkWitnessCommitment = .ok () ↔
      ∃ coinbase, b.transactions.head? = some coinbase ∧
        ((coinbase.witnessCommitment? = none ∧ ∀ tx ∈ b.transactions, tx.hasWitness = false) ∨
          ∃ root reserved, b.Commits coinbase root reserved) := by
  cases htransactions : b.transactions with
  | nil => simp [checkWitnessCommitment, htransactions]
  | cons coinbase rest =>
    simp only [checkWitnessCommitment, htransactions, List.head?_cons, Option.some.injEq,
      exists_eq_left']
    cases hcommitment : coinbase.witnessCommitment? with
    | none =>
      have hnone : (∀ tx ∈ coinbase :: rest, tx.hasWitness = false) ↔
          (coinbase :: rest).any Transaction.hasWitness = false := by
        simp only [List.any_eq_false, Bool.not_eq_true]
      have hcommits : ¬∃ root reserved, b.Commits coinbase root reserved := by
        rintro ⟨root, reserved, h⟩
        exact absurd (hcommitment.symm.trans h.witnessCommitment?_eq) (by simp)
      rw [hnone]
      cases (coinbase :: rest).any Transaction.hasWitness <;> simp [hcommits]
    | some commitment =>
      cases hreserved : coinbase.reservedValue? with
      | none =>
        have hcommits : ¬∃ root reserved, b.Commits coinbase root reserved := by
          rintro ⟨root, reserved, h⟩
          exact absurd (hreserved.symm.trans h.reservedValue?_eq) (by simp)
        simp [hcommits]
      | some reserved =>
        simp only [bind_eq_ok_iff, refuse_eq_ok_iff, refuse_last_eq_ok_iff, ne_eq,
          Decidable.not_not, Bool.not_eq_true, reduceCtorEq, false_and, false_or]
        constructor
        · rintro ⟨root, hroot, hunmalleated, rfl⟩
          exact ⟨root, reserved, hreserved, htransactions ▸ hroot, hunmalleated, hcommitment⟩
        · rintro ⟨root, value, h⟩
          obtain rfl := Option.some.inj (hreserved.symm.trans h.reservedValue?_eq)
          have hsame := Option.some.inj (hcommitment.symm.trans h.witnessCommitment?_eq)
          exact ⟨root, htransactions ▸ h.witnessMerkleRoot_eq, h.unmalleated, hsame.symm⟩

theorem validate_eq_ok_iff :
    b.validate = .ok () ↔ b.checkMerkleRoot = .ok () ∧ b.checkWitnessCommitment = .ok () := by
  simp only [validate, bind_eq_ok_iff]
  constructor
  · rintro ⟨_, hroot, hwitness⟩
    exact ⟨hroot, hwitness⟩
  · rintro ⟨hroot, hwitness⟩
    exact ⟨(), hroot, hwitness⟩

end Block

end LightClient
