import LightClient.Proofs.Block.Checks
import LightClient.Proofs.Merkle.Uniqueness
import LightClient.Proofs.Transaction.Parts

/-!
# Committing to witnesses

Adding a commitment to a coinbase changes the coinbase and both of its digests. It does not change
what is committed to, since the coinbase counts as zero among the witness digests, and it takes
effect whatever outputs the coinbase had, since the last commitment counts. So a block that is
completed in this way passes the check of its commitment, unless padding makes its tree of witness
digests ambiguous.
-/

namespace LightClient

/-- The transaction with one more output, whose script is the tag, the commitment to a root of
witness digests and a reserved value, and anything else. -/
def Transaction.withCommitment (tx : Transaction) (witnessRoot : Hash256) (reserved : Bytes)
    (value : UInt64) (extra : Bytes) : Except Error Transaction :=
  ofParts tx.version tx.inputs
    (tx.outputs ++ [⟨value, ⟨[0x6a, 0x24, 0xaa, 0x21, 0xa9, 0xed] ++
      ((witnessCommitment witnessRoot reserved).bytes ++ extra)⟩⟩])
    tx.locktime

namespace Block

variable {header : Header} {coinbase : Transaction} {rest : List Transaction}

/-- The coinbase has no influence on the root of the witness digests. -/
theorem witnessMerkleRoot_cons (coinbase coinbase' : Transaction) (rest : List Transaction) :
    witnessMerkleRoot (coinbase :: rest) = witnessMerkleRoot (coinbase' :: rest) :=
  rfl

theorem exists_witnessMerkleRoot_eq_ok (coinbase : Transaction) (rest : List Transaction) :
    ∃ root, witnessMerkleRoot (coinbase :: rest) = .ok root :=
  Merkle.exists_root_eq_ok (List.cons_ne_nil _ _)

/-- Once there are a commitment and a reserved value, the root of the witness digests is all that is
checked: first whether it can be trusted, then whether it is the one that was committed to. -/
theorem checkWitnessCommitment_of_commitment {commitment : Hash256} {reserved : Bytes}
    {root : Merkle.Root} (hcommitment : coinbase.witnessCommitment? = some commitment)
    (hreserved : coinbase.reservedValue? = some reserved)
    (hroot : witnessMerkleRoot (coinbase :: rest) = .ok root) :
    (Block.mk header (coinbase :: rest)).checkWitnessCommitment =
      if root.malleated then .error .merkleMalleated
      else if witnessCommitment root.hash reserved ≠ commitment then
        .error .witnessCommitmentMismatch
      else .ok () := by
  simp only [checkWitnessCommitment, hcommitment, hreserved, hroot]
  rfl

/-- Take any transactions, the first of which has a single item of 32 octets as the witness of its
first input. One more output of the first transaction commits to the root of their witness digests
and to this item. Then the block passes the check if the root can be trusted, and is refused as
malleated otherwise. -/
theorem checkWitnessCommitment_of_withCommitment {i : Input} {is : List Input} {reserved : Bytes}
    (hinputs : coinbase.inputs = i :: is) (hwitness : i.witness = ⟨[reserved]⟩)
    (hlength : reserved.length = 32) (header : Header) (rest : List Transaction) (value : UInt64)
    (extra : Bytes) :
    ∃ root committed, witnessMerkleRoot (coinbase :: rest) = .ok root ∧
      coinbase.withCommitment root.hash reserved value extra = .ok committed ∧
      (Block.mk header (committed :: rest)).checkWitnessCommitment =
        if root.malleated then .error .merkleMalleated else .ok () := by
  obtain ⟨root, hroot⟩ := exists_witnessMerkleRoot_eq_ok coinbase rest
  obtain ⟨committed, hcommitted⟩ : ∃ committed,
      coinbase.withCommitment root.hash reserved value extra = .ok committed :=
    Transaction.exists_ofParts_eq_ok (hinputs ▸ List.cons_ne_nil i is) _ _ _
  refine ⟨root, committed, hroot, hcommitted, ?_⟩
  obtain ⟨-, hsame, houtputs, -⟩ := Transaction.ofParts_eq_ok_iff.mp hcommitted
  have hcommitment : committed.witnessCommitment? = some (witnessCommitment root.hash reserved) :=
    Transaction.witnessCommitment?_of_last houtputs
  have hreserved : committed.reservedValue? = some reserved :=
    Transaction.reservedValue?_eq_some_iff.mpr ⟨i, is, hsame.trans hinputs, hwitness, hlength⟩
  rw [witnessMerkleRoot_cons coinbase committed] at hroot
  rw [checkWitnessCommitment_of_commitment hcommitment hreserved hroot]
  simp only [ne_eq, not_true_eq_false, if_false]

/-- A coinbase that commits to no other transaction, under the reserved value zero. -/
def soleCoinbase : Transaction where
  version := 1
  inputs := [⟨.null, ⟨[]⟩, Input.finalSequence, ⟨[List.replicate 32 0]⟩⟩]
  outputs := [⟨0, ⟨witnessCommitmentTag ++
    ((witnessCommitment .zero (List.replicate 32 0)).bytes ++ [])⟩⟩]
  locktime := 0
  funded := by simp

/-- A coinbase that commits to nothing but itself is made to commit to a payment as well; the older
output does not count any more. Above three times the same payment the tree is malleated. -/
theorem checkWitnessCommitment_of_withCommitment_payment :
    (∃ root committed, witnessMerkleRoot [soleCoinbase, .payment] = .ok root ∧
      soleCoinbase.withCommitment root.hash (List.replicate 32 0) 7 [0xff] = .ok committed ∧
      (Block.mk ⟨2, .zero, .zero, 0, 0x207fffff, 0⟩ [committed, .payment]).checkWitnessCommitment =
        .ok ()) ∧
    ∃ root committed,
      witnessMerkleRoot [soleCoinbase, .payment, .payment, .payment] = .ok root ∧
      soleCoinbase.withCommitment root.hash (List.replicate 32 0) 7 [0xff] = .ok committed ∧
      (Block.mk ⟨2, .zero, .zero, 0, 0x207fffff, 0⟩
        [committed, .payment, .payment, .payment]).checkWitnessCommitment =
          .error .merkleMalleated := by
  have hinputs : soleCoinbase.inputs =
      [⟨.null, ⟨[]⟩, Input.finalSequence, ⟨[List.replicate 32 0]⟩⟩] := rfl
  have hlength : (List.replicate 32 (0 : UInt8)).length = 32 := List.length_replicate
  constructor
  · obtain ⟨root, committed, hroot, hcommitted, hcheck⟩ :=
      checkWitnessCommitment_of_withCommitment hinputs rfl hlength
        ⟨2, .zero, .zero, 0, 0x207fffff, 0⟩ [.payment] 7 [0xff]
    have hne : Hash256.zero ≠ Transaction.payment.wtxid := by decide +kernel
    have hclean : root.malleated = false := by
      have hpair := hroot
      rw [witnessMerkleRoot, witnessLeaves, List.map_singleton, Merkle.root_pair,
        decide_eq_false hne] at hpair
      exact (congrArg Merkle.Root.malleated (Except.ok.inj hpair)).symm
    rw [hclean, if_neg Bool.false_ne_true] at hcheck
    exact ⟨root, committed, hroot, hcommitted, hcheck⟩
  · obtain ⟨root, committed, hroot, hcommitted, hcheck⟩ :=
      checkWitnessCommitment_of_withCommitment hinputs rfl hlength
        ⟨2, .zero, .zero, 0, 0x207fffff, 0⟩ [.payment, .payment, .payment] 7 [0xff]
    have hmalleated : root.malleated = true := by
      apply Merkle.malleated_of_hasTwins hroot
      simp [witnessLeaves, Merkle.hasTwins]
    rw [hmalleated, if_pos rfl] at hcheck
    exact ⟨root, committed, hroot, hcommitted, hcheck⟩

end Block

end LightClient
