import LightClient.Proofs.Inclusion.Completeness

/-!
# Witnesses have no influence on proofs

A proof is made of what a source says about a block, and of a transaction without its witnesses.
Sources that serve the same transaction with different witnesses, or with none, therefore lead to
the same proof, or to the same refusal.
-/

namespace LightClient

open Guards

namespace ChainSource

/-- Two answers to the question for a transaction say the same, or differ in nothing but the
witnesses of the transaction. -/
inductive SameUpToWitnesses : Except Error String → Except Error String → Prop where
  /-- The same answer, be it a text or a failure. -/
  | same (answer : Except Error String) : SameUpToWitnesses answer answer
  /-- Texts of two transactions that are the same without their witnesses. -/
  | texts {text text' : String} {tx tx' : Transaction} (htext : Wire.parseHex text = .ok tx)
    (htext' : Wire.parseHex text' = .ok tx') (hstripped : tx.stripped = tx'.stripped) :
    SameUpToWitnesses (.ok text) (.ok text')

/-- Asked for a transaction and about a block, two sources answer alike, but for the witnesses of
the transaction. -/
structure AgreesUpToWitnesses (s t : ChainSource) (txid : Hash256) (block : BlockRef) : Prop where
  rawTransaction : SameUpToWitnesses (s.rawTransaction txid) (t.rawTransaction txid)
  blockHeader_eq : s.blockHeader block = t.blockHeader block
  blockTxids_eq : s.blockTxids block = t.blockTxids block

/-- A transaction that can be read is served if it has the id that was asked for. -/
theorem transaction_of_parseHex {source : ChainSource} {txid : Hash256} {text : String}
    {tx : Transaction} (hraw : source.rawTransaction txid = .ok text)
    (htext : Wire.parseHex text = .ok tx) :
    source.transaction txid = if tx.txid ≠ txid then .error .wrongTxId else .ok tx := by
  have htransaction : source.transaction txid =
      (Wire.parseHex text >>= fun tx : Transaction =>
        if tx.txid ≠ txid then .error .wrongTxId else .ok tx) := by
    rw [transaction, hraw]
    rfl
  rw [htransaction, htext]
  rfl

variable {s t : ChainSource} {txid : Hash256} {block : BlockRef}

/-- What is served by sources that agree up to witnesses is the same without witnesses. -/
theorem AgreesUpToWitnesses.map_stripped_transaction (h : s.AgreesUpToWitnesses t txid block) :
    (s.transaction txid).map Transaction.stripped =
      (t.transaction txid).map Transaction.stripped := by
  generalize hs : s.rawTransaction txid = answer
  generalize ht : t.rawTransaction txid = answer'
  have hanswers := h.rawTransaction
  rw [hs, ht] at hanswers
  cases hanswers with
  | same =>
    rw [transaction, transaction, hs, ht]
  | @texts text text' tx tx' htext htext' hstripped =>
    have htxid : tx.txid = tx'.txid := by
      rw [← Transaction.txid_stripped, hstripped, Transaction.txid_stripped]
    rw [transaction_of_parseHex hs htext, transaction_of_parseHex ht htext', htxid]
    by_cases hwrong : tx'.txid ≠ txid
    · rw [if_pos hwrong, if_pos hwrong]
    · rw [if_neg hwrong, if_neg hwrong]
      exact congrArg Except.ok hstripped

/-- The header of a block depends on what is reported of it only. -/
theorem AgreesUpToWitnesses.header_eq (h : s.AgreesUpToWitnesses t txid block) :
    s.header block = t.header block := by
  rw [header, header, h.blockHeader_eq]

end ChainSource

namespace InclusionProof

/-- The header and the branch that go into a proof. The transaction has no part in them. -/
def evidence (config : Config) (source : ChainSource) (txid : Hash256) (block : BlockRef) :
    Except Error (ConfirmingHeader × Merkle.Branch) := do
  let header ← source.header block
  if config.checkHeaderWork then checkWork header.raw
  let txids ← source.blockTxids block
  let branch ← locate txids txid header.merkleRoot
  return (header, branch)

/-- A proof is put together from a transaction without its witnesses and what does not depend on the
transaction. -/
theorem assemble_eq (config : Config) (source : ChainSource) (txid : Hash256) (block : BlockRef) :
    assemble config source txid block =
      (source.transaction txid).map Transaction.stripped >>= fun tx =>
        evidence config source txid block >>= fun e => pure (ofParts tx e.1 e.2) := by
  unfold assemble
  cases source.transaction txid with
  | error e => rfl
  | ok tx =>
    have hofParts (e : ConfirmingHeader × Merkle.Branch) :
        ofParts tx.stripped e.1 e.2 = ofParts tx e.1 e.2 :=
      ofParts_eq_of_stripped_eq tx.stripped_stripped e.1 e.2
    show _ = evidence config source txid block >>= fun e => pure (ofParts tx.stripped e.1 e.2)
    by_cases hwork : config.checkHeaderWork = true
    · simp only [hofParts, evidence, if_pos hwork, Transaction.inputVector_eq,
        Transaction.outputVector_eq, bind_assoc]
      rfl
    · simp only [hofParts, evidence, if_neg hwork, Transaction.inputVector_eq,
        Transaction.outputVector_eq, bind_assoc]
      rfl

/-- Sources that agree up to witnesses lead to the same proof, or to the same refusal. -/
theorem assemble_eq_of_agreesUpToWitnesses {s t : ChainSource} {txid : Hash256}
    {block : BlockRef} (h : s.AgreesUpToWitnesses t txid block) (config : Config) :
    assemble config s txid block = assemble config t txid block := by
  have hevidence : evidence config s txid block = evidence config t txid block := by
    rw [evidence, evidence, h.header_eq, h.blockTxids_eq]
  rw [assemble_eq, assemble_eq, h.map_stripped_transaction, hevidence]

/-- A payment is served with its witness by one source and without it by another; the proof is the
same. -/
theorem assemble_eq_of_agreesUpToWitnesses_payment :
    ChainSource.AgreesUpToWitnesses (.sole .payment) (.sole Transaction.payment.stripped)
        Transaction.payment.txid (.height 100) ∧
      Transaction.payment.hasWitness = true ∧ Transaction.payment.stripped.hasWitness = false ∧
      ∃ proof,
        assemble .forTesting (.sole .payment) Transaction.payment.txid (.height 100) =
            .ok proof ∧
          assemble .forTesting (.sole Transaction.payment.stripped) Transaction.payment.txid
            (.height 100) = .ok proof := by
  have hagrees : ChainSource.AgreesUpToWitnesses (.sole .payment)
      (.sole Transaction.payment.stripped) Transaction.payment.txid (.height 100) := by
    refine ⟨.texts (Transaction.parseHex_encode Transaction.payment_fits)
      (Transaction.parseHex_encode Transaction.payment_fits.stripped)
      (Transaction.stripped_stripped _).symm, ?_, ?_⟩
    · simp only [ChainSource.sole, Transaction.soleHeader, Transaction.txid_stripped]
    · simp only [ChainSource.sole, Transaction.txid_stripped]
  have hproof := assemble_sole Transaction.payment_fits
  exact ⟨hagrees, by decide, Transaction.hasWitness_stripped _, _, hproof,
    (assemble_eq_of_agreesUpToWitnesses hagrees .forTesting).symm.trans hproof⟩

end InclusionProof

end LightClient
