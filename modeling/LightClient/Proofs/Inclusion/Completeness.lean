import LightClient.Block.Basic
import LightClient.Proofs.Inclusion.Acceptance
import LightClient.Proofs.Inclusion.Assembly
import LightClient.Proofs.Transaction.Digests

/-!
# Proofs from honest sources

A source that answers truthfully about a block makes assembly succeed for every transaction of the
block, and the proof is accepted. What the source answers about a transaction may have its witnesses
or not, since they have no place in a proof. The block itself must have an unmalleated root of its
ids in the header, and no transaction that lacks inputs or outputs.
-/

namespace LightClient

open Guards

/-! ## Honest answers -/

/-- A text is a transaction in hexadecimal, with its witnesses or without them. -/
def Transaction.HasHex (tx : Transaction) (text : String) : Prop :=
  Hex.Spells text (Wire.bytes tx) ∨ Hex.Spells text tx.legacyBytes

/-- What is read from such a text differs from the transaction in nothing but witnesses. -/
theorem Transaction.HasHex.exists_parseHex {tx : Transaction} {text : String}
    (htext : tx.HasHex text) (hfits : tx.Fits) :
    ∃ served : Transaction, Wire.parseHex text = .ok served ∧ served.stripped = tx.stripped := by
  rcases htext with hspells | hspells
  · exact ⟨tx, parseHex_of_spells hfits hspells, rfl⟩
  · rw [← bytes_stripped] at hspells
    exact ⟨tx.stripped, parseHex_of_spells hfits.stripped hspells, stripped_stripped tx⟩

namespace ChainSource

/-- A source answers truthfully about a block at a height: for each id with a transaction that has
it, with the header and its fields, and with the ids in order. -/
structure Honest (source : ChainSource) (b : Block) (height : UInt32) (block : BlockRef) :
    Prop where
  rawTransaction : ∀ txid ∈ b.txids, ∃ tx ∈ b.transactions, tx.txid = txid ∧
    ∃ text, source.rawTransaction txid = .ok text ∧ tx.HasHex text
  blockHeader_eq : source.blockHeader block =
    .ok ⟨b.header.hash, height, b.header.prevBlock, b.header.merkleRoot, b.header.raw⟩
  blockTxids_eq : source.blockTxids block = .ok b.txids

variable {source : ChainSource} {b : Block} {height : UInt32} {block : BlockRef}

/-- An honest source has a transaction of the block for each id, up to witnesses. -/
theorem Honest.exists_transaction (h : source.Honest b height block)
    (hfits : ∀ tx ∈ b.transactions, tx.Fits) {txid : Hash256} (htxid : txid ∈ b.txids) :
    ∃ tx ∈ b.transactions, tx.txid = txid ∧
      ∃ served, source.transaction txid = .ok served ∧ served.stripped = tx.stripped := by
  obtain ⟨tx, htx, rfl, text, htext, hhex⟩ := h.rawTransaction txid htxid
  obtain ⟨served, hparse, hstripped⟩ := hhex.exists_parseHex (hfits tx htx)
  have hserved : served.txid = tx.txid := by
    rw [← Transaction.txid_stripped, hstripped, Transaction.txid_stripped]
  exact ⟨tx, htx, rfl, served, transaction_eq_ok_iff.mpr ⟨text, htext, hparse, hserved⟩, hstripped⟩

/-- An honest source has the header. -/
theorem Honest.header_eq (h : source.Honest b height block) :
    source.header block = .ok (.ofRaw b.header.raw height) :=
  header_eq_ok_iff.mpr ⟨_, h.blockHeader_eq, rfl, rfl, b.header.raw_merkleRoot,
    b.header.raw_prevBlock⟩

end ChainSource

namespace InclusionProof

/-! ## What is assembled from them -/

/-- Witnesses have no place in a proof. -/
theorem ofParts_eq_of_stripped_eq {served tx : Transaction}
    (hstripped : served.stripped = tx.stripped) (header : ConfirmingHeader)
    (branch : Merkle.Branch) : ofParts served header branch = ofParts tx header branch := by
  have hofParts (tx : Transaction) :
      ofParts tx.stripped header branch = ofParts tx header branch := by
    have hvin : Wire.listBytes tx.stripped.inputs = Wire.listBytes tx.inputs :=
      Input.listBytes_map_stripped tx.inputs
    rw [ofParts, ofParts, hvin, Transaction.txid_stripped]
    rfl
  rw [← hofParts, hstripped, hofParts]

/-- A proof holds its transaction without the witnesses. -/
theorem transaction_ofParts {tx : Transaction} (hfits : tx.Fits) (hinputs : tx.inputs ≠ [])
    (houtputs : tx.outputs ≠ []) (header : ConfirmingHeader) (branch : Merkle.Branch) :
    (ofParts tx header branch).transaction = .ok tx.stripped :=
  Transaction.ofVectors_listBytes hfits hinputs houtputs

/-- For every transaction of a block, an honest source is enough to assemble a proof: it names the
first position of the id, has one sibling for each level of the tree, holds the transaction without
its witnesses, and is accepted under the configuration under which it was assembled. -/
theorem exists_assemble_of_honest {config : Config} {source : ChainSource} {b : Block}
    {height : UInt32} {block : BlockRef} {root : Merkle.Root} {txid : Hash256}
    (hfits : ∀ tx ∈ b.transactions, tx.Fits) (hinputs : ∀ tx ∈ b.transactions, tx.inputs ≠ [])
    (houtputs : ∀ tx ∈ b.transactions, tx.outputs ≠ [])
    (hlength : b.transactions.length ≤ 2 ^ 64) (hroot : Merkle.root b.txids = .ok root)
    (hunmalleated : root.malleated = false) (hheader : b.header.merkleRoot = root.hash)
    (hwork : config.checkHeaderWork = true → b.header.meetsTarget = .ok true)
    (hhonest : source.Honest b height block) (htxid : txid ∈ b.txids) :
    ∃ tx ∈ b.transactions, tx.txid = txid ∧
      ∃ proof, assemble config source txid block = .ok proof ∧
        proof.index.toNat = b.txids.idxOf txid ∧
        proof.siblings.length = 32 * Merkle.height b.txids ∧
        proof.transaction = .ok tx.stripped ∧ tx.stripped.txid = txid ∧
        proof.validateWith config = .ok () := by
  obtain ⟨tx, htx, rfl, served, hserved, hstripped⟩ := hhonest.exists_transaction hfits htxid
  have hcheckWork : config.checkHeaderWork = true → checkWork b.header.raw = .ok () := by
    intro hcheck
    rw [checkWork_eq_ok_iff, b.header.raw_meetsTarget]
    exact hwork hcheck
  have htxidsLength : b.txids.length ≤ 2 ^ 64 := by
    rwa [Block.txids, List.length_map]
  obtain ⟨branch, hlocate, hindex, hdepth⟩ :=
    exists_locate_eq_ok htxidsLength hroot hunmalleated htxid
  rw [← hheader, ← b.header.raw_merkleRoot] at hlocate
  have hproof := assemble_eq_ok_iff.mpr ⟨served, _, _, branch, hserved, hhonest.header_eq,
    hcheckWork, hhonest.blockTxids_eq, hlocate, rfl⟩
  -- The source may have left the witnesses out, so the proof is that of a listed transaction only
  -- because witnesses have no place in it.
  rw [ofParts_eq_of_stripped_eq hstripped] at hproof
  have htransaction := transaction_ofParts (hfits tx htx) (hinputs tx htx) (houtputs tx htx)
    (.ofRaw b.header.raw height) branch
  refine ⟨tx, htx, rfl, _, hproof, hindex, ?_, htransaction, tx.txid_stripped, ?_⟩
  · show branch.bytes.length = 32 * Merkle.height b.txids
    rw [branch.length_bytes, hdepth]
  · obtain ⟨hvin, hvout⟩ := exists_transaction_eq_ok_iff.mp ⟨_, htransaction⟩
    exact validateWith_eq_ok_iff.mpr ⟨hvin, hvout, rfl, computedTxid_ofParts tx _ branch,
      ConfirmingHeader.validate_ofRaw _ _, hcheckWork, branch, branch_ofParts tx _ branch,
      verifies_of_locate_eq_ok htxidsLength hlocate⟩

end InclusionProof

/-! ## A source with one block is honest -/

theorem ChainSource.honest_ofBlock (b : Block) (height : UInt32) (block : BlockRef) :
    (ofBlock b height).Honest b height block where
  rawTransaction := by
    intro txid htxid
    obtain ⟨listed, hlisted, hlistedTxid⟩ := List.mem_map.mp htxid
    cases hfind : b.transactions.find? (·.txid = txid) with
    | none =>
      have hnone := List.find?_eq_none.mp hfind listed hlisted
      exact absurd (decide_eq_true hlistedTxid) hnone
    | some tx =>
      have htx : tx.txid = txid := by simpa using List.find?_some hfind
      refine ⟨tx, List.mem_of_find?_eq_some hfind, htx, Hex.encode (Wire.bytes tx), ?_,
        .inl (Hex.spells_encode _)⟩
      simp only [ofBlock, hfind]
  blockHeader_eq := rfl
  blockTxids_eq := rfl

/-- The refund is proved to be in its block, work included. -/
theorem InclusionProof.exists_assemble_of_honest_refund :
    Merkle.root Block.ofRefund.txids = .ok ⟨Block.ofRefund.header.merkleRoot, false⟩ ∧
      Block.ofRefund.header.meetsTarget = .ok true ∧
      ∃ proof, assemble (.forNetwork .regtest) (.ofBlock .ofRefund 100) Transaction.refund.txid
          (.height 100) = .ok proof ∧
        proof.index.toNat = 1 ∧ proof.siblings.length = 32 ∧
        proof.validateWith (.forNetwork .regtest) = .ok () := by
  have hfits : ∀ tx ∈ Block.ofRefund.transactions, tx.Fits :=
    List.forall_mem_cons.mpr ⟨Transaction.payment_fits,
      List.forall_mem_cons.mpr ⟨Transaction.refund_fits, List.forall_mem_nil _⟩⟩
  obtain ⟨tx, _, _, proof, hproof, hindex, hsiblings, _, _, hvalid⟩ :=
    exists_assemble_of_honest hfits (by decide) (by decide) (by decide) Block.root_ofRefund rfl rfl
      (fun _ => Block.meetsTarget_ofRefund)
      (ChainSource.honest_ofBlock Block.ofRefund 100 (.height 100)) Block.refund_mem_ofRefund
  refine ⟨Block.root_ofRefund, Block.meetsTarget_ofRefund, proof, hproof, ?_, ?_, hvalid⟩
  · rw [hindex, Block.txids_ofRefund]
    simp [List.idxOf_cons, beq_false_of_ne Transaction.txid_payment_ne_refund]
  · rw [hsiblings, Block.txids_ofRefund]
    simp [Merkle.height, Merkle.parents]

end LightClient
