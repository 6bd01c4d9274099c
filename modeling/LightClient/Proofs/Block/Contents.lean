import LightClient.Proofs.Block.Checks
import LightClient.Proofs.Collision
import LightClient.Proofs.Merkle.Uniqueness
import LightClient.Proofs.Transaction.Digests

/-!
# A valid block is pinned to its header

Two commitments are chained. The header commits to the ids, and thereby to all but the witnesses of
the transactions. The outputs of the coinbase are part of that, so the commitment in them is pinned
as well, and with it the reserved value, which is the whole witness of a coinbase with one input,
and the witness digests of all other transactions.
-/

namespace LightClient.Block

open Merkle Hash256

/-! ## What is hashed -/

/-- What is hashed to compare a commitment with witness digests and a reserved value. -/
def commitmentMessages (leaves : List Hash256) (reserved : Bytes) : List Bytes :=
  (hashedPairs leaves).map NodePair.message ++
    (rootAbove? leaves).toList.map fun root => root.hash.bytes ++ reserved

/-- What is hashed to check the witness commitment of a block, if it has one. -/
def witnessMessages (b : Block) : List Bytes :=
  match b.transactions.head? with
  | none => []
  | some coinbase =>
    match coinbase.witnessCommitment?, coinbase.reservedValue? with
    | some _, some reserved => commitmentMessages (witnessLeaves b.transactions) reserved
    | _, _ => []

/-- What is hashed for a block: both serializations of each transaction, the pairs of nodes above
the ids, and what the check of the witness commitment hashes. -/
def messages (b : Block) : List Bytes :=
  b.transactions.flatMap (fun tx => [tx.legacyBytes, Wire.bytes tx]) ++
    (hashedPairs b.txids).map NodePair.message ++ b.witnessMessages

variable {a b : Block}

theorem legacyBytes_mem_messages {tx : Transaction} (htx : tx ∈ b.transactions) :
    tx.legacyBytes ∈ b.messages := by
  refine List.mem_append_left _ (List.mem_append_left _ ?_)
  exact List.mem_flatMap.mpr ⟨tx, htx, by simp⟩

theorem bytes_mem_messages {tx : Transaction} (htx : tx ∈ b.transactions) :
    Wire.bytes tx ∈ b.messages := by
  refine List.mem_append_left _ (List.mem_append_left _ ?_)
  exact List.mem_flatMap.mpr ⟨tx, htx, by simp⟩

theorem message_mem_messages {p : NodePair} (hp : p ∈ hashedPairs b.txids) :
    p.message ∈ b.messages :=
  List.mem_append_left _ (List.mem_append_right _ (List.mem_map_of_mem hp))

/-- A block that commits to its witnesses has the commitment checked. -/
theorem Commits.commitmentMessages_subset {coinbase : Transaction} {root : Root} {reserved : Bytes}
    (h : b.Commits coinbase root reserved) (hcoinbase : b.transactions.head? = some coinbase) :
    ∀ m ∈ commitmentMessages (witnessLeaves b.transactions) reserved, m ∈ b.messages := by
  intro m hm
  refine List.mem_append_right _ ?_
  rw [witnessMessages, hcoinbase]
  simp only [h.witnessCommitment?_eq, h.reservedValue?_eq]
  exact hm

/-! ## The ids -/

/-- Blocks under the same root have the same ids. -/
theorem txids_eq (hcollision : CollisionFree (a.messages ++ b.messages))
    (hroot : a.header.merkleRoot = b.header.merkleRoot)
    (hheight : height a.txids = height b.txids)
    (ha : a.checkMerkleRoot = .ok ()) (hb : b.checkMerkleRoot = .ok ()) : a.txids = b.txids := by
  obtain ⟨r, hr, hrClean, hrHash⟩ := checkMerkleRoot_eq_ok_iff.mp ha
  obtain ⟨s, hs, hsClean, hsHash⟩ := checkMerkleRoot_eq_ok_iff.mp hb
  have hpairs : Merkle.CollisionFree (hashedPairs a.txids ++ hashedPairs b.txids) := by
    apply hcollision.pairs
    intro p hp
    rcases List.mem_append.mp hp with hp | hp
    · exact List.mem_append_left _ (message_mem_messages hp)
    · exact List.mem_append_right _ (message_mem_messages hp)
  have hhash : r.hash = s.hash := by rw [hrHash, hsHash, hroot]
  exact eq_of_rootAbove?_eq (root_eq_ok_iff.mp hr) (root_eq_ok_iff.mp hs) hheight hhash hrClean
    hsClean hpairs

/-- Blocks with the same ids differ in nothing but witnesses. -/
theorem map_stripped_eq (hcollision : CollisionFree (a.messages ++ b.messages))
    (haFits : ∀ tx ∈ a.transactions, tx.Fits) (hbFits : ∀ tx ∈ b.transactions, tx.Fits)
    (htxids : a.txids = b.txids) :
    a.transactions.map Transaction.stripped = b.transactions.map Transaction.stripped := by
  refine hcollision.map_eq (f := Transaction.legacyBytes) ?_ ?_ ?_ htxids
  · exact fun tx htx => List.mem_append_left _ (legacyBytes_mem_messages htx)
  · exact fun tx htx => List.mem_append_right _ (legacyBytes_mem_messages htx)
  · exact fun x hx y hy =>
      Transaction.stripped_eq_of_legacyBytes_eq (haFits x hx) (hbFits y hy)

/-! ## The witnesses -/

theorem witnessLeaves_eq_cons {txs : List Transaction} {coinbase : Transaction}
    (hcoinbase : txs.head? = some coinbase) :
    witnessLeaves txs = .zero :: txs.tail.map Transaction.wtxid := by
  cases txs with
  | nil => simp at hcoinbase
  | cons tx txs => rfl

/-- Equal commitments are to the same root and the same reserved value. -/
theorem eq_of_witnessCommitment_eq {messages : List Bytes} (hcollision : CollisionFree messages)
    {r s : Hash256} {x y : Bytes} (hx : r.bytes ++ x ∈ messages) (hy : s.bytes ++ y ∈ messages)
    (hcommitment : witnessCommitment r x = witnessCommitment s y) : r = s ∧ x = y := by
  rw [witnessCommitment, witnessCommitment, hash256Parts_pair, hash256Parts_pair] at hcommitment
  have hlength : r.bytes.length = s.bytes.length := by
    rw [FixedBytes.length_bytes, FixedBytes.length_bytes]
  obtain ⟨hroot, hreserved⟩ := List.append_inj (hcollision _ hx _ hy hcommitment) hlength
  exact ⟨FixedBytes.ext hroot, hreserved⟩

section Committed

variable {coinbase coinbase' : Transaction} {root root' : Root} {reserved reserved' : Bytes}

/-- Coinbases with the same outputs, in blocks with as many transactions, commit to the same witness
digests and the same reserved value. -/
theorem Commits.leaves_eq (hcollision : CollisionFree (a.messages ++ b.messages))
    (ha : a.Commits coinbase root reserved) (hb : b.Commits coinbase' root' reserved')
    (haHead : a.transactions.head? = some coinbase)
    (hbHead : b.transactions.head? = some coinbase')
    (hlength : a.transactions.length = b.transactions.length)
    (hcommitment : coinbase.witnessCommitment? = coinbase'.witnessCommitment?) :
    witnessLeaves a.transactions = witnessLeaves b.transactions ∧ reserved = reserved' := by
  have haRoot := root_eq_ok_iff.mp ha.witnessMerkleRoot_eq
  have hbRoot := root_eq_ok_iff.mp hb.witnessMerkleRoot_eq
  have haMessages := ha.commitmentMessages_subset haHead
  have hbMessages := hb.commitmentMessages_subset hbHead
  have haMem : root.hash.bytes ++ reserved ∈ a.messages := by
    apply haMessages
    simp [commitmentMessages, haRoot]
  have hbMem : root'.hash.bytes ++ reserved' ∈ b.messages := by
    apply hbMessages
    simp [commitmentMessages, hbRoot]
  rw [ha.witnessCommitment?_eq, hb.witnessCommitment?_eq, Option.some.injEq] at hcommitment
  obtain ⟨hroots, hreserved⟩ := eq_of_witnessCommitment_eq hcollision
    (List.mem_append_left _ haMem) (List.mem_append_right _ hbMem) hcommitment
  have hpairs : Merkle.CollisionFree (hashedPairs (witnessLeaves a.transactions) ++
      hashedPairs (witnessLeaves b.transactions)) := by
    apply hcollision.pairs
    intro p hp
    rcases List.mem_append.mp hp with hp | hp
    · exact List.mem_append_left _
        (haMessages _ (List.mem_append_left _ (List.mem_map_of_mem hp)))
    · exact List.mem_append_right _
        (hbMessages _ (List.mem_append_left _ (List.mem_map_of_mem hp)))
  have hheight : height (witnessLeaves a.transactions) = height (witnessLeaves b.transactions) := by
    apply height_eq_of_length_eq
    rw [witnessLeaves_eq_cons haHead, witnessLeaves_eq_cons hbHead]
    simp [hlength]
  exact ⟨eq_of_rootAbove?_eq haRoot hbRoot hheight hroots ha.unmalleated hb.unmalleated hpairs,
    hreserved⟩

/-- Blocks with the same witness digests have the same transactions behind the coinbase. -/
theorem tail_eq (hcollision : CollisionFree (a.messages ++ b.messages))
    (haFits : ∀ tx ∈ a.transactions, tx.Fits) (hbFits : ∀ tx ∈ b.transactions, tx.Fits)
    (haHead : a.transactions.head? = some coinbase)
    (hbHead : b.transactions.head? = some coinbase')
    (hleaves : witnessLeaves a.transactions = witnessLeaves b.transactions) :
    a.transactions.tail = b.transactions.tail := by
  rw [witnessLeaves_eq_cons haHead, witnessLeaves_eq_cons hbHead] at hleaves
  have hsame : a.transactions.tail.map id = b.transactions.tail.map id := by
    refine hcollision.map_eq (f := Wire.bytes) ?_ ?_ ?_ (List.cons.inj hleaves).2
    · exact fun tx htx =>
        List.mem_append_left _ (bytes_mem_messages (List.mem_of_mem_tail htx))
    · exact fun tx htx =>
        List.mem_append_right _ (bytes_mem_messages (List.mem_of_mem_tail htx))
    · exact fun x hx y hy => Transaction.eq_of_bytes_eq (haFits x (List.mem_of_mem_tail hx))
        (hbFits y (List.mem_of_mem_tail hy))
  simpa using hsame

/-- A coinbase with one input is pinned by what is left without its witness and by its reserved
value. -/
theorem coinbase_eq (hstripped : coinbase.stripped = coinbase'.stripped)
    (hreserved : coinbase.reservedValue? = some reserved)
    (hreserved' : coinbase'.reservedValue? = some reserved)
    (hsole : coinbase.inputs.length = 1) : coinbase = coinbase' := by
  obtain ⟨i, rest, hinputs, hwitness, _⟩ :=
    Transaction.reservedValue?_eq_some_iff.mp hreserved
  obtain ⟨i', rest', hinputs', hwitness', _⟩ :=
    Transaction.reservedValue?_eq_some_iff.mp hreserved'
  have hsole' : coinbase'.inputs.length = 1 := by
    have hlength := congrArg (·.inputs.length) hstripped
    simpa [Transaction.stripped, hsole] using hlength.symm
  have hrest : rest = [] := by simpa [hinputs] using hsole
  have hrest' : rest' = [] := by simpa [hinputs'] using hsole'
  apply Transaction.eq_of_stripped_eq hstripped
  rw [hinputs, hinputs', hrest, hrest', List.map_singleton, List.map_singleton, hwitness,
    hwitness']

end Committed

/-- Two valid blocks under the same Merkle root, with equally high trees of ids, have the same
transactions, witnesses included, if the first transaction of one of them has exactly one input. The
only way around this is a collision among the messages that were hashed. -/
theorem transactions_eq_of_validate (hroot : a.header.merkleRoot = b.header.merkleRoot)
    (hsole : ∀ coinbase, a.transactions.head? = some coinbase → coinbase.inputs.length = 1)
    (hheight : height a.txids = height b.txids)
    (haFits : ∀ tx ∈ a.transactions, tx.Fits) (hbFits : ∀ tx ∈ b.transactions, tx.Fits)
    (ha : a.validate = .ok ()) (hb : b.validate = .ok ())
    (hcollision : CollisionFree (a.messages ++ b.messages)) :
    a.transactions = b.transactions := by
  obtain ⟨haRoot, haWitness⟩ := validate_eq_ok_iff.mp ha
  obtain ⟨hbRoot, hbWitness⟩ := validate_eq_ok_iff.mp hb
  have hstripped := map_stripped_eq hcollision haFits hbFits
    (txids_eq hcollision hroot hheight haRoot hbRoot)
  have hlength : a.transactions.length = b.transactions.length := by
    simpa using congrArg List.length hstripped
  obtain ⟨coinbase, haHead, haCase⟩ := checkWitnessCommitment_eq_ok_iff.mp haWitness
  obtain ⟨coinbase', hbHead, hbCase⟩ := checkWitnessCommitment_eq_ok_iff.mp hbWitness
  have hcoinbase : coinbase.stripped = coinbase'.stripped := by
    have hheads := congrArg List.head? hstripped
    rw [List.head?_map, List.head?_map, haHead, hbHead] at hheads
    exact Option.some.inj hheads
  -- A commitment stands in the outputs, which stripping leaves alone.
  have hcommitment : coinbase.witnessCommitment? = coinbase'.witnessCommitment? := by
    show coinbase.stripped.witnessCommitment? = coinbase'.stripped.witnessCommitment?
    rw [hcoinbase]
  rcases haCase with ⟨hnone, haBare⟩ | ⟨root, reserved, haCommits⟩
  · rcases hbCase with ⟨_, hbBare⟩ | ⟨root', reserved', hbCommits⟩
    · have haSelf := List.map_congr_left fun tx htx => Transaction.stripped_eq_self (haBare tx htx)
      have hbSelf := List.map_congr_left fun tx htx => Transaction.stripped_eq_self (hbBare tx htx)
      rw [haSelf, hbSelf, List.map_id', List.map_id'] at hstripped
      exact hstripped
    · rw [hnone, hbCommits.witnessCommitment?_eq] at hcommitment
      cases hcommitment
  · rcases hbCase with ⟨hnone, _⟩ | ⟨root', reserved', hbCommits⟩
    · rw [hnone, haCommits.witnessCommitment?_eq] at hcommitment
      cases hcommitment
    · obtain ⟨hleaves, rfl⟩ :=
        haCommits.leaves_eq hcollision hbCommits haHead hbHead hlength hcommitment
      have htails := tail_eq hcollision haFits hbFits haHead hbHead hleaves
      have hheads := coinbase_eq hcoinbase haCommits.reservedValue?_eq hbCommits.reservedValue?_eq
        (hsole coinbase haHead)
      obtain ⟨rest, haCons⟩ := List.head?_eq_some_iff.mp haHead
      obtain ⟨rest', hbCons⟩ := List.head?_eq_some_iff.mp hbHead
      rw [haCons, hbCons] at htails ⊢
      exact congrArg₂ List.cons hheads htails

/-! ## A block that commits to a witness -/

/-- A transaction with a witness that spends the output of the payment. -/
def spend : Transaction where
  version := 2
  inputs := [⟨⟨Transaction.payment.txid, 0⟩, ⟨[]⟩, Input.finalSequence, ⟨[[0x07]]⟩⟩]
  outputs := [⟨4, ⟨[0x51]⟩⟩]
  locktime := 0
  funded := by simp

/-- A coinbase that commits to the witness of this transaction, under the reserved value zero. -/
def spendCoinbase : Transaction where
  version := 1
  inputs := [⟨.null, ⟨[]⟩, Input.finalSequence, ⟨[List.replicate 32 0]⟩⟩]
  outputs := [⟨5, ⟨witnessCommitmentTag ++
    ((witnessCommitment (node .zero spend.wtxid) (List.replicate 32 0)).bytes ++ [])⟩⟩]
  locktime := 0
  funded := by simp

/-- A block of the coinbase and the transaction to which it commits. -/
def ofSpend (nonce : UInt32) : Block :=
  ⟨⟨2, .zero, node spendCoinbase.txid spend.txid, 0, 0x207fffff, nonce⟩, [spendCoinbase, spend]⟩

theorem spendCoinbase_witnessCommitment? :
    spendCoinbase.witnessCommitment? =
      some (witnessCommitment (node .zero spend.wtxid) (List.replicate 32 0)) :=
  Transaction.witnessCommitment?_of_last (show spendCoinbase.outputs = [] ++ [_] from rfl)

/-- What is hashed for the block: two transactions twice, a pair of ids, a pair of witness digests,
and their root with the reserved value. -/
def spendMessages : List Bytes := [
  spendCoinbase.legacyBytes, Wire.bytes spendCoinbase, spend.legacyBytes, Wire.bytes spend,
  spendCoinbase.txid.bytes ++ spend.txid.bytes, Hash256.zero.bytes ++ spend.wtxid.bytes,
  (node .zero spend.wtxid).bytes ++ List.replicate 32 0]

theorem messages_ofSpend (nonce : UInt32) : (ofSpend nonce).messages = spendMessages := by
  have hreserved : spendCoinbase.reservedValue? = some (List.replicate 32 0) := rfl
  have hroot := root_eq_ok_iff.mp (root_pair .zero spend.wtxid)
  simp [messages, witnessMessages, commitmentMessages, ofSpend, txids, hashedPairs_pair,
    NodePair.message, witnessLeaves, hroot, spendCoinbase_witnessCommitment?, hreserved,
    spendMessages]

theorem collisionFree_spendMessages : CollisionFree spendMessages := by
  decide +kernel

theorem validate_ofSpend (nonce : UInt32) : (ofSpend nonce).validate = .ok () := by
  have hne : spendCoinbase.txid ≠ spend.txid := by
    intro htxid
    have hlegacy : spendCoinbase.legacyBytes = spend.legacyBytes :=
      collisionFree_spendMessages _ (by simp [spendMessages]) _ (by simp [spendMessages]) htxid
    exact absurd hlegacy (by decide +kernel)
  have hwitness : Hash256.zero ≠ spend.wtxid := by decide +kernel
  have hroot : Merkle.root [spendCoinbase.txid, spend.txid] =
      .ok ⟨node spendCoinbase.txid spend.txid, false⟩ := by
    rw [root_pair, decide_eq_false hne]
  have hwitnessRoot : Merkle.root [.zero, spend.wtxid] = .ok ⟨node .zero spend.wtxid, false⟩ := by
    rw [root_pair, decide_eq_false hwitness]
  have hcommits : (ofSpend nonce).Commits spendCoinbase ⟨node .zero spend.wtxid, false⟩
      (List.replicate 32 0) := ⟨rfl, hwitnessRoot, rfl, spendCoinbase_witnessCommitment?⟩
  exact validate_eq_ok_iff.mpr ⟨checkMerkleRoot_eq_ok_iff.mpr ⟨_, hroot, rfl, rfl⟩,
    checkWitnessCommitment_eq_ok_iff.mpr ⟨_, rfl, .inr ⟨_, _, hcommits⟩⟩⟩

theorem fits_of_mem_ofSpend (nonce : UInt32) : ∀ tx ∈ (ofSpend nonce).transactions, tx.Fits := by
  have hcoinbase : spendCoinbase.Fits := by
    constructor <;> simp [spendCoinbase, Input.Fits, Output.Fits, Script.Fits, Witness.Fits,
      witnessCommitmentTag]
  have hspend : spend.Fits := by
    constructor <;> simp [spend, Input.Fits, Output.Fits, Script.Fits, Witness.Fits]
  exact List.forall_mem_cons.mpr ⟨hcoinbase, List.forall_mem_singleton.mpr hspend⟩

/-- Two blocks of the same transactions that differ in their nonces. -/
theorem transactions_eq_of_validate_ofSpend :
    (ofSpend 0).validate = .ok () ∧ (ofSpend 1).validate = .ok () ∧
      CollisionFree ((ofSpend 0).messages ++ (ofSpend 1).messages) ∧
      (ofSpend 0).transactions = (ofSpend 1).transactions := by
  have hcollision : CollisionFree ((ofSpend 0).messages ++ (ofSpend 1).messages) := by
    rw [messages_ofSpend, messages_ofSpend]
    apply collisionFree_spendMessages.mono
    simp
  have hsole : ∀ coinbase, (ofSpend 0).transactions.head? = some coinbase →
      coinbase.inputs.length = 1 := by
    rintro _ ⟨⟩
    rfl
  exact ⟨validate_ofSpend 0, validate_ofSpend 1, hcollision,
    transactions_eq_of_validate rfl hsole rfl (fits_of_mem_ofSpend 0) (fits_of_mem_ofSpend 1)
      (validate_ofSpend 0) (validate_ofSpend 1) hcollision⟩

end LightClient.Block
