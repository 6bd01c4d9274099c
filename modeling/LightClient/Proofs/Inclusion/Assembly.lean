import LightClient.Block.Basic
import LightClient.Inclusion.Assembly
import LightClient.Proofs.Header
import LightClient.Proofs.Inclusion.Record
import LightClient.Proofs.Merkle.Completeness
import LightClient.Proofs.Merkle.Encoding
import LightClient.Proofs.Transaction.Vectors

/-!
# Assembled proofs are valid

Assembling a proof and checking one are two separate chains of checks. They meet at the parts of the
proof: whatever the source answers, the parts of an assembled proof pass the checks. The one thing
that a source can serve and that a valid proof cannot hold is a transaction without inputs or
without outputs, since a vector that is read must hold at least one element.
-/

namespace LightClient

open Guards

/-! ## What a source must have answered -/

namespace ChainSource

variable {source : ChainSource}

theorem transaction_eq_ok_iff {txid : Hash256} {tx : Transaction} :
    source.transaction txid = .ok tx ↔
      ∃ text, source.rawTransaction txid = .ok text ∧ Wire.parseHex text = .ok tx ∧
        tx.txid = txid := by
  simp only [transaction, bind_eq_ok_iff, refuse_eq_ok_iff, pure_eq_ok_iff, ne_eq,
    Decidable.not_not]
  constructor
  · rintro ⟨text, htext, tx', hparse, htxid, rfl⟩
    exact ⟨text, htext, hparse, htxid⟩
  · rintro ⟨text, htext, hparse, htxid⟩
    exact ⟨text, htext, tx, hparse, htxid, rfl⟩

/-- The transaction that a source serves fits, since it was read. -/
theorem fits_of_transaction_eq_ok {txid : Hash256} {tx : Transaction}
    (hok : source.transaction txid = .ok tx) : tx.Fits := by
  obtain ⟨text, _, hparse, _⟩ := transaction_eq_ok_iff.mp hok
  obtain ⟨bs, _, hparse⟩ := bind_eq_ok_iff.mp hparse
  exact Transaction.fits_of_parse_eq_ok hparse

theorem header_eq_ok_iff {block : BlockRef} {header : ConfirmingHeader} :
    source.header block = .ok header ↔
      ∃ report, source.blockHeader block = .ok report ∧
        header = .ofRaw report.raw report.height ∧ header.hash = report.hash ∧
        header.merkleRoot = report.merkleRoot ∧ header.prevHash = report.prevBlock := by
  simp only [ChainSource.header, bind_eq_ok_iff, refuse_eq_ok_iff, pure_eq_ok_iff, ne_eq,
    Decidable.not_not]
  constructor
  · rintro ⟨report, hreport, hhash, hroot, hprev, rfl⟩
    exact ⟨report, hreport, rfl, hhash, hroot, hprev⟩
  · rintro ⟨report, hreport, rfl, hhash, hroot, hprev⟩
    exact ⟨report, hreport, hhash, hroot, hprev, rfl⟩

end ChainSource

/-! ## A source with one transaction -/

namespace Transaction

/-- The transaction without inputs and without outputs. -/
def coinless : Transaction :=
  ⟨1, [], [], 0, fun _ => rfl⟩

/-- The header of a block with a single transaction, whose id then is the Merkle root. -/
def soleHeader (tx : Transaction) : Header :=
  ⟨2, .zero, tx.txid, 0, 0x207fffff, 0⟩

end Transaction

namespace ChainSource

/-- A source with one block, at height 100, which holds one transaction. -/
def sole (tx : Transaction) : ChainSource where
  rawTransaction _ := .ok (Hex.encode (Wire.bytes tx))
  blockHeader _ := .ok ⟨tx.soleHeader.raw.hash, 100, .zero, tx.txid, tx.soleHeader.raw⟩
  blockTxids _ := .ok [tx.txid]

theorem transaction_sole {tx : Transaction} (hfits : tx.Fits) :
    (sole tx).transaction tx.txid = .ok tx :=
  transaction_eq_ok_iff.mpr ⟨_, rfl, Transaction.parseHex_encode hfits, rfl⟩

theorem header_sole (tx : Transaction) (block : BlockRef) :
    (sole tx).header block = .ok (.ofRaw tx.soleHeader.raw 100) :=
  header_eq_ok_iff.mpr
    ⟨_, rfl, rfl, rfl, tx.soleHeader.raw_merkleRoot, tx.soleHeader.raw_prevBlock⟩

end ChainSource

/-! ## A source with one block -/

namespace Transaction

/-- A transaction without a witness that spends the output of the payment. -/
def refund : Transaction where
  version := 2
  inputs := [⟨⟨payment.txid, 0⟩, ⟨[0x51]⟩, Input.finalSequence, .empty⟩]
  outputs := [⟨4, ⟨[0x51]⟩⟩]
  locktime := 0
  funded := by simp

theorem refund_fits : refund.Fits := by
  constructor <;> simp [refund, Input.Fits, Output.Fits, Script.Fits, Witness.empty_fits]

end Transaction

/-- A block of the payment and the refund, with a nonce for which the header meets its target. -/
def Block.ofRefund : Block :=
  ⟨⟨2, .zero, Merkle.node Transaction.payment.txid Transaction.refund.txid, 0, 0x207fffff, 6⟩,
    [.payment, .refund]⟩

theorem Block.txids_ofRefund :
    Block.ofRefund.txids = [Transaction.payment.txid, Transaction.refund.txid] :=
  rfl

theorem Block.refund_mem_ofRefund : Transaction.refund.txid ∈ Block.ofRefund.txids :=
  List.mem_cons_of_mem _ List.mem_cons_self

theorem Transaction.txid_payment_ne_refund : payment.txid ≠ refund.txid := by
  decide +kernel

theorem Block.root_ofRefund :
    Merkle.root Block.ofRefund.txids = .ok ⟨Block.ofRefund.header.merkleRoot, false⟩ := by
  rw [txids_ofRefund, Merkle.root_pair, decide_eq_false Transaction.txid_payment_ne_refund]
  rfl

theorem Block.meetsTarget_ofRefund : Block.ofRefund.header.meetsTarget = .ok true := by
  have htarget : Target.ofCompact 0x207fffff = .ok (.ofNat (0x7fffff * 256 ^ 29)) := rfl
  have hmet : Block.ofRefund.header.raw.hash.toNat ≤ 0x7fffff * 256 ^ 29 := by decide +kernel
  rw [← Header.raw_meetsTarget, RawHeader.meetsTarget_eq_ok_true_iff]
  exact ⟨_, htarget, hmet⟩

namespace ChainSource

/-- A source that answers truthfully about one block, whatever block it is asked about. -/
def ofBlock (b : Block) (height : UInt32) : ChainSource where
  rawTransaction txid :=
    match b.transactions.find? (·.txid = txid) with
    | some tx => .ok (Hex.encode (Wire.bytes tx))
    | none => .error (.source "no such transaction")
  blockHeader _ :=
    .ok ⟨b.header.hash, height, b.header.prevBlock, b.header.merkleRoot, b.header.raw⟩
  blockTxids _ := .ok b.txids

theorem header_ofBlock (b : Block) (height : UInt32) (block : BlockRef) :
    (ofBlock b height).header block = .ok (.ofRaw b.header.raw height) :=
  header_eq_ok_iff.mpr ⟨_, rfl, rfl, rfl, b.header.raw_merkleRoot, b.header.raw_prevBlock⟩

theorem transaction_ofRefund :
    (ofBlock .ofRefund 100).transaction Transaction.refund.txid = .ok Transaction.refund := by
  have hraw : (ofBlock .ofRefund 100).rawTransaction Transaction.refund.txid =
      .ok (Hex.encode (Wire.bytes Transaction.refund)) := by
    simp [ofBlock, Block.ofRefund, Transaction.txid_payment_ne_refund]
  exact transaction_eq_ok_iff.mpr
    ⟨_, hraw, Transaction.parseHex_encode Transaction.refund_fits, rfl⟩

end ChainSource

namespace InclusionProof

/-! ## Location and assembly -/

/-- A transaction is located where its id stands first, under the root in the header. -/
theorem locate_eq_ok_iff {txids : List Hash256} {txid merkleRoot : Hash256} {b : Merkle.Branch} :
    locate txids txid merkleRoot = .ok b ↔
      ∃ index root, txids.findIdx? (· = txid) = some index ∧ Merkle.root txids = .ok root ∧
        root.malleated = false ∧ root.hash = merkleRoot ∧ Merkle.branch txids index = .ok b := by
  unfold locate
  cases txids.findIdx? (· = txid) with
  | none =>
    constructor
    · intro hok
      cases hok
    · rintro ⟨index, root, hindex, _⟩
      cases hindex
  | some index =>
    simp only [bind_eq_ok_iff, refuse_eq_ok_iff, pure_eq_ok_iff, ne_eq, Decidable.not_not,
      Bool.not_eq_true]
    constructor
    · rintro ⟨_, rfl, root, hroot, hmalleated, hhash, hbranch⟩
      exact ⟨index, root, rfl, hroot, hmalleated, hhash, hbranch⟩
    · rintro ⟨_, root, hindex, hroot, hmalleated, hhash, hbranch⟩
      obtain rfl := Option.some.inj hindex
      exact ⟨index, rfl, root, hroot, hmalleated, hhash, hbranch⟩

/-- The branch that locates an id leads from it to the root. -/
theorem verifies_of_locate_eq_ok {txids : List Hash256} {txid merkleRoot : Hash256}
    {b : Merkle.Branch} (hlength : txids.length ≤ 2 ^ 64)
    (hok : locate txids txid merkleRoot = .ok b) : b.verifies txid merkleRoot = .ok true := by
  obtain ⟨index, root, hindex, hroot, _, rfl, hbranch⟩ := locate_eq_ok_iff.mp hok
  obtain ⟨hlt, htxid, _⟩ := List.findIdx?_eq_some_iff_getElem.mp hindex
  have hleaf : txids[index]? = some txid := by
    rw [List.getElem?_eq_getElem hlt, of_decide_eq_true htxid]
  exact Merkle.verifies_of_branch_eq_ok hlength hroot hleaf hbranch

/-- An id is located where it stands first. -/
theorem exists_locate_eq_ok {txids : List Hash256} {txid : Hash256} {root : Merkle.Root}
    (hlength : txids.length ≤ 2 ^ 64) (hroot : Merkle.root txids = .ok root)
    (hunmalleated : root.malleated = false) (hmem : txid ∈ txids) :
    ∃ branch, locate txids txid root.hash = .ok branch ∧
      branch.index.toNat = txids.idxOf txid ∧ branch.depth = Merkle.height txids := by
  have hfirst : txids.findIdx? (· = txid) = some (txids.idxOf txid) :=
    List.findIdx?_eq_some_of_exists ⟨txid, hmem, decide_eq_true rfl⟩
  obtain ⟨branch, hbranch, hindex, hnodes⟩ :=
    Merkle.exists_branch_eq_ok hlength (List.idxOf_lt_length_of_mem hmem)
  have hdepth : branch.depth = Merkle.height txids := by
    rw [Merkle.Branch.depth, hnodes, Merkle.length_siblings]
  exact ⟨branch, locate_eq_ok_iff.mpr ⟨_, root, hfirst, hroot, hunmalleated, rfl, hbranch⟩, hindex,
    hdepth⟩

/-- The proof that is assembled from a transaction, a header and a branch. -/
def ofParts (tx : Transaction) (header : ConfirmingHeader) (b : Merkle.Branch) :
    InclusionProof where
  version := tx.version
  vin := Wire.listBytes tx.inputs
  vout := Wire.listBytes tx.outputs
  locktime := tx.locktime
  txid := tx.txid
  txidLe := tx.txid
  index := b.index
  header := header
  siblings := b.bytes

theorem assemble_eq_ok_iff {config : Config} {source : ChainSource} {txid : Hash256}
    {block : BlockRef} {proof : InclusionProof} :
    assemble config source txid block = .ok proof ↔
      ∃ tx header txids b, source.transaction txid = .ok tx ∧ source.header block = .ok header ∧
        (config.checkHeaderWork = true → checkWork header.raw = .ok ()) ∧
        source.blockTxids block = .ok txids ∧ locate txids txid header.merkleRoot = .ok b ∧
        proof = ofParts tx header b := by
  simp only [assemble, bind_eq_ok_iff, check_when_eq_ok_iff, pure_eq_ok_iff,
    Transaction.inputVector_eq, Transaction.outputVector_eq]
  constructor
  · rintro ⟨tx, htx, header, hheader, hwork, txids, htxids, b, hlocate, vin, hvin, vout, hvout,
      rfl⟩
    obtain rfl := Except.ok.inj hvin
    obtain rfl := Except.ok.inj hvout
    exact ⟨tx, header, txids, b, htx, hheader, hwork, htxids, hlocate, rfl⟩
  · rintro ⟨tx, header, txids, b, htx, hheader, hwork, htxids, hlocate, rfl⟩
    exact ⟨tx, htx, header, hheader, hwork, txids, htxids, b, hlocate, _, rfl, _, rfl, rfl⟩

/-- Whatever transaction the one block holds, a proof that it does is assembled. -/
theorem assemble_sole {tx : Transaction} (hfits : tx.Fits) :
    assemble .forTesting (.sole tx) tx.txid (.height 100) =
      .ok (ofParts tx (.ofRaw tx.soleHeader.raw 100) ⟨[], 0⟩) := by
  have hlocate :
      locate [tx.txid] tx.txid (ConfirmingHeader.ofRaw tx.soleHeader.raw 100).merkleRoot =
        .ok ⟨[], 0⟩ := by
    refine locate_eq_ok_iff.mpr ⟨0, ⟨tx.txid, false⟩, by simp, ?_, rfl, ?_, ?_⟩
    · simp [Merkle.root_eq_ok_iff, Merkle.rootAbove?]
    · exact tx.soleHeader.raw_merkleRoot.symm
    · simp [Merkle.branch, Merkle.siblings]
  have hwork : Config.forTesting.checkHeaderWork = true →
      checkWork (ConfirmingHeader.ofRaw tx.soleHeader.raw 100).raw = .ok () := by
    intro hcheck
    cases hcheck
  exact assemble_eq_ok_iff.mpr ⟨tx, _, [tx.txid], _, ChainSource.transaction_sole hfits,
    ChainSource.header_sole tx _, hwork, rfl, hlocate, rfl⟩

/-- The refund is proved to be in its block, work included. -/
theorem exists_assemble_ofRefund :
    ∃ proof, assemble (.forNetwork .regtest) (.ofBlock .ofRefund 100) Transaction.refund.txid
      (.height 100) = .ok proof := by
  obtain ⟨branch, hlocate, -, -⟩ :=
    exists_locate_eq_ok (by decide) Block.root_ofRefund rfl Block.refund_mem_ofRefund
  have hwork : checkWork (ConfirmingHeader.ofRaw Block.ofRefund.header.raw 100).raw = .ok () := by
    rw [checkWork_eq_ok_iff]
    exact (Header.raw_meetsTarget _).trans Block.meetsTarget_ofRefund
  rw [← Block.ofRefund.header.raw_merkleRoot] at hlocate
  exact ⟨_, assemble_eq_ok_iff.mpr ⟨_, _, _, branch, ChainSource.transaction_ofRefund,
    ChainSource.header_ofBlock _ _ _, fun _ => hwork, rfl, hlocate, rfl⟩⟩

/-! ## The checks of an assembled proof -/

theorem computedTxid_ofParts (tx : Transaction) (header : ConfirmingHeader) (b : Merkle.Branch) :
    (ofParts tx header b).computedTxid = tx.txid :=
  (Transaction.txid_eq tx).symm

theorem branch_ofParts (tx : Transaction) (header : ConfirmingHeader) (b : Merkle.Branch) :
    (ofParts tx header b).branch = .ok b :=
  Merkle.Branch.ofBytes_eq_ok_iff.mpr ⟨rfl, rfl⟩

/-- An assembled proof is valid, unless the transaction has no inputs or no outputs: then it is
refused for the vector that is empty. A block has at most 2^64 transactions, or the index of one
could not be written. -/
theorem validateWith_of_assemble_eq_ok {config : Config} {source : ChainSource} {txid : Hash256}
    {block : BlockRef} {proof : InclusionProof}
    (hlength : ∀ txids, source.blockTxids block = .ok txids → txids.length ≤ 2 ^ 64)
    (hproof : assemble config source txid block = .ok proof) :
    ∃ tx, source.transaction txid = .ok tx ∧
      proof.validateWith config =
        if tx.inputs = [] then .error .invalidVin
        else if tx.outputs = [] then .error .invalidVout
        else .ok () := by
  obtain ⟨tx, header, txids, b, htx, hheader, hwork, htxids, hlocate, rfl⟩ :=
    assemble_eq_ok_iff.mp hproof
  refine ⟨tx, htx, ?_⟩
  have hfits := ChainSource.fits_of_transaction_eq_ok htx
  have hvin := Transaction.parseInputs_listBytes hfits
  have hvout := Transaction.parseOutputs_listBytes hfits
  by_cases hinputs : tx.inputs = []
  · rw [if_pos hinputs] at hvin ⊢
    exact validateWith_of_parseInputs_eq_error hvin
  · rw [if_neg hinputs] at hvin ⊢
    by_cases houtputs : tx.outputs = []
    · rw [if_pos houtputs] at hvout ⊢
      exact validateWith_of_parseOutputs_eq_error hvin hvout
    · rw [if_neg houtputs] at hvout ⊢
      obtain ⟨_, _, _, htxid⟩ := ChainSource.transaction_eq_ok_iff.mp htx
      obtain ⟨report, _, rfl, _⟩ := ChainSource.header_eq_ok_iff.mp hheader
      have hverifies := verifies_of_locate_eq_ok (hlength txids htxids) hlocate
      rw [← htxid] at hverifies
      exact validateWith_eq_ok_iff.mpr ⟨⟨_, hvin⟩, ⟨_, hvout⟩, rfl, computedTxid_ofParts _ _ b,
        ConfirmingHeader.validate_ofRaw _ _, hwork, b, branch_ofParts _ _ b, hverifies⟩

/-- The proof that is assembled for the refund is valid, with the work of the header checked. -/
theorem validateWith_of_assemble_refund :
    (∀ txids, (ChainSource.ofBlock .ofRefund 100).blockTxids (.height 100) = .ok txids →
      txids.length ≤ 2 ^ 64) ∧
    ∃ proof,
      assemble (.forNetwork .regtest) (.ofBlock .ofRefund 100) Transaction.refund.txid
        (.height 100) = .ok proof ∧
      proof.validateWith (.forNetwork .regtest) = .ok () := by
  have hlength : ∀ txids, (ChainSource.ofBlock .ofRefund 100).blockTxids (.height 100) =
      .ok txids → txids.length ≤ 2 ^ 64 := by
    intro txids htxids
    obtain rfl := Except.ok.inj htxids
    decide
  obtain ⟨proof, hproof⟩ := exists_assemble_ofRefund
  obtain ⟨tx, htx, hvalid⟩ := validateWith_of_assemble_eq_ok hlength hproof
  rw [ChainSource.transaction_ofRefund] at htx
  obtain rfl := Except.ok.inj htx
  exact ⟨hlength, proof, hproof, hvalid⟩

/-- A proof is assembled for a transaction without inputs, and refused when it is checked. -/
theorem assemble_coinless_not_valid :
    ∃ proof,
      assemble .forTesting (.sole .coinless) Transaction.coinless.txid (.height 100) = .ok proof ∧
      proof.validateWith .forTesting = .error .invalidVin := by
  have hfits : Transaction.coinless.Fits := by
    constructor <;> simp [Transaction.coinless]
  exact ⟨_, assemble_sole hfits,
    validateWith_of_parseInputs_eq_error (Transaction.parseInputs_listBytes hfits)⟩

end InclusionProof

end LightClient
