import LightClient.Proofs.ChainParams
import LightClient.Proofs.Inclusion.Acceptance
import LightClient.Proofs.Inclusion.Assembly
import LightClient.Proofs.Target.Rounding

/-!
# The work behind an accepted proof

The header in an accepted proof meets the target that it claims, and whatever it claims is at most
the easiest target that has a compact form. The limit in the parameters of the chain plays no part:
a header may claim an easier target than the limit allows, and such a header is as good as free. So
accepted proofs keep to the limit only if the limit excludes nothing.
-/

namespace LightClient

namespace InclusionProof

variable {config : Config}

/-- A transaction that is alone in its block is proved by the header, if the header's work is not
checked or it meets its target. -/
theorem validateWith_sole {tx : Transaction} {header : Header} (hfits : tx.Fits)
    (hinputs : tx.inputs ≠ []) (houtputs : tx.outputs ≠ []) (hroot : header.merkleRoot = tx.txid)
    (hwork : config.checkHeaderWork = true → header.meetsTarget = .ok true) (height : UInt32) :
    (ofParts tx (.ofRaw header.raw height) ⟨[], 0⟩).validateWith config = .ok () := by
  have hvin := Transaction.parseInputs_listBytes hfits
  have hvout := Transaction.parseOutputs_listBytes hfits
  rw [if_neg hinputs] at hvin
  rw [if_neg houtputs] at hvout
  have hcheck : config.checkHeaderWork = true → checkWork header.raw = .ok () := by
    intro hchecked
    rw [checkWork_eq_ok_iff, header.raw_meetsTarget]
    exact hwork hchecked
  have hverifies : (⟨[], 0⟩ : Merkle.Branch).verifies tx.txid header.raw.merkleRoot = .ok true := by
    rw [Merkle.Branch.verifies_eq_ok_true_iff, Merkle.Branch.impliedRoot_eq_ok_iff,
      header.raw_merkleRoot, hroot]
    exact ⟨by decide, rfl⟩
  exact validateWith_eq_ok_iff.mpr ⟨⟨_, hvin⟩, ⟨_, hvout⟩, rfl, computedTxid_ofParts tx _ _,
    ConfirmingHeader.validate_ofRaw _ _, hcheck, _, branch_ofParts tx _ _, hverifies⟩

/-- A header for the payment that claims the easiest target, with the first nonce. -/
def cheapHeader : Header :=
  ⟨2, .zero, Transaction.payment.txid, 0, Target.easiestBits, 0⟩

/-- A proof of the payment that took no work. -/
def cheap : InclusionProof :=
  ofParts .payment (.ofRaw cheapHeader.raw 0) ⟨[], 0⟩

theorem bits_cheap : cheap.header.raw.bits = Target.easiestBits :=
  congrArg Header.bits cheapHeader.ofRaw_raw

/-- The first nonce is as good as any. -/
theorem cheapHeader_meetsTarget : cheapHeader.meetsTarget = .ok true := by
  have hhash : cheapHeader.raw.hash.toNat ≤ 0xffff * 2 ^ 240 := by decide +kernel
  rw [← cheapHeader.raw_meetsTarget, RawHeader.meetsTarget_eq_ok_true_iff]
  refine ⟨.easiest, ?_, hhash⟩
  rw [show cheapHeader.raw.bits = Target.easiestBits from bits_cheap]
  exact Target.ofCompact_easiestBits

/-- No configuration refuses the cheap proof. -/
theorem validateWith_cheap (config : Config) : cheap.validateWith config = .ok () :=
  validateWith_sole Transaction.payment_fits (by decide) (by decide) rfl
    (fun _ => cheapHeader_meetsTarget) 0

/-- A header whose work was checked meets the target that it claims. -/
theorem exists_target_of_validateWith_eq_ok {p : InclusionProof}
    (hcheck : config.checkHeaderWork = true) (hvalid : p.validateWith config = .ok ()) :
    ∃ target, Target.ofCompact p.header.raw.bits = .ok target ∧
      p.header.raw.hash.toNat ≤ target.toNat := by
  obtain ⟨_, _, _, _, _, hwork, _⟩ := validateWith_eq_ok_iff.mp hvalid
  exact RawHeader.meetsTarget_eq_ok_true_iff.mp (checkWork_eq_ok_iff.mp (hwork hcheck))

/-- Where work is checked, the parameters of the chain make no difference. An accepted header meets
the target that it claims, which can be as easy as the compact form allows; so accepted proofs keep
to the limit of the parameters only if that is the easiest target of all. -/
theorem powLimit_bounds_accepted_iff (hparams : config.params.validate = .ok ())
    (hcheck : config.checkHeaderWork = true) :
    (∀ (p : InclusionProof) (params : ChainParams),
        p.validateWith { config with params := params } = p.validateWith config) ∧
      (∀ p : InclusionProof, p.validateWith config = .ok () →
        ∃ target, Target.ofCompact p.header.raw.bits = .ok target ∧
          p.header.raw.hash.toNat ≤ target.toNat ∧ target.toNat ≤ Target.easiest.toNat) ∧
      ∃ limit, config.params.powLimit = .ok limit ∧
        ((∀ (p : InclusionProof) (target : Target), p.validateWith config = .ok () →
            Target.ofCompact p.header.raw.bits = .ok target → target.toNat ≤ limit.toNat) ↔
          limit = .easiest) := by
  obtain ⟨limit, hlimit⟩ := ChainParams.exists_powLimit_eq_ok hparams
  refine ⟨fun p params => rfl, fun p hvalid => ?_, limit, hlimit, ?_⟩
  · obtain ⟨target, htarget, hhash⟩ := exists_target_of_validateWith_eq_ok hcheck hvalid
    exact ⟨target, htarget, hhash, Target.toNat_le_easiest htarget⟩
  · constructor
    · intro hbounded
      have hcheap : Target.ofCompact cheap.header.raw.bits = .ok .easiest := by
        rw [bits_cheap]
        exact Target.ofCompact_easiestBits
      have hle : Target.easiest.toNat ≤ limit.toNat :=
        hbounded cheap .easiest (validateWith_cheap config) hcheap
      have hge : limit.toNat ≤ Target.easiest.toNat := Target.toNat_le_easiest hlimit
      exact Target.eq_of_toNat_eq (Nat.le_antisymm hge hle)
    · rintro rfl p target _ htarget
      exact Target.toNat_le_easiest htarget

/-- The main network's limit excludes much, so it bounds nothing. -/
theorem powLimit_bounds_accepted_mainnet :
    (Config.forNetwork .mainnet).params.validate = .ok () ∧
      (Config.forNetwork .mainnet).checkHeaderWork = true ∧
      ¬∀ (p : InclusionProof) (target : Target), p.validateWith (.forNetwork .mainnet) = .ok () →
        Target.ofCompact p.header.raw.bits = .ok target →
          target.toNat ≤ Target.difficultyOne.toNat := by
  have hparams : (Config.forNetwork .mainnet).params.validate = .ok () := rfl
  have hcheck : (Config.forNetwork .mainnet).checkHeaderWork = true := rfl
  refine ⟨hparams, hcheck, fun hbounded => ?_⟩
  obtain ⟨_, _, limit, hlimit, hiff⟩ := powLimit_bounds_accepted_iff hparams hcheck
  obtain rfl : Target.difficultyOne = limit := Except.ok.inj hlimit
  have hne : Target.difficultyOne ≠ .easiest := by decide
  exact hne (hiff.mp hbounded)

/-- A proof that took no work is accepted for the main network. -/
theorem cheap_accepted_above_powLimit :
    (Config.forNetwork .mainnet).params.validate = .ok () ∧
      (Config.forNetwork .mainnet).checkHeaderWork = true ∧
      cheap.validateWith (.forNetwork .mainnet) = .ok () ∧
      ∃ target limit, Target.ofCompact cheap.header.raw.bits = .ok target ∧
        (Config.forNetwork .mainnet).params.powLimit = .ok limit ∧
        limit.toNat < target.toNat := by
  refine ⟨rfl, rfl, validateWith_cheap _, .easiest, .difficultyOne, ?_, rfl, by decide⟩
  rw [bits_cheap]
  exact Target.ofCompact_easiestBits

end InclusionProof

end LightClient
