import Mathlib.Algebra.Group.Nat.Defs
import LightClient.ChainParams

/-!
# Valid parameters

Parameters are valid when a period has blocks and each of them takes time, when four times the
seconds of a period are still a signed number of 64 bits, and when the limit is a target other than
zero. Whatever else they are, they are refused as a configuration.
-/

namespace LightClient.ChainParams

/-- What valid parameters satisfy. -/
theorem validate_eq_ok_iff {p : ChainParams} :
    p.validate = .ok () ↔
      p.retargetInterval ≠ 0 ∧ p.targetSpacing ≠ 0 ∧ p.targetTimespan ≤ maxTimespan ∧
        ∃ limit, p.powLimit = .ok limit ∧ limit.isZero = false := by
  unfold validate
  split
  next hzero =>
    simp only [reduceCtorEq, false_iff]
    rintro ⟨hinterval, hspacing, -⟩
    exact hzero.elim hinterval hspacing
  next hnonzero =>
    obtain ⟨hinterval, hspacing⟩ := not_or.mp hnonzero
    split
    next hlong =>
      simp only [reduceCtorEq, false_iff]
      rintro ⟨-, -, hle, -⟩
      exact absurd hle (UInt64.not_le.mpr hlong)
    next hshort =>
      have hle : p.targetTimespan ≤ maxTimespan := UInt64.not_lt.mp hshort
      cases hlimit : p.powLimit with
      | error fault => simp
      | ok limit => cases hzero : limit.isZero <;> simp [hinterval, hspacing, hle, hzero]

/-- Invalid parameters are refused as a configuration. -/
theorem exists_fault_of_validate_eq_error {p : ChainParams} {e : Error}
    (hinvalid : p.validate = .error e) : ∃ fault, e = .invalidConfig fault := by
  unfold validate at hinvalid
  split at hinvalid
  · exact ⟨_, (Except.error.inj hinvalid).symm⟩
  · split at hinvalid
    · exact ⟨_, (Except.error.inj hinvalid).symm⟩
    · split at hinvalid
      · exact ⟨_, (Except.error.inj hinvalid).symm⟩
      · split at hinvalid
        · exact ⟨_, (Except.error.inj hinvalid).symm⟩
        · cases hinvalid

/-- Valid parameters have a limit. -/
theorem exists_powLimit_eq_ok {p : ChainParams} (hvalid : p.validate = .ok ()) :
    ∃ limit, p.powLimit = .ok limit := by
  obtain ⟨-, -, -, limit, hlimit, -⟩ := validate_eq_ok_iff.mp hvalid
  exact ⟨limit, hlimit⟩

/-- The seconds of a period are the product, where that is a word. -/
theorem toNat_targetTimespan {p : ChainParams}
    (hword : p.retargetInterval.toNat * p.targetSpacing.toNat < 2 ^ 64) :
    p.targetTimespan.toNat = p.retargetInterval.toNat * p.targetSpacing.toNat := by
  change (p.retargetInterval * p.targetSpacing).toNat = _
  rw [UInt64.toNat_mul, Nat.mod_eq_of_lt hword]

/-- With valid parameters a period takes time. -/
theorem targetTimespan_pos {p : ChainParams} (hvalid : p.validate = .ok ())
    (hword : p.retargetInterval.toNat * p.targetSpacing.toNat < 2 ^ 64) :
    0 < p.targetTimespan.toNat := by
  obtain ⟨hinterval, hspacing, -⟩ := validate_eq_ok_iff.mp hvalid
  rw [toNat_targetTimespan hword]
  apply Nat.mul_pos
  · exact Nat.pos_of_ne_zero fun hzero => hinterval (UInt64.toNat_inj.mp hzero)
  · exact Nat.pos_of_ne_zero fun hzero => hspacing (UInt64.toNat_inj.mp hzero)

end LightClient.ChainParams
