import Mathlib.Algebra.Group.Nat.Defs
import LightClient.Target.Retarget
import LightClient.Proofs.ChainParams
import LightClient.Proofs.Target.Compact

/-!
# The target of a new period

The target of a new period is an exact quotient, whatever the words are in which it is computed: the
previous target times the clamped seconds of the last period, over the seconds that it should have
taken, rounded down. What valid parameters satisfy keeps every step within its words.
-/

namespace LightClient.Target

/-! ## Signed seconds -/

theorem toInt_toInt64_of_lt {n : UInt64} (hlt : n.toNat < 2 ^ 63) : n.toInt64.toInt = n.toNat := by
  have hofNat := Int64.toInt_ofNat_of_lt hlt
  rwa [← UInt64.toInt64_ofNat', UInt64.ofNat_toNat] at hofNat

theorem toNat_toUInt64_of_nonneg {n : Int64} (hnonneg : 0 ≤ n.toInt) :
    (n.toUInt64.toNat : Int) = n.toInt := by
  rw [Int64.toNat_toUInt64_of_le (Int64.le_iff_toInt_le.mpr hnonneg)]
  exact Int.toNat_of_nonneg hnonneg

theorem toInt_max (a b : Int64) : (max a b).toInt = max a.toInt b.toInt := by
  show (if a ≤ b then b else a).toInt = _
  by_cases hle : a ≤ b
  · rw [if_pos hle, Int.max_eq_right (Int64.le_iff_toInt_le.mp hle)]
  · have hlt : ¬a.toInt ≤ b.toInt := fun h => hle (Int64.le_iff_toInt_le.mpr h)
    rw [if_neg hle, Int.max_eq_left (by omega)]

theorem toInt_min (a b : Int64) : (min a b).toInt = min a.toInt b.toInt := by
  show (if a ≤ b then a else b).toInt = _
  by_cases hle : a ≤ b
  · rw [if_pos hle, Int.min_eq_left (Int64.le_iff_toInt_le.mp hle)]
  · have hlt : ¬a.toInt ≤ b.toInt := fun h => hle (Int64.le_iff_toInt_le.mpr h)
    rw [if_neg hle, Int.min_eq_right (by omega)]

/-! ## The exact quotient -/

/-- The seconds between two timestamps, but no less than a quarter of `timespan` and no more than
four times it. -/
def clampedSeconds (timespan : Nat) (first second : UInt32) : Int :=
  max ((timespan : Int) / 4) (min ((second.toNat : Int) - first.toNat) (4 * timespan))

/-- The previous target times the seconds that the last period took, over those that it should have
taken, rounded down. -/
def adjusted (previous : Target) (timespan : Nat) (first second : UInt32) : Int :=
  previous.toNat * clampedSeconds timespan first second / timespan

theorem clampedSeconds_nonneg (timespan : Nat) (first second : UInt32) :
    0 ≤ clampedSeconds timespan first second := by
  rw [clampedSeconds]
  omega

theorem toInt_elapsed (first second : UInt32) :
    (second.toUInt64.toInt64 - first.toUInt64.toInt64).toInt = second.toNat - first.toNat := by
  have hstamp (stamp : UInt32) : stamp.toUInt64.toInt64.toInt = stamp.toNat := by
    have hlt := stamp.toNat_lt
    rw [toInt_toInt64_of_lt (by rw [UInt32.toNat_toUInt64]; omega), UInt32.toNat_toUInt64]
  have hfirst := first.toNat_lt
  have hsecond := second.toNat_lt
  rw [Int64.toInt_sub, hstamp, hstamp, Int.bmod_eq_of_le (by omega) (by omega)]

section

variable {timespan : UInt64} (hshort : timespan ≤ ChainParams.maxTimespan)

include hshort

theorem four_mul_toNat_lt : 4 * timespan.toNat < 2 ^ 63 := by
  have hmax : ChainParams.maxTimespan.toNat = 0x7fffffffffffffff / 4 := rfl
  rw [UInt64.le_iff_toNat_le, hmax] at hshort
  omega

theorem toInt_quarter : (timespan.toInt64 / 4).toInt = timespan.toNat / 4 := by
  have hlt := four_mul_toNat_lt hshort
  have hfour : (4 : Int64).toInt = 4 := rfl
  rw [Int64.toInt_div, toInt_toInt64_of_lt (by omega), hfour,
    Int.tdiv_eq_ediv_of_nonneg (by omega), Int.bmod_eq_of_le (by omega) (by omega)]

theorem toInt_fourfold : (timespan.toInt64 * 4).toInt = 4 * timespan.toNat := by
  have hlt := four_mul_toNat_lt hshort
  have hfour : (4 : Int64).toInt = 4 := rfl
  rw [Int64.toInt_mul, toInt_toInt64_of_lt (by omega), hfour,
    Int.bmod_eq_of_le (by omega) (by omega), Int.mul_comm]

/-- Nothing wraps around while a period is clamped of which four times is still a signed word. -/
theorem toNat_clampedTimespan (first second : UInt32) :
    ((clampedTimespan timespan first second).toNat : Int) =
      clampedSeconds timespan.toNat first second := by
  have hclamped : (max (timespan.toInt64 / 4)
      (min (second.toUInt64.toInt64 - first.toUInt64.toInt64) (timespan.toInt64 * 4))).toInt =
      clampedSeconds timespan.toNat first second := by
    rw [toInt_max, toInt_min, toInt_quarter hshort, toInt_elapsed, toInt_fourfold hshort,
      clampedSeconds]
  have hnonneg := clampedSeconds_nonneg timespan.toNat first second
  exact (toNat_toUInt64_of_nonneg (hclamped ▸ hnonneg)).trans hclamped

end

/-- A product fits into the widths of its factors together. -/
theorem toNat_setWidth_mul {m n width : Nat} (hwide : m + n ≤ width) (a : BitVec m)
    (b : BitVec n) : (a.setWidth width * b.setWidth width).toNat = a.toNat * b.toNat := by
  have hproduct : a.toNat * b.toNat < 2 ^ width := by
    calc a.toNat * b.toNat < 2 ^ m * 2 ^ n := Nat.mul_lt_mul'' a.isLt b.isLt
      _ = 2 ^ (m + n) := (Nat.pow_add 2 m n).symm
      _ ≤ 2 ^ width := Nat.pow_le_pow_right (by decide) hwide
  rw [BitVec.toNat_mul, BitVec.toNat_setWidth_of_le (by omega),
    BitVec.toNat_setWidth_of_le (by omega), Nat.mod_eq_of_lt hproduct]

/-- The adjusted target is computed without wrapping around. -/
theorem toNat_scaled {p : ChainParams} (hshort : p.targetTimespan ≤ ChainParams.maxTimespan)
    (previous : Target) (first second : UInt32) :
    ((scaled previous first second p).toNat : Int) =
      adjusted previous p.targetTimespan.toNat first second := by
  rw [scaled, BitVec.toNat_udiv, toNat_setWidth_mul (by decide),
    BitVec.toNat_setWidth_of_le (by decide), adjusted, ← toNat_clampedTimespan hshort]
  push_cast
  rfl

/-! ## The limit -/

section

variable {p : ChainParams} {limit : Target} (previous : Target) (first second : UInt32)

theorem retargetChecked_of_invalid {e : Error} (hinvalid : p.validate = .error e) :
    retargetChecked previous first second p = .error e := by
  rw [retargetChecked, hinvalid]
  rfl

theorem retargetChecked_of_noRetargeting (hvalid : p.validate = .ok ())
    (hfixed : p.noRetargeting = true) :
    retargetChecked previous first second p = .ok previous := by
  rw [retargetChecked, hvalid, hfixed]
  rfl

theorem retargetChecked_of_retargeting (hvalid : p.validate = .ok ())
    (hadjusts : p.noRetargeting = false) (hlimit : p.powLimit = .ok limit) :
    retargetChecked previous first second p =
      if limit.toNat < (scaled previous first second p).toNat then .error (.target .overflow)
      else .ok (ofNat (scaled previous first second p).toNat) := by
  have hpasses : limit.value.setWidth 512 < scaled previous first second p ↔
      limit.toNat < (scaled previous first second p).toNat := by
    rw [BitVec.lt_def, BitVec.toNat_setWidth_of_le (by decide)]
    rfl
  have hnarrow : (⟨(scaled previous first second p).setWidth 256⟩ : Target) =
      ofNat (scaled previous first second p).toNat := by
    rw [ofNat, BitVec.ofNat_toNat]
  rw [retargetChecked, hvalid, hadjusts, hlimit]
  simp only [← hnarrow, ← hpasses]
  rfl

/-- Only an overflow is replaced by the limit. -/
theorem retarget_of_retargetChecked_eq_overflow (hlimit : p.powLimit = .ok limit)
    (hoverflow : retargetChecked previous first second p = .error (.target .overflow)) :
    retarget previous first second p = .ok limit := by
  rw [retarget, hoverflow, hlimit]
  rfl

theorem retarget_of_retargetChecked_eq_ok {next : Target}
    (hok : retargetChecked previous first second p = .ok next) :
    retarget previous first second p = .ok next := by
  rw [retarget, hok]

theorem retarget_of_invalid {fault : ConfigFault}
    (hinvalid : p.validate = .error (.invalidConfig fault)) :
    retarget previous first second p = .error (.invalidConfig fault) := by
  rw [retarget, retargetChecked_of_invalid previous first second hinvalid]

/-- With valid parameters the target is the exact quotient, where that is within the limit. -/
theorem retargetChecked_eq_adjusted (hvalid : p.validate = .ok ())
    (hadjusts : p.noRetargeting = false) (hlimit : p.powLimit = .ok limit) :
    (∃ next, retargetChecked previous first second p = .ok next ∧
        adjusted previous p.targetTimespan.toNat first second ≤ limit.toNat ∧
        (next.toNat : Int) = adjusted previous p.targetTimespan.toNat first second) ∨
      (retargetChecked previous first second p = .error (.target .overflow) ∧
        (limit.toNat : Int) < adjusted previous p.targetTimespan.toNat first second) := by
  obtain ⟨-, -, hshort, -⟩ := ChainParams.validate_eq_ok_iff.mp hvalid
  have hchecked :=
    retargetChecked_of_retargeting previous first second hvalid hadjusts hlimit
  rw [← toNat_scaled hshort]
  by_cases hpasses : limit.toNat < (scaled previous first second p).toNat
  · exact .inr ⟨by rw [hchecked, if_pos hpasses], by omega⟩
  · have hfits : (scaled previous first second p).toNat < 2 ^ 256 :=
      Nat.lt_of_le_of_lt (Nat.le_of_not_lt hpasses) limit.value.isLt
    refine .inl ⟨_, by rw [hchecked, if_neg hpasses], by omega, ?_⟩
    rw [toNat_ofNat_of_lt hfits]

end

/-- Invalid parameters are refused, and nothing else is refused as a configuration. A chain that
does not retarget keeps its target. On any other the target is the exact quotient, which is either
cut down to the limit or refused where it passes the limit. -/
theorem retarget_eq_adjusted {p : ChainParams} {timespan : Nat}
    (hperiod : p.retargetInterval.toNat * p.targetSpacing.toNat = timespan)
    (hword : timespan < 2 ^ 64) (previous : Target) (first second : UInt32) :
    (∀ e, p.validate = .error e → ∃ fault, e = .invalidConfig fault) ∧
      (∀ fault, retarget previous first second p = .error (.invalidConfig fault) ↔
        p.validate = .error (.invalidConfig fault)) ∧
      (∀ fault, retargetChecked previous first second p = .error (.invalidConfig fault) ↔
        p.validate = .error (.invalidConfig fault)) ∧
      (p.validate = .ok () → p.noRetargeting = true →
        retarget previous first second p = .ok previous ∧
          retargetChecked previous first second p = .ok previous) ∧
      (p.validate = .ok () → p.noRetargeting = false →
        ∃ limit, p.powLimit = .ok limit ∧
          (∃ next, retarget previous first second p = .ok next ∧
            (next.toNat : Int) = min (adjusted previous timespan first second) limit.toNat) ∧
          if adjusted previous timespan first second ≤ limit.toNat then
            ∃ next, retargetChecked previous first second p = .ok next ∧
              (next.toNat : Int) = adjusted previous timespan first second
          else retargetChecked previous first second p = .error (.target .overflow)) := by
  have htimespan : p.targetTimespan.toNat = timespan := by
    rw [ChainParams.targetTimespan, UInt64.toNat_mul, hperiod, Nat.mod_eq_of_lt hword]
  subst htimespan
  cases hvalidate : p.validate with
  | error e =>
    obtain ⟨fault, rfl⟩ := ChainParams.exists_fault_of_validate_eq_error hvalidate
    refine ⟨fun e he => ?_, fun _ => ?_, fun _ => ?_, nofun, nofun⟩
    · exact ⟨fault, (Except.error.inj he).symm⟩
    · rw [retarget_of_invalid previous first second hvalidate, Except.error.injEq,
        Except.error.injEq]
    · rw [retargetChecked_of_invalid previous first second hvalidate, Except.error.injEq,
        Except.error.injEq]
  | ok u =>
    cases hadjusts : p.noRetargeting with
    | true =>
      have hchecked := retargetChecked_of_noRetargeting previous first second hvalidate hadjusts
      have hclamped := retarget_of_retargetChecked_eq_ok previous first second hchecked
      simp [hchecked, hclamped]
    | false =>
      obtain ⟨limit, hlimit⟩ := ChainParams.exists_powLimit_eq_ok hvalidate
      rcases retargetChecked_eq_adjusted previous first second hvalidate hadjusts hlimit with
        ⟨next, hchecked, hle, hnext⟩ | ⟨hchecked, hlt⟩
      · have hclamped := retarget_of_retargetChecked_eq_ok previous first second hchecked
        refine ⟨nofun, by simp [hclamped], by simp [hchecked], nofun, fun _ _ => ?_⟩
        refine ⟨limit, hlimit, ⟨next, hclamped, ?_⟩, ?_⟩
        · rw [Int.min_eq_left hle, hnext]
        · rw [if_pos hle]
          exact ⟨next, hchecked, hnext⟩
      · have hclamped :=
          retarget_of_retargetChecked_eq_overflow previous first second hlimit hchecked
        refine ⟨nofun, by simp [hclamped], by simp [hchecked], nofun, fun _ _ => ?_⟩
        refine ⟨limit, hlimit, ⟨limit, hclamped, ?_⟩, ?_⟩
        · rw [Int.min_eq_right (Int.le_of_lt hlt)]
        · rw [if_neg (Int.not_le.mpr hlt)]
          exact hchecked

/-- A period of the main network at the limit that took 1022578 seconds. -/
theorem retarget_eq_adjusted_of_fast_period :
    (ChainParams.forNetwork .mainnet).retargetInterval.toNat *
        (ChainParams.forNetwork .mainnet).targetSpacing.toNat = 1209600 ∧
      (ChainParams.forNetwork .mainnet).validate = .ok () ∧
      (ChainParams.forNetwork .mainnet).noRetargeting = false ∧
      ∃ next, retarget difficultyOne 1261130161 1262152739 (.forNetwork .mainnet) = .ok next ∧
        retargetChecked difficultyOne 1261130161 1262152739 (.forNetwork .mainnet) = .ok next ∧
        (next.toNat : Int) = 0xffff * 2 ^ 208 * 1022578 / 1209600 := by
  have hperiod : (ChainParams.forNetwork .mainnet).retargetInterval.toNat *
      (ChainParams.forNetwork .mainnet).targetSpacing.toNat = 1209600 := rfl
  have hvalid : (ChainParams.forNetwork .mainnet).validate = .ok () := rfl
  have hadjusts : (ChainParams.forNetwork .mainnet).noRetargeting = false := rfl
  obtain ⟨-, -, -, -, hretargets⟩ :=
    retarget_eq_adjusted hperiod (by decide) difficultyOne 1261130161 1262152739
  obtain ⟨limit, hlimit, ⟨next, hclamped, hnext⟩, hchecked⟩ := hretargets hvalid hadjusts
  obtain rfl : difficultyOne = limit := Except.ok.inj hlimit
  have hadjusted : adjusted difficultyOne 1209600 1261130161 1262152739 =
      0xffff * 2 ^ 208 * 1022578 / 1209600 := by decide
  have hle : adjusted difficultyOne 1209600 1261130161 1262152739 ≤ difficultyOne.toNat := by
    decide
  rw [if_pos hle] at hchecked
  obtain ⟨quotient, hquotient, hvalue⟩ := hchecked
  rw [Int.min_eq_left hle, ← hvalue] at hnext
  obtain rfl : next = quotient := eq_of_toNat_eq (Int.ofNat.inj hnext)
  exact ⟨hperiod, hvalid, hadjusts, next, hclamped, hquotient, hvalue.trans hadjusted⟩

end LightClient.Target
