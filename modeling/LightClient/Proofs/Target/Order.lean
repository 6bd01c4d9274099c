import LightClient.Header.Basic
import LightClient.Proofs.Guards
import LightClient.Proofs.Target.Retarget
import LightClient.Proofs.Target.Rounding

/-!
# The order of compact targets

Compact forms are compared as words, targets as numbers. The exponent stands in front of the
mantissa, and it is the same for no two numbers of which one is longer, so writing targets in
compact form keeps their order. Adjusting a target keeps it as well: the more time a period took and
the easier its target was, the easier is the next. Between the bits of two periods and the bits that
follow from them the order is therefore never turned around.
-/

namespace LightClient

namespace Target

/-! ## Compact forms -/

theorem leadingExponent_mono {m n : Nat} (hle : m ≤ n) : leadingExponent m ≤ leadingExponent n :=
  Nat.log_mono_right (Nat.mul_le_mul_left 512 hle)

/-- An easier target has no smaller compact form. -/
theorem toCompact_mono {s t : Target} (hle : s.toNat ≤ t.toNat) : s.toCompact ≤ t.toCompact := by
  rw [UInt32.le_iff_toNat_le, toNat_toCompact, toNat_toCompact]
  rcases Nat.lt_or_eq_of_le (leadingExponent_mono hle) with hlonger | hsame
  · have hmantissa := leadingMantissa_lt s.toNat
    omega
  · have hmantissa : leadingMantissa s.toNat ≤ leadingMantissa t.toNat := by
      rw [leadingMantissa, leadingMantissa, hsame]
      exact Nat.div_le_div_right (Nat.mul_le_mul_right _ hle)
    omega

/-! ## Adjusted targets -/

section

variable {timespan : Nat} {first second : UInt32}

theorem clampedSeconds_le_fourfold : clampedSeconds timespan first second ≤ 4 * timespan := by
  rw [clampedSeconds]
  omega

theorem clampedSeconds_mono {first' second' : UInt32}
    (hseconds : (second.toNat : Int) - first.toNat ≤ second'.toNat - first'.toNat) :
    clampedSeconds timespan first second ≤ clampedSeconds timespan first' second' := by
  rw [clampedSeconds, clampedSeconds]
  omega

variable {previous : Target}

/-- No target is adjusted to one that is more than four times as easy. -/
theorem adjusted_le_fourfold (hpos : 0 < timespan) :
    adjusted previous timespan first second ≤ 4 * previous.toNat := by
  have hproduct : previous.toNat * clampedSeconds timespan first second ≤
      (previous.toNat : Int) * (4 * timespan) :=
    Int.mul_le_mul_of_nonneg_left clampedSeconds_le_fourfold (by omega)
  apply Int.ediv_le_of_le_mul (by omega)
  calc (previous.toNat : Int) * clampedSeconds timespan first second
      ≤ previous.toNat * (4 * timespan) := hproduct
    _ = 4 * previous.toNat * timespan := by rw [Int.mul_left_comm, Int.mul_assoc]

/-- Easier targets and longer periods are followed by easier targets. -/
theorem adjusted_mono {previous' : Target} {first' second' : UInt32} (hpos : 0 < timespan)
    (hle : previous.toNat ≤ previous'.toNat)
    (hseconds : (second.toNat : Int) - first.toNat ≤ second'.toNat - first'.toNat) :
    adjusted previous timespan first second ≤ adjusted previous' timespan first' second' := by
  apply Int.ediv_le_ediv (by omega)
  exact Int.mul_le_mul (by omega) (clampedSeconds_mono hseconds)
    (clampedSeconds_nonneg timespan first second) (by omega)

end

/-! ## Bits of the next period -/

/-- On a chain that retargets the next target is the adjusted one, cut down to the limit. -/
theorem exists_retarget_eq_ok {p : ChainParams} {limit : Target} (hvalid : p.validate = .ok ())
    (hadjusts : p.noRetargeting = false) (hlimit : p.powLimit = .ok limit) (previous : Target)
    (first second : UInt32) :
    ∃ next, retarget previous first second p = .ok next ∧
      (next.toNat : Int) =
        min (adjusted previous p.targetTimespan.toNat first second) limit.toNat := by
  rcases retargetChecked_eq_adjusted previous first second hvalid hadjusts hlimit with
    ⟨next, hchecked, hle, hnext⟩ | ⟨hchecked, hlt⟩
  · exact ⟨next, retarget_of_retargetChecked_eq_ok previous first second hchecked, by omega⟩
  · exact ⟨limit, retarget_of_retargetChecked_eq_overflow previous first second hlimit hchecked,
      by omega⟩

/-- The bits that follow from the bits and the times of a period, for which the target was
`previous`. -/
structure NextBits (p : ChainParams) (limit previous : Target) (bits first second next : UInt32) :
    Prop where
  retargetCompact_eq : retargetCompact bits first second p = .ok next
  /-- Headers that carry the bits and the times of the period demand the same. -/
  nextWorkRequired_eq : ∀ start last : Header, start.time = first → last.time = second →
    last.bits = bits → Header.nextWorkRequired start last p = .ok next
  /-- They stand for a target that is within the limit and at most four times as easy. -/
  exists_target : ∃ target, ofCompact next = .ok target ∧ target.toNat ≤ limit.toNat ∧
    target.toNat ≤ 4 * previous.toNat

theorem retargetCompact_eq_ok {p : ChainParams} {bits first second : UInt32}
    {previous next : Target} (hprevious : ofCompact bits = .ok previous)
    (hnext : retarget previous first second p = .ok next) :
    retargetCompact bits first second p = .ok next.toCompact :=
  Guards.bind_eq_ok_iff.mpr ⟨previous, Guards.mapError_eq_ok_iff.mpr hprevious,
    Guards.bind_eq_ok_iff.mpr ⟨next, hnext, rfl⟩⟩

/-- Rounding to the compact form only makes a target harder, so what bounds the next target bounds
what its bits stand for. -/
theorem nextBits_toCompact {p : ChainParams} {limit previous next : Target}
    {bits first second : UInt32} (hpos : 0 < p.targetTimespan.toNat)
    (hprevious : ofCompact bits = .ok previous)
    (hnext : retarget previous first second p = .ok next)
    (hvalue : (next.toNat : Int) =
      min (adjusted previous p.targetTimespan.toNat first second) limit.toNat) :
    NextBits p limit previous bits first second next.toCompact where
  retargetCompact_eq := retargetCompact_eq_ok hprevious hnext
  nextWorkRequired_eq := by
    rintro start last rfl rfl rfl
    exact retargetCompact_eq_ok hprevious hnext
  exists_target := by
    have hrounded := rounded_le next.toNat
    have hlt : next.toNat < 2 ^ 256 := next.value.isLt
    have hread : (ofNat (rounded next.toNat)).toNat = rounded next.toNat :=
      toNat_ofNat_of_lt (by omega)
    have hfourfold : adjusted previous p.targetTimespan.toNat first second ≤ 4 * previous.toNat :=
      adjusted_le_fourfold hpos
    exact ⟨_, ofCompact_toCompact next, by omega, by omega⟩

/-- Of two periods under the same valid parameters, the one that took longer and had the easier
target is followed by bits that are not smaller. Either period is followed by bits, and these are
what headers demand and stand for a target within the limit. -/
theorem exists_nextBits_le {p : ChainParams} (hvalid : p.validate = .ok ())
    (hword : p.retargetInterval.toNat * p.targetSpacing.toNat < 2 ^ 64)
    (hadjusts : p.noRetargeting = false) {bits first second bits' first' second' : UInt32}
    {previous previous' : Target} (hprevious : ofCompact bits = .ok previous)
    (hprevious' : ofCompact bits' = .ok previous') (hle : previous.toNat ≤ previous'.toNat)
    (hseconds : (second.toNat : Int) - first.toNat ≤ second'.toNat - first'.toNat) :
    ∃ limit next next', p.powLimit = .ok limit ∧
      NextBits p limit previous bits first second next ∧
      NextBits p limit previous' bits' first' second' next' ∧ next ≤ next' := by
  obtain ⟨limit, hlimit⟩ := ChainParams.exists_powLimit_eq_ok hvalid
  have hpos := ChainParams.targetTimespan_pos hvalid hword
  obtain ⟨next, hnext, hvalue⟩ := exists_retarget_eq_ok hvalid hadjusts hlimit previous first second
  obtain ⟨next', hnext', hvalue'⟩ :=
    exists_retarget_eq_ok hvalid hadjusts hlimit previous' first' second'
  have hadjusted := adjusted_mono hpos hle hseconds
  exact ⟨limit, next.toCompact, next'.toCompact, hlimit,
    nextBits_toCompact hpos hprevious hnext hvalue,
    nextBits_toCompact hpos hprevious' hnext' hvalue', toCompact_mono (by omega)⟩

/-- On the main network, a period at a hard target that took 1099337 seconds, and one at the limit
that took a second more. -/
theorem exists_nextBits_le_of_mainnet :
    (ChainParams.forNetwork .mainnet).validate = .ok () ∧
      ofCompact 0x17371ef4 = .ok (ofNat (0x371ef4 * 2 ^ 160)) ∧
      ofCompact 0x1d00ffff = .ok difficultyOne ∧
      ∃ next next',
        retargetCompact 0x17371ef4 1545175965 1546275302 (.forNetwork .mainnet) = .ok next ∧
        retargetCompact 0x1d00ffff 0 1099338 (.forNetwork .mainnet) = .ok next' ∧ next ≤ next' := by
  have hvalid : (ChainParams.forNetwork .mainnet).validate = .ok () := rfl
  have hhard : ofCompact 0x17371ef4 = .ok (ofNat (0x371ef4 * 2 ^ 160)) := rfl
  have hlimit : ofCompact 0x1d00ffff = .ok difficultyOne := rfl
  have hseconds : ((1546275302 : UInt32).toNat : Int) - (1545175965 : UInt32).toNat ≤
      (1099338 : UInt32).toNat - (0 : UInt32).toNat := by decide
  obtain ⟨_, next, next', -, hnext, hnext', hle⟩ :=
    exists_nextBits_le hvalid (by decide) rfl hhard hlimit (by decide) hseconds
  exact ⟨hvalid, hhard, hlimit, next, next', hnext.retargetCompact_eq, hnext'.retargetCompact_eq,
    hle⟩

end Target

end LightClient
