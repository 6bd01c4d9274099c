import Mathlib.Algebra.Order.Floor.Semifield
import Mathlib.Data.Rat.Floor
import LightClient.Proofs.Target.Compact

/-!
# The value of a compact form

The exponent of a compact form is the length of the value in octets, and the mantissa holds the
first three of these. What the form spells is therefore the mantissa times a power of 256, which is
no whole number where the mantissa is longer than the value. Reading rounds that number down, and
refuses it where it is negative or does not fit into 256 bits; nothing else is lost or refused.
-/

namespace LightClient.Target

/-- Exponent, sign and mantissa of a compact form can be told apart. -/
theorem fields_eq {bits : UInt32} {e m : Nat} {s : Bool}
    (hbits : bits.toNat = e * 2 ^ 24 + s.toNat * 2 ^ 23 + m) (hm : m < 2 ^ 23) :
    exponent bits = e ∧ isNegative bits = s ∧ mantissa bits = m := by
  have hsign := s.toNat_lt
  refine ⟨?_, ?_, ?_⟩
  · rw [exponent]
    omega
  · have hbit : bits.toNat / 2 ^ 23 % 2 = s.toNat := by omega
    rw [isNegative, Nat.testBit_eq_decide_div_mod_eq, hbit]
    cases s <;> rfl
  · rw [mantissa]
    omega

/-- The whole part of the spelled number. -/
theorem floor_mul_zpow (m e : Nat) :
    ⌊(m : ℚ) * 256 ^ ((e : ℤ) - 3)⌋₊ = m * 256 ^ e / 256 ^ 3 := by
  have hsplit : (m : ℚ) * 256 ^ ((e : ℤ) - 3) = ((m * 256 ^ e : ℕ) : ℚ) / (256 ^ 3 : ℕ) := by
    rw [zpow_sub₀ (by norm_num), zpow_natCast, ← mul_div_assoc]
    push_cast
    rfl
  rw [hsplit, Nat.floor_div_eq_div]

/-- Only a value of at least three octets is too long, and this is then a whole number. -/
theorem two_pow_le_iff {m e : Nat} (hm : m < 2 ^ 23) :
    256 ^ 35 ≤ m * 256 ^ e ↔ 3 ≤ e ∧ 2 ^ 256 ≤ m * 256 ^ (e - 3) := by
  by_cases hlong : 3 ≤ e
  · obtain ⟨k, rfl⟩ := Nat.exists_eq_add_of_le' hlong
    rw [Nat.add_sub_cancel, Nat.pow_add, ← Nat.mul_assoc]
    omega
  · have hpow : 256 ^ e ≤ 256 ^ 3 := Nat.pow_le_pow_right (by decide) (by omega)
    have hsmall : m * 256 ^ e ≤ 2 ^ 23 * 256 ^ 3 := Nat.mul_le_mul (Nat.le_of_lt hm) hpow
    omega

/-- A compact form of exponent `e`, sign `s` and mantissa `m` is refused as negative if sign and
mantissa are not zero, and otherwise as too large if `m * 256 ^ (e - 3)` has no room in 256 bits.
Otherwise it stands for that number, rounded down. -/
theorem ofCompact_eq_floor {bits : UInt32} {e m : Nat} {s : Bool}
    (hbits : bits.toNat = e * 2 ^ 24 + s.toNat * 2 ^ 23 + m) (hm : m < 2 ^ 23) :
    (ofCompact bits = .error .negative ↔ m ≠ 0 ∧ s = true) ∧
      (ofCompact bits = .error .overflow ↔
        ¬(m ≠ 0 ∧ s = true) ∧ 3 ≤ e ∧ 2 ^ 256 ≤ m * 256 ^ (e - 3)) ∧
      ((∃ t, ofCompact bits = .ok t ∧ t.toNat = ⌊(m : ℚ) * 256 ^ ((e : ℤ) - 3)⌋₊) ↔
        ¬(m ≠ 0 ∧ s = true) ∧ ¬(3 ≤ e ∧ 2 ^ 256 ≤ m * 256 ^ (e - 3))) := by
  obtain ⟨hexponent, hsign, hmantissa⟩ := fields_eq hbits hm
  rw [ofCompact_eq, hexponent, hsign, hmantissa, floor_mul_zpow, ← two_pow_le_iff hm]
  by_cases hnegative : m ≠ 0 ∧ s = true
  · rw [if_pos hnegative]
    refine ⟨⟨fun _ => hnegative, fun _ => rfl⟩, ⟨?_, fun h => absurd hnegative h.1⟩, ?_,
      fun h => absurd hnegative h.1⟩
    · intro herror
      cases herror
    · rintro ⟨t, hok, -⟩
      cases hok
  · rw [if_neg hnegative]
    by_cases hlarge : 256 ^ 35 ≤ m * 256 ^ e
    · rw [if_pos hlarge]
      refine ⟨⟨?_, fun h => absurd h hnegative⟩, ⟨fun _ => ⟨hnegative, hlarge⟩, fun _ => rfl⟩, ?_,
        fun h => absurd hlarge h.2⟩
      · intro herror
        cases herror
      · rintro ⟨t, hok, -⟩
        cases hok
    · rw [if_neg hlarge]
      have hvalue : (ofNat (m * 256 ^ e / 256 ^ 3)).toNat = m * 256 ^ e / 256 ^ 3 :=
        toNat_ofNat_of_lt (by omega)
      refine ⟨⟨?_, fun h => absurd h hnegative⟩, ⟨?_, fun h => absurd h.2 hlarge⟩,
        fun _ => ⟨hnegative, hlarge⟩, fun _ => ⟨_, rfl, hvalue⟩⟩
      · intro herror
        cases herror
      · intro herror
        cases herror

/-- Behind the exponent 33 there is room for two octets, but not for three. -/
theorem ofCompact_eq_floor_of_thirty_three :
    easiestBits.toNat = 33 * 2 ^ 24 + false.toNat * 2 ^ 23 + 0xffff ∧
      (∃ t, ofCompact easiestBits = .ok t ∧
        t.toNat = ⌊((0xffff : ℕ) : ℚ) * 256 ^ (((33 : ℕ) : ℤ) - 3)⌋₊) ∧
      (0x21010000 : UInt32).toNat = 33 * 2 ^ 24 + false.toNat * 2 ^ 23 + 0x10000 ∧
      ofCompact 0x21010000 = .error .overflow := by
  have htwo : easiestBits.toNat = 33 * 2 ^ 24 + false.toNat * 2 ^ 23 + 0xffff := rfl
  have hthree : (0x21010000 : UInt32).toNat = 33 * 2 ^ 24 + false.toNat * 2 ^ 23 + 0x10000 := rfl
  refine ⟨htwo, ?_, hthree, ?_⟩
  · exact (ofCompact_eq_floor htwo (by decide)).2.2.mpr ⟨by decide, by decide⟩
  · exact (ofCompact_eq_floor hthree (by decide)).2.1.mpr ⟨by decide, by decide, by decide⟩

end LightClient.Target
