import Mathlib.Data.Nat.Bitwise
import LightClient.Target.Basic

/-!
# What compact forms stand for

A compact form is read as an exponent, a sign and a mantissa. Unless it is negative or overflows, it
stands for the mantissa moved to the place that the exponent says, and for nothing below that place.
The greatest target that can be spelled has the two octets `ffff` at its front.
-/

namespace LightClient.Target

theorem eq_of_toNat_eq {s t : Target} (heq : s.toNat = t.toNat) : s = t := by
  cases s
  cases t
  exact congrArg Target.mk (BitVec.eq_of_toNat_eq heq)

theorem toNat_ofNat_of_lt {n : Nat} (hlt : n < 2 ^ 256) : (ofNat n).toNat = n :=
  (BitVec.toNat_ofNat n 256).trans (Nat.mod_eq_of_lt hlt)

/-- The leading octet of a compact form. -/
def exponent (bits : UInt32) : Nat :=
  bits.toNat / 2 ^ 24

/-- The last 23 bits of a compact form. -/
def mantissa (bits : UInt32) : Nat :=
  bits.toNat % 2 ^ 23

/-- Whether the bit between exponent and mantissa is set. -/
def isNegative (bits : UInt32) : Bool :=
  bits.toNat.testBit 23

theorem mantissa_lt (bits : UInt32) : mantissa bits < 2 ^ 23 :=
  Nat.mod_lt _ (by decide)

theorem two_pow_octets (k : Nat) : 2 ^ (8 * k) = 256 ^ k :=
  Nat.pow_mul 2 8 k

/-- A number that moves down by more octets than it moves up loses the last of them. -/
theorem mul_pow_div_pow_of_le {up down : Nat} (hle : up ≤ down) (n : Nat) :
    n * 256 ^ up / 256 ^ down = n >>> (8 * (down - up)) := by
  have hsplit : 256 ^ down = 256 ^ (down - up) * 256 ^ up := by
    rw [← Nat.pow_add, Nat.sub_add_cancel hle]
  rw [hsplit, Nat.mul_div_mul_right _ _ (Nat.pow_pos (by decide)), Nat.shiftRight_eq_div_pow,
    two_pow_octets]

theorem mul_pow_div_pow_of_ge {up down : Nat} (hle : down ≤ up) (n : Nat) :
    n * 256 ^ up / 256 ^ down = n <<< (8 * (up - down)) := by
  have hsplit : 256 ^ up = 256 ^ (up - down) * 256 ^ down := by
    rw [← Nat.pow_add, Nat.sub_add_cancel hle]
  rw [hsplit, ← Nat.mul_assoc, Nat.mul_div_cancel _ (Nat.pow_pos (by decide)), Nat.shiftLeft_eq,
    two_pow_octets]

/-- The mantissa leaves the 32 octets when its own octets do, however many it has. -/
theorem overflows_iff {m e : Nat} (hm : m < 2 ^ 23) :
    (m ≠ 0 ∧ (34 < e ∨ (0xff < m ∧ 33 < e) ∨ (0xffff < m ∧ 32 < e))) ↔
      256 ^ 35 ≤ m * 256 ^ e := by
  by_cases hwide : 34 < e
  · have hpow : 256 ^ 35 ≤ 256 ^ e := Nat.pow_le_pow_right (by decide) hwide
    constructor
    · rintro ⟨hne, -⟩
      exact Nat.le_trans hpow (Nat.le_mul_of_pos_left _ (Nat.pos_of_ne_zero hne))
    · intro hle
      refine ⟨?_, .inl hwide⟩
      rintro rfl
      omega
  · by_cases hnarrow : e ≤ 32
    · have hpow : 256 ^ e ≤ 256 ^ 32 := Nat.pow_le_pow_right (by decide) hnarrow
      have hlt : m * 256 ^ e ≤ m * 256 ^ 32 := Nat.mul_le_mul_left m hpow
      omega
    · obtain rfl | rfl : e = 33 ∨ e = 34 := by omega
      · omega
      · omega

theorem toNat_shiftRight_eq_exponent (bits : UInt32) : (bits >>> 24).toNat = exponent bits := by
  rw [UInt32.toNat_shiftRight, Nat.shiftRight_eq_div_pow]
  rfl

theorem toNat_and_eq_mantissa (bits : UInt32) : (bits &&& 0x007fffff).toNat = mantissa bits := by
  rw [UInt32.toNat_and]
  exact Nat.and_two_pow_sub_one_eq_mod bits.toNat 23

theorem and_ne_zero_iff_isNegative (bits : UInt32) :
    bits &&& 0x00800000 ≠ 0 ↔ isNegative bits = true := by
  have hbit : (bits &&& 0x00800000).toNat = (bits.toNat.testBit 23).toNat * 2 ^ 23 := by
    rw [UInt32.toNat_and]
    exact Nat.and_two_pow bits.toNat 23
  rw [ne_eq, ← UInt32.toNat_inj, hbit, isNegative]
  cases bits.toNat.testBit 23 <;> simp

/-- The target that a compact form stands for, as a number. -/
theorem ofCompact_eq (bits : UInt32) :
    ofCompact bits =
      if mantissa bits ≠ 0 ∧ isNegative bits then .error .negative
      else if 256 ^ 35 ≤ mantissa bits * 256 ^ exponent bits then .error .overflow
      else .ok (ofNat (mantissa bits * 256 ^ exponent bits / 256 ^ 3)) := by
  have hshift (m k : Nat) : BitVec.ofNat 256 m <<< k = BitVec.ofNat 256 (m <<< k) := by
    apply BitVec.eq_of_toNat_eq
    rw [BitVec.toNat_shiftLeft, BitVec.toNat_ofNat, BitVec.toNat_ofNat, Nat.shiftLeft_eq,
      Nat.shiftLeft_eq, Nat.mod_mul_mod]
  simp only [ofCompact, toNat_shiftRight_eq_exponent, toNat_and_eq_mantissa,
    and_ne_zero_iff_isNegative, overflows_iff (mantissa_lt bits)]
  by_cases hplace : exponent bits ≤ 3
  · rw [if_pos hplace, mul_pow_div_pow_of_le hplace, ofNat]
  · rw [if_neg hplace, mul_pow_div_pow_of_ge (Nat.le_of_not_le hplace), hshift, ofNat]

/-- The number that a compact form stands for. -/
theorem toNat_of_ofCompact_eq_ok {bits : UInt32} {t : Target} (hok : ofCompact bits = .ok t) :
    t.toNat = mantissa bits * 256 ^ exponent bits / 256 ^ 3 := by
  rw [ofCompact_eq] at hok
  split at hok
  · cases hok
  · split at hok
    · cases hok
    next hfits =>
      obtain rfl := Except.ok.inj hok
      exact toNat_ofNat_of_lt (by omega)

/-- The easiest target that has a compact form. -/
def easiest : Target :=
  .ofNat (0xffff * 2 ^ 240)

/-- The compact form of the easiest target. -/
def easiestBits : UInt32 := 0x2100ffff

theorem ofCompact_easiestBits : ofCompact easiestBits = .ok easiest :=
  rfl

theorem toNat_easiest : easiest.toNat = 0xffff * 2 ^ 240 :=
  rfl

end LightClient.Target
