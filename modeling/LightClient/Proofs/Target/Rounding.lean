import Mathlib.Data.Nat.Log
import LightClient.Proofs.Target.Compact

/-!
# Rounding to a compact form

A compact form has room for the leading octets of a target only, so that writing a target and
reading it back rounds it down. The exponent is chosen such that the mantissa is as long as the sign
allows: every target that has a compact form and is below the written one is then a multiple of the
last octet kept, or shorter than the octets kept. Nothing that has a compact form is lost between a
target and what it is rounded to, and rounding once more changes nothing.
-/

namespace LightClient.Target

/-! ## Leading octets -/

/-- The exponent of a number's compact form: the number's length in octets, or one more where its
first bit would stand in the place of the sign. -/
def leadingExponent (n : Nat) : Nat :=
  Nat.log 256 (512 * n)

/-- The mantissa of a number's compact form: its leading octets. -/
def leadingMantissa (n : Nat) : Nat :=
  n * 256 ^ 3 / 256 ^ leadingExponent n

/-- What the compact form of a number stands for. -/
def rounded (n : Nat) : Nat :=
  leadingMantissa n * 256 ^ leadingExponent n / 256 ^ 3

theorem pow_leadingExponent_le {n : Nat} (hn : n ≠ 0) : 256 ^ leadingExponent n ≤ 512 * n :=
  Nat.pow_log_le_self 256 (by omega)

theorem lt_pow_leadingExponent (n : Nat) : 512 * n < 256 * 256 ^ leadingExponent n := by
  rw [← Nat.pow_succ']
  exact Nat.lt_pow_succ_log_self (by decide) _

/-- The exponent is the only one with which the mantissa has a bit among its first eight. -/
theorem leadingExponent_eq {n e : Nat} (hle : 256 ^ e ≤ 512 * n) (hlt : 512 * n < 256 * 256 ^ e) :
    leadingExponent n = e :=
  Nat.log_eq_of_pow_le_of_lt_pow hle (by rwa [Nat.pow_succ'])

theorem leadingMantissa_lt (n : Nat) : leadingMantissa n < 2 ^ 23 := by
  have hlt := lt_pow_leadingExponent n
  rw [leadingMantissa, Nat.div_lt_iff_lt_mul (Nat.pow_pos (by decide))]
  omega

theorem le_leadingMantissa {n : Nat} (hn : n ≠ 0) : 2 ^ 15 ≤ leadingMantissa n := by
  have hle := pow_leadingExponent_le hn
  rw [leadingMantissa, Nat.le_div_iff_mul_le (Nat.pow_pos (by decide))]
  omega

/-- Nothing is lost of a number of at most three octets. -/
theorem rounded_of_le_three {n : Nat} (hle : leadingExponent n ≤ 3) : rounded n = n := by
  have hdvd : 256 ^ leadingExponent n ∣ n * 256 ^ 3 :=
    Nat.dvd_mul_left_of_dvd (Nat.pow_dvd_pow 256 hle) n
  rw [rounded, leadingMantissa, Nat.div_mul_cancel hdvd, Nat.mul_div_cancel _ (by decide)]

/-- Of a longer number only the octets behind the mantissa are lost. -/
theorem leadingMantissa_of_eq_add_three {n k : Nat} (hk : leadingExponent n = k + 3) :
    leadingMantissa n = n / 256 ^ k := by
  rw [leadingMantissa, hk, Nat.pow_add, Nat.mul_div_mul_right _ _ (by decide)]

theorem rounded_of_eq_add_three {n k : Nat} (hk : leadingExponent n = k + 3) :
    rounded n = n / 256 ^ k * 256 ^ k := by
  rw [rounded, leadingMantissa_of_eq_add_three hk, hk, Nat.pow_add, ← Nat.mul_assoc,
    Nat.mul_div_cancel _ (by decide)]

theorem rounded_le (n : Nat) : rounded n ≤ n := by
  have hle : leadingMantissa n * 256 ^ leadingExponent n ≤ n * 256 ^ 3 := Nat.div_mul_le_self _ _
  exact Nat.div_le_of_le_mul (by omega)

/-- A number is short, and then nothing of it is lost, or its mantissa has at least 16 bits. -/
theorem short_or_long (n : Nat) :
    leadingExponent n ≤ 3 ∨ ∃ k, leadingExponent n = k + 3 ∧ 2 ^ 15 ≤ n / 256 ^ k := by
  by_cases hshort : leadingExponent n ≤ 3
  · exact .inl hshort
  · obtain ⟨k, hk⟩ := Nat.exists_eq_add_of_le' (Nat.le_of_not_le hshort)
    have hn : n ≠ 0 := by
      rintro rfl
      exact hshort (by decide)
    refine .inr ⟨k, hk, ?_⟩
    rw [← leadingMantissa_of_eq_add_three hk]
    exact le_leadingMantissa hn

theorem leadingExponent_rounded (n : Nat) : leadingExponent (rounded n) = leadingExponent n := by
  rcases short_or_long n with hshort | ⟨k, hk, hlong⟩
  · rw [rounded_of_le_three hshort]
  · have hfront : 2 ^ 15 * 256 ^ k ≤ rounded n := by
      rw [rounded_of_eq_add_three hk]
      exact Nat.mul_le_mul_right _ hlong
    have hrounded := rounded_le n
    have hlt := lt_pow_leadingExponent n
    rw [hk] at hlt ⊢
    apply leadingExponent_eq
    · rw [Nat.pow_add]
      omega
    · omega

theorem leadingMantissa_rounded (n : Nat) : leadingMantissa (rounded n) = leadingMantissa n := by
  rcases short_or_long n with hshort | ⟨k, hk, -⟩
  · rw [rounded_of_le_three hshort]
  · have hk' : leadingExponent (rounded n) = k + 3 := by rw [leadingExponent_rounded, hk]
    rw [leadingMantissa_of_eq_add_three hk', rounded_of_eq_add_three hk,
      Nat.mul_div_cancel _ (Nat.pow_pos (by decide)), leadingMantissa_of_eq_add_three hk]

/-- Whatever has a compact form and is not above a number is not above what the number is rounded
to. -/
theorem le_rounded {n m e : Nat} (hm : m < 2 ^ 23) (hle : m * 256 ^ e / 256 ^ 3 ≤ n) :
    m * 256 ^ e / 256 ^ 3 ≤ rounded n := by
  rcases short_or_long n with hshort | ⟨k, hk, hlong⟩
  · rwa [rounded_of_le_three hshort]
  · rw [rounded_of_eq_add_three hk]
    by_cases hunit : k + 3 ≤ e
    · -- The number is a multiple of the last octet that the mantissa keeps.
      obtain ⟨j, rfl⟩ := Nat.exists_eq_add_of_le' hunit
      have hmultiple : m * 256 ^ (j + (k + 3)) / 256 ^ 3 = m * 256 ^ j * 256 ^ k := by
        rw [← Nat.add_assoc, Nat.pow_add, Nat.pow_add, ← Nat.mul_assoc, ← Nat.mul_assoc,
          Nat.mul_div_cancel _ (by decide)]
      rw [hmultiple] at hle ⊢
      exact Nat.mul_le_mul_right _ ((Nat.le_div_iff_mul_le (Nat.pow_pos (by decide))).mpr hle)
    · -- The number is shorter than the mantissa at this place can be.
      have hpow : 256 ^ e ≤ 256 ^ (k + 2) := Nat.pow_le_pow_right (by decide) (by omega)
      have hshorter : m * 256 ^ e ≤ 2 ^ 23 * 256 ^ (k + 2) :=
        Nat.mul_le_mul (Nat.le_of_lt hm) hpow
      have hfront : 2 ^ 15 * 256 ^ k ≤ n / 256 ^ k * 256 ^ k := Nat.mul_le_mul_right _ hlong
      rw [Nat.pow_add] at hshorter
      omega

/-! ## Compact forms -/

/-- The length of a number in octets. -/
theorem exists_length_eq_succ {n : Nat} (hn : n ≠ 0) :
    ∃ size, (bitLength n + 7) / 8 = size + 1 ∧ 256 ^ size ≤ n ∧ n < 256 * 256 ^ size := by
  have hlog : n.log2 / 8 = Nat.log 256 n := by
    rw [Nat.log2_eq_log_two, ← Nat.log_pow_left]
  refine ⟨Nat.log 256 n, ?_, Nat.pow_log_le_self 256 hn, ?_⟩
  · rw [bitLength, if_neg hn]
    omega
  · rw [← Nat.pow_succ']
    exact Nat.lt_pow_succ_log_self (by decide) n

/-- A compact form consists of the exponent and the mantissa. -/
theorem toCompact_eq (t : Target) :
    t.toCompact =
      UInt32.ofNat (leadingExponent t.toNat * 2 ^ 24 + leadingMantissa t.toNat) := by
  by_cases hzero : t.toNat = 0
  · rw [toCompact, hzero]
    decide
  · obtain ⟨size, hsize, hle, hlt⟩ := exists_length_eq_succ hzero
    have hpow : 256 ^ (size + 1) = 256 * 256 ^ size := Nat.pow_succ'
    have hleading :
        (if size + 1 ≤ 3 then t.toNat <<< (8 * (3 - (size + 1)))
          else t.toNat >>> (8 * (size + 1 - 3))) = t.toNat * 256 ^ 3 / 256 ^ (size + 1) := by
      split
      next hshort =>
        rw [mul_pow_div_pow_of_ge hshort]
      next hlong =>
        rw [mul_pow_div_pow_of_le (Nat.le_of_not_le hlong)]
    simp only [toCompact, hsize, hleading]
    split
    next hclear =>
      rw [Nat.div_lt_iff_lt_mul (Nat.pow_pos (by decide))] at hclear
      have hexponent : leadingExponent t.toNat = size + 1 :=
        leadingExponent_eq (by omega) (by omega)
      rw [leadingMantissa, hexponent, Nat.shiftLeft_eq]
    next hset =>
      rw [Nat.not_lt, Nat.le_div_iff_mul_le (Nat.pow_pos (by decide))] at hset
      have hpow' : 256 ^ (size + 2) = 256 * 256 ^ (size + 1) := Nat.pow_succ'
      have hexponent : leadingExponent t.toNat = size + 2 :=
        leadingExponent_eq (by omega) (by omega)
      rw [leadingMantissa, hexponent, Nat.shiftLeft_eq, Nat.shiftRight_eq_div_pow,
        Nat.div_div_eq_div_mul, hpow', Nat.mul_comm 256]

theorem toNat_toCompact (t : Target) :
    t.toCompact.toNat = leadingExponent t.toNat * 2 ^ 24 + leadingMantissa t.toNat := by
  have hexponent : leadingExponent t.toNat ≤ 33 := by
    have hlt : t.toNat < 2 ^ 256 := t.value.isLt
    exact Nat.le_of_lt_succ (Nat.log_lt_of_lt_pow' (by decide) (by omega))
  have hmantissa := leadingMantissa_lt t.toNat
  rw [toCompact_eq, UInt32.toNat_ofNat', Nat.mod_eq_of_lt (by omega)]

theorem exponent_toCompact (t : Target) : exponent t.toCompact = leadingExponent t.toNat := by
  have hmantissa := leadingMantissa_lt t.toNat
  rw [exponent, toNat_toCompact]
  omega

theorem mantissa_toCompact (t : Target) : mantissa t.toCompact = leadingMantissa t.toNat := by
  have hmantissa := leadingMantissa_lt t.toNat
  rw [mantissa, toNat_toCompact]
  omega

theorem isNegative_toCompact (t : Target) : isNegative t.toCompact = false := by
  have hmantissa := leadingMantissa_lt t.toNat
  rw [isNegative, toNat_toCompact, Nat.testBit_eq_decide_div_mod_eq, decide_eq_false_iff_not]
  omega

/-- The compact form of a target stands for what the target is rounded to. -/
theorem ofCompact_toCompact (t : Target) :
    ofCompact t.toCompact = .ok (ofNat (rounded t.toNat)) := by
  have hlt : t.toNat < 2 ^ 256 := t.value.isLt
  have hle : leadingMantissa t.toNat * 256 ^ leadingExponent t.toNat ≤ t.toNat * 256 ^ 3 :=
    Nat.div_mul_le_self _ _
  rw [ofCompact_eq, isNegative_toCompact, exponent_toCompact, mantissa_toCompact, if_neg (by simp),
    if_neg (by omega), rounded]

/-- The place of the sign is left clear. -/
example : toCompact (ofNat 0x80) = 0x02008000 := by decide

/-- No compact form stands for a target above the easiest. -/
theorem toNat_le_easiest {bits : UInt32} {t : Target} (hok : ofCompact bits = .ok t) :
    t.toNat ≤ easiest.toNat := by
  have hexponent : leadingExponent (2 ^ 256 - 1) = 30 + 3 :=
    leadingExponent_eq (by decide) (by decide)
  have hgreatest : rounded (2 ^ 256 - 1) = 0xffff * 2 ^ 240 := by
    rw [rounded_of_eq_add_three hexponent]
    rfl
  have hle : t.toNat ≤ 2 ^ 256 - 1 := Nat.le_sub_one_of_lt t.value.isLt
  rw [toNat_of_ofCompact_eq_ok hok] at hle ⊢
  rw [toNat_easiest, ← hgreatest]
  exact le_rounded (mantissa_lt bits) hle

/-- Writing a target in compact form rounds it down to the nearest target that has one. -/
theorem exists_ofCompact_toCompact (t : Target) :
    ∃ r, ofCompact t.toCompact = .ok r ∧ r.toNat ≤ t.toNat ∧
      (∀ bits s, ofCompact bits = .ok s → s.toNat ≤ t.toNat → s.toNat ≤ r.toNat) ∧
      r.toCompact = t.toCompact := by
  have hlt : rounded t.toNat < 2 ^ 256 := Nat.lt_of_le_of_lt (rounded_le _) t.value.isLt
  refine ⟨ofNat (rounded t.toNat), ofCompact_toCompact t, ?_, ?_, ?_⟩
  · rw [toNat_ofNat_of_lt hlt]
    exact rounded_le _
  · intro bits s hs hle
    rw [toNat_of_ofCompact_eq_ok hs] at hle ⊢
    rw [toNat_ofNat_of_lt hlt]
    exact le_rounded (mantissa_lt bits) hle
  · rw [toCompact_eq, toNat_ofNat_of_lt hlt, leadingExponent_rounded, leadingMantissa_rounded,
      ← toCompact_eq]

end LightClient.Target
