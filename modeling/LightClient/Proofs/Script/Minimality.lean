import LightClient.Proofs.Script.Reading

/-!
# Pushes without waste

A push is spelled without waste when its opcode is the one that a push of its data gets, and no
opcode without data pushes them by itself. A strict reader does not make that push again to compare:
it looks up the length of the data and the opcode in a table of its own. For every opcode and length
that can stand in a script the table and the choice of the opcode agree. So the reader accepts the
scripts that consist of such pushes, none of them oversized, and says of any other script what is
wrong with its first instruction that does not fit.
-/

namespace LightClient

namespace Instruction

open Opcode

/-- The data are a number that an opcode pushes by itself: from one to sixteen, or minus one. -/
def NamedNumber (data : Bytes) : Prop :=
  ∃ b, data = [b] ∧ ((1 ≤ b ∧ b ≤ 16) ∨ b = 0x81)

theorem hasSmallIntegerForm_iff {data : Bytes} :
    hasSmallIntegerForm data = true ↔ NamedNumber data := by
  unfold hasSmallIntegerForm NamedNumber
  split
  next b => simp
  next hne =>
    constructor
    · intro hfalse
      cases hfalse
    · rintro ⟨b, rfl, -⟩
      exact absurd rfl (hne b)

theorem push_eq_ofData_iff {opcode : UInt8} {data : Bytes} :
    push opcode data = ofData data ↔ opcode = shortestPush data.length := by
  rw [ofData, push.injEq, and_iff_left rfl]

/-- An opcode for direct data and their length are one number. -/
theorem toNat_eq_iff_eq_ofNat {opcode : UInt8} {n : Nat} (hn : n < 256) :
    opcode.toNat = n ↔ opcode = UInt8.ofNat n := by
  have hnat : (UInt8.ofNat n).toNat = n := UInt8.toNat_ofNat_of_lt hn
  rw [← UInt8.toNat_inj, hnat]

/-- The table says of a push that can stand in a script what a push of the same data does: the same
opcode, unless the data are a named number. -/
theorem isMinimal_push_iff {opcode : UInt8} {data : Bytes}
    (hwf : (push opcode data).WellFormed) :
    (push opcode data).isMinimal = true ↔
      push opcode data = ofData data ∧ ¬NamedNumber data := by
  rw [push_eq_ofData_iff, ← hasSmallIntegerForm_iff, Bool.not_eq_true, isMinimal, shortestPush]
  by_cases hempty : data.length = 0
  · obtain rfl := List.length_eq_zero_iff.mp hempty
    simp [hasSmallIntegerForm]
  rw [if_neg hempty]
  cases hnumber : hasSmallIntegerForm data with
  | true => simp
  | false =>
    simp only [Bool.false_eq_true, if_false, and_true]
    -- The two tables run through the same lengths, one up to a bound and the other below the next.
    by_cases hdirect : data.length < 0x4c
    · rw [if_pos (by omega : data.length ≤ 0x4b), if_pos hdirect, decide_eq_true_iff]
      exact toNat_eq_iff_eq_ofNat (by omega)
    rw [if_neg (by omega : ¬data.length ≤ 0x4b), if_neg hdirect]
    by_cases hone : data.length < 0x100
    · rw [if_pos (by omega : data.length ≤ 0xff), if_pos hone, decide_eq_true_iff]
    rw [if_neg (by omega : ¬data.length ≤ 0xff), if_neg hone]
    by_cases htwo : data.length < 0x10000
    · rw [if_pos (by omega : data.length ≤ 0xffff), if_pos htwo, decide_eq_true_iff]
    rw [if_neg (by omega : ¬data.length ≤ 0xffff), if_neg htwo]
    -- Of so many data the table accepts every opcode, but only one can carry them.
    obtain ⟨hcode, hlength⟩ | ⟨-, hlength⟩ | ⟨-, hlength⟩ | ⟨rfl, -⟩ := hwf
    · omega
    · omega
    · omega
    · exact iff_of_true rfl rfl

/-- An instruction without waste: no push, or a push of at most 520 octets under the opcode with the
shortest encoding, of data that are no named number. -/
def Sparing : Instruction → Prop
  | .push opcode data =>
    data.length ≤ 520 ∧ push opcode data = ofData data ∧ ¬NamedNumber data
  | .code _ => True

/-- Length and table decide whether an instruction is without waste. -/
theorem sparing_iff {i : Instruction} (hwf : i.WellFormed) :
    i.Sparing ↔ i.content.length ≤ 520 ∧ i.isMinimal = true := by
  cases i with
  | code opcode => simp [Sparing, content, data?, isMinimal]
  | push opcode data =>
    rw [isMinimal_push_iff hwf]
    rfl

/-- What a strict reader checks of an instruction, in this order. -/
def checkSparing (start : Nat) (i : Instruction) : Except Error Unit :=
  if 520 < i.content.length then .error (.pushTooLarge i.content.length)
  else if i.isMinimal = false then .error (.nonMinimalPush start)
  else .ok ()

theorem checkSparing_eq_ok_iff (start : Nat) (i : Instruction) :
    checkSparing start i = .ok () ↔ i.content.length ≤ 520 ∧ i.isMinimal = true := by
  unfold checkSparing
  split
  next hlarge => simp [Nat.not_le_of_lt hlarge]
  next hfits =>
    split
    next hminimal => simp [hminimal]
    next hminimal => simp [Nat.le_of_not_lt hfits, hminimal]

theorem checkSparing_eq_error_iff {start : Nat} {i : Instruction} {e : Error}
    (hwf : i.WellFormed) :
    checkSparing start i = .error e ↔
      (520 < i.content.length ∧ e = .pushTooLarge i.content.length) ∨
        (i.content.length ≤ 520 ∧ ¬i.Sparing ∧ e = .nonMinimalPush start) := by
  rw [sparing_iff hwf, checkSparing]
  by_cases hlarge : 520 < i.content.length
  · rw [if_pos hlarge]
    constructor
    · intro heq
      exact .inl ⟨hlarge, (Except.error.inj heq).symm⟩
    · rintro (⟨-, rfl⟩ | ⟨hfits, -, -⟩)
      · rfl
      · omega
  · rw [if_neg hlarge]
    have hfits : i.content.length ≤ 520 := Nat.le_of_not_lt hlarge
    by_cases hminimal : i.isMinimal = false
    · rw [if_pos hminimal]
      constructor
      · intro heq
        exact .inr ⟨hfits, by simp [hminimal], (Except.error.inj heq).symm⟩
      · rintro (⟨hlarge, -⟩ | ⟨-, -, rfl⟩)
        · omega
        · rfl
    · rw [if_neg hminimal]
      simp [hlarge, hfits, hminimal]

end Instruction

namespace Script

/-- A strict reader makes this check and no other. -/
theorem minimalInstructions_eq (s : Script) :
    s.minimalInstructions = readFrom Instruction.checkSparing ⟨0, s.bytes⟩ := by
  have hresult : Step.minimalResult = Step.checked Instruction.checkSparing := by
    funext step
    rw [Step.minimalResult, Step.checked]
    cases step.result with
    | error e => rfl
    | ok i =>
      show (if 520 < i.content.length then _ else _) = Instruction.checkSparing _ _ >>= _
      unfold Instruction.checkSparing
      split
      next => rfl
      next => split <;> rfl
  rw [minimalInstructions, hresult]
  rfl

/-- A strict reader accepts exactly the scripts that can be read and whose instructions all are
without waste. Of another script it reports the first instruction that is not: a push that is cut
short as any reader does, an oversized push with its length, and any other with the number of octets
before it. -/
theorem minimalInstructions_exact (s : Script) :
    (∀ is, s.minimalInstructions = .ok is ↔
      s.instructions = .ok is ∧ ∀ i ∈ is, i.Sparing) ∧
    ∀ e, s.minimalInstructions = .error e ↔
      ∃ (front : List Instruction) (rest : Bytes), (∀ i ∈ front, i.WellFormed ∧ i.Sparing) ∧
        s.bytes = front.flatMap Instruction.bytes ++ rest ∧
        let before := (front.flatMap Instruction.bytes).length
        (∃ taken, Instruction.CutShort rest taken ∧ e = .outOfBounds (before + taken) ∧
          s.instructions = .error e) ∨
        ∃ (i : Instruction) (back : Bytes), i.WellFormed ∧ rest = i.bytes ++ back ∧
          ((520 < i.content.length ∧ e = .pushTooLarge i.content.length) ∨
            (i.content.length ≤ 520 ∧ ¬i.Sparing ∧ e = .nonMinimalPush before)) := by
  have hsparing (is : List Instruction) :
      (∀ i ∈ is, i.WellFormed ∧ i.content.length ≤ 520 ∧ i.isMinimal = true) ↔
        ∀ i ∈ is, i.WellFormed ∧ i.Sparing := by
    refine forall₂_congr fun i _ => and_congr_right fun hwf => (Instruction.sparing_iff hwf).symm
  constructor
  · intro is
    rw [minimalInstructions_eq, readFrom_eq_ok_iff Instruction.checkSparing_eq_ok_iff, hsparing,
      instructions, instructionsOf_eq_ok_iff]
    constructor
    · rintro ⟨his, hbytes⟩
      exact ⟨⟨fun i hi => (his i hi).1, hbytes⟩, fun i hi => (his i hi).2⟩
    · rintro ⟨⟨hwf, hbytes⟩, his⟩
      exact ⟨fun i hi => ⟨hwf i hi, his i hi⟩, hbytes⟩
  · intro e
    rw [minimalInstructions_eq, readFrom_eq_error_iff Instruction.checkSparing_eq_ok_iff]
    simp only [hsparing, Nat.zero_add]
    refine exists₂_congr fun front rest => and_congr_right fun hfront =>
      and_congr_right fun hbytes => or_congr ?_ ?_
    · refine exists_congr fun taken => and_congr_right fun hcut => ?_
      rw [and_iff_left_of_imp]
      rintro rfl
      exact instructionsOf_eq_error_iff.mpr
        ⟨front, rest, taken, fun i hi => (hfront i hi).1, hbytes, hcut, rfl⟩
    · refine exists₂_congr fun i back => and_congr_right fun hwf => and_congr_right fun _ => ?_
      exact Instruction.checkSparing_eq_error_iff hwf

/-- The number five has an opcode of its own, so a push of it behind one octet is refused. -/
example : minimalInstructions ⟨[Opcode.opDup, 0x01, 0x05]⟩ = .error (.nonMinimalPush 1) := rfl

end Script

end LightClient
