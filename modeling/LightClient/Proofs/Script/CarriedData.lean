import Mathlib.Logic.Basic
import LightClient.Script.Template
import LightClient.Proofs.Script.Compilation

/-!
# Scripts that carry data

A script carries data when it is `OP_RETURN` and then the octets of instructions that push data or
small numbers. These instructions are determined by the script, and what it carries are their data,
one after the other; numbers add nothing. Any other script carries nothing: it does not start with
`OP_RETURN`, or it ends within an instruction, or some instruction has a larger opcode.
-/

namespace LightClient.Script

open Opcode Instruction

/-- The script is `OP_RETURN`, followed by what the instructions compile to, and none of these has a
larger opcode than those that push numbers. -/
def Carries (s : Script) (is : List Instruction) : Prop :=
  ∃ compiled : Script, ofInstructions is = .ok compiled ∧ (∀ i ∈ is, i.opcode ≤ pushSixteen) ∧
    s.bytes = opReturn :: compiled.bytes

variable {s : Script} {is : List Instruction}

theorem carries_iff :
    s.Carries is ↔
      (∀ i ∈ is, i.WellFormed ∧ i.opcode ≤ pushSixteen) ∧
        s.bytes = opReturn :: is.flatMap Instruction.bytes := by
  simp only [Carries, ofInstructions_eq_ok_iff, forall₂_and]
  constructor
  · rintro ⟨compiled, ⟨hwf, hcompiled⟩, hsmall, hbytes⟩
    exact ⟨⟨hwf, hsmall⟩, by rw [hbytes, hcompiled]⟩
  · rintro ⟨⟨hwf, hsmall⟩, hbytes⟩
    exact ⟨⟨is.flatMap Instruction.bytes⟩, ⟨hwf, rfl⟩, hsmall, hbytes⟩

theorem nullDataInstructions?_eq_some_iff : s.nullDataInstructions? = some is ↔ s.Carries is := by
  rw [carries_iff, nullDataInstructions?]
  split
  next first rest hbytes =>
    rw [hbytes, List.cons.injEq]
    by_cases hfirst : first = opReturn
    · rw [if_pos hfirst]
      cases hread : instructionsOf rest with
      | error e =>
        simp only [reduceCtorEq, false_iff, forall₂_and]
        rintro ⟨⟨hwf, -⟩, -, hrest⟩
        cases hread.symm.trans (instructionsOf_eq_ok_iff.mpr ⟨hwf, hrest⟩)
      | ok is' =>
        obtain ⟨hwf, hrest⟩ := instructionsOf_eq_ok_iff.mp hread
        simp only [Option.ite_none_right_eq_some, List.all_eq_true, decide_eq_true_eq,
          Option.some.injEq, forall₂_and]
        constructor
        · rintro ⟨hsmall, rfl⟩
          exact ⟨⟨hwf, hsmall⟩, hfirst, hrest⟩
        · rintro ⟨⟨hwf', hsmall⟩, -, hrest'⟩
          obtain rfl := Except.ok.inj
            (hread.symm.trans (instructionsOf_eq_ok_iff.mpr ⟨hwf', hrest'⟩))
          exact ⟨hsmall, rfl⟩
    · simp [hfirst]
  next hbytes => simp [hbytes]

theorem isNullData_iff : s.isNullData = true ↔ ∃ is, s.Carries is := by
  simp only [isNullData, Option.isSome_iff_exists, nullDataInstructions?_eq_some_iff]

/-- Instructions that push nothing contribute nothing. -/
theorem flatten_filterMap_data? (is : List Instruction) :
    (is.filterMap Instruction.data?).flatten = is.flatMap Instruction.content := by
  induction is with
  | nil => rfl
  | cons i is ih =>
    cases i with
    | push opcode data => exact congrArg (data ++ ·) ih
    | code opcode => exact ih

/-- No script that carries data is empty or starts otherwise, ends within an instruction, or has an
instruction that does more than push. -/
theorem not_carries_iff :
    (¬∃ is, s.Carries is) ↔
      s.bytes = [] ∨
      (∃ first rest, s.bytes = first :: rest ∧ first ≠ opReturn) ∨
      (∃ (front : List Instruction) (rest : Bytes) (taken : Nat), (∀ i ∈ front, i.WellFormed) ∧
        s.bytes = opReturn :: (front.flatMap Instruction.bytes ++ rest) ∧ CutShort rest taken) ∨
      ∃ is : List Instruction, (∀ i ∈ is, i.WellFormed) ∧
        s.bytes = opReturn :: is.flatMap Instruction.bytes ∧ ∃ i ∈ is, pushSixteen < i.opcode := by
  constructor
  · intro hnone
    cases hbytes : s.bytes with
    | nil => exact .inl rfl
    | cons first rest =>
      by_cases hfirst : first = opReturn
      · subst first
        cases hread : instructionsOf rest with
        | error e =>
          obtain ⟨front, back, taken, hwf, rfl, hcut, -⟩ := instructionsOf_eq_error_iff.mp hread
          exact .inr (.inr (.inl ⟨front, back, taken, hwf, rfl, hcut⟩))
        | ok is =>
          obtain ⟨hwf, rfl⟩ := instructionsOf_eq_ok_iff.mp hread
          by_cases hlarge : ∃ i ∈ is, pushSixteen < i.opcode
          · exact .inr (.inr (.inr ⟨is, hwf, rfl, hlarge⟩))
          · have hsmall : ∀ i ∈ is, i.opcode ≤ pushSixteen := fun i hi =>
              UInt8.not_lt.mp fun hlt => hlarge ⟨i, hi, hlt⟩
            exact absurd ⟨is, carries_iff.mpr ⟨fun i hi => ⟨hwf i hi, hsmall i hi⟩, hbytes⟩⟩ hnone
      · exact .inr (.inl ⟨first, rest, rfl, hfirst⟩)
  · rintro hother ⟨is, hcarries⟩
    obtain ⟨his, hbytes⟩ := carries_iff.mp hcarries
    have hread : instructionsOf (is.flatMap Instruction.bytes) = .ok is :=
      instructionsOf_eq_ok_iff.mpr ⟨fun i hi => (his i hi).1, rfl⟩
    rw [hbytes] at hother
    obtain hnil | ⟨first, rest, hsplit, hfirst⟩ | ⟨front, rest, taken, hwf, hsplit, hcut⟩ |
      ⟨is', hwf, hsplit, i, hi, hlarge⟩ := hother
    · cases hnil
    · exact hfirst (List.cons.inj hsplit).1.symm
    · have herror := instructionsOf_eq_error_iff.mpr
        ⟨front, rest, taken, hwf, (List.cons.inj hsplit).2, hcut, rfl⟩
      cases hread.symm.trans herror
    · have hread' := instructionsOf_eq_ok_iff.mpr ⟨hwf, (List.cons.inj hsplit).2⟩
      obtain rfl := Except.ok.inj (hread.symm.trans hread')
      exact UInt8.not_lt.mpr (his i hi).2 hlarge

/-- A script carries data exactly when it is `OP_RETURN` and then what instructions compile to that
push data or small numbers. Then it carries the data of these instructions in their order. Every
other script is refused as not carrying any; it is empty or starts otherwise, ends within an
instruction, or has an instruction with a larger opcode. -/
theorem carriedData_exact (s : Script) :
    (s.isNullData = true ↔ ∃ is, s.Carries is) ∧
      (∀ data, s.carriedData = .ok data ↔
        ∃ is, s.Carries is ∧ data = is.flatMap Instruction.content) ∧
      (∀ e, s.carriedData = .error e ↔ (¬∃ is, s.Carries is) ∧ e = .notNulldata) ∧
      ((¬∃ is, s.Carries is) ↔
        s.bytes = [] ∨
        (∃ first rest, s.bytes = first :: rest ∧ first ≠ opReturn) ∨
        (∃ (front : List Instruction) (rest : Bytes) (taken : Nat), (∀ i ∈ front, i.WellFormed) ∧
          s.bytes = opReturn :: (front.flatMap Instruction.bytes ++ rest) ∧ CutShort rest taken) ∨
        ∃ is : List Instruction, (∀ i ∈ is, i.WellFormed) ∧
          s.bytes = opReturn :: is.flatMap Instruction.bytes ∧
          ∃ i ∈ is, pushSixteen < i.opcode) := by
  refine ⟨isNullData_iff, ?_, ?_, not_carries_iff⟩
  · intro data
    simp only [← nullDataInstructions?_eq_some_iff, carriedData]
    cases s.nullDataInstructions? with
    | none => simp
    | some is => simp [flatten_filterMap_data?, eq_comm]
  · intro e
    simp only [← nullDataInstructions?_eq_some_iff, carriedData]
    cases s.nullDataInstructions? with
    | none => simp [eq_comm]
    | some is => simp

/-- Numbers stand between the data, and an octet of the data looks like `OP_RETURN`. -/
example : carriedData ⟨[opReturn, 0x51, 0x02, 0xab, 0x6a, 0x4f, pushData1, 0x01, 0xcd]⟩ =
    .ok [0xab, 0x6a, 0xcd] := rfl

end LightClient.Script
