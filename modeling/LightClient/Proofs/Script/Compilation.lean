import LightClient.Proofs.Wire
import LightClient.Proofs.Script.Reading

/-!
# Putting scripts together

A script that is put together from well-formed instructions consists of their octets. Reading it
gives the same instructions again, and what was read from a script gives the same script again, with
every push spelled as it was. An instruction whose opcode cannot carry its data is refused, the
first of several.
-/

namespace LightClient.Script

open Guards

/-- The announced length of a script is that of its octets, so writing them cannot fail. -/
theorem ofInstructions_eq (is : List Instruction) :
    ofInstructions is =
      is.forM Instruction.check >>= fun _ => pure ⟨is.flatMap Instruction.bytes⟩ := by
  have hlength : (is.flatMap Instruction.bytes).length = Wire.sumBy Instruction.size is :=
    Wire.length_flatMap_eq_sumBy Instruction.length_bytes is
  rw [List.flatMap_def] at hlength
  rw [ofInstructions, Wire.serializePieces_eq_ok hlength]
  rfl

/-- Well-formed instructions are put together from their octets, and no others are. -/
theorem ofInstructions_eq_ok_iff {is : List Instruction} {s : Script} :
    ofInstructions is = .ok s ↔
      (∀ i ∈ is, i.WellFormed) ∧ s.bytes = is.flatMap Instruction.bytes := by
  have hchecks : is.forM Instruction.check = .ok () ↔ ∀ i ∈ is, i.WellFormed := by
    simp only [forM_eq_ok_iff, Instruction.check_eq_ok_iff]
  rw [ofInstructions_eq, bind_eq_ok_iff, ← hchecks]
  constructor
  · rintro ⟨_, hok, hscript⟩
    obtain rfl := pure_eq_ok_iff.mp hscript
    exact ⟨hok, rfl⟩
  · rintro ⟨hok, hbytes⟩
    exact ⟨(), hok, pure_eq_ok_iff.mpr (congrArg mk hbytes.symm)⟩

/-- A push under a longer form than it needs keeps this form. -/
example : ofInstructions [.push Opcode.pushData1 [0xaa, 0xbb]] = .ok ⟨[0x4c, 2, 0xaa, 0xbb]⟩ := rfl

/-- The first instruction that is not well-formed is the one that is refused. -/
theorem ofInstructions_eq_error_iff {is : List Instruction} {e : Error} :
    ofInstructions is = .error e ↔
      ∃ front i back, is = front ++ i :: back ∧ (∀ j ∈ front, j.WellFormed) ∧ ¬i.WellFormed ∧
        e = .invalidLength i.opcode.toNat i.content.length := by
  have hchecks : ofInstructions is = .error e ↔ is.forM Instruction.check = .error e := by
    rw [ofInstructions_eq]
    cases is.forM Instruction.check with
    | ok u => exact ⟨nofun, nofun⟩
    | error e' =>
      show (Except.error e' : Except Error Script) = .error e ↔ _
      rw [Except.error.injEq, Except.error.injEq]
  rw [hchecks, forM_eq_error_iff]
  simp only [Instruction.check_eq_ok_iff, Instruction.check_eq_error_iff]

/-- Instructions are put together unless one of them is not well-formed. -/
theorem exists_ofInstructions_eq_error_iff {is : List Instruction} :
    (∃ e, ofInstructions is = .error e) ↔ ∃ i ∈ is, ¬i.WellFormed := by
  constructor
  · rintro ⟨e, herror⟩
    obtain ⟨front, i, back, rfl, -, hi, -⟩ := ofInstructions_eq_error_iff.mp herror
    exact ⟨i, List.mem_append_right front List.mem_cons_self, hi⟩
  · rintro ⟨i, hmem, hi⟩
    cases hok : ofInstructions is with
    | error e => exact ⟨e, rfl⟩
    | ok s => exact absurd ((ofInstructions_eq_ok_iff.mp hok).1 i hmem) hi

/-- Reading a script and putting instructions together are inverse to each other: a script is read
as the instructions from which it is put together, and from nothing else, byte for byte. Putting
together fails exactly when some opcode cannot carry its data, and then names the first such opcode
and the length of its data. -/
theorem instructions_ofInstructions_inverse (s : Script) (is : List Instruction) :
    (s.instructions = .ok is ↔ ofInstructions is = .ok s) ∧
      ((∃ e, ofInstructions is = .error e) ↔ ∃ i ∈ is, ¬i.WellFormed) ∧
      ∀ e, ofInstructions is = .error e ↔
        ∃ front i back, is = front ++ i :: back ∧ (∀ j ∈ front, j.WellFormed) ∧ ¬i.WellFormed ∧
          e = .invalidLength i.opcode.toNat i.content.length := by
  refine ⟨?_, exists_ofInstructions_eq_error_iff, fun e => ofInstructions_eq_error_iff⟩
  rw [ofInstructions_eq_ok_iff]
  exact instructionsOf_eq_ok_iff

end LightClient.Script
