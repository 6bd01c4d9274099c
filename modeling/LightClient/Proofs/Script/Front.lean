import LightClient.Proofs.Script.Instruction

/-!
# What a script starts with

Octets start with a well-formed instruction, or else they end within the first one: the opcode
announces a length field or data that are not all there. So reading an instruction fails for one
reason only, at the place where the missing octets should have started.
-/

namespace LightClient.Instruction

open Opcode

/-- The first instruction is not all there, and what is missing should have started behind the first
`taken` octets. -/
inductive CutShort : Bytes → (taken : Nat) → Prop
  /-- Fewer octets of data than the opcode says. -/
  | directData {opcode : UInt8} {length : Nat} {tail : Bytes}
    (hpayload : payload opcode = .direct length) (hshort : tail.length < length) :
    CutShort (opcode :: tail) 1
  /-- Not even the length field. -/
  | lengthField {opcode : UInt8} {width : Nat} {tail : Bytes}
    (hpayload : payload opcode = .counted width) (hshort : tail.length < width) :
    CutShort (opcode :: tail) 1
  /-- Fewer octets of data than the length field says. -/
  | countedData {opcode : UInt8} {field tail : Bytes}
    (hpayload : payload opcode = .counted field.length)
    (hshort : tail.length < Bytes.toNat .little field) :
    CutShort (opcode :: (field ++ tail)) (1 + field.length)

/-- A well-formed instruction comes first, or the first instruction is cut short. -/
theorem wellFormed_or_cutShort {bs : Bytes} (hne : bs ≠ []) :
    (∃ (i : Instruction) (rest : Bytes), i.WellFormed ∧ bs = i.bytes ++ rest) ∨
      ∃ taken, CutShort bs taken := by
  obtain ⟨opcode, tail, rfl⟩ := List.exists_cons_of_ne_nil hne
  cases hpayload : payload opcode with
  | absent => exact .inl ⟨code opcode, tail, wellFormed_code_iff.mpr hpayload, rfl⟩
  | direct length =>
    by_cases hshort : tail.length < length
    · exact .inr ⟨1, .directData hpayload hshort⟩
    · have hlength : (tail.take length).length = length := List.length_take_of_le (by omega)
      refine .inl ⟨push opcode (tail.take length), tail.drop length, ?_, ?_⟩
      · exact wellFormed_push_iff.mpr (.inl (by rw [hlength, hpayload]))
      · simp [bytes, lengthField, hpayload]
  | counted width =>
    by_cases hshort : tail.length < width
    · exact .inr ⟨1, .lengthField hpayload hshort⟩
    · obtain ⟨field, rest, rfl, rfl⟩ : ∃ field rest, tail = field ++ rest ∧ field.length = width :=
        ⟨tail.take width, tail.drop width, (List.take_append_drop width tail).symm,
          List.length_take_of_le (by omega)⟩
      by_cases hfew : rest.length < Bytes.toNat .little field
      · exact .inr ⟨_, .countedData hpayload hfew⟩
      · have hlength : (rest.take (Bytes.toNat .little field)).length = Bytes.toNat .little field :=
          List.length_take_of_le (by omega)
        refine .inl ⟨push opcode (rest.take (Bytes.toNat .little field)),
          rest.drop (Bytes.toNat .little field), ?_, ?_⟩
        · refine wellFormed_push_iff.mpr (.inr ⟨field.length, hpayload, ?_⟩)
          rw [hlength]
          exact Bytes.toNat_lt .little field
        · simp [bytes, Instruction.lengthField, hpayload, hlength, Bytes.ofNat_toNat]

/-- The octets of a well-formed instruction are read as this instruction, whatever follows. -/
theorem decode_of_append {i : Instruction} {s : Suffix} {rest : Bytes}
    (hwf : i.WellFormed) (hbytes : s.bytes = i.bytes ++ rest) :
    decode s = .ok i ⟨s.offset + i.bytes.length, rest⟩ :=
  (decode_exact s i _).mpr ⟨hwf, hbytes, rfl⟩

/-- An instruction that is cut short is refused at the place where octets are missing. -/
theorem decode_of_cutShort {s : Suffix} {taken : Nat} (hcut : CutShort s.bytes taken) :
    ∃ t, decode s = .error (.outOfBounds (s.offset + taken)) t := by
  obtain ⟨offset, bs⟩ := s
  have hopcode (opcode : UInt8) (tail : Bytes) :
      Decoder.byte ⟨offset, opcode :: tail⟩ = .ok opcode ⟨offset + 1, tail⟩ :=
    (Decoder.byte_exact _ _ _).mpr ⟨trivial, rfl, rfl⟩
  cases hcut with
  | directData hpayload hshort =>
    rw [decode, Guards.bind_of_eq_ok (hopcode _ _), hpayload]
    exact ⟨_, Guards.bind_of_eq_error (Decoder.take_of_length_lt hshort) _⟩
  | lengthField hpayload hshort =>
    rw [decode, Guards.bind_of_eq_ok (hopcode _ _), hpayload]
    exact ⟨_, Guards.bind_of_eq_error (Decoder.natural_of_length_lt hshort) _⟩
  | @countedData opcode field tail hpayload hshort =>
    have hlength : Decoder.natural .little field.length ⟨offset + 1, field ++ tail⟩ =
        .ok (Bytes.toNat .little field) ⟨offset + 1 + field.length, tail⟩ := by
      refine (Decoder.natural_exact .little field.length _ _ _).mpr
        ⟨Bytes.toNat_lt .little field, ?_⟩
      rw [Bytes.ofNat_toNat]
      exact ⟨rfl, rfl⟩
    rw [decode, Guards.bind_of_eq_ok (hopcode _ _), hpayload]
    refine ⟨⟨offset + 1 + field.length, tail⟩, ?_⟩
    rw [← Nat.add_assoc]
    exact (Guards.bind_of_eq_ok hlength _).trans
      (Guards.bind_of_eq_error (Decoder.take_of_length_lt hshort) _)

end LightClient.Instruction
