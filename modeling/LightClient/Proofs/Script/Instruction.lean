import LightClient.Script.Instruction
import LightClient.Proofs.Decoder

/-!
# Instructions and their octets

The opcode says what follows it: nothing, as many octets of data as the opcode names, or a length
field and as many octets as the field counts. An instruction is well-formed when its opcode can
carry its data in this way. The well-formed instructions are those that are read, each from its own
octets only, and those that are not refused when a script is put together.
-/

namespace LightClient

namespace Opcode

@[simp] theorem toNat_pushData1 : pushData1.toNat = 76 := rfl

@[simp] theorem toNat_pushData2 : pushData2.toNat = 77 := rfl

@[simp] theorem toNat_pushData4 : pushData4.toNat = 78 := rfl

/-- The direct pushes come first, then those with a length field; the opcodes above them stand
alone. -/
theorem payload_cases (opcode : UInt8) :
    (opcode.toNat ≤ 75 ∧ payload opcode = .direct opcode.toNat) ∨
      (opcode = pushData1 ∧ payload opcode = .counted 1) ∨
      (opcode = pushData2 ∧ payload opcode = .counted 2) ∨
      (opcode = pushData4 ∧ payload opcode = .counted 4) ∨
      (78 < opcode.toNat ∧ payload opcode = .absent) := by
  simp only [payload, UInt8.lt_iff_toNat_lt, ← UInt8.toNat_inj, toNat_pushData1, toNat_pushData2,
    toNat_pushData4]
  split
  · exact .inl ⟨by omega, rfl⟩
  · split
    · exact .inr (.inl ⟨by omega, rfl⟩)
    · split
      · exact .inr (.inr (.inl ⟨by omega, rfl⟩))
      · split
        · exact .inr (.inr (.inr (.inl ⟨by omega, rfl⟩)))
        · exact .inr (.inr (.inr (.inr ⟨by omega, rfl⟩)))

theorem payload_of_toNat_le {opcode : UInt8} (hdirect : opcode.toNat ≤ 75) :
    payload opcode = .direct opcode.toNat := by
  rw [payload, if_pos]
  rw [UInt8.lt_iff_toNat_lt, toNat_pushData1]
  omega

end Opcode

namespace Instruction

open Opcode

/-! ## Well-formed instructions -/

/-- The opcode can carry the data: as many octets as it says, or no more than its length field can
count. An opcode that stands alone is none of those that push. -/
def WellFormed : Instruction → Prop
  | .push opcode data =>
    (opcode.toNat ≤ 75 ∧ data.length = opcode.toNat) ∨
      (opcode = pushData1 ∧ data.length < 2 ^ 8) ∨
      (opcode = pushData2 ∧ data.length < 2 ^ 16) ∨
      (opcode = pushData4 ∧ data.length < 2 ^ 32)
  | .code opcode => pushData4 < opcode

instance (i : Instruction) : Decidable i.WellFormed :=
  match i with
  | .push opcode data => inferInstanceAs (Decidable
      ((opcode.toNat ≤ 75 ∧ data.length = opcode.toNat) ∨
        (opcode = pushData1 ∧ data.length < 2 ^ 8) ∨
        (opcode = pushData2 ∧ data.length < 2 ^ 16) ∨
        (opcode = pushData4 ∧ data.length < 2 ^ 32)))
  | .code opcode => inferInstanceAs (Decidable (pushData4 < opcode))

theorem wellFormed_code_iff {opcode : UInt8} :
    (code opcode).WellFormed ↔ payload opcode = .absent := by
  rw [WellFormed, UInt8.lt_iff_toNat_lt, toNat_pushData4]
  rcases payload_cases opcode with ⟨hle, hpayload⟩ | ⟨rfl, hpayload⟩ | ⟨rfl, hpayload⟩ |
    ⟨rfl, hpayload⟩ | ⟨hlt, hpayload⟩ <;> simp [hpayload] <;> omega

theorem wellFormed_push_iff {opcode : UInt8} {data : Bytes} :
    (push opcode data).WellFormed ↔
      payload opcode = .direct data.length ∨
        ∃ width, payload opcode = .counted width ∧ data.length < 256 ^ width := by
  simp only [WellFormed, ← UInt8.toNat_inj, toNat_pushData1, toNat_pushData2, toNat_pushData4]
  rcases payload_cases opcode with ⟨hle, hpayload⟩ | ⟨rfl, hpayload⟩ | ⟨rfl, hpayload⟩ |
    ⟨rfl, hpayload⟩ | ⟨hlt, hpayload⟩ <;> simp [hpayload] <;> omega

/-- What a well-formed instruction with a given opcode looks like, by what follows the opcode. -/
theorem wellFormed_under_iff {opcode : UInt8} {i : Instruction} :
    i.opcode = opcode ∧ i.WellFormed ↔
      match payload opcode with
      | .absent => i = code opcode
      | .direct length => ∃ data, i = push opcode data ∧ data.length = length
      | .counted width => ∃ data, i = push opcode data ∧ data.length < 256 ^ width := by
  cases i with
  | code opcode' =>
    cases hpayload : payload opcode <;> simp [Instruction.opcode, wellFormed_code_iff] <;> grind
  | push opcode' data =>
    cases hpayload : payload opcode <;> simp [Instruction.opcode, wellFormed_push_iff] <;> grind

/-- The data that an instruction pushes, none if it pushes nothing. -/
def content (i : Instruction) : Bytes :=
  i.data?.getD []

/-- An instruction is refused exactly when its opcode cannot carry its data, with the opcode and
their length. -/
theorem check_eq (i : Instruction) :
    i.check = if i.WellFormed then .ok ()
      else .error (.invalidLength i.opcode.toNat i.content.length) := by
  cases i with
  | code opcode =>
    simp only [check, wellFormed_code_iff]
    rfl
  | push opcode data =>
    have hfits : fits opcode data.length = true ↔ (push opcode data).WellFormed := by
      rw [wellFormed_push_iff, fits]
      cases payload opcode with
      | absent => simp
      | direct length => simp [eq_comm]
      | counted width =>
        have hpow : 2 ^ (8 * width) = 256 ^ width := Nat.pow_mul 2 8 width
        simp [Nat.shiftRight_eq_div_pow, Nat.div_eq_zero_iff, hpow]
    simp only [check, hfits]
    rfl

theorem check_eq_ok_iff {i : Instruction} : i.check = .ok () ↔ i.WellFormed := by
  rw [check_eq]
  split <;> simp_all

theorem check_eq_error_iff {i : Instruction} {e : Error} :
    i.check = .error e ↔
      ¬i.WellFormed ∧ e = .invalidLength i.opcode.toNat i.content.length := by
  rw [check_eq]
  split <;> simp_all [eq_comm]

/-! ## Octets -/

/-- The octets of an instruction after its opcode. -/
def tail : Instruction → Bytes
  | .push opcode data => lengthField opcode data.length ++ data
  | .code _ => []

theorem bytes_eq (i : Instruction) : i.bytes = i.opcode :: i.tail := by
  cases i <;> rfl

/-- A direct push consists of its opcode and its data. -/
theorem bytes_push_of_toNat_le {opcode : UInt8} (hdirect : opcode.toNat ≤ 75) (data : Bytes) :
    (push opcode data).bytes = opcode :: data := by
  rw [bytes, lengthField, payload_of_toNat_le hdirect]
  rfl

theorem bytes_ne_nil (i : Instruction) : i.bytes ≠ [] := by
  rw [bytes_eq]
  exact List.cons_ne_nil _ _

/-- An instruction is as long as announced, whether its opcode can carry its data or not. -/
theorem length_bytes (i : Instruction) : i.bytes.length = i.size := by
  cases i with
  | code opcode => rfl
  | push opcode data =>
    simp only [bytes, size, lengthField, List.cons_append, List.length_cons, List.length_append]
    cases payload opcode <;> simp only [List.length_nil, Bytes.length_ofNat] <;> omega

/-- Data of a known length, pushed under a known opcode. -/
theorem push_exact (opcode : UInt8) (length : Nat) :
    Decoder.Exact (Decoder.take length >>= fun data => pure (push opcode data))
      (fun i => ∃ data, i = push opcode data ∧ data.length = length) content := by
  apply (Decoder.take_exact length).map
  · intro data hlength
    exact ⟨⟨data, rfl, hlength⟩, rfl⟩
  · rintro i ⟨data, rfl, hlength⟩
    exact ⟨hlength, rfl⟩

/-- The octets after an opcode are those of a well-formed instruction that has it. -/
theorem tail_exact (opcode : UInt8) :
    Decoder.Exact (match payload opcode with
      | .absent => pure (.code opcode)
      | .direct length => Decoder.take length >>= fun data => pure (.push opcode data)
      | .counted width => Decoder.natural .little width >>= fun length =>
          Decoder.take length >>= fun data => pure (.push opcode data))
      (fun i => i.opcode = opcode ∧ i.WellFormed) tail := by
  cases hpayload : payload opcode with
  | absent =>
    apply (Decoder.Exact.pure (code opcode)).congr
    · intro i
      rw [wellFormed_under_iff, hpayload]
    · rintro i rfl
      rfl
  | direct length =>
    apply (push_exact opcode length).congr
    · intro i
      rw [wellFormed_under_iff, hpayload]
    · rintro i ⟨data, rfl, _⟩
      simp [content, tail, lengthField, hpayload, data?]
  | counted width =>
    have hpush (length : Nat) (_ : length < 256 ^ width) :
        Decoder.Exact (Decoder.take length >>= fun data => pure (push opcode data))
          (fun i => i.content.length = length ∧ ∃ data, i = push opcode data) content := by
      apply (push_exact opcode length).congr
      · intro i
        constructor
        · rintro ⟨data, rfl, hlength⟩
          exact ⟨hlength, data, rfl⟩
        · rintro ⟨hlength, data, rfl⟩
          exact ⟨data, rfl, hlength⟩
      · exact fun _ _ => rfl
    apply ((Decoder.natural_exact .little width).bind hpush).congr
    · intro i
      rw [wellFormed_under_iff, hpayload]
      constructor
      · rintro ⟨hlength, data, rfl⟩
        exact ⟨data, rfl, hlength⟩
      · rintro ⟨data, rfl, hlength⟩
        exact ⟨hlength, data, rfl⟩
    · rintro i ⟨_, data, rfl⟩
      simp [content, tail, lengthField, hpayload, data?]

/-- An instruction is taken from its octets if its opcode can carry its data, and from nothing
else. -/
theorem decode_exact : decode.Exact WellFormed bytes := by
  apply (Decoder.byte_exact.bind fun opcode _ => tail_exact opcode).congr
  · intro i
    simp
  · intro i _
    exact (bytes_eq i).symm

end Instruction

end LightClient
