import LightClient.Proofs.Block.Grammar
import LightClient.Proofs.Session.Reading
import LightClient.Session.Writing

/-!
# What was written step by step is read back

To every step of writing belongs a step of reading. A step appends octets that depend at most on
what was written before, and from these octets, with the same before them and anything behind, the
step of reading gives the value back and stops where they end. So a session of reading follows a
session of writing, value by value and offset by offset, and leaves nothing over.

One step can do otherwise. A fill whose count takes the length past a machine word succeeds too, but
it cuts off what was written before it, and no session with such a fill is read back.
-/

namespace LightClient

namespace Writer

theorem wordLength_of_lt {w : Writer} {n : Nat} (hword : w.offset + n < 2 ^ 64) :
    w.wordLength n = w.offset + n :=
  Nat.mod_eq_of_lt hword

/-- To lengthen is to write behind. -/
theorem resize_offset_add (w : Writer) (n : Nat) (octet : UInt8) :
    w.resize (w.offset + n) octet = w.append (List.replicate n octet) := by
  have hfront : w.data.take (w.offset + n) = w.data :=
    List.take_of_length_le (Nat.le_add_right _ _)
  rw [resize, append, hfront, Nat.add_sub_cancel_left]

end Writer

namespace Write

/-- What is written is brought to the length that a machine word gives, if the limit allows it. -/
theorem fill_eq_ok {octet : UInt8} {count : Nat} {w : Writer}
    (hallows : w.allows (w.wordLength count) = true) :
    fill octet count w = .ok () (w.resize (w.wordLength count) octet) := by
  show (if w.allows (w.wordLength count) = false then throw _ else set _ : Write Unit) w = _
  rw [hallows, if_neg Bool.noConfusion]
  rfl

theorem fill_eq_error {octet : UInt8} {count : Nat} {w : Writer}
    (hallows : w.allows (w.wordLength count) = false) :
    fill octet count w = .error (.outOfBounds w.offset) w := by
  show (if w.allows (w.wordLength count) = false then throw _ else set _ : Write Unit) w = _
  rw [if_pos hallows]
  rfl

/-- Within a machine word, filling is writing one piece. -/
theorem fill_eq_piece (octet : UInt8) {count : Nat} {w : Writer}
    (hword : w.offset + count < 2 ^ 64) :
    fill octet count w = piece (List.replicate count octet) w := by
  have hlength : (List.replicate count octet).length = count := List.length_replicate
  have hallows : w.allows (w.wordLength count) = w.hasRoom count := by
    rw [Writer.wordLength_of_lt hword, Writer.hasRoom]
  cases hroom : w.hasRoom count with
  | true =>
    rw [fill_eq_ok (hallows.trans hroom), piece_eq_ok (hlength.symm ▸ hroom),
      Writer.wordLength_of_lt hword, Writer.resize_offset_add]
  | false => rw [fill_eq_error (hallows.trans hroom), piece_eq_error (hlength.symm ▸ hroom)]

end Write

namespace WriteStep

/-! ## What belongs to a step -/

/-- The octets that a step writes behind others. -/
def octets (before : Bytes) : WriteStep → Bytes
  | .natural order width value => Bytes.ofNat order width value
  | .int32 value => Bytes.ofNat .little 4 value.toUInt32.toNat
  | .int64 value => Bytes.ofNat .little 8 value.toUInt64.toNat
  | .compactSize value => CompactSize.encode value.toNat
  | .bytes value => value
  | .varBytes value => CompactSize.encode value.length ++ value
  | .hash value => value.bytes
  | .fill octet count => List.replicate count octet
  | .checksum => (hash256 before).bytes.take 4
  | .script value => Wire.bytes value
  | .witness value => Wire.bytes value
  | .outpoint value => Wire.bytes value
  | .input value => Wire.bytes value
  | .output value => Wire.bytes value
  | .transaction value => Wire.bytes value
  | .header value => Wire.bytes value
  | .block value => Wire.bytes value

/-- The value that is read from what a step writes behind other octets: of a number the low octets,
of an input all but its witness, which travels elsewhere. -/
def value (before : Bytes) : WriteStep → ReadValue
  | .natural _ width value => .natural (value % 256 ^ width)
  | .int32 value => .integer value.toInt
  | .int64 value => .integer value.toInt
  | .compactSize value => .natural value.toNat
  | .bytes value => .bytes value
  | .varBytes value => .bytes value
  | .hash value => .hash value
  | .fill octet count => .bytes (List.replicate count octet)
  | .checksum => .natural (hash256 before).checksum.toNat
  | .script value => .script value
  | .witness value => .witness value
  | .outpoint value => .outpoint value
  | .input value => .input value.stripped
  | .output value => .output value
  | .transaction value => .transaction value
  | .header value => .header value
  | .block value => .block value

/-- The lengths and counts of a step are machine words: the lengths because its data are in memory,
the count of a fill because it is given as one. -/
def Fits : WriteStep → Prop
  | .varBytes value => value.length < 2 ^ 64
  | .fill _ count => count < 2 ^ 64
  | .script value => value.Fits
  | .witness value => value.Fits
  | .input value => value.scriptSig.Fits
  | .output value => value.Fits
  | .transaction value => value.Fits
  | .block value => value.Fits
  | _ => True

/-- The number of octets that a step writes, which is the same behind all others. -/
def size (step : WriteStep) : Nat :=
  (step.octets []).length

theorem length_octets (before : Bytes) (step : WriteStep) :
    (step.octets before).length = step.size := by
  cases step with
  | checksum => simp [octets, size]
  | _ => rfl

/-! ## Within a machine word -/

/-- Behind so many octets, the count of a fill keeps the length within a machine word. -/
def WithinWord (length : Nat) : WriteStep → Prop
  | .fill _ count => length + count < 2 ^ 64
  | _ => True

/-- Every fill of a list of steps does, where the steps before it lead. -/
def AllWithinWord (length : Nat) : List WriteStep → Prop
  | [] => True
  | step :: steps => step.WithinWord length ∧ AllWithinWord (length + step.size) steps

/-- The first step keeps within a machine word, and the others do behind what it writes. -/
theorem allWithinWord_cons (data : Bytes) {step : WriteStep} {steps : List WriteStep} :
    AllWithinWord data.length (step :: steps) ↔
      step.WithinWord data.length ∧ AllWithinWord (data ++ step.octets data).length steps := by
  rw [AllWithinWord, List.length_append, length_octets]

/-! ## Writing -/

/-- The writer after a list of steps. -/
def after (steps : List WriteStep) (w : Writer) : Writer :=
  steps.foldl (fun w step => (step.perform w).2) w

/-- A writer without a limit takes the octets of every step. -/
theorem run_growing {step : WriteStep} {data : Bytes} (hword : step.WithinWord data.length) :
    step.run ⟨data, none⟩ = .ok () ⟨data ++ step.octets data, none⟩ := by
  have hpieces (bss : List Bytes) :
      Write.pieces bss ⟨data, none⟩ = .ok () ⟨data ++ bss.flatten, none⟩ :=
    Write.pieces_eq_ok rfl
  cases step with
  | varBytes value =>
    have hboth := hpieces [CompactSize.encode value.length, value]
    rw [List.flatten_cons, List.flatten_singleton] at hboth
    exact hboth
  | fill octet count => exact Write.fill_eq_piece octet hword
  | script value => exact hpieces (Wire.pieces value)
  | witness value => exact hpieces (Wire.pieces value)
  | outpoint value => exact hpieces (Wire.pieces value)
  | input value => exact hpieces (Wire.pieces value)
  | output value => exact hpieces (Wire.pieces value)
  | transaction value => exact hpieces (Wire.pieces value)
  | header value => exact hpieces (Wire.pieces value)
  | block value => exact hpieces (Wire.pieces value)
  | _ => rfl

theorem perform_growing {step : WriteStep} {data : Bytes} (hword : step.WithinWord data.length) :
    step.perform ⟨data, none⟩ = (.ok (), ⟨data ++ step.octets data, none⟩) := by
  rw [perform, run_growing hword]

/-- What stands there when a list of steps was written behind other octets. -/
def written (before : Bytes) : List WriteStep → Bytes
  | [] => before
  | step :: steps => written (before ++ step.octets before) steps

theorem after_growing (data : Bytes) {steps : List WriteStep}
    (hwords : AllWithinWord data.length steps) :
    after steps ⟨data, none⟩ = ⟨written data steps, none⟩ := by
  induction steps generalizing data with
  | nil => rfl
  | cons step steps ih =>
    obtain ⟨hword, hwords⟩ := (allWithinWord_cons data).mp hwords
    rw [after, List.foldl_cons, perform_growing hword]
    exact ih _ hwords

theorem written_append (before : Bytes) (done rest : List WriteStep) :
    written before (done ++ rest) = written (written before done) rest := by
  induction done generalizing before with
  | nil => rfl
  | cons step done ih => exact ih (before ++ step.octets before)

/-- What was written stays. -/
theorem prefix_written (before : Bytes) (steps : List WriteStep) :
    before <+: written before steps := by
  induction steps generalizing before with
  | nil => exact List.prefix_rfl
  | cons step steps ih => exact (List.prefix_append _ _).trans (ih (before ++ step.octets before))

theorem allWithinWord_append (before : Bytes) {done rest : List WriteStep} :
    AllWithinWord before.length (done ++ rest) ↔
      AllWithinWord before.length done ∧ AllWithinWord (written before done).length rest := by
  induction done generalizing before with
  | nil => exact (and_iff_right trivial).symm
  | cons step done ih =>
    rw [List.cons_append, allWithinWord_cons, allWithinWord_cons, ih, and_assoc]
    rfl

/-! ## Reading back -/

end WriteStep

end LightClient
