import LightClient.Proofs.Locality
import LightClient.Proofs.Script.Reading

/-!
# Walking through a script

A walk gives one instruction of a script at each call. It ends where no octet is left, and for good
at the first instruction that is cut short, behind the opcode and the length field of which it may
have taken. What it gives depends on the octets that are left and names where they stand, so over
two scripts, one behind the other, it is the walk over the first and then the walk over the second.
-/

namespace LightClient

open Decoder (Composed)

/-- An instruction is taken without a look ahead, in the steps that all decoders are made of. -/
theorem Instruction.decode_composed : Composed false Instruction.decode := by
  have hbyte : Composed false Decoder.byte :=
    (Composed.natural .little 1).bind fun n => .pure (UInt8.ofNat n)
  have hdata (opcode : UInt8) (length : Nat) :
      Composed false (Decoder.take length >>= fun data => pure (push opcode data)) :=
    (Composed.take length).bind fun data => .pure (push opcode data)
  apply hbyte.bind
  intro opcode
  cases Opcode.payload opcode with
  | absent => exact .pure (code opcode)
  | direct length => exact hdata opcode length
  | counted width => exact (Composed.natural .little width).bind (hdata opcode)

namespace Script

/-- A walk through a script: what is left of it, and whether an instruction was cut short. -/
structure Walk where
  rest : Suffix
  failed : Bool

namespace Walk

/-- The walk before the first call. -/
def ofBytes (bs : Bytes) : Walk :=
  ⟨.ofData bs 0, false⟩

/-- The number of octets that lie behind the walk. -/
def offset (w : Walk) : Nat :=
  w.rest.offset

/-- What a call gives, and the walk after it. Octets that were taken for an instruction that is cut
short stay taken. -/
def next (w : Walk) : Option (Except Error Instruction) × Walk :=
  if w.failed || w.rest.bytes.isEmpty then (none, w)
  else match Instruction.decode w.rest with
    | .ok i rest => (some (.ok i), ⟨rest, false⟩)
    | .error e rest => (some (.error e), ⟨rest, true⟩)

/-- The walk after so many calls. -/
def after : (calls : Nat) → Walk → Walk
  | 0, w => w
  | calls + 1, w => after calls w.next.2

/-- The step that a call makes, if it gives anything. -/
def step? (w : Walk) : Option Step :=
  w.next.1.map fun result => ⟨w.offset, result, w.next.2.offset⟩

/-- The same walk, `distance` octets further on. -/
def shift (distance : Nat) (w : Walk) : Walk :=
  ⟨w.rest.shift distance, w.failed⟩

/-- Nothing is given any more: no octet is left, or an instruction was cut short. -/
def Ended (w : Walk) : Prop :=
  w.failed = true ∨ w.rest.bytes = []

variable {w : Walk} {i : Instruction} {e : Error}

/-! ## One call -/

theorem next_of_ended (hended : w.Ended) : w.next = (none, w) := by
  apply if_pos
  simpa [Ended] using hended

theorem next_of_not_ended (hleft : ¬w.Ended) :
    w.next = match Instruction.decode w.rest with
      | .ok i rest => (some (.ok i), ⟨rest, false⟩)
      | .error e rest => (some (.error e), ⟨rest, true⟩) := by
  apply if_neg
  simpa [Ended] using hleft

/-- A call has nothing to give, or gives an instruction and goes on, or an error and ends. -/
theorem next_cases (w : Walk) :
    (w.Ended ∧ w.next = (none, w)) ∨
      (∃ i rest, Instruction.decode w.rest = .ok i rest ∧
        ¬w.Ended ∧ w.next = (some (.ok i), ⟨rest, false⟩)) ∨
      ∃ e rest, Instruction.decode w.rest = .error e rest ∧
        ¬w.Ended ∧ w.next = (some (.error e), ⟨rest, true⟩) := by
  by_cases hended : w.Ended
  · exact .inl ⟨hended, next_of_ended hended⟩
  · have hnext := next_of_not_ended hended
    cases hdecode : Instruction.decode w.rest with
    | ok i rest =>
      rw [hdecode] at hnext
      exact .inr (.inl ⟨i, rest, rfl, hended, hnext⟩)
    | error e rest =>
      rw [hdecode] at hnext
      exact .inr (.inr ⟨e, rest, rfl, hended, hnext⟩)

/-- A call only takes octets that are left, whatever it gives. -/
theorem reaches_next (w : Walk) : w.rest.Reaches w.next.2.rest := by
  have hran := Instruction.decode_composed.ranOn w.rest
  obtain ⟨-, hnext⟩ | ⟨i, rest, hdecode, -, hnext⟩ | ⟨e, rest, hdecode, -, hnext⟩ := w.next_cases
  · rw [hnext]
    exact .refl w.rest
  · rw [hdecode] at hran
    rw [hnext]
    exact hran
  · rw [hdecode] at hran
    rw [hnext]
    exact hran.1

/-- A call that gives an instruction takes its octets, of which there is at least one. -/
theorem offset_lt_of_next_eq_ok (hok : w.next.1 = some (.ok i)) :
    w.offset < w.next.2.offset := by
  obtain ⟨-, hnext⟩ | ⟨j, rest, hdecode, -, hnext⟩ | ⟨e, rest, -, -, hnext⟩ := w.next_cases
  · rw [hnext] at hok
    cases hok
  · obtain ⟨-, -, hoffset⟩ := (Instruction.decode_exact w.rest j rest).mp hdecode
    have hpos := List.length_pos_iff.mpr j.bytes_ne_nil
    rw [hnext]
    show w.rest.offset < rest.offset
    omega
  · rw [hnext] at hok
    cases hok

/-- Behind an instruction that is cut short nothing is given. -/
theorem ended_next_of_eq_error (herror : w.next.1 = some (.error e)) : w.next.2.Ended := by
  obtain ⟨-, hnext⟩ | ⟨i, rest, -, -, hnext⟩ | ⟨e', rest, -, -, hnext⟩ := w.next_cases
  · rw [hnext] at herror
    cases herror
  · rw [hnext] at herror
    cases herror
  · rw [hnext]
    exact .inl rfl

/-- A call does the same wherever the octets stand, and an error says where they do. -/
theorem next_shift (distance : Nat) (w : Walk) :
    (w.shift distance).next =
      (w.next.1.map (Except.mapError (Error.shift distance)), w.next.2.shift distance) := by
  by_cases hended : w.Ended
  · have hended' : (w.shift distance).Ended := hended
    rw [next_of_ended hended, next_of_ended hended']
    rfl
  · have hleft : ¬(w.shift distance).Ended := hended
    rw [next_of_not_ended hended, next_of_not_ended hleft, shift,
      Instruction.decode_composed.shifts]
    cases Instruction.decode w.rest <;> rfl

/-- The octets of a well-formed instruction are taken for it, whatever follows them. -/
theorem next_of_append {offset : Nat} {rest : Bytes} (hwf : i.WellFormed) :
    next ⟨⟨offset, i.bytes ++ rest⟩, false⟩ =
      (some (.ok i), ⟨⟨offset + i.bytes.length, rest⟩, false⟩) := by
  have hne : (i.bytes ++ rest).isEmpty = false := by simp [i.bytes_ne_nil]
  rw [next, if_neg (by simp [hne]), Instruction.decode_of_append hwf rfl]

/-! ## Several calls -/

theorem after_add (m n : Nat) (w : Walk) : w.after (m + n) = (w.after m).after n := by
  induction m generalizing w with
  | zero => rw [Nat.zero_add, after]
  | succ m ih => rw [Nat.succ_add, after, after, ih]

/-- The last of several calls starts where the others lead. -/
theorem after_succ (calls : Nat) (w : Walk) : w.after (calls + 1) = (w.after calls).next.2 :=
  after_add calls 1 w

theorem after_of_ended (hended : w.Ended) (calls : Nat) : w.after calls = w := by
  induction calls with
  | zero => rfl
  | succ calls ih => rw [after, next_of_ended hended, ih]

theorem reaches_after (calls : Nat) (w : Walk) : w.rest.Reaches (w.after calls).rest := by
  induction calls generalizing w with
  | zero => exact .refl w.rest
  | succ calls ih => exact (reaches_next w).trans (ih w.next.2)

theorem after_shift (distance calls : Nat) (w : Walk) :
    (w.shift distance).after calls = (w.after calls).shift distance := by
  induction calls generalizing w with
  | zero => rfl
  | succ calls ih => rw [after, after, next_shift, ih]

/-- As many calls as there are instructions in front lead behind them. -/
theorem after_of_flatMap_append {front : List Instruction} (hfront : ∀ i ∈ front, i.WellFormed)
    (offset : Nat) (rest : Bytes) :
    after front.length ⟨⟨offset, front.flatMap Instruction.bytes ++ rest⟩, false⟩ =
      ⟨⟨offset + Wire.sumBy Instruction.size front, rest⟩, false⟩ := by
  induction front generalizing offset with
  | nil => rfl
  | cons i front ih =>
    obtain ⟨hi, hfront⟩ := List.forall_mem_cons.mp hfront
    rw [List.length_cons, after, List.flatMap_cons, List.append_assoc, next_of_append hi,
      ih hfront, Wire.sumBy, i.length_bytes, Nat.add_assoc]

/-- Calls over the first of several instructions lead to the octets of the others. -/
theorem after_ofBytes_of_le {is : List Instruction} {calls : Nat} (hwf : ∀ i ∈ is, i.WellFormed)
    (rest : Bytes) (hcalls : calls ≤ is.length) :
    (ofBytes (is.flatMap Instruction.bytes ++ rest)).after calls =
      ⟨⟨Wire.sumBy Instruction.size (is.take calls),
        (is.drop calls).flatMap Instruction.bytes ++ rest⟩, false⟩ := by
  have htake : ∀ i ∈ is.take calls, i.WellFormed := fun i hi => hwf i (List.mem_of_mem_take hi)
  have hfront := after_of_flatMap_append htake 0 ((is.drop calls).flatMap Instruction.bytes ++ rest)
  rw [← List.append_assoc, ← List.flatMap_append, List.take_append_drop, Nat.zero_add,
    List.length_take_of_le hcalls] at hfront
  exact hfront

theorem sumBy_size (is : List Instruction) :
    Wire.sumBy Instruction.size is = (is.flatMap Instruction.bytes).length :=
  (Wire.length_flatMap_eq_sumBy Instruction.length_bytes is).symm

/-- Further calls do what they do over the octets behind the instructions alone. -/
theorem after_ofBytes_add {is : List Instruction} (hwf : ∀ i ∈ is, i.WellFormed) (rest : Bytes)
    (calls : Nat) :
    (ofBytes (is.flatMap Instruction.bytes ++ rest)).after (is.length + calls) =
      ((ofBytes rest).after calls).shift (is.flatMap Instruction.bytes).length := by
  have hwhole : (ofBytes (is.flatMap Instruction.bytes ++ rest)).after is.length =
      (ofBytes rest).shift (is.flatMap Instruction.bytes).length := by
    rw [after_ofBytes_of_le hwf rest (Nat.le_refl _), List.take_length, List.drop_length,
      sumBy_size]
    rfl
  rw [after_add, hwhole, after_shift]

theorem step?_after_of_ended (hended : w.Ended) (calls : Nat) : (w.after calls).step? = none := by
  rw [after_of_ended hended, step?, next_of_ended hended]
  rfl

/-- As long as there is something to give, reading takes a step. -/
theorem walk_of_not_ended (hleft : ¬w.Ended) (fuel : Nat) :
    walk (fuel + 1) w.rest = match Instruction.decode w.rest with
      | .ok i rest => ⟨w.rest.offset, .ok i, rest.offset⟩ :: walk fuel rest
      | .error e rest => [⟨w.rest.offset, .error e, rest.offset⟩] := by
  apply if_neg
  rw [List.isEmpty_iff]
  exact fun hnil => hleft (.inr hnil)

/-- The calls make the steps of reading, one after the other, and no others. -/
theorem getElem?_walk {fuel : Nat} (hfuel : w.rest.bytes.length ≤ fuel) (hfailed : w.failed = false)
    (calls : Nat) : (walk fuel w.rest)[calls]? = (w.after calls).step? := by
  -- Every instruction has an octet, so the fuel lasts as long as octets are left.
  induction fuel generalizing w calls with
  | zero =>
    have hended : w.Ended := .inr (List.length_eq_zero_iff.mp (Nat.le_zero.mp hfuel))
    rw [step?_after_of_ended hended]
    rfl
  | succ fuel ih =>
    obtain ⟨hended, -⟩ | ⟨i, rest, hdecode, hleft, hnext⟩ | ⟨e, rest, hdecode, hleft, hnext⟩ :=
      w.next_cases
    · have hnil : w.rest.bytes = [] := by simpa [Ended, hfailed] using hended
      rw [step?_after_of_ended hended, walk, hnil]
      rfl
    · rw [walk_of_not_ended hleft, hdecode]
      cases calls with
      | zero =>
        rw [after, step?, hnext]
        rfl
      | succ calls =>
        obtain ⟨-, hbytes, -⟩ := (Instruction.decode_exact w.rest i rest).mp hdecode
        have hpos := List.length_pos_iff.mpr i.bytes_ne_nil
        have hlength : rest.bytes.length ≤ fuel := by
          rw [hbytes, List.length_append] at hfuel
          omega
        rw [after, hnext]
        exact ih (w := ⟨rest, false⟩) hlength rfl calls
    · rw [walk_of_not_ended hleft, hdecode]
      cases calls with
      | zero =>
        rw [after, step?, hnext]
        rfl
      | succ calls =>
        rw [after, hnext, step?_after_of_ended (.inl rfl)]
        rfl

end Walk

/-! ## Whole scripts -/

/-- What the call gives that comes after so many others. -/
def itemAt (bs : Bytes) (calls : Nat) : Option (Except Error Instruction) :=
  ((Walk.ofBytes bs).after calls).next.1

/-- The number of octets that were taken after so many calls. -/
def offsetAt (bs : Bytes) (calls : Nat) : Nat :=
  ((Walk.ofBytes bs).after calls).offset

/-- Over a script that can be read and any octets behind it, a walk gives the instructions of the
script, at offsets that count their octets, and then what it gives over the octets alone, with the
length of the script added to all offsets. Every instruction takes it forward, it stays within its
octets, and after an error it gives nothing. The calls make the steps from which instructions are
collected. -/
theorem walk_composes :
    (∀ (bs : Bytes) (calls : Nat),
      (stepsOf bs)[calls]? = (itemAt bs calls).map fun result =>
        ⟨offsetAt bs calls, result, offsetAt bs (calls + 1)⟩) ∧
    (∀ (a b : Bytes) (is : List Instruction), instructionsOf a = .ok is →
      (∀ calls ≤ is.length,
        offsetAt (a ++ b) calls = Wire.sumBy Instruction.size (is.take calls)) ∧
      Wire.sumBy Instruction.size is = a.length ∧
      (∀ calls (hcalls : calls < is.length), itemAt (a ++ b) calls = some (.ok is[calls])) ∧
      ∀ calls,
        offsetAt (a ++ b) (is.length + calls) = a.length + offsetAt b calls ∧
        itemAt (a ++ b) (is.length + calls) =
          (itemAt b calls).map (Except.mapError (Error.shift a.length))) ∧
    ∀ (bs : Bytes) (calls : Nat),
      offsetAt bs calls ≤ bs.length ∧
      (∀ i, itemAt bs calls = some (.ok i) → offsetAt bs calls < offsetAt bs (calls + 1)) ∧
      ∀ e, itemAt bs calls = some (.error e) → ∀ later > calls, itemAt bs later = none := by
  refine ⟨fun bs calls => ?_, fun a b is hok => ?_, fun bs calls => ⟨?_, fun i hi => ?_, ?_⟩⟩
  · rw [offsetAt, offsetAt, Walk.after_succ]
    exact Walk.getElem?_walk (w := Walk.ofBytes bs) (Nat.le_refl _) rfl calls
  · obtain ⟨hwf, rfl⟩ := instructionsOf_eq_ok_iff.mp hok
    refine ⟨fun calls hcalls => ?_, Walk.sumBy_size is, fun calls hcalls => ?_,
      fun calls => ⟨?_, ?_⟩⟩
    · rw [offsetAt, Walk.after_ofBytes_of_le hwf b hcalls]
      rfl
    · rw [itemAt, Walk.after_ofBytes_of_le hwf b (Nat.le_of_lt hcalls),
        List.drop_eq_getElem_cons hcalls, List.flatMap_cons, List.append_assoc,
        Walk.next_of_append (hwf _ (List.getElem_mem hcalls))]
    · rw [offsetAt, Walk.after_ofBytes_add hwf]
      rfl
    · rw [itemAt, Walk.after_ofBytes_add hwf, Walk.next_shift]
      rfl
  · obtain ⟨taken, htaken, hrest⟩ := Walk.reaches_after calls (Walk.ofBytes bs)
    rw [offsetAt, Walk.offset, hrest]
    show 0 + taken ≤ bs.length
    rw [Nat.zero_add]
    exact htaken
  · rw [offsetAt, offsetAt, Walk.after_succ]
    exact Walk.offset_lt_of_next_eq_ok hi
  · intro e he later hlater
    obtain ⟨more, rfl⟩ := Nat.exists_eq_add_of_lt hlater
    have hended := Walk.ended_next_of_eq_error he
    rw [itemAt, Nat.add_right_comm, Walk.after_add, Walk.after_succ, Walk.after_of_ended hended,
      Walk.next_of_ended hended]

/-- Behind a push and an opcode that are complete, a push is cut short. -/
theorem walk_composes_before_cut_push :
    instructionsOf [0x01, 0x05, 0x76] = .ok [.push 0x01 [0x05], .code 0x76] ∧
      itemAt ([0x01, 0x05, 0x76] ++ [0x02, 0x07]) 1 = some (.ok (.code 0x76)) ∧
      offsetAt ([0x01, 0x05, 0x76] ++ [0x02, 0x07]) 2 = 3 ∧
      itemAt ([0x01, 0x05, 0x76] ++ [0x02, 0x07]) 2 = some (.error (.outOfBounds 4)) ∧
      offsetAt ([0x01, 0x05, 0x76] ++ [0x02, 0x07]) 3 = 4 ∧
      itemAt ([0x01, 0x05, 0x76] ++ [0x02, 0x07]) 3 = none := by
  have hok : instructionsOf [0x01, 0x05, 0x76] = .ok [.push 0x01 [0x05], .code 0x76] := rfl
  obtain ⟨-, hcompose, hends⟩ := walk_composes
  obtain ⟨hoffset, -, hitem, hbehind⟩ := hcompose [0x01, 0x05, 0x76] [0x02, 0x07] _ hok
  have hcut : itemAt ([0x01, 0x05, 0x76] ++ [0x02, 0x07]) 2 = some (.error (.outOfBounds 4)) :=
    (hbehind 0).2
  exact ⟨hok, hitem 1 (by decide), hoffset 2 (by decide), hcut, (hbehind 1).1,
    (hends _ 2).2.2 _ hcut 3 (by decide)⟩

end Script

end LightClient
