import LightClient.Proofs.Block.Grammar
import LightClient.Proofs.Session.Reading

/-!
# Decoders are local

What a decoder does depends on the octets that it takes, and the place where they stand is only
named: with more octets in front of everything, the same happens further on, and an error says so.
The octets behind those that were taken do not matter once it has succeeded, although a transaction
is looked at ahead of what is taken. Around a decoder, the byte string and the marks stay as they
are, also when it fails half-way.
-/

namespace LightClient

/-- The error that is reported if everything stands `distance` octets further on. -/
def Error.shift (distance : Nat) : Error → Error
  | .outOfBounds offset => .outOfBounds (distance + offset)
  | .nonCanonicalSize offset => .nonCanonicalSize (distance + offset)
  | .checksumMismatch offset => .checksumMismatch (distance + offset)
  | .nonMinimalPush offset => .nonMinimalPush (distance + offset)
  | e => e

/-- A refusal names no place. -/
theorem Error.Refusal.shift_eq {e : Error} (he : e.Refusal) (distance : Nat) :
    e.shift distance = e := by
  cases he <;> rfl

/-- The same octets, `distance` octets further on. -/
def Suffix.shift (distance : Nat) (s : Suffix) : Suffix :=
  ⟨distance + s.offset, s.bytes⟩

theorem Suffix.shift_advance (distance n : Nat) (s : Suffix) :
    (s.shift distance).advance n = (s.advance n).shift distance := by
  simp [shift, advance, Nat.add_assoc]

/-- A size is the same wherever it stands. -/
theorem CompactSize.decode_shift (distance : Nat) (s : Suffix) :
    decode (s.shift distance) = (decode s).mapError (Error.shift distance) := by
  obtain ⟨offset, bytes⟩ := s
  cases bytes with
  | nil => rfl
  | cons marker rest =>
    simp only [decode, Suffix.shift]
    split
    · rfl
    · split
      · rfl
      · split <;> rfl

namespace Decoder

variable {α β : Type}

/-- The outcome of a run if everything stands `distance` octets further on. -/
def shiftOutcome (distance : Nat) :
    EStateM.Result Error Suffix α → EStateM.Result Error Suffix α
  | .ok a s => .ok a (s.shift distance)
  | .error e s => .error (e.shift distance) (s.shift distance)

/-- The decoder does the same wherever the octets stand. -/
def Shifts (d : Decoder α) : Prop :=
  ∀ distance s, d (s.shift distance) = shiftOutcome distance (d s)

theorem Shifts.bind {d : Decoder α} {f : α → Decoder β} (hd : d.Shifts) (hf : ∀ a, (f a).Shifts) :
    (d >>= f).Shifts := by
  intro distance s
  cases hrun : d s with
  | ok a m =>
    have hshifted : d (s.shift distance) = .ok a (m.shift distance) := by
      rw [hd, hrun, shiftOutcome]
    rw [Guards.bind_of_eq_ok hshifted, Guards.bind_of_eq_ok hrun, hf]
  | error e m =>
    have hshifted : d (s.shift distance) = .error (e.shift distance) (m.shift distance) := by
      rw [hd, hrun, shiftOutcome]
    rw [Guards.bind_of_eq_error hshifted, Guards.bind_of_eq_error hrun, shiftOutcome]

/-- None of the steps that decoders are made of asks where the octets stand. -/
theorem Composed.shifts {peeking : Bool} {d : Decoder α} (hd : d.Composed peeking) : d.Shifts := by
  induction hd with
  | pure a => exact fun _ _ => rfl
  | refuse he =>
    intro distance s
    show EStateM.Result.error _ _ = EStateM.Result.error _ _
    rw [he.shift_eq]
  | bind hd hf hdShifts hfShifts => exact hdShifts.bind hfShifts
  | fixed n =>
    intro distance s
    unfold Decoder.fixed
    by_cases hn : n ≤ s.bytes.length
    · have hn' : n ≤ (s.shift distance).bytes.length := hn
      rw [dif_pos hn, dif_pos hn', Suffix.shift_advance]
      rfl
    · have hn' : ¬n ≤ (s.shift distance).bytes.length := hn
      rw [dif_neg hn, dif_neg hn']
      rfl
  | compactSize =>
    intro distance s
    unfold Decoder.compactSize
    rw [CompactSize.decode_shift]
    cases CompactSize.decode s with
    | ok read => exact congrArg (EStateM.Result.ok read.1) (Suffix.shift_advance distance read.2 s)
    | error e => rfl
  | lookahead _ n => exact fun _ _ => rfl

end Decoder

/-! ## Decoding inside a byte string -/

/-- The reader with more octets in front of everything, and with marks of its own. -/
def Reader.behind (front : Bytes) (marks : List Nat) (r : Reader) : Reader :=
  ⟨front ++ r.data, front.length + r.offset, marks⟩

theorem Reader.suffix_behind (front : Bytes) (marks : List Nat) (r : Reader) :
    (r.behind front marks).suffix = r.suffix.shift front.length := by
  show Suffix.mk _ ((front ++ r.data).drop (front.length + r.offset)) = _
  rw [List.drop_length_add_append]
  rfl

/-- The reader with other octets from `stop` on. -/
def Reader.keep (stop : Nat) (rest : Bytes) (r : Reader) : Reader :=
  { r with data := r.data.take stop ++ rest }

/-- Only the offset differs, and it does not lie before where it was. -/
structure Reader.Forward (r t : Reader) : Prop where
  data_eq : t.data = r.data
  marks_eq : t.marks = r.marks
  offset_le : r.offset ≤ t.offset

/-- Octets are found again if everything up to their end is kept. -/
theorem Reader.spans_keep {r : Reader} {bs : Bytes} {s : Suffix} (hspan : r.suffix.Spans bs s)
    (rest : Bytes) :
    ∃ left, (r.keep s.offset rest).suffix.Spans bs ⟨s.offset, left⟩ := by
  obtain ⟨hbytes, hoffset⟩ := hspan
  replace hbytes : r.data.drop r.offset = bs ++ s.bytes := hbytes
  replace hoffset : s.offset = r.offset + bs.length := hoffset
  refine ⟨rest.drop (r.offset - (r.data.take s.offset).length), ?_, hoffset⟩
  show (r.data.take s.offset ++ rest).drop r.offset = _
  rw [List.drop_append, List.drop_take, hbytes, hoffset, Nat.add_sub_cancel_left, List.take_left]

namespace Read

variable {α : Type}

/-- The outcome of a run with more octets in front of everything. -/
def outcomeBehind (front : Bytes) (marks : List Nat) :
    EStateM.Result Error Reader α → EStateM.Result Error Reader α
  | .ok a t => .ok a (t.behind front marks)
  | .error e t => .error (e.shift front.length) (t.behind front marks)

end Read

namespace Decoder

variable {α : Type}

/-- Inside a byte string the decoder depends on the octets that it takes and on nothing else. -/
structure Local (d : Decoder α) : Prop where
  /-- The reader goes forward, whether the decoder succeeds or fails. -/
  forward : ∀ r : Reader, r.Forward (Read.final (Read.decode d r))
  /-- Octets in front of everything move the offsets, those in errors included. -/
  shifts : ∀ r front marks,
    Read.decode d (r.behind front marks) = Read.outcomeBehind front marks (Read.decode d r)
  /-- The octets behind those that were taken can be any others, more or fewer. -/
  forgets : ∀ r a t, Read.decode d r = .ok a t → ∀ rest,
    Read.decode d (r.keep t.offset rest) = .ok a (t.keep t.offset rest)

theorem Composed.forward {peeking : Bool} {d : Decoder α} (hd : d.Composed peeking) (r : Reader) :
    r.Forward (Read.final (Read.decode d r)) := by
  have hran := hd.ranOn r.suffix
  have hforward {s : Suffix} (hs : r.suffix.Reaches s) :
      r.Forward { r with offset := s.offset } := by
    obtain ⟨n, -, rfl⟩ := hs
    exact ⟨rfl, rfl, Nat.le_add_right r.offset n⟩
  unfold Read.decode
  cases hrun : d r.suffix with
  | ok a s =>
    rw [hrun] at hran
    exact hforward hran
  | error e s =>
    rw [hrun] at hran
    exact hforward hran.1

theorem Shifts.decode_behind {d : Decoder α} (hd : d.Shifts) (r : Reader) (front : Bytes)
    (marks : List Nat) :
    Read.decode d (r.behind front marks) = Read.outcomeBehind front marks (Read.decode d r) := by
  unfold Read.decode
  rw [Reader.suffix_behind, hd]
  cases d r.suffix <;> rfl

theorem Reads.decode_keep {d : Decoder α} {spells : α → Bytes → Prop} (hd : d.Reads spells)
    {r t : Reader} {a : α} (hok : Read.decode d r = .ok a t) (rest : Bytes) :
    Read.decode d (r.keep t.offset rest) = .ok a (t.keep t.offset rest) := by
  have ht := Read.eq_of_decode_eq_ok hok
  rw [ht, Read.decode_eq_ok_iff_spells hd] at hok
  obtain ⟨bs, hspells, s, hstop, hspan⟩ := hok
  obtain ⟨left, hspan'⟩ := Reader.spans_keep hspan rest
  rw [hstop] at hspan'
  have hkept : Read.decode d (r.keep t.offset rest) =
      .ok a { r.keep t.offset rest with offset := t.offset } :=
    (Read.decode_eq_ok_iff_spells hd).mpr ⟨bs, hspells, _, rfl, hspan'⟩
  rw [hkept, ht]
  rfl

/-- A decoder that is put together from steps, and takes what spells a value, is local. -/
theorem Composed.isLocal {d : Decoder α} {spells : α → Bytes → Prop}
    (hd : d.Composed true) (hreads : d.Reads spells) : d.Local where
  forward := hd.forward
  shifts := hd.shifts.decode_behind
  forgets _ _ _ hok rest := hreads.decode_keep hok rest

end Decoder

open Decoder (Local)

/-- Every decoder of a wire format is local. -/
theorem Wire.decoders_local :
    Local (decode (α := Script)) ∧ Local (decode (α := Witness)) ∧
      Local (decode (α := Outpoint)) ∧ Local (decode (α := Input)) ∧
      Local (decode (α := Output)) ∧ Local (decode (α := Transaction)) ∧
      Local (decode (α := Header)) ∧ Local (decode (α := Block)) :=
  ⟨Script.decode_composed.isLocal Script.decode_exact.reads,
    Witness.decode_composed.isLocal Witness.decode_exact.reads,
    Outpoint.decode_composed.isLocal Outpoint.decode_exact.reads,
    Input.decode_composed.isLocal Input.decode_exact.reads,
    Output.decode_composed.isLocal Output.decode_exact.reads,
    Transaction.decode_composed.isLocal Transaction.decode_reads,
    Header.decode_composed.isLocal Header.decode_exact.reads,
    Block.decode_composed.isLocal Block.decode_reads⟩

/-- A size that is longer than it need be is reported where it stands. -/
example : Read.decode (Wire.decode (α := Script)) ⟨[7, 7, 0xfd, 5, 0], 2, [1]⟩ =
    .error (.nonCanonicalSize 2) ⟨[7, 7, 0xfd, 5, 0], 2, [1]⟩ := by
  rfl

end LightClient
