import Mathlib.Algebra.BigOperators.Group.List.Basic
import LightClient.Proofs.Header
import LightClient.Proofs.Transaction.Components

/-!
# Formats in a stream

The parts of transactions and the headers have one encoding for each value, and each encoding can be
told from what follows it. So a reader takes a value from the octets up to some place exactly when
these octets are what is written for the value. A byte string has fewer than 2^64 octets, hence any
count or length of what stands in it can be written; no other bound is needed.
-/

namespace LightClient

/-- An exact decoder takes a value from the octets that encode it, and moves the reader behind
them. -/
theorem Read.decode_eq_ok_iff_region {α : Type} {d : Decoder α} {fits : α → Prop}
    {enc : α → Bytes} {r t : Reader} {a : α} (hd : d.Exact fits enc) (hne : enc a ≠ []) :
    Read.decode d r = .ok a t ↔
      fits a ∧ t = { r with offset := t.offset } ∧ t.offset ≤ r.size ∧
        r.region? r.offset t.offset = some (enc a) := by
  constructor
  · intro hok
    have ht := Read.eq_of_decode_eq_ok hok
    rw [ht, Read.decode_eq_ok_iff_spells hd.reads] at hok
    obtain ⟨bs, ⟨hfits, rfl⟩, hspan⟩ := hok
    exact ⟨hfits, ht, (Reader.exists_spans_iff hne).mp hspan⟩
  · rintro ⟨hfits, ht, hregion⟩
    rw [ht, Read.decode_eq_ok_iff_spells hd.reads]
    exact ⟨enc a, ⟨hfits, rfl⟩, (Reader.exists_spans_iff hne).mpr hregion⟩

/-- A part of a byte string is no longer than the whole. -/
theorem Reader.length_le_of_region? {r : Reader} {start stop : Nat} {bs : Bytes}
    (hregion : r.region? start stop = some bs) : bs.length ≤ r.size := by
  unfold region? at hregion
  split at hregion
  next =>
    obtain rfl := Option.some.inj hregion
    rw [List.length_drop, List.length_take]
    show _ ≤ r.data.length
    omega
  next => cases hregion

namespace Wire

variable {α : Type} [Wire α]

/-- Values of a type are read in a stream as they are written, if they are of the kind that an
encoding carries whole. -/
structure Streams (α : Type) [Wire α] (carried : α → Prop) : Prop where
  /-- Every value can be written. -/
  written : ∀ a : α, ∃ bs, serialize a = .ok bs ∧ write a .growing = .ok () ⟨bs, none⟩
  /-- A value is read exactly from the octets that are written for it. -/
  read_eq_ok_iff : ∀ (r t : Reader) (a : α), r.size < 2 ^ 64 →
    (Read.decode Wire.decode r = .ok a t ↔
      carried a ∧ t = { r with offset := t.offset } ∧
        ∃ bs, serialize a = .ok bs ∧ t.offset ≤ r.size ∧ r.region? r.offset t.offset = some bs)
  /-- What is written is read back wherever it stands and whatever follows. -/
  read_serialized : ∀ (a : α) (bs before after : Bytes) (marks : List Nat), carried a →
    serialize a = .ok bs → bs.length < 2 ^ 64 →
      Read.decode Wire.decode ⟨before ++ bs ++ after, before.length, marks⟩ =
        .ok a ⟨before ++ bs ++ after, before.length + bs.length, marks⟩
  /-- Octets from which the same value is read are the same. -/
  region?_eq : ∀ (r r' t t' : Reader) (a : α), Read.decode Wire.decode r = .ok a t →
    Read.decode Wire.decode r' = .ok a t' →
      r.region? r.offset t.offset = r'.region? r'.offset t'.offset

/-- An exact decoder reads in a stream, if nothing is encoded in no octets and if what is encoded in
fewer than 2^64 octets fits. -/
theorem streams_of_exact {fits carried : α → Prop} (hdecode : (decode (α := α)).Exact fits bytes)
    (hsize : ∀ a : α, (bytes a).length = size a) (hpos : ∀ a : α, 0 < size a)
    (hfits : ∀ a : α, fits a → carried a)
    (hcarried : ∀ a : α, carried a → (bytes a).length < 2 ^ 64 → fits a) :
    Streams α carried := by
  have hne (a : α) : bytes a ≠ [] := by
    rw [← List.length_pos_iff, hsize]
    exact hpos a
  have hserialize (a : α) : serialize a = .ok (bytes a) := serialize_eq_ok (hsize a)
  refine ⟨fun a => ?_, fun r t a hlt => ?_, fun a bs before after marks ha hbs hlt => ?_,
    fun r r' t t' a hok hok' => ?_⟩
  · exact ⟨bytes a, hserialize a, write_eq_ok (w := .growing) (hsize a) rfl⟩
  · rw [Read.decode_eq_ok_iff_region hdecode (hne a)]
    constructor
    · rintro ⟨ha, ht, hregion⟩
      exact ⟨hfits a ha, ht, bytes a, hserialize a, hregion⟩
    · rintro ⟨ha, ht, bs, hbs, hstop, hregion⟩
      obtain rfl := Except.ok.inj ((hserialize a).symm.trans hbs)
      have hlength := Reader.length_le_of_region? hregion
      exact ⟨hcarried a ha (by omega), ht, hstop, hregion⟩
  · obtain rfl := Except.ok.inj ((hserialize a).symm.trans hbs)
    exact Read.decode_of_spells hdecode.reads ⟨hcarried a ha hlt, rfl⟩ before after marks
  · obtain ⟨-, -, -, hregion⟩ := (Read.decode_eq_ok_iff_region hdecode (hne a)).mp hok
    obtain ⟨-, -, -, hregion'⟩ := (Read.decode_eq_ok_iff_region hdecode (hne a)).mp hok'
    rw [hregion, hregion']

end Wire

/-! ## What fits in a byte string -/

theorem Script.fits_of_length_bytes_lt {s : Script} (hlt : (Wire.bytes s).length < 2 ^ 64) :
    s.Fits := by
  rw [bytes_eq, List.length_append] at hlt
  show s.bytes.length < 2 ^ 64
  omega

/-- Each item takes up at least its octets and one more. -/
theorem Witness.fits_of_length_bytes_lt {w : Witness} (hlt : (Wire.bytes w).length < 2 ^ 64) :
    w.Fits := by
  rw [bytes_eq, List.length_append] at hlt
  have hitem (item : Bytes) : item.length < (itemBytes item).length := by
    have hpos := CompactSize.size_pos item.length
    rw [itemBytes, List.length_append, CompactSize.length_encode]
    omega
  constructor
  · have hcount : w.items.length ≤ (w.items.flatMap itemBytes).length := by
      rw [List.length_flatMap, ← List.length_map (f := fun item => (itemBytes item).length)]
      apply List.length_le_sum_of_one_le
      intro n hn
      obtain ⟨item, _, rfl⟩ := List.mem_map.mp hn
      exact Nat.lt_of_le_of_lt (Nat.zero_le _) (hitem item)
    omega
  · intro item hmem
    have hpart : (itemBytes item).length ≤ (w.items.flatMap itemBytes).length := by
      rw [List.flatMap_def]
      exact (List.sublist_flatten_of_mem (List.mem_map_of_mem hmem)).length_le
    have := hitem item
    omega

theorem Input.scriptSig_fits_of_length_bytes_lt {i : Input}
    (hlt : (Wire.bytes i).length < 2 ^ 64) : i.scriptSig.Fits := by
  rw [bytes_eq, List.length_append, List.length_append] at hlt
  apply Script.fits_of_length_bytes_lt
  omega

theorem Output.fits_of_length_bytes_lt {o : Output} (hlt : (Wire.bytes o).length < 2 ^ 64) :
    o.Fits := by
  rw [bytes_eq, List.length_append] at hlt
  apply Script.fits_of_length_bytes_lt
  omega

/-! ## The parts of transactions, and headers -/

/-- Scripts, witnesses, outpoints, outputs and headers are read in a stream as they are written; so
are inputs, but for their witnesses, which travel apart from them. -/
theorem streams_components :
    Wire.Streams Script (fun _ => True) ∧ Wire.Streams Witness (fun _ => True) ∧
      Wire.Streams Outpoint (fun _ => True) ∧ Wire.Streams Input (fun i => i.witness = .empty) ∧
      Wire.Streams Output (fun _ => True) ∧ Wire.Streams Header (fun _ => True) := by
  refine ⟨?_, ?_, ?_, ?_, ?_, ?_⟩
  · exact Wire.streams_of_exact Script.decode_exact Script.length_bytes
      (fun s => Nat.add_pos_left (CompactSize.size_pos _) _) (fun _ _ => trivial)
      fun _ _ => Script.fits_of_length_bytes_lt
  · exact Wire.streams_of_exact Witness.decode_exact Witness.length_bytes
      (fun w => Nat.add_pos_left (CompactSize.size_pos _) _) (fun _ _ => trivial)
      fun _ _ => Witness.fits_of_length_bytes_lt
  · exact Wire.streams_of_exact Outpoint.decode_exact Outpoint.length_bytes
      (fun _ => Nat.succ_pos _) (fun _ _ => trivial) fun _ _ _ => trivial
  · exact Wire.streams_of_exact Input.decode_exact Input.length_bytes
      (fun _ => Nat.succ_pos _) (fun _ => And.right)
      fun _ hempty hlt => ⟨Input.scriptSig_fits_of_length_bytes_lt hlt, hempty⟩
  · exact Wire.streams_of_exact Output.decode_exact Output.length_bytes
      (fun _ => Nat.add_pos_left (Nat.succ_pos _) _) (fun _ _ => trivial)
      fun _ _ => Output.fits_of_length_bytes_lt
  · exact Wire.streams_of_exact Header.decode_exact Header.length_wireBytes
      (fun _ => Nat.succ_pos _) (fun _ _ => trivial) fun _ _ _ => trivial

/-- The input of a coinbase whose script pushes one octet. -/
def Input.mined : Input :=
  ⟨.null, ⟨[0x01, 0x2a]⟩, Input.finalSequence, .empty⟩

/-- An input is read back from between two octets that are no part of it. -/
theorem streams_components_mined :
    Input.mined.witness = .empty ∧ ∃ bs, Wire.serialize Input.mined = .ok bs ∧
      bs.length < 2 ^ 64 ∧
      Read.decode Wire.decode ⟨[0x2a] ++ bs ++ [0xff], 1, []⟩ =
        .ok Input.mined ⟨[0x2a] ++ bs ++ [0xff], 1 + bs.length, []⟩ := by
  obtain ⟨-, -, -, hinput, -, -⟩ := streams_components
  have hserialize := Wire.serialize_eq_ok (Input.length_bytes Input.mined)
  have hlength : (Wire.bytes Input.mined).length < 2 ^ 64 := by
    rw [Input.length_bytes]
    decide
  exact ⟨rfl, _, hserialize, hlength,
    hinput.read_serialized Input.mined _ [0x2a] [0xff] [] rfl hserialize hlength⟩

end LightClient
