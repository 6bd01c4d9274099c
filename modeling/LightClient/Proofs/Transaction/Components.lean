import LightClient.Proofs.Wire
import LightClient.Transaction.Basic

/-!
# The parts of a transaction on the wire

Scripts, witnesses, outpoints, inputs and outputs are decoded exactly from their encodings, and
their encodings have the announced lengths. The only bound on a part comes from its counts and
lengths: each must be below 2^64, the end of what a compact size holds.
-/

namespace LightClient

/-! ## Scripts -/

namespace Script

/-- The script's length can be written. -/
def Fits (s : Script) : Prop :=
  s.bytes.length < 2 ^ 64

theorem bytes_eq (s : Script) :
    Wire.bytes s = CompactSize.encode s.bytes.length ++ s.bytes := by
  simp [Wire.bytes, Wire.pieces, Wire.varBytesPieces]

theorem length_bytes (s : Script) : (Wire.bytes s).length = Wire.size s := by
  rw [bytes_eq, List.length_append, CompactSize.length_encode]
  rfl

theorem decode_exact : (Wire.decode (α := Script)).Exact Fits Wire.bytes := by
  have hmap : (Wire.decode (α := Script)).Exact Fits
      (fun s => CompactSize.encode s.bytes.length ++ s.bytes) := by
    apply Decoder.varBytes_exact.map
    · intro bs hbs
      exact ⟨hbs, rfl⟩
    · intro s hs
      exact ⟨hs, rfl⟩
  exact hmap.congr (fun _ => Iff.rfl) (fun s _ => (bytes_eq s).symm)

end Script

/-! ## Witnesses -/

namespace Witness

/-- The number of items and the length of each can be written. -/
def Fits (w : Witness) : Prop :=
  w.items.length < 2 ^ 64 ∧ ∀ item ∈ w.items, item.length < 2 ^ 64

theorem empty_fits : empty.Fits := by
  simp [Fits, empty]

/-- An item on the wire. -/
def itemBytes (item : Bytes) : Bytes :=
  CompactSize.encode item.length ++ item

theorem bytes_eq (w : Witness) :
    Wire.bytes w = CompactSize.encode w.items.length ++ w.items.flatMap itemBytes := by
  have hitem (item : Bytes) : (Wire.varBytesPieces item).flatten = itemBytes item := by
    simp [Wire.varBytesPieces, itemBytes]
  simp only [Wire.bytes, Wire.pieces, List.flatten_cons, Wire.flatten_flatMap_pieces, hitem]

theorem length_bytes (w : Witness) : (Wire.bytes w).length = Wire.size w := by
  have hitem (item : Bytes) : (itemBytes item).length = Wire.varBytesSize item := by
    rw [itemBytes, List.length_append, CompactSize.length_encode, Wire.varBytesSize]
  rw [bytes_eq, List.length_append, CompactSize.length_encode, Wire.length_flatMap_eq_sumBy hitem]
  rfl

theorem decode_exact : (Wire.decode (α := Witness)).Exact Fits Wire.bytes := by
  have hmap : (Wire.decode (α := Witness)).Exact Fits
      (fun w => CompactSize.encode w.items.length ++ w.items.flatMap itemBytes) := by
    apply (Decoder.list_exact Decoder.varBytes_exact).map
    · intro items hitems
      exact ⟨hitems, rfl⟩
    · intro w hw
      exact ⟨hw, rfl⟩
  exact hmap.congr (fun _ => Iff.rfl) (fun w _ => (bytes_eq w).symm)

end Witness

/-! ## Inputs -/

namespace Outpoint

theorem bytes_eq (o : Outpoint) :
    Wire.bytes o = o.txid.bytes ++ Bytes.ofNat .little 4 o.index.toNat := by
  simp [Wire.bytes, Wire.pieces]

theorem length_bytes (o : Outpoint) : (Wire.bytes o).length = Wire.size o := by
  rw [bytes_eq, List.length_append, FixedBytes.length_bytes, Bytes.length_ofNat]
  rfl

theorem decode_exact : (Wire.decode (α := Outpoint)).Exact (fun _ => True) Wire.bytes := by
  have hindex (txid : Hash256) (_ : True) :
      Decoder.Exact (Decoder.uint32 >>= fun index => pure (Outpoint.mk txid index))
        (fun o => o.txid = txid ∧ True) (fun o => Bytes.ofNat .little 4 o.index.toNat) := by
    apply Decoder.uint32_exact.map
    · intro index _
      exact ⟨⟨rfl, trivial⟩, rfl⟩
    · rintro o ⟨rfl, _⟩
      exact ⟨trivial, rfl⟩
  apply ((Decoder.fixed_exact 32).bind hindex).congr
  · intro o
    simp
  · intro o _
    exact (bytes_eq o).symm

end Outpoint

namespace Input

/-- The lengths of the input's script and of its witness can be written. -/
def Fits (i : Input) : Prop :=
  i.scriptSig.Fits ∧ i.witness.Fits

theorem bytes_eq (i : Input) :
    Wire.bytes i =
      Wire.bytes i.prevout ++
        (Wire.bytes i.scriptSig ++ Bytes.ofNat .little 4 i.sequence.toNat) := by
  show (Wire.pieces i.prevout ++ Wire.pieces i.scriptSig ++ [_]).flatten = _
  simp [Wire.bytes]

theorem length_bytes (i : Input) : (Wire.bytes i).length = Wire.size i := by
  rw [bytes_eq, List.length_append, List.length_append, Outpoint.length_bytes,
    Script.length_bytes, Bytes.length_ofNat, ← Nat.add_assoc]
  rfl

/-- The witness is no part of the encoding. -/
theorem bytes_stripped (i : Input) : Wire.bytes i.stripped = Wire.bytes i :=
  rfl

/-- An input is decoded without a witness, which travels apart from it. -/
theorem decode_exact :
    (Wire.decode (α := Input)).Exact
      (fun i => i.scriptSig.Fits ∧ i.witness = .empty) Wire.bytes := by
  have hsequence (prevout : Outpoint) (scriptSig : Script) (_ : scriptSig.Fits) :
      Decoder.Exact
        (Decoder.uint32 >>= fun sequence => pure (Input.mk prevout scriptSig sequence .empty))
        (fun i => i.scriptSig = scriptSig ∧ i.prevout = prevout ∧ i.witness = .empty)
        (fun i => Bytes.ofNat .little 4 i.sequence.toNat) := by
    apply Decoder.uint32_exact.map
    · intro sequence _
      exact ⟨⟨rfl, rfl, rfl⟩, rfl⟩
    · rintro ⟨_, _, sequence, _⟩ ⟨rfl, rfl, rfl⟩
      exact ⟨trivial, rfl⟩
  have hscriptSig (prevout : Outpoint) (_ : True) :
      Decoder.Exact
        (Wire.decode >>= fun scriptSig => Decoder.uint32 >>= fun sequence =>
          pure (Input.mk prevout scriptSig sequence .empty))
        (fun i => i.prevout = prevout ∧ i.scriptSig.Fits ∧ i.witness = .empty)
        (fun i => Wire.bytes i.scriptSig ++ Bytes.ofNat .little 4 i.sequence.toNat) := by
    apply (Script.decode_exact.bind (hsequence prevout)).congr
    · intro i
      constructor
      · rintro ⟨hfits, hprevout, hwitness⟩
        exact ⟨hprevout, hfits, hwitness⟩
      · rintro ⟨hprevout, hfits, hwitness⟩
        exact ⟨hfits, hprevout, hwitness⟩
    · exact fun _ _ => rfl
  apply (Outpoint.decode_exact.bind hscriptSig).congr
  · intro i
    rw [true_and]
  · intro i _
    exact (bytes_eq i).symm

/-! ### Witnesses apart from inputs -/

theorem map_stripped_eq_self {is : List Input} (hempty : ∀ i ∈ is, i.witness = .empty) :
    is.map stripped = is := by
  have hself (i : Input) (hi : i ∈ is) : i.stripped = i := by
    rw [stripped, ← hempty i hi]
  rw [List.map_congr_left hself, List.map_id']

theorem map_stripped_attachWitnesses (is : List Input) (ws : List Witness) :
    (attachWitnesses is ws).map stripped = is.map stripped := by
  fun_induction attachWitnesses is ws with
  | case1 i is w ws ih =>
    rw [List.map_cons, List.map_cons, ih]
    rfl
  | case2 is ws _ => rfl

theorem map_witness_attachWitnesses {is : List Input} {ws : List Witness}
    (hlength : ws.length = is.length) : (attachWitnesses is ws).map witness = ws := by
  fun_induction attachWitnesses is ws with
  | case1 i is w ws ih =>
    rw [List.map_cons, ih (by simpa using hlength)]
  | case2 is ws hone =>
    cases is with
    | nil => exact (List.length_eq_zero_iff.mp hlength).symm
    | cons i is =>
      cases ws with
      | nil => simp at hlength
      | cons w ws => exact absurd rfl (hone i is w ws rfl)

theorem attachWitnesses_nil (is : List Input) : attachWitnesses is [] = is := by
  cases is <;> rfl

/-- Inputs are put together again from themselves without witnesses and their witnesses. -/
theorem attachWitnesses_map (is : List Input) :
    attachWitnesses (is.map stripped) (is.map witness) = is := by
  induction is with
  | nil => rfl
  | cons i is ih =>
    rw [List.map_cons, List.map_cons, attachWitnesses, ih]
    rfl

/-- Witnesses have no part in the encoding of inputs. -/
theorem listBytes_map_stripped (is : List Input) :
    Wire.listBytes (is.map stripped) = Wire.listBytes is := by
  simp only [Wire.listBytes, List.length_map, List.flatMap_map, bytes_stripped]

end Input

/-! ## Outputs -/

namespace Output

/-- The length of the output's script can be written. -/
def Fits (o : Output) : Prop :=
  o.scriptPubKey.Fits

theorem bytes_eq (o : Output) :
    Wire.bytes o = Bytes.ofNat .little 8 o.value.toNat ++ Wire.bytes o.scriptPubKey := by
  show (_ :: Wire.pieces o.scriptPubKey).flatten = _
  simp [Wire.bytes]

theorem length_bytes (o : Output) : (Wire.bytes o).length = Wire.size o := by
  rw [bytes_eq, List.length_append, Script.length_bytes, Bytes.length_ofNat]
  rfl

theorem decode_exact : (Wire.decode (α := Output)).Exact Fits Wire.bytes := by
  have hscript (value : UInt64) (_ : True) :
      Decoder.Exact (Wire.decode >>= fun scriptPubKey => pure (Output.mk value scriptPubKey))
        (fun o => o.value = value ∧ o.Fits) (fun o => Wire.bytes o.scriptPubKey) := by
    apply Script.decode_exact.map
    · intro script hscript
      exact ⟨⟨rfl, hscript⟩, rfl⟩
    · rintro o ⟨rfl, hfits⟩
      exact ⟨hfits, rfl⟩
  apply (Decoder.uint64_exact.bind hscript).congr
  · intro o
    rw [true_and]
  · intro o _
    exact (bytes_eq o).symm

end Output

end LightClient
