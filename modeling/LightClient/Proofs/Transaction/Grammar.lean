import LightClient.Proofs.Transaction.Components

/-!
# The grammar of transactions

A transaction can be spelled in two ways. With a marker and a flag behind the version, one witness
for each input follows the outputs; without them, no witness may be there. The decoder accepts both
spellings and nothing else. The marker cannot be mistaken for a count of inputs, since only a
transaction without outputs has none, and then the octet where the flag would stand counts no
outputs.
-/

namespace LightClient.Transaction

/-- Every count and every length in the transaction is below 2^64, so that it can be written. -/
structure Fits (tx : Transaction) : Prop where
  inputs_lt : tx.inputs.length < 2 ^ 64
  outputs_lt : tx.outputs.length < 2 ^ 64
  input_fits : ∀ i ∈ tx.inputs, i.Fits
  output_fits : ∀ o ∈ tx.outputs, o.Fits

/-- The octets of a transaction, in either of its two spellings. -/
inductive Spelling (tx : Transaction) : Bytes → Prop where
  /-- Version, marker and flag, inputs, outputs, one witness for each input, lock time. -/
  | witnessed :
    Spelling tx (Bytes.ofNat .little 4 tx.version.toNat ++ [0x00, 0x01] ++
      Wire.listBytes tx.inputs ++ Wire.listBytes tx.outputs ++
      tx.inputs.flatMap (fun i => Wire.bytes i.witness) ++
      Bytes.ofNat .little 4 tx.locktime.toNat)
  /-- Version, inputs, outputs, lock time, if there is no witness that would be lost. -/
  | legacy (hempty : ∀ i ∈ tx.inputs, i.witness = .empty) :
    Spelling tx (Bytes.ofNat .little 4 tx.version.toNat ++
      Wire.listBytes tx.inputs ++ Wire.listBytes tx.outputs ++
      Bytes.ofNat .little 4 tx.locktime.toNat)

/-! ## Marker and flag -/

/-- What stands between the version and the inputs. -/
def marker (segwit : Bool) : Bytes :=
  if segwit then [0x00, 0x01] else []

/-- Two octets decide whether a marker and its flag are taken, or nothing. -/
theorem decodeMarker_eq (s : Suffix) :
    decodeMarker s =
      match s.bytes.take 2 with
      | [0x00, flag] =>
        if flag = 0x00 then .ok false s
        else if flag = 0x01 then (Decoder.take 2 >>= fun _ => pure true : Decoder Bool) s
        else .error (.unknownWitnessFlag flag) s
      | _ => .ok false s := by
  -- The state stands outside of the match on the left, so the two octets are told apart by hand.
  show (match s.bytes.take 2 with
    | [0x00, flag] => _
    | _ => pure false : Decoder Bool) s = _
  rcases s.bytes.take 2 with _ | ⟨first, _ | ⟨flag, _ | ⟨third, rest⟩⟩⟩
  · rfl
  · simp only
    rfl
  · by_cases hfirst : first = 0x00
    · subst hfirst
      by_cases hzero : flag = 0x00
      · simp only [hzero, if_true]
        rfl
      · by_cases hone : flag = 0x01
        · simp [hone]
        · simp only [hzero, hone, if_false, ne_eq, not_false_eq_true, if_true]
          rfl
    · simp only [List.cons.injEq, hfirst, and_true, false_and, imp_self, implies_true]
      rfl
  · simp only
    rfl

/-- The decoder takes the marker and the flag that it reports, or nothing. -/
theorem spans_of_decodeMarker_eq_ok {s t : Suffix} {segwit : Bool}
    (hok : decodeMarker s = .ok segwit t) : s.Spans (marker segwit) t := by
  rw [decodeMarker_eq] at hok
  split at hok
  next flag htake =>
    split at hok
    next =>
      obtain ⟨rfl, rfl⟩ := EStateM.Result.ok.inj hok
      exact Suffix.spans_nil_iff.mpr rfl
    next =>
      split at hok
      next hone =>
        obtain ⟨taken, m, htaken, hpure⟩ := Decoder.bind_eq_ok_iff.mp hok
        obtain ⟨rfl, rfl⟩ := Decoder.pure_eq_ok_iff.mp hpure
        obtain ⟨hlength, hspan⟩ := (Decoder.take_exact 2 _ _ _).mp htaken
        have hmarker : taken = [0x00, 0x01] := by
          rw [hspan.1, ← hlength, List.take_left, hone] at htake
          exact htake
        rw [hmarker] at hspan
        exact hspan
      next => simp at hok
  next =>
    obtain ⟨rfl, rfl⟩ := EStateM.Result.ok.inj hok
    exact Suffix.spans_nil_iff.mpr rfl

/-- Nothing is taken only where no flag stands behind a marker. -/
theorem eq_zero_of_decodeMarker_eq_ok {s t : Suffix} {flag : UInt8}
    (hok : decodeMarker s = .ok false t) (htake : s.bytes.take 2 = [0x00, flag]) :
    flag = 0x00 := by
  rw [decodeMarker_eq] at hok
  split at hok
  next flag' htake' =>
    obtain rfl : flag' = flag := by simpa [htake'] using htake
    split at hok
    next hzero => exact hzero
    next =>
      split at hok
      next =>
        obtain ⟨_, _, _, hpure⟩ := Decoder.bind_eq_ok_iff.mp hok
        cases (Decoder.pure_eq_ok_iff.mp hpure).1
      next => cases hok
  next hother => exact absurd htake (hother flag)

/-- A marker and its flag are taken, and nothing is taken where none can be seen. -/
theorem decodeMarker_of_spans {s t : Suffix} {segwit : Bool} (hspan : s.Spans (marker segwit) t)
    (hunmarked : segwit = false → ∀ flag, s.bytes.take 2 = [0x00, flag] → flag = 0x00) :
    decodeMarker s = .ok segwit t := by
  rw [decodeMarker_eq]
  cases segwit with
  | true =>
    have htake : s.bytes.take 2 = [0x00, 0x01] := by
      rw [hspan.1]
      rfl
    rw [htake]
    exact Decoder.bind_eq_ok_iff.mpr
      ⟨_, t, (Decoder.take_exact 2 _ _ _).mpr ⟨rfl, hspan⟩, rfl⟩
  | false =>
    obtain rfl := Suffix.spans_nil_iff.mp hspan
    split
    next flag htake => rw [if_pos (hunmarked rfl flag htake)]
    next => rfl

/-! ## What follows the marker -/

/-- The witnesses on the wire: one for each input, or none at all. -/
def carried (tx : Transaction) (segwit : Bool) : List Witness :=
  if segwit then tx.inputs.map Input.witness else []

/-- The octets behind the marker. -/
def bodyBytes (tx : Transaction) (segwit : Bool) : Bytes :=
  Wire.listBytes tx.inputs ++ (Wire.listBytes tx.outputs ++
    ((tx.carried segwit).flatMap Wire.bytes ++ Bytes.ofNat .little 4 tx.locktime.toNat))

/-- Takes what follows the marker. Without a marker there are no witnesses to take. -/
def decodeBody (version : UInt32) (segwit : Bool) : Decoder Transaction := do
  let inputs ← Decoder.list (Wire.decode (α := Input))
  let outputs ← Decoder.list (Wire.decode (α := Output))
  if hfunded : inputs = [] → outputs = [] then
    let witnesses ←
      Decoder.many (Wire.decode (α := Witness)) (if segwit then inputs.length else 0)
    let locktime ← Decoder.uint32
    return withWitnesses ⟨version, inputs, outputs, locktime, hfunded⟩ witnesses
  else throw .zeroInputsWithOutputs

theorem decode_eq :
    decode = Decoder.uint32 >>= fun version => decodeMarker >>= decodeBody version := by
  unfold decode decodeBody
  congr
  funext version
  congr
  funext segwit
  cases segwit <;> rfl

/-- Inputs, outputs, witnesses and lock time are decoded one after the other. -/
theorem decodeBody_eq_ok_iff_parts {version : UInt32} {segwit : Bool} {s t : Suffix}
    {tx : Transaction} :
    decodeBody version segwit s = .ok tx t ↔
      ∃ inputs m₁ outputs m₂ witnesses m₃ locktime, ∃ hfunded : inputs = [] → outputs = [],
        Decoder.list (Wire.decode (α := Input)) s = .ok inputs m₁ ∧
        Decoder.list (Wire.decode (α := Output)) m₁ = .ok outputs m₂ ∧
        Decoder.many (Wire.decode (α := Witness)) (if segwit then inputs.length else 0) m₂ =
          .ok witnesses m₃ ∧
        Decoder.uint32 m₃ = .ok locktime t ∧
        withWitnesses ⟨version, inputs, outputs, locktime, hfunded⟩ witnesses = tx := by
  unfold decodeBody
  constructor
  · intro hok
    obtain ⟨inputs, m₁, hinputs, hok⟩ := Decoder.bind_eq_ok_iff.mp hok
    obtain ⟨outputs, m₂, houtputs, hok⟩ := Decoder.bind_eq_ok_iff.mp hok
    by_cases hfunded : inputs = [] → outputs = []
    · rw [dif_pos hfunded] at hok
      obtain ⟨witnesses, m₃, hwitnesses, hok⟩ := Decoder.bind_eq_ok_iff.mp hok
      obtain ⟨locktime, m₄, hlocktime, hok⟩ := Decoder.bind_eq_ok_iff.mp hok
      obtain ⟨htx, rfl⟩ := Decoder.pure_eq_ok_iff.mp hok
      exact ⟨inputs, m₁, outputs, m₂, witnesses, m₃, locktime, hfunded, hinputs, houtputs,
        hwitnesses, hlocktime, htx⟩
    · rw [dif_neg hfunded] at hok
      cases hok
  · rintro ⟨inputs, m₁, outputs, m₂, witnesses, m₃, locktime, hfunded, hinputs, houtputs,
      hwitnesses, hlocktime, htx⟩
    refine Decoder.bind_eq_ok_iff.mpr ⟨inputs, m₁, hinputs, ?_⟩
    refine Decoder.bind_eq_ok_iff.mpr ⟨outputs, m₂, houtputs, ?_⟩
    rw [dif_pos hfunded]
    refine Decoder.bind_eq_ok_iff.mpr ⟨witnesses, m₃, hwitnesses, ?_⟩
    refine Decoder.bind_eq_ok_iff.mpr ⟨locktime, t, hlocktime, ?_⟩
    exact Decoder.pure_eq_ok_iff.mpr ⟨htx, rfl⟩

/-- Witnesses that were given to the inputs are the ones that travel. -/
theorem carried_withWitnesses (tx : Transaction) {segwit : Bool} {witnesses : List Witness}
    (hlength : witnesses.length = if segwit then tx.inputs.length else 0) :
    (tx.withWitnesses witnesses).carried segwit = witnesses := by
  cases segwit with
  | true => exact Input.map_witness_attachWitnesses hlength
  | false => exact (List.length_eq_zero_iff.mp hlength).symm

/-- A transaction is put together again from its stripped inputs and the witnesses that travel,
if no other witness is lost. -/
theorem attachWitnesses_carried {tx : Transaction} {segwit : Bool}
    (hempty : segwit = false → ∀ i ∈ tx.inputs, i.witness = .empty) :
    Input.attachWitnesses (tx.inputs.map Input.stripped) (tx.carried segwit) = tx.inputs := by
  cases segwit with
  | true => exact Input.attachWitnesses_map tx.inputs
  | false =>
    rw [carried, if_neg Bool.false_ne_true, Input.attachWitnesses_nil]
    exact Input.map_stripped_eq_self (hempty rfl)

/-- What is decoded behind the marker fits, and is what the octets there spell. -/
theorem fits_of_decodeBody_eq_ok {version : UInt32} {segwit : Bool} {s t : Suffix}
    {tx : Transaction} (hok : decodeBody version segwit s = .ok tx t) :
    tx.version = version ∧ tx.Fits ∧ (segwit = false → ∀ i ∈ tx.inputs, i.witness = .empty) ∧
      s.Spans (tx.bodyBytes segwit) t := by
  obtain ⟨inputs, m₁, outputs, m₂, witnesses, m₃, locktime, hfunded, hinputs, houtputs,
    hwitnesses, hlocktime, rfl⟩ := decodeBody_eq_ok_iff_parts.mp hok
  obtain ⟨⟨hinputsLt, hinputsFit⟩, hinputsSpan⟩ :=
    (Wire.list_exact Input.decode_exact _ _ _).mp hinputs
  obtain ⟨⟨houtputsLt, houtputsFit⟩, houtputsSpan⟩ :=
    (Wire.list_exact Output.decode_exact _ _ _).mp houtputs
  obtain ⟨⟨hlength, hwitnessesFit⟩, hwitnessesSpan⟩ :=
    (Witness.decode_exact.many _ _ _ _).mp hwitnesses
  have hlocktimeSpan := ((Decoder.uint32_exact _ _ _).mp hlocktime).2
  have hempty : ∀ i ∈ inputs, i.witness = .empty := fun i hi => (hinputsFit i hi).2
  have hstripped : (Input.attachWitnesses inputs witnesses).map Input.stripped = inputs := by
    rw [Input.map_stripped_attachWitnesses, Input.map_stripped_eq_self hempty]
  have hcarried := carried_withWitnesses ⟨version, inputs, outputs, locktime, hfunded⟩ hlength
  have hlegacy : segwit = false → Input.attachWitnesses inputs witnesses = inputs := by
    rintro rfl
    rw [List.length_eq_zero_iff.mp hlength, Input.attachWitnesses_nil]
  refine ⟨rfl, ⟨?_, houtputsLt, ?_, houtputsFit⟩, ?_, ?_⟩
  · rw [withWitnesses, Input.length_attachWitnesses]
    exact hinputsLt
  · intro i hi
    constructor
    · have hmem : i.stripped ∈ inputs := hstripped ▸ List.mem_map_of_mem hi
      exact (hinputsFit _ hmem).1
    · cases segwit with
      | true =>
        apply hwitnessesFit
        rw [← hcarried]
        exact List.mem_map_of_mem hi
      | false =>
        have hmem : i ∈ inputs := hlegacy rfl ▸ hi
        rw [hempty i hmem]
        exact Witness.empty_fits
  · intro hsegwit i hi
    have hmem : i ∈ inputs := hlegacy hsegwit ▸ hi
    exact hempty i hmem
  · have hbytes : Wire.listBytes (Input.attachWitnesses inputs witnesses) =
        Wire.listBytes inputs := by
      rw [← Input.listBytes_map_stripped, hstripped]
    rw [bodyBytes, hcarried]
    simp only [withWitnesses, hbytes]
    exact Suffix.spans_append_iff.mpr ⟨m₁, hinputsSpan, Suffix.spans_append_iff.mpr
      ⟨m₂, houtputsSpan, Suffix.spans_append_iff.mpr ⟨m₃, hwitnessesSpan, hlocktimeSpan⟩⟩⟩

/-- What a transaction that fits spells behind the marker is decoded to it. -/
theorem decodeBody_of_spans {tx : Transaction} {segwit : Bool} {s t : Suffix} (hfits : tx.Fits)
    (hempty : segwit = false → ∀ i ∈ tx.inputs, i.witness = .empty)
    (hspan : s.Spans (tx.bodyBytes segwit) t) : decodeBody tx.version segwit s = .ok tx t := by
  obtain ⟨m₁, hinputsSpan, hspan⟩ := Suffix.spans_append_iff.mp hspan
  obtain ⟨m₂, houtputsSpan, hspan⟩ := Suffix.spans_append_iff.mp hspan
  obtain ⟨m₃, hwitnessesSpan, hlocktimeSpan⟩ := Suffix.spans_append_iff.mp hspan
  rw [← Input.listBytes_map_stripped] at hinputsSpan
  have hinputsFit : (tx.inputs.map Input.stripped).length < 2 ^ 64 ∧
      ∀ i ∈ tx.inputs.map Input.stripped, i.scriptSig.Fits ∧ i.witness = .empty := by
    rw [List.length_map]
    refine ⟨hfits.inputs_lt, fun i hi => ?_⟩
    obtain ⟨j, hj, rfl⟩ := List.mem_map.mp hi
    exact ⟨(hfits.input_fits j hj).1, rfl⟩
  have hwitnessesFit : (tx.carried segwit).length =
      (if segwit then (tx.inputs.map Input.stripped).length else 0) ∧
      ∀ w ∈ tx.carried segwit, w.Fits := by
    cases segwit with
    | true =>
      refine ⟨by simp [carried], fun w hw => ?_⟩
      obtain ⟨i, hi, rfl⟩ := List.mem_map.mp hw
      exact (hfits.input_fits i hi).2
    | false => simp [carried]
  have hfunded : tx.inputs.map Input.stripped = [] → tx.outputs = [] :=
    fun hnil => tx.funded (List.map_eq_nil_iff.mp hnil)
  refine decodeBody_eq_ok_iff_parts.mpr ⟨tx.inputs.map Input.stripped, m₁, tx.outputs, m₂,
    tx.carried segwit, m₃, tx.locktime, hfunded, ?_, ?_, ?_, ?_, ?_⟩
  · exact (Wire.list_exact Input.decode_exact _ _ _).mpr ⟨hinputsFit, hinputsSpan⟩
  · exact (Wire.list_exact Output.decode_exact _ _ _).mpr
      ⟨⟨hfits.outputs_lt, hfits.output_fits⟩, houtputsSpan⟩
  · exact (Witness.decode_exact.many _ _ _ _).mpr ⟨hwitnessesFit, hwitnessesSpan⟩
  · exact (Decoder.uint32_exact _ _ _).mpr ⟨trivial, hlocktimeSpan⟩
  · have hinputs := attachWitnesses_carried hempty
    cases tx
    simp only [withWitnesses, Transaction.mk.injEq, true_and, and_true]
    exact hinputs

/-! ## Whole transactions -/

/-- Both spellings have the same shape, with or without a marker. -/
theorem spelling_iff {tx : Transaction} {bs : Bytes} :
    tx.Spelling bs ↔
      ∃ segwit, (segwit = false → ∀ i ∈ tx.inputs, i.witness = .empty) ∧
        bs = Bytes.ofNat .little 4 tx.version.toNat ++ (marker segwit ++ tx.bodyBytes segwit) := by
  constructor
  · rintro (_ | hempty)
    · exact ⟨true, by simp, by simp [marker, bodyBytes, carried, List.flatMap_map]⟩
    · exact ⟨false, fun _ => hempty, by simp [marker, bodyBytes, carried]⟩
  · rintro ⟨segwit, hempty, rfl⟩
    cases segwit with
    | true =>
      have hspelling : tx.Spelling _ := .witnessed
      simpa [marker, bodyBytes, carried, List.flatMap_map] using hspelling
    | false =>
      have hspelling := Spelling.legacy (hempty rfl)
      simpa [marker, bodyBytes, carried] using hspelling

theorem Spelling.ne_nil {tx : Transaction} {bs : Bytes} (hspelling : tx.Spelling bs) :
    bs ≠ [] := by
  obtain ⟨segwit, _, rfl⟩ := spelling_iff.mp hspelling
  rintro hnil
  have hlength := congrArg List.length hnil
  rw [List.length_append, Bytes.length_ofNat, List.length_nil] at hlength
  omega

/-- A legacy serialization shows no flag: if it counts no inputs, it counts no outputs either. -/
theorem eq_zero_of_take_bodyBytes {tx : Transaction} {rest : Bytes} {flag : UInt8}
    (htake : (tx.bodyBytes false ++ rest).take 2 = [0x00, flag]) : flag = 0x00 := by
  by_cases hinputs : tx.inputs = []
  · have hfront : tx.bodyBytes false ++ rest =
        0x00 :: 0x00 :: (Bytes.ofNat .little 4 tx.locktime.toNat ++ rest) := by
      simp [bodyBytes, carried, Wire.listBytes, CompactSize.encode, hinputs, tx.funded hinputs]
    rw [hfront] at htake
    exact (List.cons.inj (List.cons.inj htake).2).1.symm
  · obtain ⟨first, others, hencode, hfirst⟩ :=
      CompactSize.exists_encode_eq_cons (List.length_pos_iff.mpr hinputs)
    rw [bodyBytes, Wire.listBytes, hencode] at htake
    exact absurd (List.cons.inj htake).1 hfirst

/-- A transaction is decoded exactly from what spells it. -/
theorem decode_reads :
    (Wire.decode (α := Transaction)).Reads fun tx bs => tx.Fits ∧ tx.Spelling bs := by
  intro s tx t
  show decode s = .ok tx t ↔ _
  rw [decode_eq]
  constructor
  · intro hok
    obtain ⟨version, m₁, hversion, hok⟩ := Decoder.bind_eq_ok_iff.mp hok
    obtain ⟨segwit, m₂, hmarker, hbody⟩ := Decoder.bind_eq_ok_iff.mp hok
    obtain ⟨rfl, hfits, hempty, hbodySpan⟩ := fits_of_decodeBody_eq_ok hbody
    have hversionSpan := ((Decoder.uint32_exact _ _ _).mp hversion).2
    have hmarkerSpan := spans_of_decodeMarker_eq_ok hmarker
    refine ⟨_, ⟨hfits, spelling_iff.mpr ⟨segwit, hempty, rfl⟩⟩, ?_⟩
    exact Suffix.spans_append_iff.mpr ⟨m₁, hversionSpan,
      Suffix.spans_append_iff.mpr ⟨m₂, hmarkerSpan, hbodySpan⟩⟩
  · rintro ⟨bs, ⟨hfits, hspelling⟩, hspan⟩
    obtain ⟨segwit, hempty, rfl⟩ := spelling_iff.mp hspelling
    obtain ⟨m₁, hversionSpan, hspan⟩ := Suffix.spans_append_iff.mp hspan
    obtain ⟨m₂, hmarkerSpan, hbodySpan⟩ := Suffix.spans_append_iff.mp hspan
    refine Decoder.bind_eq_ok_iff.mpr
      ⟨tx.version, m₁, (Decoder.uint32_exact _ _ _).mpr ⟨trivial, hversionSpan⟩, ?_⟩
    refine Decoder.bind_eq_ok_iff.mpr
      ⟨segwit, m₂, ?_, decodeBody_of_spans hfits hempty hbodySpan⟩
    apply decodeMarker_of_spans hmarkerSpan
    rintro rfl flag htake
    obtain rfl := Suffix.spans_nil_iff.mp hmarkerSpan
    rw [hbodySpan.1] at htake
    exact eq_zero_of_take_bodyBytes htake

/-! ## Serialization -/

theorem hasWitness_eq_false_iff {tx : Transaction} :
    tx.hasWitness = false ↔ ∀ i ∈ tx.inputs, i.witness = .empty := by
  have hempty (w : Witness) : w.isEmpty = true ↔ w = .empty := by
    cases w
    simp [Witness.isEmpty, Witness.empty]
  simp [hasWitness, hempty]

theorem flatten_legacyPieces (tx : Transaction) :
    tx.legacyPieces.flatten = Bytes.ofNat .little 4 tx.version.toNat ++
      Wire.listBytes tx.inputs ++ Wire.listBytes tx.outputs ++
      Bytes.ofNat .little 4 tx.locktime.toNat := by
  simp [legacyPieces, Wire.flatten_listPieces]

theorem flatten_segwitPieces (tx : Transaction) :
    tx.segwitPieces.flatten = Bytes.ofNat .little 4 tx.version.toNat ++ [0x00, 0x01] ++
      Wire.listBytes tx.inputs ++ Wire.listBytes tx.outputs ++
      tx.inputs.flatMap (fun i => Wire.bytes i.witness) ++
      Bytes.ofNat .little 4 tx.locktime.toNat := by
  simp [segwitPieces, Wire.flatten_listPieces, Wire.flatten_flatMap_pieces, Wire.bytes]

/-- A transaction is serialized as one of its spellings. -/
theorem spelling_bytes (tx : Transaction) : tx.Spelling (Wire.bytes tx) := by
  show tx.Spelling (if tx.hasWitness then tx.segwitPieces else tx.legacyPieces).flatten
  cases hwitness : tx.hasWitness with
  | true =>
    rw [if_pos rfl, flatten_segwitPieces]
    exact .witnessed
  | false =>
    rw [if_neg Bool.false_ne_true, flatten_legacyPieces]
    exact .legacy (hasWitness_eq_false_iff.mp hwitness)

/-- The announced length is that of the legacy serialization. -/
theorem length_legacyBytes (tx : Transaction) : tx.legacyBytes.length = tx.baseSize := by
  rw [legacyBytes, flatten_legacyPieces]
  simp only [List.length_append, Bytes.length_ofNat, Wire.length_listBytes Input.length_bytes,
    Wire.length_listBytes Output.length_bytes]
  rfl

/-- With witnesses there are a marker, a flag and the witnesses besides. -/
theorem length_segwitPieces (tx : Transaction) :
    tx.segwitPieces.flatten.length =
      tx.baseSize + 2 + Wire.sumBy (fun i => Wire.size i.witness) tx.inputs := by
  have hwitnesses := Wire.length_flatMap_eq_sumBy
    (fun i : Input => Witness.length_bytes i.witness) tx.inputs
  rw [flatten_segwitPieces, baseSize]
  simp only [List.length_append, Bytes.length_ofNat, Wire.length_listBytes Input.length_bytes,
    Wire.length_listBytes Output.length_bytes, hwitnesses, List.length_cons, List.length_nil]
  omega

/-- The announced length is that of the serialization. -/
theorem length_bytes (tx : Transaction) : (Wire.bytes tx).length = Wire.size tx := by
  show (if tx.hasWitness then tx.segwitPieces else tx.legacyPieces).flatten.length = tx.totalSize
  unfold totalSize
  split
  · exact length_segwitPieces tx
  · exact length_legacyBytes tx

theorem serialize_eq_ok (tx : Transaction) : Wire.serialize tx = .ok (Wire.bytes tx) :=
  Wire.serialize_eq_ok (length_bytes tx)

theorem serializeLegacy_eq_ok (tx : Transaction) : tx.serializeLegacy = .ok tx.legacyBytes :=
  Wire.serializePieces_eq_ok (length_legacyBytes tx)

/-! ## Reading and writing -/

theorem read_eq_ok_iff_spans {r : Reader} {tx : Transaction} {stop : Nat} :
    Read.decode Wire.decode r = .ok tx { r with offset := stop } ↔
      tx.Fits ∧ ∃ bs, tx.Spelling bs ∧ ∃ t : Suffix, t.offset = stop ∧ r.suffix.Spans bs t := by
  rw [Read.decode_eq_ok_iff_spells decode_reads]
  simp only [and_assoc, exists_and_left]

/-- A transaction that fits is read from its serialization, wherever this stands and whatever
follows. -/
theorem read_bytes {tx : Transaction} (hfits : tx.Fits) (before after : Bytes)
    (marks : List Nat) :
    Read.decode Wire.decode ⟨before ++ Wire.bytes tx ++ after, before.length, marks⟩ =
      .ok tx ⟨before ++ Wire.bytes tx ++ after, before.length + (Wire.bytes tx).length,
        marks⟩ :=
  Read.decode_of_spells decode_reads ⟨hfits, spelling_bytes tx⟩ before after marks

/-- A reader takes a transaction from a part of a byte string exactly when the part spells it. In
particular what a transaction is serialized to is read back, wherever it stands and whatever
follows. -/
theorem read_eq_ok_iff_spelling :
    (∀ (r : Reader) (tx : Transaction) (stop : Nat),
      Read.decode Wire.decode r = .ok tx { r with offset := stop } ↔
        ofParts tx.version tx.inputs tx.outputs tx.locktime = .ok tx ∧ tx.Fits ∧
          ∃ bs, tx.Spelling bs ∧ stop ≤ r.size ∧ r.region? r.offset stop = some bs) ∧
    ∀ tx : Transaction, tx.Fits → ∃ bs, Wire.serialize tx = .ok bs ∧
      ∀ (before after : Bytes) (marks : List Nat),
        Read.decode Wire.decode ⟨before ++ bs ++ after, before.length, marks⟩ =
          .ok tx ⟨before ++ bs ++ after, before.length + bs.length, marks⟩ := by
  constructor
  · intro r tx stop
    have hparts : ofParts tx.version tx.inputs tx.outputs tx.locktime = .ok tx :=
      dif_pos tx.funded
    rw [read_eq_ok_iff_spans]
    constructor
    · rintro ⟨hfits, bs, hspelling, hspan⟩
      exact ⟨hparts, hfits, bs, hspelling,
        (Reader.exists_spans_iff hspelling.ne_nil).mp hspan⟩
    · rintro ⟨_, hfits, bs, hspelling, hregion⟩
      exact ⟨hfits, bs, hspelling, (Reader.exists_spans_iff hspelling.ne_nil).mpr hregion⟩
  · intro tx hfits
    exact ⟨Wire.bytes tx, serialize_eq_ok tx, read_bytes hfits⟩

/-- A transaction with one input, which has a witness of one item, and one output. -/
def payment : Transaction where
  version := 2
  inputs := [⟨.null, ⟨[]⟩, Input.finalSequence, ⟨[[0x07]]⟩⟩]
  outputs := [⟨5, ⟨[0x51]⟩⟩]
  locktime := 0
  funded := by simp

theorem payment_fits : payment.Fits := by
  constructor <;> simp [payment, Input.Fits, Output.Fits, Script.Fits, Witness.Fits]

/-- A payment is read back from between two octets that are no part of it. -/
theorem read_payment :
    payment.Fits ∧ ∃ bs, Wire.serialize payment = .ok bs ∧
      Read.decode Wire.decode ⟨[0x2a] ++ bs ++ [0xff], 1, []⟩ =
        .ok payment ⟨[0x2a] ++ bs ++ [0xff], 1 + bs.length, []⟩ := by
  obtain ⟨bs, hserialize, hread⟩ := read_eq_ok_iff_spelling.2 payment payment_fits
  exact ⟨payment_fits, bs, hserialize, hread [0x2a] [0xff] []⟩

end LightClient.Transaction
