import LightClient.Proofs.Block.Grammar
import LightClient.Proofs.Composition

/-!
# Truncated input

What is left of a transaction or a block after its end was cut off is refused, for the reason that
it ends too early and for no other. A decoder does not look past the place where it stops, so up to
the cut it does what it did on the whole input, and there it runs out of octets. Only the marker of
a transaction needs a closer look: without the flag behind it, it is taken for a count of inputs.
-/

namespace LightClient

namespace Suffix

/-- The octets before the place `stop`. -/
def upTo (s : Suffix) (stop : Nat) : Suffix :=
  ⟨s.offset, s.bytes.take (stop - s.offset)⟩

/-- What comes before the cut is spanned all the same. -/
theorem Spans.upTo {s t : Suffix} {bs : Bytes} {stop : Nat} (hspan : s.Spans bs t)
    (hstop : t.offset ≤ stop) : (s.upTo stop).Spans bs (t.upTo stop) := by
  obtain ⟨hbytes, hoffset⟩ := hspan
  have hlength : stop - s.offset = bs.length + (stop - t.offset) := by omega
  refine ⟨?_, hoffset⟩
  show s.bytes.take (stop - s.offset) = bs ++ t.bytes.take (stop - t.offset)
  rw [hbytes, hlength, List.take_length_add_append]

theorem length_upTo_le (s : Suffix) (stop : Nat) :
    (s.upTo stop).bytes.length ≤ stop - s.offset :=
  List.length_take_le _ _

end Suffix

namespace Decoder

variable {α β : Type}

/-- The run ended because octets were missing at a place no later than `stop`. -/
def RunsOut (result : EStateM.Result Error Suffix α) (stop : Nat) : Prop :=
  ∃ offset t, result = .error (.outOfBounds offset) t ∧ offset ≤ stop

/-- When the input is cut off, a run that succeeded stays as it was if it stops before the cut, and
runs out of octets otherwise. -/
def Truncates (d : Decoder α) : Prop :=
  ∀ (s : Suffix) (a : α) (t : Suffix) (stop : Nat), s.offset ≤ stop → d s = .ok a t →
    (t.offset ≤ stop ∧ d (s.upTo stop) = .ok a (t.upTo stop)) ∨ RunsOut (d (s.upTo stop)) stop

/-! ## Composition -/

/-- A decoder that runs out leaves nothing to do for the one that follows it. -/
theorem RunsOut.bind {d : Decoder α} {s : Suffix} {stop : Nat} (hd : RunsOut (d s) stop)
    (f : α → Decoder β) : RunsOut ((d >>= f) s) stop := by
  obtain ⟨offset, t, herror, hoffset⟩ := hd
  exact ⟨offset, t, Guards.bind_of_eq_error herror f, hoffset⟩

namespace Truncates

theorem pure (a : α) : Truncates (Pure.pure a) := by
  intro s b t stop hstop hok
  obtain ⟨rfl, rfl⟩ := pure_eq_ok_iff.mp hok
  exact .inl ⟨hstop, rfl⟩

theorem throw (e : Error) : Truncates (MonadExcept.throw e : Decoder α) := by
  intro s a t stop _ hok
  cases hok

theorem bind {d : Decoder α} {f : α → Decoder β} (hd : d.Truncates)
    (hf : ∀ a, (f a).Truncates) : (d >>= f).Truncates := by
  intro s b t stop hstop hok
  obtain ⟨a, m, ha, hb⟩ := bind_eq_ok_iff.mp hok
  rcases hd s a m stop hstop ha with ⟨hm, hsame⟩ | hout
  · rw [Guards.bind_of_eq_ok hsame f]
    exact hf a m b t stop hm hb
  · exact .inr (hout.bind f)

theorem many {d : Decoder α} (hd : d.Truncates) (count : Nat) :
    (Decoder.many d count).Truncates := by
  induction count with
  | zero => exact pure []
  | succ count ih => exact hd.bind fun a => ih.bind fun as => pure (a :: as)

end Truncates

/-! ## Octets and counts -/

/-- What comes before the cut is read from the same octets, so only a run that stops behind the cut
needs a closer look. -/
theorem Reads.truncates {d : Decoder α} {spells : α → Bytes → Prop} (hd : d.Reads spells)
    (hout : ∀ (s : Suffix) (a : α) (t : Suffix) (stop : Nat), s.offset ≤ stop →
      d s = .ok a t → stop < t.offset → RunsOut (d (s.upTo stop)) stop) : d.Truncates := by
  intro s a t stop hstop hok
  by_cases hcut : t.offset ≤ stop
  · obtain ⟨bs, hspells, hspan⟩ := (hd s a t).mp hok
    exact .inl ⟨hcut, (hd _ a _).mpr ⟨bs, hspells, hspan.upTo hcut⟩⟩
  · exact .inr (hout s a t stop hstop hok (by omega))

theorem fixed_truncates (n : Nat) : (fixed n).Truncates := by
  apply (fixed_exact n).reads.truncates
  intro s a t stop hstop hok hcut
  have hoffset := ((fixed_exact n s a t).mp hok).2.2
  have hlength := s.length_upTo_le stop
  rw [FixedBytes.length_bytes] at hoffset
  refine ⟨s.offset, s.upTo stop, ?_, hstop⟩
  rw [fixed, dif_neg (by omega)]
  rfl

theorem compactSize_truncates : compactSize.Truncates := by
  apply compactSize_exact.reads.truncates
  intro s n t stop hstop hok hcut
  obtain ⟨hn, hbytes, hoffset⟩ := (compactSize_exact s n t).mp hok
  rw [CompactSize.length_encode] at hoffset
  have hfront : (s.upTo stop).bytes = (CompactSize.encode n).take (stop - s.offset) := by
    show s.bytes.take (stop - s.offset) = _
    rw [hbytes, List.take_append_of_le_length]
    rw [CompactSize.length_encode]
    omega
  obtain ⟨offset, herror, hle⟩ := CompactSize.decode_of_cut_encode hn (by omega) hfront
  refine ⟨offset, s.upTo stop, ?_, ?_⟩
  · rw [compactSize, herror]
  · change offset ≤ s.offset + (stop - s.offset) at hle
    omega

theorem list_truncates {d : Decoder α} (hd : d.Truncates) : (list d).Truncates :=
  compactSize_truncates.bind hd.many

/-- What is taken without a look ahead is not decided by what follows it. -/
theorem Composed.truncates {d : Decoder α} (hd : d.Composed false) : d.Truncates := by
  induction hd with
  | pure a => exact .pure a
  | refuse _ => exact .throw _
  | bind _ _ hd hf => exact hd.bind hf
  | fixed n => exact fixed_truncates n
  | compactSize => exact compactSize_truncates
  | lookahead hpeeking => cases hpeeking

end Decoder

/-! ## Transactions -/

namespace Transaction

/-- No inputs are enough for no outputs. -/
theorem funded_nil : ([] : List Input) = [] → ([] : List Output) = [] :=
  fun _ => rfl

/-- The transaction without inputs and outputs. -/
def hollow (version : UInt32) : Transaction where
  version := version
  inputs := []
  outputs := []
  locktime := 0
  funded := funded_nil

theorem hollow_fits (version : UInt32) : (hollow version).Fits := by
  constructor <;> simp [hollow]

/-- Behind its version there are two counts of zero and the lock time. -/
theorem decodeBody_hollow (version : UInt32) (offset : Nat) :
    decodeBody version false ⟨offset, [0x00, 0x00, 0x00, 0x00, 0x00, 0x00]⟩ =
      .ok (hollow version) ⟨offset + 6, []⟩ := by
  have hbody : (hollow version).bodyBytes false = [0x00, 0x00, 0x00, 0x00, 0x00, 0x00] := by
    simp [bodyBytes, carried, hollow, Wire.listBytes, CompactSize.encode, Bytes.ofNat,
      Bytes.ofNatLittle]
  apply decodeBody_of_spans (hollow_fits version) (by simp [hollow])
  rw [hbody]
  exact ⟨rfl, rfl⟩

/-- A marker without its flag could as well count the inputs of the transaction that has none, and
of this one more than an octet is missing. -/
theorem decodeBody_runsOut_of_marker (version : UInt32) {s : Suffix} {rest : Bytes} {stop : Nat}
    (hstop : s.offset ≤ stop) (hmarker : s.bytes = 0x00 :: rest) (hcut : stop < s.offset + 2) :
    Decoder.RunsOut (decodeBody version false (s.upTo stop)) stop := by
  have hsame : (Suffix.mk s.offset [0x00, 0x00, 0x00, 0x00, 0x00, 0x00]).upTo stop =
      s.upTo stop := by
    have hcount : stop - s.offset = 0 ∨ stop - s.offset = 1 := by omega
    rcases hcount with hcount | hcount
    · simp [Suffix.upTo, hcount]
    · simp [Suffix.upTo, hcount, hmarker]
  rw [← hsame]
  rcases (decodeBody_composed version false).truncates _ _ _ stop (by exact hstop)
    (decodeBody_hollow version s.offset) with ⟨hend, _⟩ | hout
  · change s.offset + 6 ≤ stop at hend
    omega
  · exact hout

/-- If no witnesses are announced, none are announced before the cut either. -/
theorem decodeMarker_upTo_of_eq_false {s t : Suffix} (hok : decodeMarker s = .ok false t)
    (stop : Nat) : decodeMarker (s.upTo stop) = .ok false (s.upTo stop) := by
  apply decodeMarker_of_spans (Suffix.spans_nil_iff.mpr rfl)
  intro _ flag htake
  rw [Suffix.upTo, List.take_take] at htake
  have hlength := congrArg List.length htake
  rw [List.length_take, List.length_cons, List.length_singleton] at hlength
  rw [show min 2 (stop - s.offset) = 2 by omega] at htake
  exact eq_zero_of_decodeMarker_eq_ok hok htake

theorem decodeMarker_of_length_lt {s : Suffix} (hshort : s.bytes.length < 2) :
    decodeMarker s = .ok false s := by
  apply decodeMarker_of_spans (Suffix.spans_nil_iff.mpr rfl)
  intro _ flag htake
  have hlength := congrArg List.length htake
  rw [List.length_take, List.length_cons, List.length_singleton] at hlength
  omega

/-- The cut falls behind the marker and the flag, or there is no marker, and then the marker is read
as before; or it falls on them. -/
theorem decode_truncates : (Wire.decode (α := Transaction)).Truncates := by
  show decode.Truncates
  rw [decode_eq]
  apply Decoder.Composed.uint32.truncates.bind
  intro version s tx t stop hstop hok
  obtain ⟨segwit, m, hmarker, hbody⟩ := Decoder.bind_eq_ok_iff.mp hok
  have hspan := spans_of_decodeMarker_eq_ok hmarker
  cases segwit with
  | false =>
    obtain rfl := Suffix.spans_nil_iff.mp hspan
    rw [Guards.bind_of_eq_ok (decodeMarker_upTo_of_eq_false hmarker stop)]
    exact (decodeBody_composed version false).truncates s tx t stop hstop hbody
  | true =>
    have hbytes : s.bytes = 0x00 :: 0x01 :: m.bytes := hspan.1
    have hoffset : m.offset = s.offset + 2 := hspan.2
    by_cases hcut : stop < s.offset + 2
    · have hlength := s.length_upTo_le stop
      rw [Guards.bind_of_eq_ok (decodeMarker_of_length_lt (by omega))]
      exact .inr (decodeBody_runsOut_of_marker version hstop hbytes hcut)
    · have hsame : decodeMarker (s.upTo stop) = .ok true (m.upTo stop) :=
        decodeMarker_of_spans (hspan.upTo (by omega)) (fun hfalse => by cases hfalse)
      rw [Guards.bind_of_eq_ok hsame]
      exact (decodeBody_composed version true).truncates m tx t stop (by omega) hbody

end Transaction

theorem Block.decode_truncates : (Wire.decode (α := Block)).Truncates :=
  Header.decode_composed.truncates.bind fun header =>
    (Decoder.list_truncates Transaction.decode_truncates).bind fun transactions =>
      .pure (Block.mk header transactions)

/-! ## Whole byte strings -/

/-- Of a byte string that is read, every part but the whole is refused because it ends too early. -/
theorem Wire.parse_eq_outOfBounds {α : Type} [Wire α] {spells : α → Bytes → Prop} {a : α}
    {whole part : Bytes} (hdecode : (decode (α := α)).Truncates)
    (hreads : (decode (α := α)).Reads spells) (hwhole : parse whole = .ok a)
    (hpart : part <+: whole) (hne : part ≠ whole) :
    ∃ offset, parse (α := α) part = .error (.outOfBounds offset) ∧ offset ≤ part.length := by
  obtain ⟨t, hrest, hok⟩ := parse_eq_ok_iff.mp hwhole
  obtain ⟨bs, _, hbytes, hoffset⟩ := (hreads _ a t).mp hok
  have hall : whole = bs := by
    simpa [Suffix.ofData, hrest] using hbytes
  have hcut : (Suffix.ofData whole 0).upTo part.length = Suffix.ofData part 0 := by
    simp only [Suffix.ofData, Suffix.upTo, List.drop_zero, Nat.sub_zero]
    rw [← List.prefix_iff_eq_take.mp hpart]
  have hlength : part.length < whole.length := by
    have hle := hpart.length_le
    have hne' : part.length ≠ whole.length := fun heq => hne (hpart.eq_of_length heq)
    omega
  rcases hdecode _ a t part.length (Nat.zero_le _) hok with ⟨hend, _⟩ | ⟨offset, m, herror, hle⟩
  · rw [hoffset, ← hall] at hend
    change 0 + whole.length ≤ part.length at hend
    omega
  · rw [hcut] at herror
    refine ⟨offset, ?_, hle⟩
    rw [parse, herror]

/-- A transaction or a block whose end is missing is refused because octets are missing, at a place
within what there is. -/
theorem parse_truncated :
    (∀ (whole part : Bytes) (tx : Transaction),
      Wire.parse whole = .ok tx → part <+: whole → part ≠ whole →
        ∃ offset, Wire.parse (α := Transaction) part = .error (.outOfBounds offset) ∧
          offset ≤ part.length) ∧
    ∀ (whole part : Bytes) (b : Block),
      Wire.parse whole = .ok b → part <+: whole → part ≠ whole →
        ∃ offset, Wire.parse (α := Block) part = .error (.outOfBounds offset) ∧
          offset ≤ part.length := by
  constructor
  · intro whole part tx hwhole hpart hne
    exact Wire.parse_eq_outOfBounds Transaction.decode_truncates Transaction.decode_reads hwhole
      hpart hne
  · intro whole part b hwhole hpart hne
    exact Wire.parse_eq_outOfBounds Block.decode_truncates Block.decode_reads hwhole hpart hne

/-- A payment is cut between marker and flag, and a block in front of its count of transactions. -/
theorem parse_truncated_payment :
    (∃ offset,
      Wire.parse (α := Transaction) ((Wire.bytes Transaction.payment).take 5) =
        .error (.outOfBounds offset) ∧
      offset ≤ ((Wire.bytes Transaction.payment).take 5).length) ∧
    ∃ offset,
      Wire.parse (α := Block) ((Wire.bytes Block.mixed).take 80) =
        .error (.outOfBounds offset) ∧
      offset ≤ ((Wire.bytes Block.mixed).take 80).length := by
  have hpayment : Wire.parse (Wire.bytes Transaction.payment) = .ok Transaction.payment :=
    Transaction.parse_bytes Transaction.payment_fits
  have hblock : Wire.parse (Wire.bytes Block.mixed) = .ok Block.mixed :=
    Block.parse_bytes Block.mixed_fits
  constructor
  · exact parse_truncated.1 _ _ _ hpayment (List.take_prefix 5 _) (by decide)
  · exact parse_truncated.2 _ _ _ hblock (List.take_prefix 80 _) (by decide)

end LightClient
