import LightClient.Proofs.Composition
import LightClient.Session.Reading

/-!
# Sessions of reading stay within the byte string

Whatever is asked of a reader, and whether it was answered or refused, the offset and every mark lie
within the byte string afterwards. Decoders only move forward over octets that are there, also when
they fail half-way; a distance is checked before the offset moves; a mark is an offset of its time.
One question has no answer then: the checksum of a region that was opened behind the offset. It
arises for the two checksum steps only, exactly when the innermost mark lies behind the offset, and
changes nothing.
-/

namespace LightClient

namespace Suffix

/-- `t` is what is left of `s` behind octets that were there. -/
def Reaches (s t : Suffix) : Prop :=
  ∃ n ≤ s.bytes.length, t = s.advance n

theorem Reaches.refl (s : Suffix) : s.Reaches s :=
  ⟨0, Nat.zero_le _, rfl⟩

theorem Reaches.trans {s t u : Suffix} (hst : s.Reaches t) (htu : t.Reaches u) : s.Reaches u := by
  obtain ⟨m, hm, rfl⟩ := hst
  obtain ⟨n, hn, rfl⟩ := htu
  have hlength : (s.advance m).bytes.length = s.bytes.length - m := List.length_drop
  refine ⟨m + n, by omega, ?_⟩
  simp [advance, Nat.add_assoc]

end Suffix

/-- A size takes only octets that are there, and fails because of octets. -/
theorem CompactSize.decode_cases (s : Suffix) :
    (∃ value taken, decode s = .ok (value, taken) ∧ taken ≤ s.bytes.length) ∨
      ∃ e, decode s = .error e ∧ e ≠ .reversedRegion := by
  cases hdecode : decode s with
  | ok read =>
    obtain ⟨value, taken⟩ := read
    obtain ⟨-, rfl, hfront⟩ := decode_eq_ok_iff.mp hdecode
    have hlength := hfront.length_le
    rw [length_encode] at hlength
    exact .inl ⟨value, _, rfl, hlength⟩
  | error e =>
    refine .inr ⟨e, rfl, ?_⟩
    obtain ⟨_, rfl⟩ | ⟨_, rfl⟩ | ⟨_, rfl⟩ := decode_eq_error_iff.mp hdecode
    · exact nofun
    · exact nofun
    · exact nofun

namespace Decoder

variable {α β : Type}

/-- A run that starts at `s` took octets that were there, and asked for no region. -/
def RanOn (s : Suffix) : EStateM.Result Error Suffix α → Prop
  | .ok _ t => s.Reaches t
  | .error e t => s.Reaches t ∧ e ≠ .reversedRegion

theorem RanOn.bind {d : Decoder α} {f : α → Decoder β} {s : Suffix} (hd : RanOn s (d s))
    (hf : ∀ a t, RanOn t (f a t)) : RanOn s ((d >>= f) s) := by
  cases hrun : d s with
  | error e m =>
    rw [hrun] at hd
    rw [Guards.bind_of_eq_error hrun]
    exact hd
  | ok a m =>
    rw [hrun] at hd
    have hrest := hf a m
    rw [Guards.bind_of_eq_ok hrun]
    cases hnext : f a m with
    | error e t =>
      rw [hnext] at hrest
      exact ⟨hd.trans hrest.1, hrest.2⟩
    | ok b t =>
      rw [hnext] at hrest
      exact hd.trans hrest

/-- Whether it succeeds or fails, a decoder only moves forward over octets that are there. -/
theorem Composed.ranOn {peeking : Bool} {d : Decoder α} (hd : d.Composed peeking) (s : Suffix) :
    RanOn s (d s) := by
  induction hd generalizing s with
  | pure a => exact .refl s
  | refuse he => exact ⟨.refl s, fun heq => by subst heq; cases he⟩
  | bind hd hf hdRan hfRan => exact (hdRan s).bind hfRan
  | fixed n =>
    unfold Decoder.fixed
    by_cases hn : n ≤ s.bytes.length
    · rw [dif_pos hn]
      exact ⟨n, hn, rfl⟩
    · rw [dif_neg hn]
      exact ⟨.refl s, nofun⟩
  | compactSize =>
    obtain ⟨value, taken, hok, htaken⟩ | ⟨e, herror, he⟩ := CompactSize.decode_cases s
    · rw [Decoder.compactSize, hok]
      exact ⟨taken, htaken, rfl⟩
    · rw [Decoder.compactSize, herror]
      exact ⟨.refl s, he⟩
  | lookahead _ n => exact .refl s

end Decoder

/-! ## Single computations -/

namespace Reader

/-- The offset and every mark lie within the byte string. -/
structure Within (r : Reader) : Prop where
  offset_le : r.offset ≤ r.size
  mark_le : ∀ mark ∈ r.marks, mark ≤ r.size

/-- The innermost region was opened behind the offset. -/
def Reversed (r : Reader) : Prop :=
  ∃ mark ∈ r.marks.head?, r.offset < mark

theorem within_ofData (data : Bytes) : (ofData data).Within where
  offset_le := Nat.zero_le _
  mark_le := by simp [ofData]

/-- What is left counts the octets behind the offset. -/
theorem Within.offset_add_left {r : Reader} (hr : r.Within) : r.offset + r.left = r.size :=
  Nat.add_sub_of_le hr.offset_le

end Reader

namespace Read

variable {α β : Type}

/-- Where a run leaves the reader, whether it succeeds or fails. -/
def final : EStateM.Result Error Reader α → Reader
  | .ok _ t => t
  | .error _ t => t

/-- What is asked of the reader itself changes nothing. -/
theorem get_bind {f : Reader → Read β} {r : Reader} : (get >>= f : Read β) r = f r r :=
  rfl

/-- A run that starts at `r` left the byte string as it was and stayed within it; it failed for a
reversed region exactly if there was one, and then it changed nothing. -/
def RanWithin (r : Reader) (reversed : Prop) : EStateM.Result Error Reader α → Prop
  | .ok _ t => (t.data = r.data ∧ t.Within) ∧ ¬reversed
  | .error e t =>
    (t.data = r.data ∧ t.Within) ∧ (e = .reversedRegion ↔ reversed) ∧ (reversed → t = r)

/-- Within its byte string the computation stays there; it asks for a reversed region exactly under
a condition. -/
def StaysWithin (m : Read α) (reversed : Reader → Prop) : Prop :=
  ∀ r, r.Within → RanWithin r (reversed r) (m r)

/-- There is no reversed region. -/
def never (_ : Reader) : Prop :=
  False

namespace StaysWithin

theorem pure (a : α) : StaysWithin (Pure.pure a) never :=
  fun _ hr => ⟨⟨rfl, hr⟩, id⟩

theorem throw {e : Error} (he : e ≠ .reversedRegion) :
    StaysWithin (MonadExcept.throw e : Read α) never :=
  fun _ hr => ⟨⟨rfl, hr⟩, ⟨he, False.elim⟩, False.elim⟩

theorem get : StaysWithin MonadState.get never :=
  fun _ hr => ⟨⟨rfl, hr⟩, id⟩

/-- What follows a refusal is only done if nothing is refused. -/
theorem refuse {p : Prop} [Decidable p] {e : Error} {f : α → Read β} {m : Read β}
    (he : e ≠ .reversedRegion) (hm : StaysWithin m never) :
    StaysWithin (if p then (MonadExcept.throw e : Read α) >>= f else m) never := by
  by_cases hp : p
  · rw [if_pos hp]
    exact fun _ hr => ⟨⟨rfl, hr⟩, ⟨he, False.elim⟩, False.elim⟩
  · rw [if_neg hp]
    exact hm

/-- Only what comes first can ask for a reversed region. -/
theorem bind {m : Read α} {f : α → Read β} {reversed : Reader → Prop}
    (hm : StaysWithin m reversed) (hf : ∀ a, StaysWithin (f a) never) :
    StaysWithin (m >>= f) reversed := by
  intro r hr
  have hfirst := hm r hr
  cases hrun : m r with
  | error e t =>
    rw [hrun] at hfirst
    rw [Guards.bind_of_eq_error hrun]
    exact hfirst
  | ok a t =>
    rw [hrun] at hfirst
    obtain ⟨⟨hdata, ht⟩, hnot⟩ := hfirst
    have hrest := hf a t ht
    rw [Guards.bind_of_eq_ok hrun]
    cases hnext : f a t with
    | error e u =>
      rw [hnext] at hrest
      obtain ⟨⟨hdata', hu⟩, he, _⟩ := hrest
      exact ⟨⟨hdata'.trans hdata, hu⟩, ⟨fun heq => (he.mp heq).elim, fun hrev => absurd hrev hnot⟩,
        fun hrev => absurd hrev hnot⟩
    | ok b u =>
      rw [hnext] at hrest
      exact ⟨⟨hrest.1.1.trans hdata, hrest.1.2⟩, hnot⟩

theorem congr {m : Read α} {reversed reversed' : Reader → Prop} (hm : StaysWithin m reversed)
    (hiff : ∀ r, reversed r ↔ reversed' r) : StaysWithin m reversed' := by
  have heq : reversed = reversed' := funext fun r => propext (hiff r)
  exact heq ▸ hm

end StaysWithin

/-- A decoder moves the offset forward, up to the end at most. -/
theorem decode_staysWithin {d : Decoder α} (hd : d.Composed true) :
    StaysWithin (decode d) never := by
  intro r hr
  have hran := hd.ranOn r.suffix
  have hreached {s : Suffix} (hs : r.suffix.Reaches s) : ({ r with offset := s.offset }).Within := by
    obtain ⟨n, hn, rfl⟩ := hs
    have hleft : r.suffix.bytes.length = r.data.length - r.offset := List.length_drop
    have hoffset : r.offset ≤ r.data.length := hr.offset_le
    refine ⟨?_, hr.mark_le⟩
    show r.offset + n ≤ r.data.length
    omega
  unfold decode
  cases hrun : d r.suffix with
  | ok a s =>
    rw [hrun] at hran
    exact ⟨⟨rfl, hreached hran⟩, id⟩
  | error e s =>
    rw [hrun] at hran
    exact ⟨⟨rfl, hreached hran.1⟩, ⟨hran.2, False.elim⟩, False.elim⟩

theorem peek_staysWithin (n : Nat) : StaysWithin (peek n) never := by
  apply StaysWithin.get.bind
  intro r
  exact .refuse nofun (.pure _)

theorem seek_eq (distance : Int) (r : Reader) :
    seek distance r =
      if r.offset + distance < 0 ∨ (r.size : Int) < r.offset + distance then
        .error (.outOfBounds r.offset) r
      else .ok () { r with offset := (r.offset + distance).toNat } := by
  show (if r.offset + distance < 0 ∨ (r.size : Int) < r.offset + distance then _ else _ :
    Read Unit) r = _
  split <;> rfl

/-- The destination was checked before the offset moves there. -/
theorem seek_staysWithin (distance : Int) : StaysWithin (seek distance) never := by
  intro r hr
  rw [seek_eq]
  by_cases houtside : r.offset + distance < 0 ∨ (r.size : Int) < r.offset + distance
  · rw [if_pos houtside]
    exact ⟨⟨rfl, hr⟩, ⟨nofun, False.elim⟩, False.elim⟩
  · rw [if_neg houtside]
    refine ⟨⟨rfl, ?_, hr.mark_le⟩, id⟩
    show (r.offset + distance).toNat ≤ r.size
    omega

/-- The offset of a new mark lies within the byte string, so the mark does. -/
theorem mark_staysWithin : StaysWithin mark never := by
  intro r hr
  have hmarks : ∀ mark ∈ r.offset :: r.marks, mark ≤ r.size :=
    List.forall_mem_cons.mpr ⟨hr.offset_le, hr.mark_le⟩
  exact ⟨⟨rfl, hr.offset_le, hmarks⟩, id⟩

theorem unmark_staysWithin : StaysWithin unmark never := by
  rintro ⟨data, offset, marks⟩ hr
  cases marks with
  | nil => exact ⟨⟨rfl, hr⟩, ⟨nofun, False.elim⟩, False.elim⟩
  | cons start marks =>
    exact ⟨⟨rfl, hr.offset_le, (List.forall_mem_cons.mp hr.mark_le).2⟩, id⟩

theorem span_staysWithin : StaysWithin span never := by
  apply unmark_staysWithin.bind
  intro start
  apply StaysWithin.get.bind
  intro r
  exact .refuse nofun (.pure _)

theorem spanData_staysWithin : StaysWithin spanData never := by
  apply unmark_staysWithin.bind
  intro start
  apply StaysWithin.get.bind
  intro r
  split
  next bs _ => exact .pure bs
  next => exact .throw nofun

/-- The innermost region has octets unless it is reversed; everything so far always has. -/
theorem region?_eq_none_iff (r : Reader) :
    r.region? (r.marks.headD 0) r.offset = none ↔ r.Reversed := by
  obtain ⟨data, offset, marks⟩ := r
  cases marks <;> simp [Reader.region?, Reader.Reversed]

theorem checksum_of_region?_eq_some {r : Reader} {bs : Bytes}
    (hregion : r.region? (r.marks.headD 0) r.offset = some bs) :
    checksum r = .ok (hash256 bs).checksum r := by
  rw [checksum, get_bind, hregion]
  rfl

theorem checksum_of_region?_eq_none {r : Reader}
    (hregion : r.region? (r.marks.headD 0) r.offset = none) :
    checksum r = .error .reversedRegion r := by
  rw [checksum, get_bind, hregion]
  rfl

theorem checksum_staysWithin : StaysWithin checksum Reader.Reversed := by
  intro r hr
  have hiff := region?_eq_none_iff r
  cases hregion : r.region? (r.marks.headD 0) r.offset with
  | none =>
    rw [checksum_of_region?_eq_none hregion]
    exact ⟨⟨rfl, hr⟩, ⟨fun _ => hiff.mp hregion, fun _ => rfl⟩, fun _ => rfl⟩
  | some bs =>
    rw [checksum_of_region?_eq_some hregion]
    refine ⟨⟨rfl, hr⟩, fun hreversed => ?_⟩
    rw [hiff.mpr hreversed] at hregion
    cases hregion

theorem verifyChecksum_staysWithin : StaysWithin verifyChecksum Reader.Reversed := by
  apply checksum_staysWithin.bind
  intro actual
  apply (decode_staysWithin .uint32).bind
  intro expected
  by_cases hne : actual ≠ expected
  · rw [if_pos hne]
    apply StaysWithin.get.bind
    intro r
    have hthrow : StaysWithin (throw (.checksumMismatch r.offset) : Read PUnit) never :=
      .throw nofun
    exact hthrow.bind fun _ => .pure actual
  · rw [if_neg hne]
    exact .pure actual

theorem finish_staysWithin : StaysWithin finish never := by
  apply StaysWithin.get.bind
  intro r
  by_cases hleft : r.atEnd = false
  · rw [if_pos hleft]
    exact .throw nofun
  · rw [if_neg hleft]
    exact .pure ()

end Read

/-! ## Sessions -/

namespace ReadStep

open Read (StaysWithin never)

/-- The steps that ask for the checksum of a region. -/
def IsChecksum (step : ReadStep) : Prop :=
  step = .checksum ∨ step = .verifyChecksum

/-- A step whose computation asks for no reversed region. -/
theorem staysWithin_of_not_isChecksum {step : ReadStep} (hstep : ¬step.IsChecksum)
    (hrun : StaysWithin step.run never) :
    StaysWithin step.run fun r => step.IsChecksum ∧ r.Reversed :=
  hrun.congr fun _ => ⟨False.elim, fun hreversed => hstep hreversed.1⟩

theorem staysWithin_of_isChecksum {step : ReadStep} (hstep : step.IsChecksum)
    (hrun : StaysWithin step.run Reader.Reversed) :
    StaysWithin step.run fun r => step.IsChecksum ∧ r.Reversed :=
  hrun.congr fun _ => ⟨fun hreversed => ⟨hstep, hreversed⟩, fun hreversed => hreversed.2⟩

/-- Every step stays within the byte string, and asks for a reversed region only if it is one of
the two that ask for a checksum. -/
theorem run_staysWithin (step : ReadStep) :
    StaysWithin step.run fun r => step.IsChecksum ∧ r.Reversed := by
  have hdecode {α : Type} {d : Decoder α} (hd : d.Composed true) (value : α → ReadValue) :
      StaysWithin (Read.decode d >>= fun a => pure (value a)) never :=
    (Read.decode_staysWithin hd).bind fun a => .pure (value a)
  by_cases hstep : step.IsChecksum
  · apply staysWithin_of_isChecksum hstep
    obtain rfl | rfl := hstep
    · exact Read.checksum_staysWithin.bind fun _ => .pure _
    · exact Read.verifyChecksum_staysWithin.bind fun _ => .pure _
  · apply staysWithin_of_not_isChecksum hstep
    cases step with
    | natural order width => exact hdecode (.natural order width) .natural
    | int32 => exact hdecode .uint32 fun w => .integer w.toInt32.toInt
    | int64 => exact hdecode .uint64 fun w => .integer w.toInt64.toInt
    | compactSize => exact hdecode .compactSize .natural
    | bytes count => exact hdecode (.take count) .bytes
    | peek count => exact (Read.peek_staysWithin count).bind fun _ => .pure _
    | varBytes => exact hdecode .varBytes .bytes
    | hash => exact hdecode (.fixed 32) .hash
    | seek distance => exact (Read.seek_staysWithin distance).bind fun _ => .pure _
    | mark => exact Read.mark_staysWithin.bind fun _ => .pure _
    | span => exact Read.span_staysWithin.bind fun _ => .pure _
    | spanData => exact Read.spanData_staysWithin.bind fun _ => .pure _
    | checksum => exact absurd (.inl rfl) hstep
    | verifyChecksum => exact absurd (.inr rfl) hstep
    | finish => exact Read.finish_staysWithin.bind fun _ => .pure _
    | size => exact StaysWithin.get.bind fun _ => .pure _
    | atEnd => exact StaysWithin.get.bind fun _ => .pure _
    | script => exact hdecode Script.decode_composed .script
    | witness => exact hdecode Witness.decode_composed .witness
    | outpoint => exact hdecode Outpoint.decode_composed .outpoint
    | input => exact hdecode Input.decode_composed .input
    | output => exact hdecode Output.decode_composed .output
    | transaction => exact hdecode Transaction.decode_composed .transaction
    | header => exact hdecode Header.decode_composed .header
    | block => exact hdecode Block.decode_composed .block

/-- What one step preserves, and when it has no answer. -/
theorem perform_within (step : ReadStep) {r : Reader} (hr : r.Within) :
    (step.perform r).2.data = r.data ∧ (step.perform r).2.Within ∧
      ((step.perform r).1 = .error .reversedRegion ↔ step.IsChecksum ∧ r.Reversed) ∧
      (step.IsChecksum ∧ r.Reversed → (step.perform r).2 = r) := by
  have hran := step.run_staysWithin r hr
  unfold perform
  cases hrun : step.run r with
  | ok value next =>
    rw [hrun] at hran
    obtain ⟨⟨hdata, hnext⟩, hnot⟩ := hran
    exact ⟨hdata, hnext, ⟨nofun, fun hreversed => absurd hreversed hnot⟩,
      fun hreversed => absurd hreversed hnot⟩
  | error e next =>
    rw [hrun] at hran
    obtain ⟨⟨hdata, hnext⟩, he, hsame⟩ := hran
    exact ⟨hdata, hnext, by rw [Except.error.injEq]; exact he, hsame⟩

/-- The reader after a list of steps. -/
def after (steps : List ReadStep) (r : Reader) : Reader :=
  steps.foldl (fun r step => (step.perform r).2) r

/-- A session goes on from the reader as it was left. -/
theorem session_append (done rest : List ReadStep) (r : Reader) :
    session (done ++ rest) r = session done r ++ session rest (after done r) := by
  induction done generalizing r with
  | nil => rfl
  | cons step done ih =>
    rw [List.cons_append, session, session, ih]
    rfl

/-- What a list of steps preserves. -/
theorem after_within (steps : List ReadStep) {r : Reader} (hr : r.Within) :
    (after steps r).data = r.data ∧ (after steps r).Within := by
  induction steps generalizing r with
  | nil => exact ⟨rfl, hr⟩
  | cons step steps ih =>
    obtain ⟨hdata, hnext, _⟩ := step.perform_within hr
    obtain ⟨hdata', hafter⟩ := ih hnext
    exact ⟨hdata'.trans hdata, hafter⟩

/-- In every session, the offset and every mark are within the byte string before and after every
step, so that what is left can be counted. A step has no answer exactly if it asks for the checksum
of a region that was opened behind the offset, and then the reader stays as it is. -/
theorem session_within (data : Bytes) (done : List ReadStep) (step : ReadStep)
    (rest : List ReadStep) :
    ∃ before answer next,
      session (done ++ step :: rest) (.ofData data) =
        session done (.ofData data) ++ (answer, next) :: session rest next ∧
      before = after done (.ofData data) ∧ step.perform before = (answer, next) ∧
      before.data = data ∧ before.Within ∧ before.offset + before.left = data.length ∧
      next.data = data ∧ next.Within ∧ next.offset + next.left = data.length ∧
      (answer = .error .reversedRegion ↔ step.IsChecksum ∧ before.Reversed) ∧
      (answer = .error .reversedRegion → next = before) := by
  obtain ⟨hdata, hbefore⟩ := after_within done (Reader.within_ofData data)
  obtain ⟨hdata', hnext, hanswer, hsame⟩ := step.perform_within hbefore
  have hleft {r : Reader} (hr : r.Within) (heq : r.data = data) :
      r.offset + r.left = data.length := by
    rw [hr.offset_add_left, Reader.size, heq]
  have hdata'' := hdata'.trans hdata
  refine ⟨_, (step.perform _).1, (step.perform _).2, ?_, rfl, rfl, hdata, hbefore,
    hleft hbefore hdata, hdata'', hnext, hleft hnext hdata'', hanswer,
    fun heq => hsame (hanswer.mp heq)⟩
  rw [session_append, session]

/-- Going back behind a mark leaves a region without a checksum. -/
example : ReadStep.checksum.perform (after [.seek 2, .mark, .seek (-1)] (.ofData [1, 2, 3])) =
    (.error .reversedRegion, ⟨[1, 2, 3], 1, [2]⟩) := by
  rfl

end ReadStep

end LightClient
