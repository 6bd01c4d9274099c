import LightClient.Proofs.Session.Reading

/-!
# Regions nest

A region that is opened is closed by the step that matches it, whatever is done in between: the
steps inside may seek to and fro, fail, and open and close regions of their own. Every step but
those that open and close a region leaves the marks alone, and a step that closes one drops its mark
also when it fails because the offset lies before it. So after steps in which regions are balanced,
the innermost mark is the one that was there before them.
-/

namespace LightClient

namespace Read

variable {α β : Type}

/-- Whatever happens, the byte string and the marks stay as they are. -/
def KeepsMarks (m : Read α) : Prop :=
  ∀ r, (final (m r)).data = r.data ∧ (final (m r)).marks = r.marks

namespace KeepsMarks

theorem pure (a : α) : KeepsMarks (Pure.pure a) :=
  fun _ => ⟨rfl, rfl⟩

theorem throw (e : Error) : KeepsMarks (MonadExcept.throw e : Read α) :=
  fun _ => ⟨rfl, rfl⟩

theorem get : KeepsMarks MonadState.get :=
  fun _ => ⟨rfl, rfl⟩

theorem bind {m : Read α} {f : α → Read β} (hm : m.KeepsMarks) (hf : ∀ a, (f a).KeepsMarks) :
    (m >>= f).KeepsMarks := by
  intro r
  have hfirst := hm r
  cases hrun : m r with
  | ok a t =>
    rw [hrun] at hfirst
    rw [Guards.bind_of_eq_ok hrun]
    exact ⟨(hf a t).1.trans hfirst.1, (hf a t).2.trans hfirst.2⟩
  | error e t =>
    rw [hrun] at hfirst
    rw [Guards.bind_of_eq_error hrun]
    exact hfirst

end KeepsMarks

theorem decode_keepsMarks (d : Decoder α) : (decode d).KeepsMarks := by
  intro r
  unfold decode
  cases d r.suffix with
  | ok a s => exact ⟨rfl, rfl⟩
  | error e s => exact ⟨rfl, rfl⟩

theorem peek_keepsMarks (n : Nat) : (peek n).KeepsMarks := by
  apply KeepsMarks.get.bind
  intro r
  split
  · exact (KeepsMarks.throw _).bind fun _ => .pure _
  · exact .pure _

theorem seek_keepsMarks (distance : Int) : (seek distance).KeepsMarks := by
  intro r
  rw [seek_eq]
  split
  · exact ⟨rfl, rfl⟩
  · exact ⟨rfl, rfl⟩

theorem checksum_keepsMarks : checksum.KeepsMarks := by
  apply KeepsMarks.get.bind
  intro r
  split
  · exact .pure _
  · exact .throw _

theorem verifyChecksum_keepsMarks : verifyChecksum.KeepsMarks := by
  apply checksum_keepsMarks.bind
  intro actual
  apply (decode_keepsMarks _).bind
  intro expected
  split
  · apply KeepsMarks.get.bind
    intro r
    exact (KeepsMarks.throw _).bind fun _ => .pure actual
  · exact .pure actual

theorem finish_keepsMarks : finish.KeepsMarks := by
  apply KeepsMarks.get.bind
  intro r
  split
  · exact .throw _
  · exact .pure ()

theorem unmark_cons (data : Bytes) (offset start : Nat) (marks : List Nat) :
    unmark ⟨data, offset, start :: marks⟩ = .ok start ⟨data, offset, marks⟩ :=
  rfl

/-- Closing a region drops its mark also if the offset turns out to lie before it. -/
theorem span_cons (data : Bytes) (offset start : Nat) (marks : List Nat) :
    span ⟨data, offset, start :: marks⟩ =
      if start ≤ offset then .ok (offset - start) ⟨data, offset, marks⟩
      else .error (.outOfBounds offset) ⟨data, offset, marks⟩ := by
  rw [span, Guards.bind_of_eq_ok (unmark_cons data offset start marks), get_bind]
  by_cases hle : start ≤ offset
  · rw [if_pos hle, if_neg (Nat.not_lt.mpr hle)]
    rfl
  · rw [if_neg hle, if_pos (Nat.lt_of_not_le hle)]
    rfl

theorem spanData_cons (data : Bytes) (offset start : Nat) (marks : List Nat) :
    spanData ⟨data, offset, start :: marks⟩ =
      if start ≤ offset then .ok ((data.take offset).drop start) ⟨data, offset, marks⟩
      else .error (.outOfBounds offset) ⟨data, offset, marks⟩ := by
  rw [spanData, Guards.bind_of_eq_ok (unmark_cons data offset start marks), get_bind,
    Reader.region?]
  by_cases hle : start ≤ offset
  · rw [if_pos hle, if_pos hle]
    rfl
  · rw [if_neg hle, if_neg hle]
    rfl

end Read

namespace ReadStep

open Read (KeepsMarks)

/-- What a step has to do with regions. -/
inductive Bracket where
  | opening
  | closing
  | neither
  deriving DecidableEq

/-- A region is opened by a mark, and closed whether its length is asked for or its octets. -/
def bracket : ReadStep → Bracket
  | .mark => .opening
  | .span | .spanData => .closing
  | _ => .neither

/-- The marks after a step, whether it succeeds or fails. -/
def marksAfter (step : ReadStep) (r : Reader) : List Nat :=
  match step.bracket with
  | .opening => r.offset :: r.marks
  | .closing => r.marks.tail
  | .neither => r.marks

/-- The number of regions that are open after a list of steps, if there are `depth` before it and
none is closed that is not open. -/
def depthAfter? (depth : Nat) : List ReadStep → Option Nat
  | [] => some depth
  | step :: steps =>
    match step.bracket, depth with
    | .opening, depth => depthAfter? (depth + 1) steps
    | .closing, 0 => none
    | .closing, depth + 1 => depthAfter? depth steps
    | .neither, depth => depthAfter? depth steps

/-- Every region that is opened in the steps is closed in them, and no other region is. -/
def Balanced (steps : List ReadStep) : Prop :=
  depthAfter? 0 steps = some 0

instance (steps : List ReadStep) : Decidable (Balanced steps) :=
  inferInstanceAs (Decidable (depthAfter? 0 steps = some 0))

theorem perform_snd (step : ReadStep) (r : Reader) :
    (step.perform r).2 = Read.final (step.run r) := by
  unfold perform
  cases step.run r with
  | ok value t => rfl
  | error e t => rfl

/-! ## Single steps -/

/-- A step whose computation leaves the reader in the same place whether it succeeds or fails. -/
theorem perform_of_ite {α : Type} {step : ReadStep} {m : Read α} {value : α → ReadValue}
    (hstep : step.run = m >>= fun a => pure (value a)) {r t : Reader} {p : Prop} [Decidable p]
    {a : α} {e : Error} (hm : m r = if p then .ok a t else .error e t) :
    step.perform r = (if p then .ok (value a) else .error e, t) := by
  by_cases hp : p
  · rw [if_pos hp] at hm
    have hrun : step.run r = .ok (value a) t := by rw [hstep, Guards.bind_of_eq_ok hm]; rfl
    rw [perform, hrun, if_pos hp]
  · rw [if_neg hp] at hm
    have hrun : step.run r = .error e t := by rw [hstep, Guards.bind_of_eq_error hm]
    rw [perform, hrun, if_neg hp]

theorem perform_span (data : Bytes) (offset start : Nat) (marks : List Nat) :
    span.perform ⟨data, offset, start :: marks⟩ =
      (if start ≤ offset then .ok (.natural (offset - start)) else .error (.outOfBounds offset),
        ⟨data, offset, marks⟩) :=
  perform_of_ite rfl (Read.span_cons data offset start marks)

theorem perform_spanData (data : Bytes) (offset start : Nat) (marks : List Nat) :
    spanData.perform ⟨data, offset, start :: marks⟩ =
      (if start ≤ offset then .ok (.bytes ((data.take offset).drop start))
        else .error (.outOfBounds offset), ⟨data, offset, marks⟩) :=
  perform_of_ite rfl (Read.spanData_cons data offset start marks)

/-- What a step does to the marks, and to the byte string, whether it succeeds or fails. -/
theorem perform_marks (step : ReadStep) (r : Reader) :
    (step.perform r).2.data = r.data ∧ (step.perform r).2.marks = step.marksAfter r := by
  rw [perform_snd]
  have hdecode {α : Type} (d : Decoder α) (value : α → ReadValue) :
      KeepsMarks (Read.decode d >>= fun a => pure (value a)) :=
    (Read.decode_keepsMarks d).bind fun a => .pure (value a)
  cases step with
  | mark => exact ⟨rfl, rfl⟩
  | span =>
    obtain ⟨data, offset, _ | ⟨start, marks⟩⟩ := r
    · exact ⟨rfl, rfl⟩
    · rw [← perform_snd, perform_span]
      exact ⟨rfl, rfl⟩
  | spanData =>
    obtain ⟨data, offset, _ | ⟨start, marks⟩⟩ := r
    · exact ⟨rfl, rfl⟩
    · rw [← perform_snd, perform_spanData]
      exact ⟨rfl, rfl⟩
  | natural order width => exact hdecode (.natural order width) .natural r
  | int32 => exact hdecode .uint32 (fun w => .integer w.toInt32.toInt) r
  | int64 => exact hdecode .uint64 (fun w => .integer w.toInt64.toInt) r
  | compactSize => exact hdecode .compactSize .natural r
  | bytes count => exact hdecode (.take count) .bytes r
  | peek count => exact (Read.peek_keepsMarks count).bind (fun _ => .pure _) r
  | varBytes => exact hdecode .varBytes .bytes r
  | hash => exact hdecode .hash256 .hash r
  | seek distance => exact (Read.seek_keepsMarks distance).bind (fun _ => .pure _) r
  | checksum => exact Read.checksum_keepsMarks.bind (fun _ => .pure _) r
  | verifyChecksum => exact Read.verifyChecksum_keepsMarks.bind (fun _ => .pure _) r
  | finish => exact Read.finish_keepsMarks.bind (fun _ => .pure _) r
  | size => exact KeepsMarks.get.bind (fun _ => .pure _) r
  | atEnd => exact KeepsMarks.get.bind (fun _ => .pure _) r
  | script => exact hdecode Wire.decode .script r
  | witness => exact hdecode Wire.decode .witness r
  | outpoint => exact hdecode Wire.decode .outpoint r
  | input => exact hdecode Wire.decode .input r
  | output => exact hdecode Wire.decode .output r
  | transaction => exact hdecode Wire.decode .transaction r
  | header => exact hdecode Wire.decode .header r
  | block => exact hdecode Wire.decode .block r

/-! ## Lists of steps -/

theorem after_data (steps : List ReadStep) (r : Reader) : (after steps r).data = r.data := by
  induction steps generalizing r with
  | nil => rfl
  | cons step steps ih => exact (ih _).trans (step.perform_marks r).1

/-- The marks of the regions that steps open stand on top of the marks that they found. -/
theorem marks_after {steps : List ReadStep} {depth depth' : Nat}
    (hdepth : depthAfter? depth steps = some depth') {r : Reader} (own : List Nat)
    {found : List Nat} (hmarks : r.marks = own ++ found) (hown : own.length = depth) :
    ∃ own', (after steps r).marks = own' ++ found ∧ own'.length = depth' := by
  induction steps generalizing depth r own with
  | nil =>
    obtain rfl := Option.some.inj hdepth
    exact ⟨own, hmarks, hown⟩
  | cons step steps ih =>
    have hstep := (step.perform_marks r).2
    unfold marksAfter at hstep
    unfold depthAfter? at hdepth
    cases hbracket : step.bracket with
    | opening =>
      rw [hbracket] at hstep hdepth
      apply ih hdepth (r.offset :: own)
      · rw [hstep, hmarks, List.cons_append]
      · rw [List.length_cons, hown]
    | closing =>
      rw [hbracket] at hstep hdepth
      cases own with
      | nil =>
        obtain rfl : 0 = depth := hown
        cases hdepth
      | cons start own =>
        obtain rfl : own.length + 1 = depth := hown
        apply ih hdepth own
        · rw [hstep, hmarks, List.cons_append, List.tail_cons]
        · rfl
    | neither =>
      rw [hbracket] at hstep hdepth
      exact ih hdepth own (hstep.trans hmarks) hown

/-- Steps in which regions are balanced leave the marks as they found them. -/
theorem Balanced.after_eq {steps : List ReadStep} (hsteps : Balanced steps) (r : Reader) :
    after steps r = { r with offset := (after steps r).offset } := by
  obtain ⟨own, hmarks, hown⟩ := marks_after hsteps [] (List.nil_append r.marks).symm rfl
  obtain rfl := List.length_eq_zero_iff.mp hown
  have hdata := after_data steps r
  cases hafter : after steps r with
  | mk data offset marks =>
    rw [hafter] at hdata hmarks
    obtain rfl : data = r.data := hdata
    obtain rfl : marks = r.marks := hmarks
    rfl

theorem session_concat (done : List ReadStep) (step : ReadStep) (r : Reader) :
    session (done ++ [step]) r = session done r ++ [step.perform (after done r)] :=
  session_append done [step] r

/-- A region that is closed after balanced steps is the one that was opened before them: it goes
from where it was opened to where the steps stopped, which lies within the byte string, or it is
refused because they stopped before it, and in each case no mark but its own is gone. -/
theorem session_region_of_balanced {steps : List ReadStep} (hsteps : Balanced steps) (r : Reader) :
    ∃ stop, after (mark :: steps) r = ⟨r.data, stop, r.offset :: r.marks⟩ ∧
      (r.Within → stop ≤ r.size) ∧
      session (mark :: steps ++ [spanData]) r = session (mark :: steps) r ++
        [(if r.offset ≤ stop then .ok (.bytes ((r.data.take stop).drop r.offset))
          else .error (.outOfBounds stop), ⟨r.data, stop, r.marks⟩)] ∧
      session (mark :: steps ++ [span]) r = session (mark :: steps) r ++
        [(if r.offset ≤ stop then .ok (.natural (stop - r.offset))
          else .error (.outOfBounds stop), ⟨r.data, stop, r.marks⟩)] := by
  let start : Reader := ⟨r.data, r.offset, r.offset :: r.marks⟩
  have hafter : after (mark :: steps) r = ⟨r.data, (after steps start).offset, start.marks⟩ :=
    hsteps.after_eq start
  refine ⟨_, hafter, fun hr => ?_, ?_, ?_⟩
  · have hwithin := (after_within (mark :: steps) hr).2.offset_le
    rw [hafter] at hwithin
    exact hwithin
  · rw [session_concat, hafter, perform_spanData]
  · rw [session_concat, hafter, perform_span]

/-- An inner region that was left behind its start is refused, and the outer one is still closed. -/
theorem session_region_around_refusal :
    let steps : List ReadStep := [.seek 4, .mark, .seek (-2), .spanData, .natural .little 1]
    let r : Reader := ⟨[10, 11, 12, 13, 14, 15], 1, [0]⟩
    Balanced steps ∧ after (mark :: steps) r = ⟨r.data, 4, [1, 0]⟩ ∧
      session (mark :: steps ++ [spanData]) r =
        session (mark :: steps) r ++ [(.ok (.bytes [11, 12, 13]), ⟨r.data, 4, [0]⟩)] := by
  intro steps r
  have hsteps : Balanced steps := by decide
  obtain ⟨stop, hafter, -, hspanData, -⟩ := session_region_of_balanced hsteps r
  obtain rfl : 4 = stop := congrArg Reader.offset hafter
  exact ⟨hsteps, hafter, hspanData⟩

end ReadStep

end LightClient
