import LightClient.Proofs.Session.RoundTrip

/-!
# Sessions of writing within a limit

Every step of writing writes pieces one after the other, each of them whole or not at all. So a
writer with a limit does what one without a limit does, up to the first piece that passes the limit.
There it refuses, and what was written before the piece stays. A step of several pieces can fail
half-way, and a smaller step behind it may succeed again; but nothing is ever written past the
limit, and nothing that was written is ever touched.

A fill is such a step as long as its count keeps the length within a machine word.
-/

namespace LightClient

namespace Writer

/-- The writer after `w` wrote some more, or nothing. -/
def Extends (w next : Writer) : Prop :=
  next.limit = w.limit ∧ w.data <+: next.data

theorem Extends.refl (w : Writer) : w.Extends w :=
  ⟨rfl, List.prefix_rfl⟩

theorem Extends.trans {w next later : Writer} (hnext : w.Extends next)
    (hlater : next.Extends later) : w.Extends later :=
  ⟨hlater.1.trans hnext.1, hnext.2.trans hlater.2⟩

theorem extends_append (w : Writer) (bs : Bytes) : w.Extends (w.append bs) :=
  ⟨rfl, List.prefix_append _ _⟩

theorem finish_sized_eq_ok_iff {data bs : Bytes} {size : Nat} :
    (Writer.mk data (some size)).finish = .ok bs ↔ data.length = size ∧ data = bs := by
  show (if data.length = size then Except.ok data else .error _) = .ok bs ↔ _
  by_cases hsize : data.length = size
  · rw [if_pos hsize, Except.ok.injEq]
    exact (and_iff_right hsize).symm
  · rw [if_neg hsize]
    exact ⟨nofun, fun hboth => absurd hboth.1 hsize⟩

theorem hasRoom_sized_zero (size : Nat) : (sized size).hasRoom 0 = true :=
  hasRoom_iff.mpr (Nat.zero_le size)

/-- What there was room for leaves the writer within its limit. -/
theorem hasRoom_zero_append {w : Writer} {bs : Bytes} (hroom : w.hasRoom bs.length = true) :
    (w.append bs).hasRoom 0 = true := by
  rw [← Nat.add_zero bs.length] at hroom
  exact (hasRoom_add_iff.mp hroom).2

end Writer

namespace Write

/-! ## Pieces -/

theorem pieces_singleton (bs : Bytes) : pieces [bs] = piece bs :=
  bind_pure_unit

/-- Pieces are all written, or else up to the first that does not fit. -/
theorem pieces_cases (bss : List Bytes) {w : Writer} (hw : w.hasRoom 0 = true) :
    (w.hasRoom bss.flatten.length = true ∧ pieces bss w = .ok () (w.append bss.flatten)) ∨
      (w.hasRoom bss.flatten.length = false ∧ ∃ front, front <+: bss.flatten ∧
        w.hasRoom front.length = true ∧
        pieces bss w = .error (.outOfBounds (w.append front).offset) (w.append front)) := by
  induction bss generalizing w with
  | nil => exact .inl ⟨hw, pieces_eq_ok hw⟩
  | cons bs bss ih =>
    have hlength : (bs :: bss).flatten.length = bs.length + bss.flatten.length := by
      rw [List.flatten_cons, List.length_append]
    rw [hlength]
    cases hhead : w.hasRoom bs.length with
    | false =>
      refine .inr ⟨?_, [], List.nil_prefix, hw, ?_⟩
      · rw [← Bool.not_eq_true, Writer.hasRoom_add_iff, hhead]
        exact fun hroom => Bool.noConfusion hroom.1
      · rw [Writer.append_nil, pieces_cons]
        exact Guards.bind_of_eq_error (piece_eq_error hhead) _
    | true =>
      rw [pieces_cons, Guards.bind_of_eq_ok (piece_eq_ok hhead)]
      obtain ⟨hroom, hok⟩ | ⟨hroom, front, hpart, hfront, herror⟩ :=
        ih (Writer.hasRoom_zero_append hhead)
      · refine .inl ⟨Writer.hasRoom_add_iff.mpr ⟨hhead, hroom⟩, ?_⟩
        rw [hok, Writer.append_append, List.flatten_cons]
      · refine .inr ⟨?_, bs ++ front, ?_, ?_, ?_⟩
        · rw [← Bool.not_eq_true, Writer.hasRoom_add_iff, hroom]
          exact fun hboth => Bool.noConfusion hboth.2
        · rw [List.flatten_cons]
          exact (List.prefix_append_right_inj bs).mpr hpart
        · rw [List.length_append]
          exact Writer.hasRoom_add_iff.mpr ⟨hhead, hfront⟩
        · rw [herror, Writer.append_append]

/-- The writer before the first of some pieces and after each piece that is written. -/
def moments : List Bytes → Writer → List Writer
  | [], w => [w]
  | bs :: bss, w => w :: match piece bs w with
    | .ok () next => moments bss next
    | .error _ next => [next]

/-- From one moment to a later one the writer only extends, and it keeps within its limit. -/
theorem moments_spec (bss : List Bytes) {w : Writer} (hw : w.hasRoom 0 = true) :
    ∃ last ∈ moments bss w,
      (pieces bss w = .ok () last ∨ ∃ e, pieces bss w = .error e last) ∧
      (moments bss w).Pairwise Writer.Extends ∧
      ∀ m ∈ moments bss w, w.Extends m ∧ m.Extends last ∧ m.hasRoom 0 = true := by
  induction bss generalizing w with
  | nil =>
    have hsole : ∀ m ∈ [w], w.Extends m ∧ m.Extends w ∧ m.hasRoom 0 = true :=
      List.forall_mem_singleton.mpr ⟨.refl w, .refl w, hw⟩
    exact ⟨w, List.mem_singleton_self w, .inl rfl, List.pairwise_singleton _ _, hsole⟩
  | cons bs bss ih =>
    rw [moments, pieces_cons]
    cases hhead : w.hasRoom bs.length with
    | false =>
      have herror := piece_eq_error hhead
      have hboth : ∀ m ∈ [w, w], w.Extends m ∧ m.Extends w ∧ m.hasRoom 0 = true := by
        simp [Writer.Extends.refl w, hw]
      rw [herror]
      exact ⟨w, List.mem_cons_self, .inr ⟨_, Guards.bind_of_eq_error herror _⟩,
        List.pairwise_pair.mpr (.refl w), hboth⟩
    | true =>
      have hok := piece_eq_ok hhead
      have hnext := w.extends_append bs
      obtain ⟨last, hmem, hends, hpairwise, hall⟩ := ih (Writer.hasRoom_zero_append hhead)
      rw [hok, Guards.bind_of_eq_ok hok]
      have hlast := (hall last hmem).1
      refine ⟨last, List.mem_cons_of_mem w hmem, hends, ?_, ?_⟩
      · exact List.pairwise_cons.mpr ⟨fun m hm => hnext.trans (hall m hm).1, hpairwise⟩
      · refine List.forall_mem_cons.mpr ⟨⟨.refl w, hnext.trans hlast, hw⟩, fun m hm => ?_⟩
        obtain ⟨hfirst, hrest⟩ := hall m hm
        exact ⟨hnext.trans hfirst, hrest⟩

end Write

namespace WriteStep

/-! ## Steps -/

/-- The pieces that a step writes behind others. -/
def pieces (before : Bytes) : WriteStep → List Bytes
  | .varBytes value => Wire.varBytesPieces value
  | .script value => Wire.pieces value
  | .witness value => Wire.pieces value
  | .outpoint value => Wire.pieces value
  | .input value => Wire.pieces value
  | .output value => Wire.pieces value
  | .transaction value => Wire.pieces value
  | .header value => Wire.pieces value
  | .block value => Wire.pieces value
  | step => [step.octets before]

/-- The pieces of a step are its octets, cut. -/
theorem flatten_pieces (before : Bytes) (step : WriteStep) :
    (step.pieces before).flatten = step.octets before := by
  cases step with
  | varBytes value => simp [pieces, octets, Wire.varBytesPieces]
  | script value => rfl
  | witness value => rfl
  | outpoint value => rfl
  | input value => rfl
  | output value => rfl
  | transaction value => rfl
  | header value => rfl
  | block value => rfl
  | _ => exact List.flatten_singleton

/-- Within a machine word a step does nothing but write its pieces. -/
theorem run_eq_pieces {step : WriteStep} {w : Writer} (hword : step.WithinWord w.offset) :
    step.run w = Write.pieces (step.pieces w.data) w := by
  have hsole (bs : Bytes) : Write.piece bs w = Write.pieces [bs] w := by
    rw [Write.pieces_singleton]
  cases step with
  | natural order width value => exact hsole _
  | int32 value => exact hsole _
  | int64 value => exact hsole _
  | compactSize value => exact hsole _
  | bytes value => exact hsole _
  | varBytes value =>
    show (Write.piece _ >>= fun _ => Write.piece value) w = _
    rw [← Write.pieces_singleton value]
    rfl
  | hash value => exact hsole _
  | fill octet count =>
    exact (Write.fill_eq_piece octet hword).trans (hsole _)
  | checksum => exact hsole _
  | script value => rfl
  | witness value => rfl
  | outpoint value => rfl
  | input value => rfl
  | output value => rfl
  | transaction value => rfl
  | header value => rfl
  | block value => rfl

theorem WithinWord.mono {step : WriteStep} {m n : Nat} (hle : m ≤ n) (hword : step.WithinWord n) :
    step.WithinWord m := by
  cases step with
  | fill octet count => exact Nat.lt_of_le_of_lt (Nat.add_le_add_right hle count) hword
  | _ => trivial

theorem AllWithinWord.mono {steps : List WriteStep} {m n : Nat} (hle : m ≤ n)
    (hwords : AllWithinWord n steps) : AllWithinWord m steps := by
  induction steps generalizing m n with
  | nil => trivial
  | cons step steps ih =>
    exact ⟨hwords.1.mono hle, ih (Nat.add_le_add_right hle step.size) hwords.2⟩

/-- A step is written whole if there is room for it; otherwise it is refused where its first piece
begins for which there is no room. -/
theorem perform_sized {step : WriteStep} {data : Bytes} {limit : Nat}
    (hword : step.WithinWord data.length) (hdata : data.length ≤ limit) :
    ((data ++ step.octets data).length ≤ limit ∧
        step.perform ⟨data, some limit⟩ = (.ok (), ⟨data ++ step.octets data, some limit⟩)) ∨
      (limit < (data ++ step.octets data).length ∧ ∃ next : Writer,
        step.perform ⟨data, some limit⟩ = (.error (.outOfBounds next.offset), next)) := by
  have hw : (Writer.mk data (some limit)).hasRoom 0 = true := Writer.hasRoom_iff.mpr hdata
  have hcases := Write.pieces_cases (step.pieces data) hw
  rw [flatten_pieces, ← Bool.not_eq_true, Writer.hasRoom_iff, Nat.not_le] at hcases
  rw [List.length_append, perform, run_eq_pieces (w := ⟨data, some limit⟩) hword]
  obtain ⟨hroom, hok⟩ | ⟨hroom, front, -, -, herror⟩ := hcases
  · rw [hok]
    exact .inl ⟨hroom, rfl⟩
  · rw [herror]
    exact .inr ⟨hroom, _, rfl⟩

theorem perform_sized_fails_iff {step : WriteStep} {data : Bytes} {limit : Nat}
    (hword : step.WithinWord data.length) (hdata : data.length ≤ limit) :
    (∃ e, (step.perform ⟨data, some limit⟩).1 = .error e) ↔
      limit < (data ++ step.octets data).length := by
  obtain ⟨hroom, hok⟩ | ⟨hroom, next, herror⟩ := perform_sized hword hdata
  · rw [hok]
    exact ⟨nofun, fun hlt => absurd hroom (Nat.not_le_of_lt hlt)⟩
  · rw [herror]
    exact ⟨fun _ => hroom, fun _ => ⟨_, rfl⟩⟩

/-- A step that fails names the place up to which something was written. -/
theorem eq_outOfBounds_of_perform_sized {step : WriteStep} {data : Bytes} {limit : Nat} {e : Error}
    {next : Writer} (hword : step.WithinWord data.length) (hdata : data.length ≤ limit)
    (hfails : step.perform ⟨data, some limit⟩ = (.error e, next)) :
    e = .outOfBounds next.offset := by
  obtain ⟨-, hok⟩ | ⟨-, next', herror⟩ := perform_sized hword hdata
  · cases hok.symm.trans hfails
  · obtain ⟨he, rfl⟩ := Prod.mk.inj (herror.symm.trans hfails)
    exact (Except.error.inj he).symm

/-- Also a step that fails writes at most its octets. -/
theorem offset_perform_le {step : WriteStep} {w : Writer} (hword : step.WithinWord w.offset)
    (hw : w.hasRoom 0 = true) : (step.perform w).2.offset ≤ w.offset + step.size := by
  have hlength (bs : Bytes) : (w.append bs).offset = w.offset + bs.length := List.length_append
  have hcases := Write.pieces_cases (step.pieces w.data) hw
  rw [flatten_pieces] at hcases
  rw [perform, run_eq_pieces hword, ← length_octets w.data]
  obtain ⟨-, hok⟩ | ⟨-, front, hpart, -, herror⟩ := hcases
  · rw [hok]
    exact Nat.le_of_eq (hlength _)
  · rw [herror, hlength]
    exact Nat.add_le_add_left hpart.length_le w.offset

/-! ## Sessions -/

/-- Every step of a session succeeds. -/
def Succeeds (steps : List WriteStep) (w : Writer) : Prop :=
  ∀ answer ∈ session steps w, answer.1 = .ok ()

/-- The writer at every moment of a session: before the first step, after each piece, and after
each step. -/
def moments : List WriteStep → Writer → List Writer
  | [], w => [w]
  | step :: steps, w =>
    Write.moments (step.pieces w.data) w ++ moments steps (step.perform w).2

/-- What one step preserves: throughout it the writer only extends and keeps within its limit. It
writes at most its octets, also when it fails. -/
theorem moments_step {step : WriteStep} {w : Writer} (hword : step.WithinWord w.offset)
    (hw : w.hasRoom 0 = true) :
    (Write.moments (step.pieces w.data) w).Pairwise Writer.Extends ∧
      (∀ m ∈ Write.moments (step.pieces w.data) w,
        w.Extends m ∧ m.Extends (step.perform w).2 ∧ m.hasRoom 0 = true) ∧
      w.Extends (step.perform w).2 ∧ (step.perform w).2.hasRoom 0 = true ∧
      (step.perform w).2.offset ≤ w.offset + step.size := by
  obtain ⟨last, hmem, hends, hpairwise, hall⟩ := Write.moments_spec (step.pieces w.data) hw
  have hlast : (step.perform w).2 = last := by
    rw [perform, run_eq_pieces hword]
    obtain hok | ⟨e, herror⟩ := hends
    · rw [hok]
    · rw [herror]
  obtain ⟨hextends, -, hroom⟩ := hall last hmem
  rw [← hlast] at hall hextends hroom
  exact ⟨hpairwise, hall, hextends, hroom, offset_perform_le hword hw⟩

/-- What a session preserves. -/
theorem moments_session {steps : List WriteStep} {w : Writer}
    (hwords : AllWithinWord w.offset steps) (hw : w.hasRoom 0 = true) :
    (moments steps w).Pairwise Writer.Extends ∧
      ∀ m ∈ moments steps w, w.Extends m ∧ m.hasRoom 0 = true := by
  induction steps generalizing w with
  | nil =>
    exact ⟨List.pairwise_singleton _ _, List.forall_mem_singleton.mpr ⟨.refl w, hw⟩⟩
  | cons step steps ih =>
    obtain ⟨hword, hwords⟩ := hwords
    obtain ⟨hpairwise, hall, hextends, hroom, hle⟩ := moments_step hword hw
    obtain ⟨hpairwise', hall'⟩ := ih (hwords.mono hle) hroom
    rw [moments, List.pairwise_append, List.forall_mem_append]
    refine ⟨⟨hpairwise, hpairwise', fun m hm later hlater => ?_⟩, fun m hm => ?_, fun m hm => ?_⟩
    · exact (hall m hm).2.1.trans (hall' later hlater).1
    · exact ⟨(hall m hm).1, (hall m hm).2.2⟩
    · exact ⟨hextends.trans (hall' m hm).1, (hall' m hm).2⟩

theorem mem_moments_self (steps : List WriteStep) (w : Writer) : w ∈ moments steps w := by
  cases steps with
  | nil => exact List.mem_singleton_self w
  | cons step steps =>
    apply List.mem_append_left
    cases step.pieces w.data <;> exact List.mem_cons_self

/-- The writer after some of the steps is one of a moment. -/
theorem after_mem_moments (done rest : List WriteStep) (w : Writer) :
    after done w ∈ moments (done ++ rest) w := by
  induction done generalizing w with
  | nil => exact mem_moments_self rest w
  | cons step done ih => exact List.mem_append_right _ (ih (step.perform w).2)

/-- Where a session with a limit leads, the steps that follow keep within a machine word too. -/
theorem allWithinWord_after {done rest : List WriteStep} {w : Writer}
    (hwords : AllWithinWord w.offset (done ++ rest)) (hw : w.hasRoom 0 = true) :
    AllWithinWord (after done w).offset rest := by
  induction done generalizing w with
  | nil => exact hwords
  | cons step done ih =>
    obtain ⟨hword, hwords⟩ := hwords
    obtain ⟨-, -, -, hroom, hle⟩ := moments_step hword hw
    exact ih (hwords.mono hle) hroom

/-- With a limit a session succeeds exactly when what is written without one keeps within it. -/
theorem succeeds_sized_iff (data : Bytes) {steps : List WriteStep} {limit : Nat}
    (hwords : AllWithinWord data.length steps) (hdata : data.length ≤ limit) :
    Succeeds steps ⟨data, some limit⟩ ↔ (written data steps).length ≤ limit := by
  induction steps generalizing data with
  | nil => exact ⟨fun _ => hdata, fun _ => nofun⟩
  | cons step steps ih =>
    obtain ⟨hword, hwords⟩ := (allWithinWord_cons data).mp hwords
    rw [Succeeds, session, List.forall_mem_cons]
    obtain ⟨hroom, hok⟩ | ⟨hroom, next, herror⟩ := perform_sized hword hdata
    · rw [hok]
      exact (and_iff_right rfl).trans (ih _ hwords hroom)
    · have hlength := (prefix_written (data ++ step.octets data) steps).length_le
      rw [herror, written]
      constructor
      · rintro ⟨hfalse, -⟩
        cases hfalse
      · intro hle
        omega

/-- A session that succeeds writes what it writes without a limit. -/
theorem after_sized (data : Bytes) {steps : List WriteStep} {limit : Nat}
    (hwords : AllWithinWord data.length steps) (hdata : data.length ≤ limit)
    (hwritten : (written data steps).length ≤ limit) :
    after steps ⟨data, some limit⟩ = ⟨written data steps, some limit⟩ := by
  induction steps generalizing data with
  | nil => rfl
  | cons step steps ih =>
    obtain ⟨hword, hwords⟩ := (allWithinWord_cons data).mp hwords
    have hlength := (prefix_written (data ++ step.octets data) steps).length_le
    rw [written] at hwritten
    obtain ⟨hroom, hok⟩ | ⟨hroom, -⟩ := perform_sized hword hdata
    · rw [after, List.foldl_cons, hok]
      exact ih _ hwords hroom hwritten
    · omega

/-! ## A writer of a given size -/

section

variable {n : Nat}

theorem offset_after_growing {steps : List WriteStep} (hwords : AllWithinWord 0 steps) :
    (after steps .growing).offset = (written [] steps).length :=
  congrArg Writer.offset (after_growing [] hwords)

theorem succeeds_sized {steps : List WriteStep} (hwords : AllWithinWord 0 steps) :
    Succeeds steps (.sized n) ↔ (written [] steps).length ≤ n :=
  succeeds_sized_iff [] hwords (Nat.zero_le n)

theorem after_sized_eq {steps : List WriteStep} (hwords : AllWithinWord 0 steps)
    (hwritten : (written [] steps).length ≤ n) :
    after steps (.sized n) = ⟨written [] steps, some n⟩ :=
  after_sized [] hwords (Nat.zero_le n) hwritten

/-- At no moment has the writer passed its size. -/
theorem eq_of_mem_moments {steps : List WriteStep} {m : Writer} (hwords : AllWithinWord 0 steps)
    (hm : m ∈ moments steps (.sized n)) : m = ⟨m.data, some n⟩ ∧ m.data.length ≤ n := by
  have hroom := Writer.hasRoom_sized_zero n
  obtain ⟨⟨hlimit, -⟩, hroom⟩ := (moments_session (w := .sized n) hwords hroom).2 m hm
  obtain ⟨data, limit⟩ := m
  obtain rfl : limit = some n := hlimit
  exact ⟨rfl, Writer.hasRoom_iff.mp hroom⟩

/-- What is written without a limit is within a size from the start as soon as it is at the end. -/
theorem forall_prefix_iff {done : List WriteStep} (hwords : AllWithinWord 0 done) :
    (∀ part, part <+: done → (after part .growing).offset ≤ n) ↔
      (written [] done).length ≤ n := by
  have hpart (part behind : List WriteStep) (hsplit : part ++ behind = done) :
      (after part .growing).offset = (written [] part).length := by
    rw [← hsplit] at hwords
    exact offset_after_growing ((allWithinWord_append []).mp hwords).1
  constructor
  · intro hparts
    rw [← hpart done [] (List.append_nil done)]
    exact hparts done List.prefix_rfl
  · rintro hdone part ⟨behind, hsplit⟩
    rw [hpart part behind hsplit]
    rw [← hsplit, written_append] at hdone
    exact Nat.le_trans (prefix_written (written [] part) behind).length_le hdone

/-- The first step that fails is the first whose output without a limit passes the size. -/
theorem first_failure_iff {done : List WriteStep} {step : WriteStep}
    (hwords : AllWithinWord 0 (done ++ [step])) :
    (Succeeds done (.sized n) ∧ ∃ e, (step.perform (after done (.sized n))).1 = .error e) ↔
      (∀ part, part <+: done → (after part .growing).offset ≤ n) ∧
        n < (after (done ++ [step]) .growing).offset := by
  have hstep : written [] (done ++ [step]) = written [] done ++ step.octets (written [] done) :=
    written_append [] done [step]
  obtain ⟨hdone, hword, -⟩ := (allWithinWord_append []).mp hwords
  rw [succeeds_sized hdone, forall_prefix_iff hdone, offset_after_growing hwords, hstep]
  refine and_congr_right fun hlength => ?_
  rw [after_sized_eq hdone hlength]
  exact perform_sized_fails_iff hword hlength

/-- A session ends with exactly as many octets as it should, if it writes that many without a
limit. -/
theorem finish_sized {steps : List WriteStep} (hwords : AllWithinWord 0 steps)
    (hlength : (written [] steps).length = n) :
    (after steps (.sized n)).finish = .ok (written [] steps) := by
  rw [after_sized_eq hwords (Nat.le_of_eq hlength)]
  exact Writer.finish_sized_eq_ok_iff.mpr ⟨hlength, rfl⟩

end

/-- A writer of a given size does what a writer without a limit does, as long as that keeps within
the size. Every step succeeds and the end is reached exactly if the whole output without a limit has
this size, and then the output is the same. The first step that fails is the first whose output
without a limit passes the size. Every step that fails names the place up to which something was
written. At no moment was more written than the size, and what was written stays. All this is so
while no fill takes the length past a machine word. -/
theorem sized_follows_growing (n : Nat) (steps : List WriteStep) (hwords : AllWithinWord 0 steps) :
    ∃ whole, (after steps .growing).finish = .ok whole ∧
      ((Succeeds steps (.sized n) ∧ ∃ bs, (after steps (.sized n)).finish = .ok bs) ↔
        whole.length = n) ∧
      (whole.length = n → (after steps (.sized n)).finish = .ok whole) ∧
      (∀ done step rest, steps = done ++ step :: rest →
        ((Succeeds done (.sized n) ∧ ∃ e, (step.perform (after done (.sized n))).1 = .error e) ↔
          (∀ part, part <+: done → (after part .growing).offset ≤ n) ∧
            n < (after (done ++ [step]) .growing).offset) ∧
        ∀ e next, step.perform (after done (.sized n)) = (.error e, next) →
          e = .outOfBounds next.offset) ∧
      (∀ done, done <+: steps → after done (.sized n) ∈ moments steps (.sized n)) ∧
      (moments steps (.sized n)).Pairwise (fun m later => m.data <+: later.data) ∧
      ∀ m ∈ moments steps (.sized n), m.offset ≤ n := by
  have hroom := Writer.hasRoom_sized_zero n
  have hwhole : (after steps .growing).finish = .ok (written [] steps) :=
    congrArg Writer.finish (after_growing [] hwords)
  refine ⟨written [] steps, hwhole, ⟨?_, ?_⟩, finish_sized hwords, ?_, ?_, ?_, ?_⟩
  · rintro ⟨hall, bs, hbs⟩
    rw [after_sized_eq hwords ((succeeds_sized hwords).mp hall)] at hbs
    exact (Writer.finish_sized_eq_ok_iff.mp hbs).1
  · intro hlength
    exact ⟨(succeeds_sized hwords).mpr (Nat.le_of_eq hlength), _, finish_sized hwords hlength⟩
  · rintro done step rest rfl
    have hsplit : done ++ step :: rest = (done ++ [step]) ++ rest := List.append_cons done step rest
    have hdone := ((allWithinWord_append []).mp hwords).1
    refine ⟨?_, fun e next hfails => ?_⟩
    · rw [hsplit] at hwords
      exact first_failure_iff ((allWithinWord_append []).mp hwords).1
    · have hword := (allWithinWord_after (w := .sized n) hwords hroom).1
      have hmoment := after_mem_moments done [] (.sized n)
      rw [List.append_nil] at hmoment
      obtain ⟨hbefore, hlength⟩ := eq_of_mem_moments hdone hmoment
      rw [hbefore] at hfails
      exact eq_outOfBounds_of_perform_sized hword hlength hfails
  · rintro done ⟨rest, rfl⟩
    exact after_mem_moments done rest (.sized n)
  · exact (moments_session (w := .sized n) hwords hroom).1.imp And.right
  · exact fun m hm => (eq_of_mem_moments hwords hm).2

/-- A byte string behind its length, and three zeros. -/
def padded : List WriteStep :=
  [.varBytes [0xaa, 0xbb], .fill 0 3]

/-- Six octets are room for both steps, five are not. -/
theorem sized_follows_growing_padded :
    AllWithinWord 0 padded ∧ (after padded (.sized 6)).finish = .ok [2, 0xaa, 0xbb, 0, 0, 0] ∧
      ¬(Succeeds padded (.sized 5) ∧ ∃ bs, (after padded (.sized 5)).finish = .ok bs) := by
  have hwords : AllWithinWord 0 padded := by
    refine ⟨trivial, ?_, trivial⟩
    show 3 + 3 < 2 ^ 64
    decide
  have hgrowing : (after padded .growing).finish = .ok [2, 0xaa, 0xbb, 0, 0, 0] := rfl
  obtain ⟨whole, hwhole, -, hsix, -⟩ := sized_follows_growing 6 padded hwords
  obtain ⟨whole', hwhole', hfive, -⟩ := sized_follows_growing 5 padded hwords
  obtain rfl := Except.ok.inj (hwhole.symm.trans hgrowing)
  obtain rfl := Except.ok.inj (hwhole'.symm.trans hgrowing)
  exact ⟨hwords, hsix rfl, fun hall => absurd (hfive.mp hall) (by decide)⟩

/-- A step of two pieces leaves the first behind when it fails, and a smaller one fills the rest:
the end is reached, but not every step has succeeded. -/
example : session [.varBytes [0xaa, 0xbb], .natural .little 1 7] (.sized 2) =
    [(.error (.outOfBounds 1), ⟨[2], some 2⟩), (.ok (), ⟨[2, 7], some 2⟩)] := by
  rfl

end WriteStep

end LightClient
