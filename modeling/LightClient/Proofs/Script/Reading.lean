import LightClient.Script.Basic
import LightClient.Proofs.Guards
import LightClient.Proofs.Script.Front

/-!
# Reading scripts

A script is read without an error exactly when its octets are those of some well-formed
instructions, one after the other, and these are the instructions that it is read as. There is never
a choice, since an instruction takes up the same octets whatever follows it. If reading fails, the
octets are those of some instructions up to the first one that is cut short, or that is refused
where every instruction also has to pass a check.
-/

namespace LightClient.Script

open Guards

/-! ## Steps -/

/-- A walk that has a step for every octet goes to the end, and no further. -/
theorem walk_eq_walk {fuel fuel' : Nat} {s : Suffix} (hfuel : s.bytes.length ≤ fuel)
    (hfuel' : s.bytes.length ≤ fuel') : walk fuel s = walk fuel' s := by
  induction fuel generalizing fuel' s with
  | zero =>
    have hnil : s.bytes = [] := List.length_eq_zero_iff.mp (Nat.le_zero.mp hfuel)
    cases fuel' <;> simp [walk, hnil]
  | succ fuel ih =>
    cases fuel' with
    | zero =>
      have hnil : s.bytes = [] := List.length_eq_zero_iff.mp (Nat.le_zero.mp hfuel')
      simp [walk, hnil]
    | succ fuel' =>
      cases hdecode : Instruction.decode s with
      | error e t => simp [walk, hdecode]
      | ok i t =>
        obtain ⟨-, hbytes, -⟩ := (Instruction.decode_exact s i t).mp hdecode
        have hpos := List.length_pos_iff.mpr i.bytes_ne_nil
        rw [hbytes, List.length_append] at hfuel hfuel'
        simp only [walk, hdecode, ih (s := t) (by omega) (by omega : t.bytes.length ≤ fuel')]

/-- The steps of reading what is left of a script. -/
def stepsFrom (s : Suffix) : List Step :=
  walk s.bytes.length s

theorem stepsFrom_of_eq_nil {s : Suffix} (hnil : s.bytes = []) : stepsFrom s = [] := by
  rw [stepsFrom, hnil]
  rfl

/-- Reading goes on behind an instruction. -/
theorem stepsFrom_of_append {i : Instruction} {s : Suffix} {rest : Bytes} (hwf : i.WellFormed)
    (hbytes : s.bytes = i.bytes ++ rest) :
    stepsFrom s = ⟨s.offset, .ok i, s.offset + i.bytes.length⟩ ::
      stepsFrom ⟨s.offset + i.bytes.length, rest⟩ := by
  have hpos := List.length_pos_iff.mpr i.bytes_ne_nil
  have hlength : s.bytes.length = i.bytes.length + rest.length := by
    rw [hbytes, List.length_append]
  obtain ⟨fuel, hfuel⟩ : ∃ fuel, s.bytes.length = fuel + 1 := ⟨s.bytes.length - 1, by omega⟩
  have hne : s.bytes.isEmpty = false := by
    rw [List.isEmpty_eq_false_iff, ← List.length_pos_iff]
    omega
  rw [stepsFrom, hfuel, walk, if_neg (by simp [hne]), Instruction.decode_of_append hwf hbytes]
  simp only
  rw [stepsFrom, walk_eq_walk (s := ⟨s.offset + i.bytes.length, rest⟩) _ (Nat.le_refl _)]
  show rest.length ≤ fuel
  omega

/-- Reading stops at an instruction that is cut short. -/
theorem stepsFrom_of_cutShort {s : Suffix} {taken : Nat}
    (hcut : Instruction.CutShort s.bytes taken) :
    ∃ stop, stepsFrom s = [⟨s.offset, .error (.outOfBounds (s.offset + taken)), stop⟩] := by
  obtain ⟨t, herror⟩ := Instruction.decode_of_cutShort hcut
  have hne : s.bytes ≠ [] := by
    intro hnil
    rw [hnil] at hcut
    cases hcut
  obtain ⟨fuel, hfuel⟩ : ∃ fuel, s.bytes.length = fuel + 1 :=
    Nat.exists_eq_succ_of_ne_zero (by simpa using hne)
  exact ⟨t.offset, by simp [stepsFrom, hfuel, walk, hne, herror]⟩

/-! ## Reading with a check -/

/-- The instruction of a step, if it passes a check that is made where it starts. -/
def Step.checked (check : Nat → Instruction → Except Error Unit) (step : Step) :
    Except Error Instruction := do
  let i ← step.result
  check step.start i
  return i

/-- The instructions of what is left of a script, if all of them pass a check. -/
def readFrom (check : Nat → Instruction → Except Error Unit) (s : Suffix) :
    Except Error (List Instruction) :=
  (stepsFrom s).mapM (Step.checked check)

/-- What stands at an offset cannot be read: an instruction is cut short, or fails the check. -/
def FailsAt (check : Nat → Instruction → Except Error Unit) (offset : Nat) (bs : Bytes)
    (e : Error) : Prop :=
  (∃ taken, Instruction.CutShort bs taken ∧ e = .outOfBounds (offset + taken)) ∨
    ∃ i rest, i.WellFormed ∧ bs = i.bytes ++ rest ∧ check offset i = .error e

section

variable {check : Nat → Instruction → Except Error Unit} {Passes : Instruction → Prop}
  {s : Suffix} {e : Error}

theorem readFrom_of_eq_nil (hnil : s.bytes = []) : readFrom check s = .ok [] := by
  rw [readFrom, stepsFrom_of_eq_nil hnil]
  rfl

theorem readFrom_of_append {i : Instruction} {rest : Bytes} (hwf : i.WellFormed)
    (hbytes : s.bytes = i.bytes ++ rest) :
    readFrom check s = check s.offset i >>= fun _ =>
      readFrom check ⟨s.offset + i.bytes.length, rest⟩ >>= fun is => pure (i :: is) := by
  have hstep (stop : Nat) : Step.checked check ⟨s.offset, .ok i, stop⟩ =
      check s.offset i >>= fun _ => pure i := rfl
  rw [readFrom, stepsFrom_of_append hwf hbytes, List.mapM_cons, hstep]
  simp only [bind_assoc, pure_bind]
  rfl

theorem readFrom_of_failsAt (hfails : FailsAt check s.offset s.bytes e) :
    readFrom check s = .error e := by
  obtain ⟨taken, hcut, rfl⟩ | ⟨i, rest, hwf, hbytes, hcheck⟩ := hfails
  · obtain ⟨stop, hsteps⟩ := stepsFrom_of_cutShort hcut
    rw [readFrom, hsteps]
    rfl
  · rw [readFrom_of_append hwf hbytes, hcheck]
    rfl

/-- Instructions that pass the check are read, and then what follows them. -/
theorem readFrom_of_flatMap_append (hpasses : ∀ start i, check start i = .ok () ↔ Passes i)
    {front : List Instruction} {rest : Bytes} (hfront : ∀ i ∈ front, i.WellFormed ∧ Passes i)
    (hbytes : s.bytes = front.flatMap Instruction.bytes ++ rest) :
    readFrom check s =
      readFrom check ⟨s.offset + (front.flatMap Instruction.bytes).length, rest⟩ >>= fun is =>
        pure (front ++ is) := by
  induction front generalizing s with
  | nil =>
    obtain ⟨offset, bs⟩ := s
    obtain rfl : bs = rest := hbytes
    exact (bind_pure _).symm
  | cons i front ih =>
    obtain ⟨⟨hwf, hi⟩, hfront⟩ := List.forall_mem_cons.mp hfront
    rw [List.flatMap_cons, List.append_assoc] at hbytes
    rw [readFrom_of_append hwf hbytes, (hpasses _ i).mpr hi, ih hfront rfl, List.flatMap_cons,
      List.length_append, ← Nat.add_assoc]
    simp only [bind_assoc, pure_bind, List.cons_append]
    rfl

/-- Octets are those of instructions that pass the check, all of them or up to a place where reading
fails. -/
theorem passing_or_failsAt (hpasses : ∀ start i, check start i = .ok () ↔ Passes i)
    (offset : Nat) (bs : Bytes) :
    ∃ (front : List Instruction) (rest : Bytes), (∀ i ∈ front, i.WellFormed ∧ Passes i) ∧
      bs = front.flatMap Instruction.bytes ++ rest ∧
      (rest = [] ∨
        ∃ e, FailsAt check (offset + (front.flatMap Instruction.bytes).length) rest e) := by
  induction hlength : bs.length using Nat.strongRecOn generalizing offset bs with
  | ind length ih =>
    by_cases hnil : bs = []
    · exact ⟨[], bs, nofun, rfl, .inl hnil⟩
    obtain ⟨i, rest, hwf, hbytes⟩ | ⟨taken, hcut⟩ := Instruction.wellFormed_or_cutShort hnil
    · cases hcheck : check offset i with
      | error e => exact ⟨[], bs, nofun, rfl, .inr ⟨e, .inr ⟨i, rest, hwf, hbytes, hcheck⟩⟩⟩
      | ok u =>
        have hpos := List.length_pos_iff.mpr i.bytes_ne_nil
        obtain ⟨front, back, hfront, rfl, hend⟩ := ih rest.length
          (by rw [← hlength, hbytes, List.length_append]; omega) (offset + i.bytes.length) rest rfl
        refine ⟨i :: front, back, ?_, ?_, ?_⟩
        · exact List.forall_mem_cons.mpr ⟨⟨hwf, (hpasses offset i).mp hcheck⟩, hfront⟩
        · rw [hbytes, List.flatMap_cons, List.append_assoc]
        · rwa [List.flatMap_cons, List.length_append, ← Nat.add_assoc]
    · exact ⟨[], bs, nofun, rfl, .inr ⟨_, .inl ⟨taken, hcut, rfl⟩⟩⟩

/-- Exactly the octets of well-formed instructions that pass the check are read. -/
theorem readFrom_eq_ok_iff (hpasses : ∀ start i, check start i = .ok () ↔ Passes i)
    {is : List Instruction} :
    readFrom check s = .ok is ↔
      (∀ i ∈ is, i.WellFormed ∧ Passes i) ∧ s.bytes = is.flatMap Instruction.bytes := by
  have hread {is : List Instruction} (his : ∀ i ∈ is, i.WellFormed ∧ Passes i)
      (hbytes : s.bytes = is.flatMap Instruction.bytes ++ []) : readFrom check s = .ok is := by
    rw [readFrom_of_flatMap_append hpasses his hbytes, readFrom_of_eq_nil rfl]
    exact congrArg Except.ok (List.append_nil is)
  constructor
  · intro hok
    obtain ⟨front, rest, hfront, hbytes, rfl | ⟨e, hfails⟩⟩ :=
      passing_or_failsAt hpasses s.offset s.bytes
    · obtain rfl := Except.ok.inj ((hread hfront hbytes).symm.trans hok)
      exact ⟨hfront, hbytes.trans (List.append_nil _)⟩
    · rw [readFrom_of_flatMap_append hpasses hfront hbytes, readFrom_of_failsAt hfails] at hok
      cases hok
  · rintro ⟨his, hbytes⟩
    exact hread his (hbytes.trans (List.append_nil _).symm)

/-- Reading fails as the first instruction does that is cut short or fails the check. -/
theorem readFrom_eq_error_iff (hpasses : ∀ start i, check start i = .ok () ↔ Passes i) :
    readFrom check s = .error e ↔
      ∃ (front : List Instruction) (rest : Bytes), (∀ i ∈ front, i.WellFormed ∧ Passes i) ∧
        s.bytes = front.flatMap Instruction.bytes ++ rest ∧
        FailsAt check (s.offset + (front.flatMap Instruction.bytes).length) rest e := by
  have hread {front : List Instruction} {rest : Bytes} {e : Error}
      (hfront : ∀ i ∈ front, i.WellFormed ∧ Passes i)
      (hbytes : s.bytes = front.flatMap Instruction.bytes ++ rest)
      (hfails : FailsAt check (s.offset + (front.flatMap Instruction.bytes).length) rest e) :
      readFrom check s = .error e := by
    rw [readFrom_of_flatMap_append hpasses hfront hbytes, readFrom_of_failsAt hfails]
    rfl
  constructor
  · intro herror
    obtain ⟨front, rest, hfront, hbytes, rfl | ⟨e', hfails⟩⟩ :=
      passing_or_failsAt hpasses s.offset s.bytes
    · have hok := (readFrom_eq_ok_iff hpasses).mpr ⟨hfront, hbytes.trans (List.append_nil _)⟩
      cases hok.symm.trans herror
    · obtain rfl := Except.error.inj ((hread hfront hbytes hfails).symm.trans herror)
      exact ⟨front, rest, hfront, hbytes, hfails⟩
  · rintro ⟨front, rest, hfront, hbytes, hfails⟩
    exact hread hfront hbytes hfails

end

/-! ## Whole byte strings -/

/-- Reading alone refuses no instruction. -/
def noCheck (_start : Nat) (_i : Instruction) : Except Error Unit :=
  .ok ()

theorem noCheck_eq_ok_iff (start : Nat) (i : Instruction) : noCheck start i = .ok () ↔ True :=
  iff_true_intro rfl

theorem instructionsOf_eq (bs : Bytes) : instructionsOf bs = readFrom noCheck ⟨0, bs⟩ := by
  have hresult : Step.result = Step.checked noCheck := by
    funext step
    rw [Step.checked]
    cases step.result <;> rfl
  rw [instructionsOf, hresult]
  rfl

/-- A byte string is read as the well-formed instructions whose octets it consists of. -/
theorem instructionsOf_eq_ok_iff {bs : Bytes} {is : List Instruction} :
    instructionsOf bs = .ok is ↔
      (∀ i ∈ is, i.WellFormed) ∧ bs = is.flatMap Instruction.bytes := by
  rw [instructionsOf_eq, readFrom_eq_ok_iff noCheck_eq_ok_iff]
  simp only [and_true]

/-- A byte string is not read if it consists of the octets of some well-formed instructions up to
one that is cut short. -/
theorem instructionsOf_eq_error_iff {bs : Bytes} {e : Error} :
    instructionsOf bs = .error e ↔
      ∃ (front : List Instruction) (rest : Bytes) (taken : Nat), (∀ i ∈ front, i.WellFormed) ∧
        bs = front.flatMap Instruction.bytes ++ rest ∧ Instruction.CutShort rest taken ∧
        e = .outOfBounds ((front.flatMap Instruction.bytes).length + taken) := by
  rw [instructionsOf_eq, readFrom_eq_error_iff noCheck_eq_ok_iff]
  simp [FailsAt, noCheck]

end LightClient.Script
