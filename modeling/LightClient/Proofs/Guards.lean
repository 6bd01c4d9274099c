/-!
# Chains of checks

Checks that stop at the first failure are written one after the other. Such a chain succeeds exactly
when every check does, which is how theorems about it are stated.
-/

namespace LightClient.Guards

variable {ε α β : Type}

/-- Two steps succeed when the first does and the second does with its result. -/
theorem bind_eq_ok_iff {x : Except ε α} {f : α → Except ε β} {b : β} :
    (x >>= f) = .ok b ↔ ∃ a, x = .ok a ∧ f a = .ok b := by
  cases x with
  | error e =>
    constructor
    · intro hok
      cases hok
    · rintro ⟨a, ha, _⟩
      cases ha
  | ok a =>
    constructor
    · exact fun hok => ⟨a, rfl, hok⟩
    · rintro ⟨a', ha, hok⟩
      rw [Except.ok.inj ha]
      exact hok

/-- A step that succeeded leaves what follows it. -/
theorem ok_bind (a : α) (f : α → Except ε β) : (Except.ok a >>= f) = f a :=
  rfl

/-- A step that failed leaves nothing of what follows it. -/
theorem error_bind (e : ε) (f : α → Except ε β) :
    ((Except.error e : Except ε α) >>= f) = .error e :=
  rfl

/-- Two steps fail when the first does, or the second does with its result. -/
theorem bind_eq_error_iff {x : Except ε α} {f : α → Except ε β} {e : ε} :
    (x >>= f) = .error e ↔ x = .error e ∨ ∃ a, x = .ok a ∧ f a = .error e := by
  cases x with
  | error e' => simp [error_bind]
  | ok a => simp [ok_bind]

/-- What cannot fail adds no failure. -/
theorem bind_pure_eq_error_iff {x : Except ε α} {f : α → β} {e : ε} :
    (x >>= fun a => pure (f a)) = .error e ↔ x = .error e := by
  cases x with
  | error e' => rw [error_bind, Except.error.injEq, Except.error.injEq]
  | ok a =>
    constructor
    · intro hfailed
      cases hfailed
    · intro hfailed
      cases hfailed

theorem pure_eq_ok_iff {a b : α} : (pure a : Except ε α) = .ok b ↔ a = b :=
  Except.ok.injEq a b ▸ Iff.rfl

/-- Renaming errors changes no success. -/
theorem mapError_eq_ok_iff {ε' : Type} {x : Except ε α} {f : ε → ε'} {a : α} :
    x.mapError f = .ok a ↔ x = .ok a := by
  cases x with
  | error e =>
    constructor
    · intro hok
      cases hok
    · intro hok
      cases hok
  | ok b =>
    show Except.ok b = Except.ok a ↔ Except.ok b = Except.ok a
    rw [Except.ok.injEq, Except.ok.injEq]

/-- Renaming errors renames every failure. -/
theorem mapError_eq_error_iff {ε' : Type} {x : Except ε α} {f : ε → ε'} {e : ε'} :
    x.mapError f = .error e ↔ ∃ cause, x = .error cause ∧ e = f cause := by
  cases x with
  | error cause =>
    show Except.error (f cause) = Except.error e ↔ _
    simp [eq_comm]
  | ok a =>
    constructor
    · intro hfailed
      cases hfailed
    · rintro ⟨cause, hcause, -⟩
      cases hcause

/-- A refusal stands in the way of what follows only if its condition holds. -/
theorem refuse_eq_ok_iff {p : Prop} [Decidable p] {e : ε} {f : α → Except ε β}
    {rest : Except ε β} {b : β} :
    (if p then (throw e : Except ε α) >>= f else rest) = .ok b ↔ ¬p ∧ rest = .ok b := by
  by_cases hp : p
  · rw [if_pos hp]
    constructor
    · intro hok
      cases hok
    · exact fun hok => absurd hp hok.1
  · rw [if_neg hp]
    exact ⟨fun hok => ⟨hp, hok⟩, fun hok => hok.2⟩

/-- A refusal that comes last. -/
theorem refuse_last_eq_ok_iff {p : Prop} [Decidable p] {e : ε} :
    (if p then (throw e : Except ε Unit) else pure ()) = .ok () ↔ ¬p := by
  by_cases hp : p
  · rw [if_pos hp]
    constructor
    · intro hok
      cases hok
    · exact fun hnot => absurd hp hnot
  · rw [if_neg hp]
    exact ⟨fun _ => hp, fun _ => rfl⟩

/-- What follows a refusal is followed by the same as before. -/
theorem refuse_bind {p : Prop} [Decidable p] {e : ε} {rest : Except ε α} {f : α → Except ε β} :
    (if p then (throw e : Except ε PUnit) >>= fun _ => rest else rest) >>= f =
      if p then (throw e : Except ε PUnit) >>= fun _ => rest >>= f else rest >>= f := by
  by_cases hp : p
  · rw [if_pos hp, if_pos hp]
    rfl
  · rw [if_neg hp, if_neg hp]

/-- A check that is made only under a condition. -/
theorem check_when_eq_ok_iff {p : Prop} [Decidable p] {check : Except ε Unit}
    {rest : Unit → Except ε β} {b : β} :
    (if p then check >>= rest else rest ()) = .ok b ↔
      (p → check = .ok ()) ∧ rest () = .ok b := by
  by_cases hp : p
  · rw [if_pos hp, bind_eq_ok_iff]
    constructor
    · rintro ⟨_, hcheck, hrest⟩
      exact ⟨fun _ => hcheck, hrest⟩
    · rintro ⟨hcheck, hrest⟩
      exact ⟨(), hcheck hp, hrest⟩
  · rw [if_neg hp]
    exact ⟨fun hrest => ⟨fun h => absurd h hp, hrest⟩, fun hok => hok.2⟩

theorem forM_cons (a : α) (as : List α) (check : α → Except ε PUnit) :
    (a :: as).forM check = check a >>= fun _ => as.forM check :=
  rfl

/-- Checks on the members of a list succeed when each does. -/
theorem forM_eq_ok_iff {as : List α} {check : α → Except ε PUnit} :
    as.forM check = .ok () ↔ ∀ a ∈ as, check a = .ok () := by
  induction as with
  | nil => exact ⟨fun _ => nofun, fun _ => rfl⟩
  | cons a as ih =>
    rw [forM_cons, bind_eq_ok_iff, List.forall_mem_cons, ← ih]
    constructor
    · rintro ⟨_, ha, has⟩
      exact ⟨ha, has⟩
    · rintro ⟨ha, has⟩
      exact ⟨(), ha, has⟩

/-- Checks on the members of a list fail as the first that fails. -/
theorem forM_eq_error_iff {as : List α} {check : α → Except ε PUnit} {e : ε} :
    as.forM check = .error e ↔
      ∃ front a back, as = front ++ a :: back ∧ (∀ b ∈ front, check b = .ok ()) ∧
        check a = .error e := by
  induction as with
  | nil =>
    constructor
    · intro herror
      cases herror
    · rintro ⟨front, a, back, hsplit, _⟩
      simp at hsplit
  | cons a as ih =>
    rw [forM_cons]
    cases ha : check a with
    | error e' =>
      show Except.error e' = .error e ↔ _
      constructor
      · intro heq
        exact ⟨[], a, as, rfl, nofun, ha.trans heq⟩
      · rintro ⟨front, b, back, hsplit, hfront, hb⟩
        cases front with
        | nil =>
          obtain ⟨rfl, rfl⟩ := List.cons.inj hsplit
          exact ha.symm.trans hb
        | cons c front =>
          obtain ⟨rfl, _⟩ := List.cons.inj hsplit
          cases ha.symm.trans (hfront a List.mem_cons_self)
    | ok u =>
      show as.forM check = .error e ↔ _
      rw [ih]
      constructor
      · rintro ⟨front, b, back, rfl, hfront, hb⟩
        exact ⟨a :: front, b, back, rfl, List.forall_mem_cons.mpr ⟨ha, hfront⟩, hb⟩
      · rintro ⟨front, b, back, hsplit, hfront, hb⟩
        cases front with
        | nil =>
          obtain ⟨rfl, rfl⟩ := List.cons.inj hsplit
          cases ha.symm.trans hb
        | cons c front =>
          obtain ⟨rfl, rfl⟩ := List.cons.inj hsplit
          exact ⟨front, b, back, rfl, (List.forall_mem_cons.mp hfront).2, hb⟩

/-- A list of steps succeeds with the results of its members. -/
theorem mapM_eq_ok_iff {as : List α} {f : α → Except ε β} {bs : List β} :
    as.mapM f = .ok bs ↔ as.map f = bs.map .ok := by
  induction as generalizing bs with
  | nil => rw [List.mapM_nil, pure_eq_ok_iff, List.map_nil, List.nil_eq, List.nil_eq,
      List.map_eq_nil_iff]
  | cons a as ih =>
    rw [List.mapM_cons, bind_eq_ok_iff]
    simp only [bind_eq_ok_iff, pure_eq_ok_iff, ih]
    constructor
    · rintro ⟨b, hb, bs, hbs, rfl⟩
      rw [List.map_cons, List.map_cons, hb, hbs]
    · intro hmap
      cases bs with
      | nil => cases hmap
      | cons b bs =>
        obtain ⟨hb, hbs⟩ := List.cons.inj hmap
        exact ⟨b, hb, bs, hbs, rfl⟩

/-- A list of steps succeeds with results of some kind when each of its members does. -/
theorem exists_mapM_eq_ok_iff {as : List α} {f : α → Except ε β} {p : β → Prop} :
    (∃ bs, as.mapM f = .ok bs ∧ ∀ b ∈ bs, p b) ↔ ∀ a ∈ as, ∃ b, f a = .ok b ∧ p b := by
  simp only [mapM_eq_ok_iff]
  induction as with
  | nil => exact ⟨fun _ => nofun, fun _ => ⟨[], rfl, nofun⟩⟩
  | cons a as ih =>
    rw [List.forall_mem_cons, ← ih]
    constructor
    · rintro ⟨bs, hmap, hall⟩
      cases bs with
      | nil => cases hmap
      | cons b bs =>
        obtain ⟨hb, hbs⟩ := List.cons.inj hmap
        obtain ⟨hp, hall⟩ := List.forall_mem_cons.mp hall
        exact ⟨⟨b, hb, hp⟩, bs, hbs, hall⟩
    · rintro ⟨⟨b, hb, hp⟩, bs, hbs, hall⟩
      exact ⟨b :: bs, by rw [List.map_cons, List.map_cons, hb, hbs],
        List.forall_mem_cons.mpr ⟨hp, hall⟩⟩

/-! ## Computations that keep a state -/

variable {σ : Type}

/-- What follows a computation that succeeded starts where that one stopped. -/
theorem bind_of_eq_ok {m : EStateM ε σ α} {s t : σ} {a : α} (hok : m s = .ok a t)
    (f : α → EStateM ε σ β) : (m >>= f) s = f a t := by
  show EStateM.bind m f s = _
  rw [EStateM.bind, hok]

/-- Nothing follows a computation that failed. -/
theorem bind_of_eq_error {m : EStateM ε σ α} {s t : σ} {e : ε} (herror : m s = .error e t)
    (f : α → EStateM ε σ β) : (m >>= f) s = .error e t := by
  show EStateM.bind m f s = _
  rw [EStateM.bind, herror]

end LightClient.Guards
