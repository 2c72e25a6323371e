import YamlEdit.Edit.Error

/-!
# Inverting computations

A computation of several parts that gives a result went through all of them, and one that fails
does so in one of them, the parts in front of it having given theirs. The lemmas here take a result
apart into those of the parts, for the computations that can fail and for those that also carry a
state. Where both outcomes matter, `Yields` says what the result is like and what the errors are
like, and is put together from the parts.
-/

namespace YamlEdit

section Failing

variable {ε ε' α β : Type} {x : Except ε α}

theorem ok_bind {a : α} {f : α → Except ε β} : (Except.ok a >>= f) = f a := rfl

theorem bind_eq_ok {f : α → Except ε β} {b : β} :
    (x >>= f) = .ok b ↔ ∃ a, x = .ok a ∧ f a = .ok b := by
  cases x with
  | error e => exact ⟨nofun, nofun⟩
  | ok a =>
      constructor
      · intro h
        exact ⟨a, rfl, h⟩
      · rintro ⟨_, ha, h⟩
        cases ha
        exact h

theorem bind_eq_error {f : α → Except ε β} {e : ε} :
    (x >>= f) = .error e ↔ x = .error e ∨ ∃ a, x = .ok a ∧ f a = .error e := by
  cases x with
  | error e' =>
      constructor
      · intro h
        cases h
        exact .inl rfl
      · rintro (h | ⟨_, ha, -⟩)
        · cases h
          rfl
        · cases ha
  | ok a =>
      constructor
      · intro h
        exact .inr ⟨a, rfl, h⟩
      · rintro (h | ⟨_, ha, h⟩)
        · cases h
        · cases ha
          exact h

theorem map_eq_ok {f : α → β} {b : β} : (f <$> x) = .ok b ↔ ∃ a, x = .ok a ∧ f a = b := by
  cases x with
  | error e => exact ⟨nofun, nofun⟩
  | ok a =>
      constructor
      · intro h
        cases h
        exact ⟨a, rfl, rfl⟩
      · rintro ⟨_, ha, rfl⟩
        cases ha
        rfl

theorem map_eq_error {f : α → β} {e : ε} : (f <$> x) = .error e ↔ x = .error e := by
  cases x with
  | error e' =>
      constructor
      · intro h
        cases h
        rfl
      · intro h
        cases h
        rfl
  | ok a => exact ⟨nofun, nofun⟩

theorem mapError_eq_ok {f : ε → ε'} {a : α} : x.mapError f = .ok a ↔ x = .ok a := by
  cases x with
  | error e => exact ⟨nofun, nofun⟩
  | ok b =>
      constructor
      · intro h
        cases h
        rfl
      · intro h
        cases h
        rfl

theorem mapError_eq_error {f : ε → ε'} {e' : ε'} :
    x.mapError f = .error e' ↔ ∃ e, x = .error e ∧ f e = e' := by
  cases x with
  | error e =>
      constructor
      · intro h
        cases h
        exact ⟨e, rfl, rfl⟩
      · rintro ⟨_, he, rfl⟩
        cases he
        rfl
  | ok a => exact ⟨nofun, fun ⟨_, he, _⟩ => nomatch he⟩

theorem toOption_eq_some {a : α} : x.toOption = some a ↔ x = .ok a := by
  cases x with
  | error e => exact ⟨nofun, nofun⟩
  | ok b =>
      constructor
      · intro h
        cases h
        rfl
      · intro h
        cases h
        rfl

theorem toOption_map_eq_some {f : α → β} {b : β} :
    x.toOption.map f = some b ↔ ∃ a, x = .ok a ∧ f a = b := by
  simp only [Option.map_eq_some_iff, toOption_eq_some]

/-- A result that a check finds to have a property. -/
theorem exists_ok_of_any {P : α → Prop} [∀ a, Decidable (P a)]
    (h : x.toOption.any (fun a => decide (P a)) = true) : ∃ a, x = .ok a ∧ P a := by
  obtain ⟨a, ha, hp⟩ := (Option.any_eq_true _ _).mp h
  exact ⟨a, toOption_eq_some.mp ha, of_decide_eq_true hp⟩

end Failing

/-! ## What a computation can come to -/

/-- A computation that gives something that is `P`, or fails with an error that is `Q`. -/
def Yields {ε α : Type} (Q : ε → Prop) (P : α → Prop) : Except ε α → Prop
  | .ok a => P a
  | .error e => Q e

section Yields

variable {ε ε' α β : Type} {Q : ε → Prop} {Q' : ε' → Prop} {P P₁ : α → Prop} {x : Except ε α}

/-- Nothing has to be shown of what is not there. -/
theorem forall_none {P : α → Prop} : ∀ a, none = some a → P a := by
  intro a h
  cases h

theorem yields_iff :
    Yields Q P x ↔ (∀ a, x = .ok a → P a) ∧ ∀ e, x = .error e → Q e := by
  cases x with
  | ok a => exact ⟨fun h => ⟨fun _ ha => by cases ha; exact h, nofun⟩, fun h => h.1 a rfl⟩
  | error e => exact ⟨fun h => ⟨nofun, fun _ he => by cases he; exact h⟩, fun h => h.2 e rfl⟩

theorem Yields.mono (h : Yields Q P x) (hP : ∀ a, P a → P₁ a) : Yields Q P₁ x := by
  cases x with
  | ok a => exact hP a h
  | error e => exact h

theorem Yields.mono_error {Q₁ : ε → Prop} (h : Yields Q P x) (hQ : ∀ e, Q e → Q₁ e) :
    Yields Q₁ P x := by
  cases x with
  | ok a => exact h
  | error e => exact hQ e h

/-- What is known of a result may come from somewhere else than what is known of the failures. -/
theorem Yields.of_ok (h : Yields Q P x) (hP : ∀ a, x = .ok a → P₁ a) : Yields Q P₁ x :=
  yields_iff.mpr ⟨hP, (yields_iff.mp h).2⟩

/-- A result is what the computation gives. -/
theorem Yields.and_eq (h : Yields Q P x) : Yields Q (fun a => x = .ok a ∧ P a) x :=
  h.of_ok fun a ha => ⟨ha, (yields_iff.mp h).1 a ha⟩

/-- A computation of two parts goes on with what the first one gives. -/
theorem Yields.bind {R : β → Prop} {f : α → Except ε β} (h : Yields Q P x)
    (hf : ∀ a, P a → Yields Q R (f a)) : Yields Q R (x >>= f) := by
  cases x with
  | ok a => exact hf a h
  | error e => exact h

theorem Yields.mapError {f : ε → ε'} (h : Yields Q P x) (hf : ∀ e, Q e → Q' (f e)) :
    Yields Q' P (x.mapError f) := by
  cases x with
  | ok a => exact h
  | error e => exact hf e h

end Yields

/-! ## Errors of other kinds in an edit -/

/-- An offset that is in order stays so in an edit. -/
theorem lift_offset_eq_ok {α : Type} {x : Except BadOffset α} {a : α} :
    (liftM x : EditError.Result α) = .ok a ↔ x = .ok a :=
  mapError_eq_ok

/-- A place that is found is found in an edit. -/
theorem lift_locate_eq_ok {α : Type} {x : Except LocateError α} {a : α} :
    (liftM x : EditError.Result α) = .ok a ↔ x = .ok a :=
  mapError_eq_ok

/-- A value that can be written can be written in an edit. -/
theorem lift_write_eq_ok {α : Type} {x : Except Value.WriteFault α} {a : α} :
    (liftM x : EditError.Result α) = .ok a ↔ x = .ok a :=
  mapError_eq_ok

/-- The same for computations with a state. -/
theorem stateful_bind_eq_ok {σ ε α β : Type} {x : StateT σ (Except ε) α}
    {f : α → StateT σ (Except ε) β} {s : σ} {r : β × σ} :
    (x >>= f) s = .ok r ↔ ∃ a s₁, x s = .ok (a, s₁) ∧ f a s₁ = .ok r := by
  rw [show (x >>= f) s = (x s >>= fun p => f p.1 p.2) from rfl, bind_eq_ok]
  constructor
  · rintro ⟨⟨a, s₁⟩, hx, h⟩
    exact ⟨a, s₁, hx, h⟩
  · rintro ⟨a, s₁, hx, h⟩
    exact ⟨(a, s₁), hx, h⟩

end YamlEdit
