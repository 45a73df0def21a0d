/-
What a computation can come to.  A sampler is the tree of all its answers to
all draws; a result is an outcome of it if some draws, all of them admitted,
lead there.  What a source of admitted draws makes of a sampler is an outcome,
so whatever holds of all outcomes holds of every run.
-/
import Mathlib.Logic.Function.Iterate
import Parterre.Sampler

namespace Parterre

variable {α β γ σ : Type}

namespace Sampler

/-- Some admitted draws lead to the result. -/
inductive Outcome (admits : α → Prop) :
    Sampler α β → Except (LayoutError α) β → Prop
  | done (result : Except (LayoutError α) β) : Outcome admits (.done result) result
  | draw {next : α → Sampler α β} {result : Except (LayoutError α) β} {value : α}
      (hvalue : admits value) (hnext : Outcome admits (next value) result) :
      Outcome admits (.draw next) result

variable {admits : α → Prop}

@[simp]
theorem outcome_pure_iff {value : β} {result : Except (LayoutError α) β} :
    Outcome admits (pure value) result ↔ result = .ok value := by
  constructor
  · intro h
    cases h
    rfl
  · rintro rfl
    exact .done _

@[simp]
theorem outcome_throw_iff {failure : LayoutError α}
    {result : Except (LayoutError α) β} :
    Outcome admits (throw failure) result ↔ result = .error failure := by
  constructor
  · intro h
    cases h
    rfl
  · rintro rfl
    exact .done _

@[simp]
theorem outcome_lift_iff {given result : Except (LayoutError α) β} :
    Outcome admits (liftM given : Sampler α β) result ↔ result = given := by
  constructor
  · intro h
    cases h
    rfl
  · rintro rfl
    exact .done _

@[simp]
theorem outcome_unit_iff {value : α} :
    Outcome admits unit (.ok value) ↔ admits value := by
  constructor
  · intro h
    cases h with
    | draw hvalue hnext =>
        cases hnext
        exact hvalue
  · exact fun hvalue => .draw hvalue (.done _)

@[simp]
theorem not_outcome_unit_error {failure : LayoutError α} :
    ¬ Outcome admits unit (.error failure) := by
  intro h
  cases h with
  | draw _ hnext => cases hnext

/-- A sequence comes to whatever its second part comes to after a value of its
first part. -/
theorem Outcome.bind {sampler : Sampler α β} {next : β → Sampler α γ} {middle : β}
    {result : Except (LayoutError α) γ} (hfirst : Outcome admits sampler (.ok middle))
    (hsecond : Outcome admits (next middle) result) :
    Outcome admits (sampler >>= next) result := by
  generalize hmiddle : (Except.ok middle : Except (LayoutError α) β) = given at hfirst
  induction hfirst with
  | done given =>
      subst hmiddle
      exact hsecond
  | draw hvalue _ ih => exact .draw hvalue (ih hmiddle)

/-- A failure of its first part ends a sequence. -/
theorem Outcome.bind_error {sampler : Sampler α β} {failure : LayoutError α}
    (hfirst : Outcome admits sampler (.error failure)) (next : β → Sampler α γ) :
    Outcome admits (sampler >>= next) (.error failure) := by
  generalize hgiven : (Except.error failure : Except (LayoutError α) β) = given at hfirst
  induction hfirst with
  | done given =>
      subst hgiven
      exact .done _
  | draw hvalue _ ih => exact .draw hvalue (ih hgiven)

/-- What a sequence comes to is a failure of its first part, or what its second
part comes to after a value of the first. -/
theorem Outcome.bind_cases {sampler : Sampler α β} {next : β → Sampler α γ}
    {result : Except (LayoutError α) γ} (h : Outcome admits (sampler >>= next) result) :
    (∃ failure, result = .error failure ∧ Outcome admits sampler (.error failure)) ∨
      ∃ middle, Outcome admits sampler (.ok middle) ∧
        Outcome admits (next middle) result := by
  induction sampler with
  | done given =>
      cases given with
      | ok middle => exact Or.inr ⟨middle, .done _, h⟩
      | error failure =>
          cases h
          exact Or.inl ⟨failure, rfl, .done _⟩
  | draw rest ih =>
      cases h with
      | draw hvalue hnext =>
          rcases ih _ hnext with ⟨failure, rfl, hfirst⟩ | ⟨middle, hfirst, hsecond⟩
          · exact Or.inl ⟨failure, rfl, .draw hvalue hfirst⟩
          · exact Or.inr ⟨middle, .draw hvalue hfirst, hsecond⟩

/-- What a sequence comes to whose first part cannot fail. -/
theorem Outcome.bind_of_sure {sampler : Sampler α β} {next : β → Sampler α γ}
    {result : Except (LayoutError α) γ} (h : Outcome admits (sampler >>= next) result)
    (hsure : ∀ failure, ¬ Outcome admits sampler (.error failure)) :
    ∃ middle, Outcome admits sampler (.ok middle) ∧ Outcome admits (next middle) result := by
  rcases h.bind_cases with ⟨failure, _, hfailed⟩ | hvalue
  · exact absurd hfailed (hsure failure)
  · exact hvalue

/-- The outcomes of a sequence are those of its second part after a value of
its first part. -/
theorem outcome_bind_ok_iff {sampler : Sampler α β} {next : β → Sampler α γ}
    {value : γ} :
    Outcome admits (sampler >>= next) (.ok value) ↔
      ∃ middle, Outcome admits sampler (.ok middle) ∧
        Outcome admits (next middle) (.ok value) := by
  constructor
  · intro h
    rcases h.bind_cases with ⟨_, hfailed, _⟩ | hvalue
    · cases hfailed
    · exact hvalue
  · rintro ⟨middle, hfirst, hsecond⟩
    exact hfirst.bind hsecond

/-- A sequence fails where its first part fails, or its second part after a
value of the first. -/
theorem outcome_bind_error_iff {sampler : Sampler α β} {next : β → Sampler α γ}
    {failure : LayoutError α} :
    Outcome admits (sampler >>= next) (.error failure) ↔
      Outcome admits sampler (.error failure) ∨
        ∃ middle, Outcome admits sampler (.ok middle) ∧
          Outcome admits (next middle) (.error failure) := by
  constructor
  · intro h
    rcases h.bind_cases with ⟨_, hsame, hfirst⟩ | hlater
    · cases hsame
      exact Or.inl hfirst
    · exact Or.inr hlater
  · rintro (hfirst | ⟨middle, hfirst, hsecond⟩)
    · exact hfirst.bind_error next
    · exact hfirst.bind hsecond

@[simp]
theorem outcome_map_error_iff {sampler : Sampler α β} {convert : β → γ}
    {failure : LayoutError α} :
    Outcome admits (convert <$> sampler) (.error failure) ↔
      Outcome admits sampler (.error failure) := by
  simp only [← bind_pure_comp, outcome_bind_error_iff, outcome_pure_iff, reduceCtorEq,
    and_false, exists_false, or_false]

/-- More draws admitted, more outcomes. -/
theorem Outcome.mono {sampler : Sampler α β} {result : Except (LayoutError α) β}
    {wider : α → Prop} (hwider : ∀ value, admits value → wider value)
    (h : Outcome admits sampler result) : Outcome wider sampler result := by
  induction h with
  | done result => exact .done result
  | draw hvalue _ ih => exact .draw (hwider _ hvalue) ih

end Sampler

namespace DrawSource

variable [DrawSource σ α]

/-- The source after one draw. -/
def advance (source : σ) : σ :=
  (next source).2

/-- Every value that the source ever delivers is admitted. -/
def Delivers (admits : α → Prop) (source : σ) : Prop :=
  ∀ count value, (next (advance^[count] source)).1 = .ok value → admits value

theorem Delivers.head {admits : α → Prop} {source after : σ} {value : α}
    (h : Delivers admits source) (hnext : next source = (.ok value, after)) :
    admits value := by
  apply h 0 value
  rw [Function.iterate_zero, id, hnext]

theorem Delivers.tail {admits : α → Prop} {source after : σ}
    {result : Except (LayoutError α) α}
    (h : Delivers admits source) (hnext : next source = (result, after)) :
    Delivers admits after := by
  intro count value hvalue
  have hafter : advance source = after := by rw [advance, hnext]
  apply h (count + 1) value
  rw [Function.iterate_succ_apply, hafter]
  exact hvalue

theorem delivers_any (source : σ) : Delivers (fun _ : α => True) source :=
  fun _ _ _ => trivial

/-- The source never fails and delivers admitted values only. -/
def Supplies (admits : α → Prop) (source : σ) : Prop :=
  ∀ count, ∃ value, (next (advance^[count] source)).1 = .ok value ∧ admits value

theorem Supplies.delivers {admits : α → Prop} {source : σ} (h : Supplies admits source) :
    Delivers admits source := by
  intro count value hvalue
  obtain ⟨given, hgiven, hadmits⟩ := h count
  rw [hgiven, Except.ok.injEq] at hvalue
  exact hvalue ▸ hadmits

end DrawSource

/-- A source that always delivers the same draw. -/
structure Steady (α : Type) where
  value : α

namespace Steady

instance {α : Type} : DrawSource (Steady α) α where
  next source := (.ok source.value, source)

theorem supplies {admits : α → Prop} {source : Steady α} (h : admits source.value) :
    DrawSource.Supplies admits source := by
  intro count
  rw [Function.iterate_fixed (f := DrawSource.advance) rfl count]
  exact ⟨source.value, rfl, h⟩

theorem delivers {admits : α → Prop} {source : Steady α} (h : admits source.value) :
    DrawSource.Delivers admits source :=
  (supplies h).delivers

end Steady

namespace Sampler

variable {admits : α → Prop} [DrawSource σ α]

/-- Converting the value of a computation takes no draw. -/
theorem run_map (convert : β → γ) (sampler : Sampler α β) (source : σ) :
    (convert <$> sampler).run source =
      ((sampler.run source).1.map convert, (sampler.run source).2) := by
  rw [map_eq_pure_bind, run_bind]
  cases sampler.run source with
  | mk result after => cases result <;> rfl

/-- The value of a run is an outcome, and what is left of the source still
delivers admitted values. -/
theorem outcome_of_run {sampler : Sampler α β} {source after : σ} {value : β}
    (hsource : DrawSource.Delivers admits source)
    (hrun : sampler.run source = (.ok value, after)) :
    Outcome admits sampler (.ok value) ∧ DrawSource.Delivers admits after := by
  induction sampler generalizing source with
  | done result =>
      simp only [run, Prod.mk.injEq] at hrun
      obtain ⟨rfl, rfl⟩ := hrun
      exact ⟨.done _, hsource⟩
  | draw rest ih =>
      rw [run] at hrun
      cases hnext : DrawSource.next source with
      | mk result middle =>
          rw [hnext] at hrun
          cases result with
          | error failure => simp at hrun
          | ok drawn =>
              obtain ⟨houtcome, hafter⟩ := ih drawn (hsource.tail hnext) hrun
              exact ⟨.draw (hsource.head hnext) houtcome, hafter⟩

end Sampler

end Parterre
