import Mathlib.Data.List.Induction

/-!
Runs of a machine that takes or refuses each event: invariants that look back at the events so far, the
step at which something happened, and machines whose runs another follows. And what comes of a computation
that needs fuel.
-/
namespace StepRuns
variable {S E S' E' : Type}

def run (step : S → E → Option S) : S → List E → Option S
  | s, [] => some s
  | s, event :: rest => (step s event).bind (run step · rest)

/-- At some step this holds of the events before it, the state it is taken from, and its event. -/
def Occurred (step : S → E → Option S) (s : S) (events : List E) (holds : List E → S → E → Prop) :
    Prop :=
  ∃ past event later t, events = past ++ event :: later ∧ run step s past = some t ∧ holds past t event

section Runs
variable {step : S → E → Option S} {s t : S} {events past later : List E} {event : E}
  {holds : List E → S → E → Prop}

theorem run_append (past later : List E) :
    run step s (past ++ later) = (run step s past).bind (run step · later) := by
  induction past generalizing s with
  | nil => rfl
  | cons event rest ih =>
    rw [List.cons_append, run, run]
    cases step s event with
    | none => rfl
    | some next => exact ih

theorem run_concat : run step s (past ++ [event]) = some t ↔
    ∃ before, run step s past = some before ∧ step before event = some t := by
  rw [run_append, Option.bind_eq_some_iff]
  simp [run]

/-- What holds at the start and is kept by each step holds at the end. -/
theorem run_rule {I : List E → S → Prop} (start : I [] s)
    (keeps : ∀ past event before after, run step s past = some before → I past before →
      step before event = some after → I (past ++ [event]) after)
    (ran : run step s events = some t) : I events t := by
  induction events using List.reverseRecOn generalizing t with
  | nil =>
    cases ran
    exact start
  | append_singleton past event ih =>
    obtain ⟨before, earlier, taken⟩ := run_concat.mp ran
    exact keeps past event before t earlier (ih earlier) taken

theorem occurred_later (occurred : Occurred step s past holds) : Occurred step s (past ++ later) holds := by
  obtain ⟨first, event, rest, before, whole, ran, here⟩ := occurred
  subst whole
  exact ⟨first, event, rest ++ later, before, by simp, ran, here⟩

theorem occurred_now (ran : run step s past = some t) (here : holds past t event) :
    Occurred step s (past ++ [event]) holds :=
  ⟨past, event, [], t, rfl, ran, here⟩

theorem not_occurred : ¬ Occurred step s [] holds := by
  rintro ⟨past, event, later, t, whole, _⟩
  simp at whole

theorem occurred_concat (ran : run step s past = some t) : Occurred step s (past ++ [event]) holds ↔
    Occurred step s past holds ∨ holds past t event := by
  constructor
  · rintro ⟨first, other, rest, before, whole, earlier, here⟩
    rcases List.eq_nil_or_concat rest with bare | ⟨rest', last, same⟩
    · subst bare
      obtain ⟨rfl, rfl⟩ := List.append_singleton_inj.mp whole
      rw [ran] at earlier
      cases earlier
      exact .inr here
    · subst same
      rw [List.concat_eq_append, ← List.cons_append, ← List.append_assoc] at whole
      obtain ⟨rfl, _⟩ := List.append_singleton_inj.mp whole
      exact .inl ⟨first, other, rest', before, rfl, earlier, here⟩
  · rintro (before | now)
    · exact occurred_later before
    · exact occurred_now ran now

end Runs

section Following
variable {step : S → E → Option S} {step' : S' → E' → Option S'} {view : S → S'}
  {shadow : S → E → List E'}

def trace (step : S → E → Option S) (shadow : S → E → List E') : S → List E → List E'
  | _, [] => []
  | s, event :: rest =>
    shadow s event ++
      match step s event with
      | none => []
      | some t => trace step shadow t rest

theorem run_followed
    (followed : ∀ s event t, step s event = some t → run step' (view s) (shadow s event) = some (view t))
    {s t : S} {events : List E} (ran : run step s events = some t) :
    run step' (view s) (trace step shadow s events) = some (view t) := by
  induction events generalizing s with
  | nil =>
    cases ran
    rfl
  | cons event rest ih =>
    obtain ⟨next, taken, later⟩ := Option.bind_eq_some_iff.mp ran
    rw [trace, run_append, followed s event next taken, taken]
    exact ih later

end Following

section Fuel
variable {α : Type} {computed : Nat → Option α} {a b : α}

def Ends (computed : Nat → Option α) (a : α) : Prop :=
  ∃ enough, ∀ fuel, enough ≤ fuel → computed fuel = some a

def Lasting (computed : Nat → Option α) : Prop :=
  ∀ fuel a, computed fuel = some a → ∀ more, fuel ≤ more → computed more = some a

theorem ends_always (always : ∀ fuel, computed fuel = some a) : Ends computed a :=
  ⟨0, fun fuel _ => always fuel⟩

theorem ends_unique (one : Ends computed a) (other : Ends computed b) : a = b := by
  obtain ⟨enough, there⟩ := one
  obtain ⟨enough', there'⟩ := other
  have here := there (max enough enough') (Nat.le_max_left _ _)
  rw [there' _ (Nat.le_max_right _ _)] at here
  exact (Option.some.inj here).symm

theorem lasting_ends (lasting : Lasting computed) {fuel : Nat} (there : computed fuel = some a) :
    Ends computed a := ⟨fuel, lasting fuel a there⟩

end Fuel
end StepRuns
