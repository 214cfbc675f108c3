import Mathlib.Data.List.Induction

/-!
# Runs under a schedule

A system is a partial step function on states, one step for each label. A schedule
is a list of labels; it is a run when each step is possible where it is taken.
Quantifying over all schedules quantifies over all interleavings of the labels'
owners. Invariants may depend on the labels taken so far.

Where every step makes a measure smaller, runs are no longer than the measure allows,
and a system that is never stuck before its end comes to its end.
-/

namespace OsLabwork.Schedules

universe u v
variable {σ : Type u} {ℓ : Type v}

/-- Take the scheduled steps in order; absent when some step is not possible. -/
def exec (step : σ → ℓ → Option σ) : σ → List ℓ → Option σ
  | state, [] => some state
  | state, label :: rest => (step state label).bind (fun next => exec step next rest)

/-- Two schedules, one behind the other. -/
theorem exec_append (step : σ → ℓ → Option σ) (state : σ) (first later : List ℓ) :
    exec step state (first ++ later) =
      (exec step state first).bind (fun middle => exec step middle later) := by
  induction first generalizing state with
  | nil => rfl
  | cons label rest inductionHypothesis =>
    cases taken : step state label with
    | none => simp [exec, taken]
    | some next => simp [exec, taken, inductionHypothesis]

/-- A run, and another one from where it ended. -/
theorem exec_trans {step : σ → ℓ → Option σ} {state middle final : σ} {first later : List ℓ}
    (earlier : exec step state first = some middle) (rest : exec step middle later = some final) :
    exec step state (first ++ later) = some final := by
  rw [exec_append, earlier]
  exact rest

/-- A run ending in one more step is a run to the state before it, and that step. -/
theorem exec_concat_iff (step : σ → ℓ → Option σ) (state final : σ) (history : List ℓ) (last : ℓ) :
    exec step state (history ++ [last]) = some final ↔
      ∃ middle, exec step state history = some middle ∧ step middle last = some final := by
  simp [exec_append, Option.bind_eq_some_iff, exec]

/-- What holds of the empty history at the start, and survives every possible step,
holds after every run. -/
theorem exec_invariant (step : σ → ℓ → Option σ) (start : σ) (invariant : List ℓ → σ → Prop)
    (initially : invariant [] start)
    (preserved : ∀ history state label next, invariant history state →
      step state label = some next → invariant (history ++ [label]) next)
    (schedule : List ℓ) (final : σ) (ran : exec step start schedule = some final) :
    invariant schedule final := by
  induction schedule using List.reverseRecOn generalizing final with
  | nil =>
    have same : start = final := Option.some.inj ran
    exact same ▸ initially
  | append_singleton history last inductionHypothesis =>
    obtain ⟨middle, earlier, taken⟩ := (exec_concat_iff step start final history last).mp ran
    exact preserved history middle last final (inductionHypothesis middle earlier) taken

section Resuming

variable (step : σ → ℓ → Option σ)

/-- Take the rest of a schedule from a state, if there is one. Rewriting with this instead
of the definition of `exec` runs a schedule step after step, and leaves the rest alone
until the state is known from which it is taken. -/
def resume (rest : List ℓ) (state : Option σ) : Option σ :=
  state.bind (fun state => exec step state rest)

/-- Nothing happens. -/
theorem exec_nil (state : σ) : exec step state [] = some state := by
  rw [exec]

/-- A step, and the rest of the schedule. -/
theorem exec_cons (state : σ) (label : ℓ) (rest : List ℓ) :
    exec step state (label :: rest) = resume step rest (step state label) := by
  rw [exec, resume]

/-- The rest of the schedule, after a step that was possible. -/
theorem resume_some (state : σ) (rest : List ℓ) :
    resume step rest (some state) = exec step state rest := by
  rw [resume, Option.bind_some]

/-- A single step. -/
theorem exec_single {state next : σ} {label : ℓ} (taken : step state label = some next) :
    exec step state [label] = some next := by
  rw [exec_cons, taken, resume_some, exec_nil]

end Resuming

/-- A round that can be taken again wherever it has led can be repeated any number of times. -/
theorem exec_rounds (step : σ → ℓ → Option σ) (round : List ℓ) (reached : Nat → σ → Prop)
    (goesOn : ∀ rounds state, reached rounds state →
      ∃ next, exec step state round = some next ∧ reached (rounds + 1) next)
    (start : σ) (initially : reached 0 start) (rounds : Nat) :
    ∃ final, exec step start (List.replicate rounds round).flatten = some final ∧
      reached rounds final := by
  induction rounds with
  | zero => exact ⟨start, rfl, initially⟩
  | succ rounds inductionHypothesis =>
    obtain ⟨middle, earlier, here⟩ := inductionHypothesis
    obtain ⟨final, last, there⟩ := goesOn rounds middle here
    refine ⟨final, ?_, there⟩
    rw [List.replicate_succ', List.flatten_append, List.flatten_singleton]
    exact exec_trans earlier last

/-- If every step of one system is matched by some steps of another, so is every run. -/
theorem exec_simulated {τ : Type*} {m : Type*} (step : σ → ℓ → Option σ) (other : τ → m → Option τ)
    (related : σ → τ → Prop)
    (matched : ∀ state twin label next, related state twin → step state label = some next →
      ∃ labels twinNext, exec other twin labels = some twinNext ∧ related next twinNext)
    (start : σ) (twin : τ) (initially : related start twin) (schedule : List ℓ) (final : σ)
    (ran : exec step start schedule = some final) :
    ∃ labels twinFinal, exec other twin labels = some twinFinal ∧ related final twinFinal := by
  refine exec_invariant step start
    (fun _ state => ∃ labels twinState, exec other twin labels = some twinState ∧
      related state twinState) ⟨[], twin, rfl, initially⟩ ?_ schedule final ran
  rintro _ state label next ⟨labels, twinState, twinRan, isRelated⟩ taken
  obtain ⟨more, twinNext, moreRan, stillRelated⟩ :=
    matched state twinState label next isRelated taken
  exact ⟨labels ++ more, twinNext, exec_trans twinRan moreRan, stillRelated⟩

/-- A system that takes some of another's steps under names of its own. -/
theorem exec_map {m : Type*} (step : σ → ℓ → Option σ) (name : m → ℓ) (state : σ) (labels : List m) :
    exec (fun state label => step state (name label)) state labels =
      exec step state (labels.map name) := by
  induction labels generalizing state with
  | nil => rfl
  | cons label rest inductionHypothesis =>
    simp only [exec, List.map_cons, inductionHypothesis]

section Termination

variable (step : σ → ℓ → Option σ) (invariant : σ → Prop) (measure : σ → Nat)
  (preserved : ∀ state label next, invariant state → step state label = some next → invariant next)
  (decreases : ∀ state label next, invariant state → step state label = some next →
    measure next < measure state)

include preserved decreases

/-- A run is no longer than what it takes off the measure. -/
theorem exec_length_le (state final : σ) (holds : invariant state) (schedule : List ℓ)
    (ran : exec step state schedule = some final) :
    schedule.length + measure final ≤ measure state := by
  induction schedule generalizing state with
  | nil =>
    obtain rfl : state = final := Option.some.inj ran
    simp
  | cons label rest inductionHypothesis =>
    obtain ⟨next, taken, later⟩ := Option.bind_eq_some_iff.mp ran
    have smaller := decreases state label next holds taken
    have shorter := inductionHypothesis next (preserved state label next holds taken) later
    rw [List.length_cons]
    omega

/-- Whatever was done so far, the run can be continued to the end. -/
theorem exec_completes (finished : σ → Prop)
    (goesOn : ∀ state, invariant state → ¬ finished state →
      ∃ label next, step state label = some next)
    (state : σ) (holds : invariant state) :
    ∃ rest final, exec step state rest = some final ∧ finished final := by
  induction size : measure state using Nat.strongRecOn generalizing state with
  | ind size inductionHypothesis =>
    by_cases atEnd : finished state
    · exact ⟨[], state, rfl, atEnd⟩
    · obtain ⟨label, next, taken⟩ := goesOn state holds atEnd
      have smaller := decreases state label next holds taken
      obtain ⟨rest, final, ran, done⟩ := inductionHypothesis (measure next) (size ▸ smaller) next
        (preserved state label next holds taken) rfl
      exact ⟨label :: rest, final, by simp [exec, taken, ran], done⟩

end Termination

end OsLabwork.Schedules
