import Mathlib.Init

/-!
# What a computation that may fail ensures

A computation returns a value or stops with an error. It ensures a property of its values and
one of its errors. Such facts go from step to step: what the first step ensures of its value is
all that the next one may rely on.
-/

namespace OsLabwork.Outcomes

universe u v
variable {ε : Type u} {α β : Type v}

/-- Every value satisfies `post`, and every error `errors`. -/
def Ensures (errors : ε → Prop) (post : α → Prop) : Except ε α → Prop
  | .ok value => post value
  | .error error => errors error

section Rules

variable {errors others : ε → Prop} {post later : α → Prop} {result : Except ε α}

/-- A value that is returned. -/
theorem ensures_pure {value : α} (holds : post value) :
    Ensures errors post (pure value : Except ε α) := holds

/-- One step after another, where an error of the first is an error of both. -/
theorem Ensures.followedBy {next : α → Except ε β} {last : β → Prop}
    (first : Ensures errors post result) (stops : ∀ error, errors error → others error)
    (second : ∀ value, post value → Ensures others last (next value)) :
    Ensures others last (result >>= next) := by
  cases result with
  | error error => exact stops error first
  | ok value => exact second value first

/-- One step after another, with the same errors. -/
theorem Ensures.bind {next : α → Except ε β} {last : β → Prop} (first : Ensures errors post result)
    (second : ∀ value, post value → Ensures errors last (next value)) :
    Ensures errors last (result >>= next) :=
  first.followedBy (fun _ => id) second

/-- Less may be claimed. -/
theorem Ensures.mono (ensures : Ensures errors post result)
    (weakerErrors : ∀ error, errors error → others error)
    (weaker : ∀ value, post value → later value) : Ensures others later result := by
  cases result with
  | error error => exact weakerErrors error ensures
  | ok value => exact weaker value ensures

/-- The computation stops with such an error, or returns such a value. -/
theorem Ensures.cases (ensures : Ensures errors post result) :
    (∃ error, result = .error error ∧ errors error) ∨
      ∃ value, result = .ok value ∧ post value := by
  cases result with
  | error error => exact Or.inl ⟨error, rfl, ensures⟩
  | ok value => exact Or.inr ⟨value, rfl, ensures⟩

end Rules

end OsLabwork.Outcomes
