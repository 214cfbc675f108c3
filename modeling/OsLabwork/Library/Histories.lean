import Mathlib.Order.Basic

/-!
# Events that need others before them

A history is a list of events, the oldest first. Each event may be due or not, given the
events before it. That every event was due is kept by histories that grow at their end.
-/

namespace OsLabwork.Histories

universe u
variable {ε : Type u}

/-- Every event was due, given what had happened before it. -/
def Justified (due : List ε → ε → Prop) (past : List ε) : List ε → Prop
  | [] => True
  | event :: rest => due past event ∧ Justified due (past ++ [event]) rest

/-- Two parts of a history, the second behind the first. -/
theorem justified_append (due : List ε → ε → Prop) (past first later : List ε) :
    Justified due past (first ++ later) ↔
      Justified due past first ∧ Justified due (past ++ first) later := by
  induction first generalizing past with
  | nil => simp [Justified]
  | cons event rest inductionHypothesis =>
    simp [Justified, inductionHypothesis, and_assoc]

/-- Events that are always due. -/
theorem justified_of_forall {due : List ε → ε → Prop} (past : List ε) {events : List ε}
    (always : ∀ event ∈ events, ∀ earlier, due earlier event) : Justified due past events := by
  induction events generalizing past with
  | nil => trivial
  | cons event rest inductionHypothesis =>
    refine ⟨always event List.mem_cons_self past, inductionHypothesis _ (fun other inRest => ?_)⟩
    exact always other (List.mem_cons_of_mem event inRest)

/-- One more event. -/
theorem justified_concat (due : List ε → ε → Prop) (history : List ε) (event : ε) :
    Justified due [] (history ++ [event]) ↔ Justified due [] history ∧ due history event := by
  rw [justified_append, List.nil_append]
  simp only [Justified, and_true]

/-- Every event of a justified history was due when it happened. -/
theorem Justified.due_of_split {due : List ε → ε → Prop} {past events before after : List ε}
    {event : ε} (justified : Justified due past events)
    (split : events = before ++ event :: after) : due (past ++ before) event := by
  rw [split, justified_append] at justified
  exact justified.2.1

end OsLabwork.Histories
