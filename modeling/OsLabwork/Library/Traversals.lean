import Mathlib.Data.List.Induction

/-!
# Traversals that may fail

Reading a sequence position by position, or applying a partial function to each
of its elements, succeeds as a whole when every single step does.
-/

namespace OsLabwork.Traversals

universe u
variable {β : Type u}

/-- Reading every position of a sequence in order gives the sequence. -/
theorem mapM_range (items : List β) (read : Nat → Option β)
    (each : ∀ (index : Nat) (inside : index < items.length),
      read index = some (items.get ⟨index, inside⟩)) :
    (List.range items.length).mapM read = some items := by
  induction items using List.reverseRecOn with
  | nil => rfl
  | append_singleton front last inductionHypothesis =>
    have earlier : (List.range front.length).mapM read = some front := by
      apply inductionHypothesis
      intro index inside
      rw [each index (by simp; omega)]
      simp [List.getElem_append_left inside]
    have final : read front.length = some last := by
      rw [each front.length (by simp)]
      simp
    simp [List.range_succ, List.mapM_append, earlier, final]

/-- Steps that each succeed with a related result give a list of related results. -/
theorem exists_mapM_range (count : Nat) (step : Nat → Option β) (Related : Nat → β → Prop)
    (each : ∀ index < count, ∃ result, step index = some result ∧ Related index result) :
    ∃ results, (List.range count).mapM step = some results ∧ results.length = count ∧
      ∀ (index : Nat) (result : β), results[index]? = some result → Related index result := by
  induction count with
  | zero => exact ⟨[], rfl, rfl, by simp⟩
  | succ count inductionHypothesis =>
    obtain ⟨results, earlier, length, related⟩ := inductionHypothesis (by
      intro index inside
      exact each index (by omega))
    obtain ⟨last, final, lastRelated⟩ := each count (by omega)
    refine ⟨results ++ [last], ?_, by simp [length], ?_⟩
    · simp [List.range_succ, List.mapM_append, earlier, final]
    · intro index result found
      rcases Nat.lt_or_ge index results.length with inside | behind
      · rw [List.getElem?_append_left inside] at found
        exact related index result found
      · rw [List.getElem?_append_right behind, List.getElem?_singleton] at found
        split at found
        · obtain rfl := Option.some.inj found
          obtain rfl : index = count := by omega
          exact lastRelated
        · simp at found

end OsLabwork.Traversals
