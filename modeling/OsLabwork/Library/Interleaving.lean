import Mathlib.Data.List.FinRange
import Mathlib.Algebra.BigOperators.Group.List.Basic

/-!
# Interleaved sequences

A log is a sequence in which every entry carries the thread it came from. Reading
one thread's entries in order gives that thread's own sequence. A log that reads
back the given sequences contains each entry as often as the sequences do.
-/

namespace OsLabwork.Interleaving

universe u v
variable {ι : Type v} [DecidableEq ι] {threads : Nat} {α : Type u}

/-- One thread's entries of a log, in order. -/
def select (thread : ι) (log : List (ι × α)) : List α :=
  (log.filter (fun entry => entry.1 = thread)).map Prod.snd

/-- Nothing has been done. -/
@[simp] theorem select_nil (thread : ι) : select thread ([] : List (ι × α)) = [] := rfl

/-- What a thread did earlier and later. -/
@[simp] theorem select_append (thread : ι) (first later : List (ι × α)) :
    select thread (first ++ later) = select thread first ++ select thread later := by
  simp [select]

/-- One item, of the thread or of another. -/
@[simp] theorem select_singleton (thread owner : ι) (item : α) :
    select thread [(owner, item)] = if owner = thread then [item] else [] := by
  by_cases same : owner = thread <;> simp [select, same]

/-- Selecting a thread and filtering the entries can be done in either order. -/
theorem select_filter (thread : ι) (keep : α → Bool) (log : List (ι × α)) :
    select thread (log.filter (fun entry => keep entry.2)) = (select thread log).filter keep := by
  simp only [select, List.filter_filter, List.filter_map]
  apply congrArg
  apply List.filter_congr
  intro entry _
  exact Bool.and_comm _ _

/-- The entries of a log are those of its threads, each with its multiplicity. -/
theorem perm_flatMap_select (log : List (Fin threads × α)) :
    (log.map Prod.snd).Perm ((List.finRange threads).flatMap (fun thread => select thread log)) := by
  induction log with
  | nil => simp
  | cons entry rest inductionHypothesis =>
    obtain ⟨owner, item⟩ := entry
    obtain ⟨earlier, later, split⟩ := List.append_of_mem (List.mem_finRange owner)
    have distinct : (earlier ++ owner :: later).Nodup := split ▸ List.nodup_finRange threads
    have notOwner : ∀ thread ∈ earlier ++ later, owner ≠ thread := by
      rintro thread member rfl
      rw [List.nodup_middle, List.nodup_cons] at distinct
      exact distinct.1 member
    -- Only the owner's own sequence gains the new first entry.
    have unchanged : ∀ some ⊆ earlier ++ later,
        some.flatMap (fun thread => select thread ((owner, item) :: rest)) =
          some.flatMap (fun thread => select thread rest) := by
      intro some within
      refine List.flatMap_congr ?_
      intro thread member
      simp [select, notOwner thread (within member)]
    rw [split] at inductionHypothesis ⊢
    rw [List.flatMap_append, List.flatMap_cons, unchanged earlier (List.subset_append_left _ _),
      unchanged later (List.subset_append_right _ _)]
    have own : select owner ((owner, item) :: rest) = item :: select owner rest := by
      simp [select]
    rw [own, List.map_cons, List.cons_append]
    refine (List.Perm.cons item ?_).trans List.perm_middle.symm
    simpa [List.flatMap_append, List.flatMap_cons] using inductionHypothesis

/-- What the threads are given, thread after thread, when there is a part for each. -/
theorem flatMap_getD (parts : List (List α)) (length : parts.length = threads) :
    (List.finRange threads).flatMap (fun thread => parts.getD thread.val []) = parts.flatten := by
  subst length
  have same : ∀ thread : Fin parts.length, parts.getD thread.val [] = parts.get thread := by
    intro thread
    simp
  simp only [same, List.flatMap_def]
  rw [← List.ofFn_eq_map, List.ofFn_get]

end OsLabwork.Interleaving
