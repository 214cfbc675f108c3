import Mathlib.Order.Basic

/-!
# Mutual exclusion by one lock

A lock is free exactly when no thread is inside its critical section, and no two
threads are inside together. One thread moves at a time: it stays where it is and
leaves the lock alone, enters while the lock is free and takes it, or leaves and
frees it. Each of these keeps the law, whatever the threads do otherwise.
-/

namespace OsLabwork.Exclusion

universe u
variable {ι : Type u}

/-- The lock word agrees with the threads, of which at most one is inside. -/
structure Exclusive (inside : ι → Prop) (free : Prop) : Prop where
  unique : ∀ first second, inside first → inside second → first = second
  free_iff : free ↔ ∀ thread, ¬ inside thread

/-- What one thread's step may do to its own place and to the lock. -/
inductive Move (insideBefore insideAfter freeBefore freeAfter : Prop) : Prop where
  | stays (place : insideAfter ↔ insideBefore) (lock : freeAfter ↔ freeBefore)
  | enters (free : freeBefore) (now : insideAfter) (taken : ¬ freeAfter)
  | leaves (was : insideBefore) (out : ¬ insideAfter) (released : freeAfter)

/-- Nobody is inside, and the lock is free. -/
theorem exclusive_initially {inside : ι → Prop} {free : Prop} (nobody : ∀ thread, ¬ inside thread)
    (unlocked : free) : Exclusive inside free where
  unique _ second _ isInside := absurd isInside (nobody second)
  free_iff := ⟨fun _ => nobody, fun _ => unlocked⟩

/-- Every move of one thread keeps the law. -/
theorem Exclusive.move {inside next : ι → Prop} {free freeNext : Prop}
    (exclusive : Exclusive inside free) (actor : ι)
    (others : ∀ thread, thread ≠ actor → (next thread ↔ inside thread))
    (moved : Move (inside actor) (next actor) free freeNext) : Exclusive next freeNext := by
  cases moved with
  | stays place lock =>
    have same : ∀ thread, next thread ↔ inside thread := by
      intro thread
      by_cases isActor : thread = actor
      · exact isActor ▸ place
      · exact others thread isActor
    refine ⟨?_, ?_⟩
    · intro first second firstInside secondInside
      exact exclusive.unique first second ((same first).mp firstInside)
        ((same second).mp secondInside)
    · rw [lock, exclusive.free_iff]
      simp only [same]
  | enters wasFree now taken =>
    have empty := exclusive.free_iff.mp wasFree
    have alone : ∀ thread, next thread → thread = actor := by
      intro thread threadInside
      by_contra different
      exact empty thread ((others thread different).mp threadInside)
    refine ⟨?_, ?_⟩
    · intro first second firstInside secondInside
      exact (alone first firstInside).trans (alone second secondInside).symm
    · exact ⟨fun claimed => absurd claimed taken, fun nobody => absurd now (nobody actor)⟩
  | leaves was out released =>
    have nobody : ∀ thread, ¬ next thread := by
      intro thread threadInside
      by_cases isActor : thread = actor
      · exact out (isActor ▸ threadInside)
      · exact isActor (exclusive.unique thread actor ((others thread isActor).mp threadInside) was)
    exact exclusive_initially nobody released

/-- The holder may pass the lock on to another thread, which keeps it locked. -/
theorem Exclusive.pass {inside next : ι → Prop} {free freeNext : Prop}
    (exclusive : Exclusive inside free) (giver taker : ι) (holds : inside giver)
    (others : ∀ thread, thread ≠ giver → thread ≠ taker → (next thread ↔ inside thread))
    (gave : ¬ next giver) (got : next taker) (held : ¬ freeNext) : Exclusive next freeNext := by
  have alone : ∀ thread, next thread → thread = taker := by
    intro thread threadInside
    by_contra notTaker
    have notGiver : thread ≠ giver := fun isGiver => gave (isGiver ▸ threadInside)
    exact notGiver
      (exclusive.unique thread giver ((others thread notGiver notTaker).mp threadInside) holds)
  refine ⟨?_, ?_⟩
  · intro first second firstInside secondInside
    exact (alone first firstInside).trans (alone second secondInside).symm
  · exact ⟨fun claimed => absurd claimed held, fun nobody => absurd got (nobody taker)⟩

end OsLabwork.Exclusion
