import Mathlib.Data.List.Basic

/-!
# Greedy matching of a prefix

Requests are matched against a fixed sequence with one cursor: a request equal to
the element under the cursor advances it, any other request is ignored. The cursor
ends behind the longest prefix of the sequence that occurs in the requests as a
subsequence.
-/

namespace OsLabwork.PrefixMatching

universe u
variable {κ : Type u} [DecidableEq κ]

/-- How far the requests advance a cursor at the beginning of the sequence. -/
def matched : List κ → List κ → Nat
  | [], _ => 0
  | _ :: _, [] => 0
  | element :: rest, request :: requests =>
      if element = request then matched rest requests + 1 else matched (element :: rest) requests

/-- Nothing matches nothing. -/
@[simp] theorem matched_nil_left (requests : List κ) : matched [] requests = 0 := by
  cases requests <;> rfl

/-- Without requests nothing is matched. -/
@[simp] theorem matched_nil_right (sequence : List κ) : matched sequence [] = 0 := by
  cases sequence <;> rfl

/-- The cursor passes a prefix exactly when that prefix is a subsequence of the
requests. Greed loses nothing: an occurrence that skips a usable request can be
moved to it. -/
theorem le_matched_iff (sequence requests : List κ) (count : Nat)
    (within : count ≤ sequence.length) :
    count ≤ matched sequence requests ↔ (sequence.take count).Sublist requests := by
  induction requests generalizing sequence count with
  | nil =>
    rw [matched_nil_right, List.sublist_nil, List.take_eq_nil_iff]
    constructor
    · intro none
      exact Or.inl (by omega)
    · rintro (zero | empty)
      · omega
      · simp only [empty, List.length_nil] at within
        omega
  | cons request requests inductionHypothesis =>
    cases count with
    | zero => simp
    | succ count =>
      cases sequence with
      | nil => simp at within
      | cons element rest =>
        have inner : count ≤ rest.length := by simpa using within
        by_cases equal : element = request
        · subst equal
          simp only [matched, ↓reduceIte, List.take_succ_cons, List.cons_sublist_cons,
            Nat.add_le_add_iff_right]
          exact inductionHypothesis rest count inner
        · simp only [matched, equal, ↓reduceIte, List.take_succ_cons]
          rw [inductionHypothesis (element :: rest) (count + 1) within, List.take_succ_cons]
          constructor
          · exact fun found => found.cons request
          · intro found
            cases found with
            | cons _ later => exact later
            | cons_cons _ _ => exact absurd rfl equal

/-- The cursor stands exactly behind a prefix when the prefix is a subsequence of
the requests and the next longer one is not. -/
theorem matched_eq_iff (front : List κ) (next : κ) (rest requests : List κ) :
    matched (front ++ next :: rest) requests = front.length ↔
      front.Sublist requests ∧ ¬ (front ++ [next]).Sublist requests := by
  have shorter := le_matched_iff (front ++ next :: rest) requests front.length (by simp)
  have longer := le_matched_iff (front ++ next :: rest) requests (front.length + 1) (by simp)
  rw [List.take_left' rfl] at shorter
  have prefixNext : (front ++ next :: rest).take (front.length + 1) = front ++ [next] := by
    simp [List.take_append, List.take_of_length_le]
  rw [prefixNext] at longer
  rw [← shorter, ← longer]
  omega

end OsLabwork.PrefixMatching
