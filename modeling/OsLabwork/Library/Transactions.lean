import Mathlib.Data.List.Induction
import Mathlib.Logic.Function.Basic
import OsLabwork.Library.Histories

/-!
# Transactions on storage that can crash

Storage maps addresses to values. What is written can be read at once, but is durable only
after a commit; a crash brings back what is durable. Operations begin, write and end, and
several may be in progress together. If commits happen only while none is, then what is
durable is what could be read at some moment between operations: each operation is in it
as a whole or not at all.
-/

namespace OsLabwork.Transactions

open Histories

universe u
variable {ι A V : Type u}

/-- What happens to the storage. -/
inductive Event (ι A V : Type u) where
  | begun (operation : ι)
  | wrote (address : A) (value : V)
  | ended (operation : ι)
  | committed
  | crashed

/-- What a crash brings back, and what is read now. -/
structure Store (A V : Type u) where
  durable : A → V
  current : A → V

section Store

variable [DecidableEq A]

/-- What an event does to the two memories. -/
def Store.after (store : Store A V) : Event ι A V → Store A V
  | .wrote address value => { store with current := Function.update store.current address value }
  | .committed => { store with durable := store.current }
  | .crashed => { store with current := store.durable }
  | .begun _ | .ended _ => store

/-- The storage after a history. -/
def replay (store : Store A V) (history : List (Event ι A V)) : Store A V :=
  history.foldl Store.after store

/-- Nothing has happened. -/
@[simp] theorem replay_nil (store : Store A V) : replay store ([] : List (Event ι A V)) = store :=
  rfl

/-- One more event. -/
@[simp] theorem replay_concat (store : Store A V) (history : List (Event ι A V))
    (event : Event ι A V) :
    replay store (history ++ [event]) = (replay store history).after event := by
  rw [replay, List.foldl_append]
  rfl

/-- One history behind another. -/
theorem replay_append (store : Store A V) (first later : List (Event ι A V)) :
    replay store (first ++ later) = replay (replay store first) later :=
  List.foldl_append ..

end Store

section Operations

variable [DecidableEq ι]

/-- Who is in progress after one more event. -/
def progress (busy : ι → Bool) : Event ι A V → ι → Bool
  | .begun operation => Function.update busy operation true
  | .ended operation => Function.update busy operation false
  | .crashed => fun _ => false
  | .wrote _ _ | .committed => busy

/-- Which operations are in progress after a history. -/
def inProgress (history : List (Event ι A V)) : ι → Bool := history.foldl progress (fun _ => false)

/-- At first no operation is in progress. -/
@[simp] theorem inProgress_nil : inProgress ([] : List (Event ι A V)) = fun _ => false := rfl

/-- One more event. -/
@[simp] theorem inProgress_concat (history : List (Event ι A V)) (event : Event ι A V) :
    inProgress (history ++ [event]) = progress (inProgress history) event := by
  rw [inProgress, List.foldl_append]
  rfl

/-- A commit is due while no operation is in progress. -/
def CommitDue (past : List (Event ι A V)) : Event ι A V → Prop
  | .committed => ∀ operation, inProgress past operation = false
  | _ => True

/-- If commits come between operations only, then so does what is durable. -/
theorem durable_between_operations [DecidableEq A] (value : A → V) (history : List (Event ι A V))
    (due : Justified CommitDue [] history) :
    ∃ before after, history = before ++ after ∧
      (∀ operation, inProgress before operation = false) ∧
      (replay ⟨value, value⟩ history).durable = (replay ⟨value, value⟩ before).current := by
  induction history using List.reverseRecOn with
  | nil => exact ⟨[], [], rfl, fun _ => rfl, rfl⟩
  | append_singleton history event inductionHypothesis =>
    rw [justified_concat] at due
    obtain ⟨before, after, rfl, idle, same⟩ := inductionHypothesis due.1
    cases event with
    | committed => exact ⟨before ++ after, [.committed], rfl, due.2, by rw [replay_concat]; rfl⟩
    | begun | wrote | ended | crashed =>
      refine ⟨before, after ++ [_], List.append_assoc .., idle, ?_⟩
      rw [replay_concat, ← same]
      rfl

end Operations

end OsLabwork.Transactions
