import Mathlib.Data.List.Chain
import Mathlib.Data.List.Induction

/-!
# Run-length codes with a bounded count

A run stands for so many copies of one value. The encoder keeps its newest run open
and extends it while the same value follows and the count has not reached its
limit; otherwise it starts the next run. Here the runs are kept newest first.

Expanding the runs gives back the encoded values, whatever the limit is. The encoder's
runs cannot be merged any further, and it is the only such code: runs of that shape are
what the encoder makes of their expansion.
-/

namespace OsLabwork.RunLength

universe u
variable {α : Type u}

/-- A value and how often it is repeated. -/
structure Run (α : Type u) where
  count : Nat
  value : α
deriving DecidableEq, Repr

/-- The repeated value. -/
def Run.items (run : Run α) : List α := List.replicate run.count run.value

/-- The values a sequence of runs stands for. -/
def expand (runs : List (Run α)) : List α := runs.flatMap Run.items

/-- No runs are nothing. -/
@[simp] theorem expand_nil : expand ([] : List (Run α)) = [] := rfl

/-- The first run, and then the others. -/
@[simp] theorem expand_cons (run : Run α) (runs : List (Run α)) :
    expand (run :: runs) = run.items ++ expand runs := rfl

/-- Runs one behind the other. -/
@[simp] theorem expand_append (first later : List (Run α)) :
    expand (first ++ later) = expand first ++ expand later := List.flatMap_append

/-- The counts are positive and within the limit. -/
def Bounded (limit : Nat) (runs : List (Run α)) : Prop :=
  ∀ run ∈ runs, 1 ≤ run.count ∧ run.count ≤ limit

variable [DecidableEq α]

/-- Take one more value into the newest run, or start the next run with it. -/
def push (limit : Nat) : List (Run α) → α → List (Run α)
  | [], value => [⟨1, value⟩]
  | run :: done, value =>
      if run.value = value ∧ run.count ≠ limit then ⟨run.count + 1, value⟩ :: done
      else ⟨1, value⟩ :: run :: done

/-- Take in values one after the other. -/
def pushAll (limit : Nat) (runs : List (Run α)) (values : List α) : List (Run α) :=
  values.foldl (push limit) runs

/-- Values one after the other. -/
theorem pushAll_append (limit : Nat) (runs : List (Run α)) (first later : List α) :
    pushAll limit runs (first ++ later) = pushAll limit (pushAll limit runs first) later :=
  List.foldl_append

/-- A new value keeps the counts within the limit. -/
theorem Bounded.push {limit : Nat} (positive : 1 ≤ limit) {runs : List (Run α)}
    (bounded : Bounded limit runs) (value : α) : Bounded limit (push limit runs value) := by
  cases runs with
  | nil => simpa [Bounded, RunLength.push] using positive
  | cons run done =>
    have ofRun := bounded run List.mem_cons_self
    have ofDone : Bounded limit done := fun other member =>
      bounded other (List.mem_cons_of_mem _ member)
    simp only [RunLength.push]
    split
    · next extends' =>
      intro other member
      rcases List.mem_cons.mp member with rfl | later
      · constructor
        · exact Nat.le_add_left 1 run.count
        · exact Nat.lt_of_le_of_ne ofRun.2 extends'.2
      · exact ofDone other later
    · intro other member
      rcases List.mem_cons.mp member with rfl | later
      · exact ⟨Nat.le_refl 1, positive⟩
      · exact bounded other later

/-- Taking in a value adds it behind the values encoded so far. -/
theorem expand_push (limit : Nat) (runs : List (Run α)) (value : α) :
    expand (push limit runs value).reverse = expand runs.reverse ++ [value] := by
  cases runs with
  | nil => rfl
  | cons run done =>
    simp only [push]
    split
    · next extends' =>
      obtain ⟨rfl, _⟩ := extends'
      simp [Run.items, List.replicate_succ']
    · simp [Run.items]

/-- Any number of values do. -/
theorem Bounded.pushAll {limit : Nat} (positive : 1 ≤ limit) {runs : List (Run α)}
    (bounded : Bounded limit runs) (values : List α) :
    Bounded limit (pushAll limit runs values) := by
  induction values generalizing runs with
  | nil => exact bounded
  | cons value rest inductionHypothesis => exact inductionHypothesis (bounded.push positive value)

/-- The runs stand for exactly the values taken in. -/
theorem expand_pushAll (limit : Nat) (runs : List (Run α)) (values : List α) :
    expand (pushAll limit runs values).reverse = expand runs.reverse ++ values := by
  induction values generalizing runs with
  | nil => simp [pushAll]
  | cons value rest inductionHypothesis =>
    have later := inductionHypothesis (push limit runs value)
    rw [expand_push, List.append_assoc] at later
    exact later

/-- Runs that a reader cannot merge: the counts are positive and within the limit, and
a run is followed by another of its value only when its count is at the limit. -/
structure Canonical (limit : Nat) (runs : List (Run α)) : Prop where
  bounded : Bounded limit runs
  separated : runs.IsChain (fun first second => first.value = second.value → first.count = limit)

omit [DecidableEq α] in
/-- The runs but for the last, and how the last is separated from them. -/
theorem Canonical.of_concat {limit : Nat} {front : List (Run α)} {last : Run α}
    (canonical : Canonical limit (front ++ [last])) :
    Canonical limit front ∧ 1 ≤ last.count ∧ last.count ≤ limit ∧
      ∀ run, front.getLast? = some run → run.value = last.value → run.count = limit := by
  have bounded := canonical.bounded
  have separated := List.isChain_append.mp canonical.separated
  refine ⟨⟨?_, separated.1⟩, (bounded last (by simp)).1, (bounded last (by simp)).2, ?_⟩
  · exact fun run member => bounded run (List.mem_append_left _ member)
  · exact fun run isLast => separated.2.2 run isLast last rfl

/-- The encoder keeps its runs apart. -/
theorem Canonical.push {limit : Nat} (positive : 1 ≤ limit) {runs : List (Run α)}
    (canonical : Canonical limit runs.reverse) (value : α) :
    Canonical limit (push limit runs value).reverse := by
  have bounded : Bounded limit runs := fun run member =>
    canonical.bounded run (List.mem_reverse.mpr member)
  constructor
  · intro run member
    exact bounded.push positive value run (List.mem_reverse.mp member)
  · have separated := canonical.separated
    rw [List.isChain_reverse] at separated ⊢
    cases runs with
    | nil => simp [RunLength.push]
    | cons run done =>
      simp only [RunLength.push]
      split
      · next extends' =>
        -- The open run keeps its value, so it stays apart from the one before it.
        rw [List.isChain_cons] at separated ⊢
        refine ⟨?_, separated.2⟩
        intro older isFirst same
        exact separated.1 older isFirst (same.trans extends'.1.symm)
      · next closes =>
        rw [List.isChain_cons_cons]
        refine ⟨?_, separated⟩
        intro same
        by_contra below
        exact closes ⟨same, below⟩

/-- Any number of values keep the code canonical. -/
theorem Canonical.pushAll {limit : Nat} (positive : 1 ≤ limit) {runs : List (Run α)}
    (canonical : Canonical limit runs.reverse) (values : List α) :
    Canonical limit (pushAll limit runs values).reverse := by
  induction values generalizing runs with
  | nil => exact canonical
  | cons value rest inductionHypothesis => exact inductionHypothesis (canonical.push positive value)

/-- Copies of one value become one run where they do not continue the run before. -/
theorem pushAll_replicate {limit count : Nat} (started : 1 ≤ count) (within : count ≤ limit)
    (runs : List (Run α)) (value : α)
    (apart : ∀ run, runs.head? = some run → run.value = value → run.count = limit) :
    pushAll limit runs (List.replicate count value) = ⟨count, value⟩ :: runs := by
  induction count with
  | zero => omega
  | succ count inductionHypothesis =>
    rw [List.replicate_succ', pushAll_append]
    rcases Nat.eq_zero_or_pos count with rfl | more
    · cases runs with
      | nil => rfl
      | cons run done =>
        have closes : ¬ (run.value = value ∧ run.count ≠ limit) := fun extends' =>
          extends'.2 (apart run rfl extends'.1)
        simp [pushAll, push, closes]
    · have room : count ≠ limit := by omega
      rw [inductionHypothesis more (by omega)]
      simp [pushAll, push, room]

/-- Canonical runs are what the encoder makes of the values they stand for.

Proof: induct on the runs from the last; its values are taken in behind all others and
do not continue the run before. -/
theorem pushAll_expand {limit : Nat} {runs : List (Run α)} (canonical : Canonical limit runs) :
    (pushAll limit [] (expand runs)).reverse = runs := by
  induction runs using List.reverseRecOn with
  | nil => rfl
  | append_singleton front last inductionHypothesis =>
    obtain ⟨earlier, started, within, apart⟩ := canonical.of_concat
    have encoded : pushAll limit [] (expand front) = front.reverse :=
      List.reverse_eq_iff.mp (inductionHypothesis earlier)
    have copies : expand [last] = List.replicate last.count last.value := by simp [Run.items]
    rw [expand_append, pushAll_append, encoded, copies,
      pushAll_replicate started within front.reverse last.value (by simpa using apart)]
    simp

end OsLabwork.RunLength
