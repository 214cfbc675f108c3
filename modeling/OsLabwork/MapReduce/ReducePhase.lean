import OsLabwork.Library.KeyGroups
import OsLabwork.Library.Sorting
import OsLabwork.MapReduce.MultiMap

/-!
# The reduce phase of one partition

`__reduce_thread_runner` sorts the pairs of its partition, scans them from first to
last, and calls the user's reducer at each position whose key differs from the key
before it. The reducer obtains values through `__get_next_value`, whose read
position belongs to the partition and is shared by all calls of the reducer.

The reducer is arbitrary code: it decides from everything it has received so far
whether to ask again and for which key. Calls are limited by a fuel so that a
reducer that never returns still has a defined behaviour at every point.
-/

namespace OsLabwork.MapReduce

open KeyGroups

variable {V σ : Type}

/-- `__compare_pair`. -/
def comparePair (pair1 pair2 : KvPair V) : Int := strcmp pair1.key pair2.key

/-- The user's reducer: how it starts on a key of a partition, which key it asks for
next (none when it returns), and how it takes the value or NULL it is given. -/
structure Reducer (σ V : Type) where
  enter : CString → Nat → σ → σ
  request : σ → Option CString
  receive : Option V → σ → σ

/-- One call of the reducer: the key, and the calls of the getter it made, each with
the value or NULL that was returned. -/
structure Invocation (V : Type) where
  key : CString
  calls : List (CString × Option V)

/-- The keys asked for during a call of the reducer. -/
def Invocation.requests (invocation : Invocation V) : List CString :=
  invocation.calls.map Prod.fst

/-- The stored values of a key, in stored order. -/
def valuesOf (pairs : List (KvPair V)) (key : CString) : List V :=
  (pairs.filter (fun pair => pair.key = key)).map KvPair.value

/-- The list with another read position. -/
def ArrayList.moveTo {α : Type} (list : ArrayList α) (position : Nat) : ArrayList α :=
  { list with iterPos := position }

/-- `__get_next_value` on the list of its partition. -/
def getNextValue (list : ArrayList (KvPair V)) (key : CString) :
    Option (Option V × ArrayList (KvPair V)) :=
  if list.length ≤ list.iterPos then some (none, list)
  else do
    let current ← list.readItem list.iterPos
    if strcmp current.key key ≠ 0 then return (none, list)
    else return (some current.value, list.moveTo (list.iterPos + 1))

/-- What a call of the reducer leaves behind; `returned` is false when the fuel ran
out before the reducer returned. -/
structure Served (σ V : Type) where
  calls : List (CString × Option V)
  user : σ
  list : ArrayList (KvPair V)
  returned : Bool

/-- Run the reducer's body until it returns or has used up its calls. -/
def runReducer (reducer : Reducer σ V) :
    Nat → σ → ArrayList (KvPair V) → Option (Served σ V)
  | 0, user, list => some ⟨[], user, list, (reducer.request user).isNone⟩
  | remaining + 1, user, list =>
    match reducer.request user with
    | none => some ⟨[], user, list, true⟩
    | some key => do
      let answered ← getNextValue list key
      let later ← runReducer reducer remaining (reducer.receive answered.1 user) answered.2
      return { later with calls := (key, answered.1) :: later.calls }

/-- What the scan leaves behind. -/
structure Reduced (σ V : Type) where
  invocations : List (Invocation V)
  user : σ
  list : ArrayList (KvPair V)
  returned : Bool

/-- `!i || strcmp(array[i - 1]->key, array[i]->key)`. -/
def startsGroup (list : ArrayList (KvPair V)) (index : Nat) : Option Bool :=
  if index = 0 then some true
  else do
    let previous ← list.readItem (index - 1)
    let current ← list.readItem index
    return strcmp previous.key current.key ≠ 0

/-- The scan over the given indices. -/
def reduceScan (reducer : Reducer σ V) (partition fuel : Nat) :
    List Nat → σ → ArrayList (KvPair V) → Option (Reduced σ V)
  | [], user, list => some ⟨[], user, list, true⟩
  | index :: rest, user, list => do
    if ← startsGroup list index then
      let current ← list.readItem index
      let served ← runReducer reducer fuel (reducer.enter current.key partition user) list
      if served.returned then
        let later ← reduceScan reducer partition fuel rest served.user served.list
        return { later with invocations := ⟨current.key, served.calls⟩ :: later.invocations }
      else return ⟨[⟨current.key, served.calls⟩], served.user, served.list, false⟩
    else reduceScan reducer partition fuel rest user list

/-- Sort the cells in use; the cells beyond them stay. -/
def sortItems {α : Type} (qsort : (α → α → Int) → List α → List α) (compare : α → α → Int)
    (list : ArrayList α) : Option (ArrayList α) := do
  let items ← list.readItems
  return { list with array := (qsort compare items).map some ++ list.array.drop list.length }

/-- `__reduce_thread_runner` on the list of its partition. -/
def reduceThreadRunner
    (qsort : (KvPair V → KvPair V → Int) → List (KvPair V) → List (KvPair V))
    (reducer : Reducer σ V) (partition fuel : Nat) (user : σ) (list : ArrayList (KvPair V)) :
    Option (Reduced σ V) := do
  let sorted ← sortItems qsort comparePair list
  reduceScan reducer partition fuel (List.range sorted.length) user sorted

/-- The comparison of pairs is consistent, so sorting by it is meaningful. -/
theorem comparePair_consistent : Sorting.Consistent (comparePair : KvPair V → KvPair V → Int) where
  antisymmetric left right := by
    have swapped := strcmp_swap left.key right.key
    simp only [comparePair]
    omega
  transitive _ _ _ low high := strcmp_le_trans low high

/-- The position of the iterator is no part of the contents. -/
theorem ArrayList.Represents.moveTo {α : Type} {list : ArrayList α} {items : List α}
    (represents : list.Represents items) (position : Nat) :
    (list.moveTo position).Represents items where
  stored := represents.stored
  counted := represents.counted
  block := represents.block
  fits := represents.fits
  doubled := represents.doubled

/-- Sorting in place permutes the items and keeps the read position. -/
theorem ArrayList.Represents.sortItems {α : Type} {list : ArrayList α} {items : List α}
    (represents : list.Represents items) (qsort : (α → α → Int) → List α → List α)
    (contract : Sorting.Contract qsort) (compare : α → α → Int) :
    ∃ sorted, OsLabwork.MapReduce.sortItems qsort compare list = some sorted ∧
      sorted.Represents (qsort compare items) ∧ sorted.length = items.length ∧
      sorted.iterPos = list.iterPos := by
  have length : (qsort compare items).length = items.length :=
    (contract.permutes compare items).length_eq
  refine ⟨{ list with array := (qsort compare items).map some ++ list.array.drop list.length },
    ?_, ?_, represents.counted, rfl⟩
  · simp [OsLabwork.MapReduce.sortItems, represents.readItems]
  · exact {
      stored := by
        simp [represents.counted, length]
      counted := by rw [length, ← represents.counted]
      block := by
        have fits := represents.fits
        have block := represents.block
        simp only [List.length_append, List.length_map, List.length_drop, length,
          ← represents.counted]
        omega
      fits := represents.fits
      doubled := represents.doubled }

/-- The runner of a partition scans its pairs as a sequence of groups, one for each
key, whose keys ascend strictly. -/
theorem reduceThreadRunner_scan
    {qsort : (KvPair V → KvPair V → Int) → List (KvPair V) → List (KvPair V)}
    (contract : Sorting.Contract qsort) (reducer : Reducer σ V) (partition fuel : Nat) (user : σ)
    {list : ArrayList (KvPair V)} {pairs : List (KvPair V)} (represents : list.Represents pairs) :
    ∃ (sorted : ArrayList (KvPair V)) (groups : List (Group (KvPair.key : KvPair V → CString))),
      expand groups = qsort comparePair pairs ∧
      (groups.map Group.shared).Pairwise (fun left right =>
        strcmp left right ≤ 0 ∧ left ≠ right) ∧
      sorted.Represents (expand groups) ∧ sorted.iterPos = list.iterPos ∧
      reduceThreadRunner qsort reducer partition fuel user list =
        reduceScan reducer partition fuel (List.range' 0 (expand groups).length) user sorted := by
  obtain ⟨sorted, sorting, sortedRepresents, length, position⟩ :=
    represents.sortItems qsort contract comparePair
  have antisymmetric : ∀ left right : CString,
      strcmp left right ≤ 0 → strcmp right left ≤ 0 → left = right := by
    intro left right low high
    have swapped := strcmp_swap left right
    exact (strcmp_eq_zero_iff left right).mp (by omega)
  obtain ⟨groups, expanded, strict⟩ := exists_groups (fun left right => strcmp left right ≤ 0)
    antisymmetric (qsort comparePair pairs)
    (contract.ordered comparePair comparePair_consistent pairs)
  refine ⟨sorted, groups, expanded, strict, expanded ▸ sortedRepresents, position, ?_⟩
  have indices : List.range sorted.length = List.range' 0 (expand groups).length := by
    rw [expanded, (contract.permutes comparePair pairs).length_eq, length, List.range_eq_range']
  simp only [reduceThreadRunner, sorting, Option.bind_eq_bind, Option.bind_some, indices]

/-- The getter's answer on a stored sequence: the value at the read position when it
has the requested key, and the position afterwards. -/
def answer (pairs : List (KvPair V)) (position : Nat) (key : CString) : Option V × Nat :=
  match pairs[position]? with
  | some pair => if pair.key = key then (some pair.value, position + 1) else (none, position)
  | none => (none, position)

/-- `__get_next_value` gives the answer. -/
theorem getNextValue_answer {list : ArrayList (KvPair V)} {pairs : List (KvPair V)}
    (represents : list.Represents pairs) (key : CString) :
    getNextValue list key = some ((answer pairs list.iterPos key).1,
      list.moveTo (answer pairs list.iterPos key).2) := by
  have same : list.moveTo list.iterPos = list := rfl
  by_cases ended : list.length ≤ list.iterPos
  · have absent : pairs[list.iterPos]? = none :=
      List.getElem?_eq_none (represents.counted ▸ ended)
    simp [getNextValue, ended, answer, absent, same]
  · have used : list.iterPos < pairs.length := by
      have counted := represents.counted
      omega
    have read := represents.readItem list.iterPos used
    rw [List.get_eq_getElem] at read
    by_cases own : pairs[list.iterPos].key = key
    · simp [getNextValue, ended, read, answer, used, own]
    · have differ : strcmp pairs[list.iterPos].key key ≠ 0 := fun equal =>
        own ((strcmp_eq_zero_iff _ _).mp equal)
      simp [getNextValue, ended, read, answer, used, own, differ, same]

section Scan

variable (reducer : Reducer σ V) (partition fuel : Nat)

/-- Positions after the first of a group do not start a reducer call. The group's
earlier items are at the end of what has been scanned. -/
theorem reduceScan_within {list : ArrayList (KvPair V)} (user : σ) (rest : List Nat)
    (scanned : List (KvPair V)) (last : KvPair V) (more later : List (KvPair V))
    (represents : list.Represents ((scanned ++ [last]) ++ (more ++ later)))
    (uniform : ∀ pair ∈ more, pair.key = last.key) :
    reduceScan reducer partition fuel
        (List.range' (scanned.length + 1) more.length ++ rest) user list =
      reduceScan reducer partition fuel rest user list := by
  induction more generalizing scanned last with
  | nil => rfl
  | cons pair more inductionHypothesis =>
    have before : list.readItem scanned.length = some last := by
      rw [represents.readItem scanned.length (by simp)]
      simp
    have current : list.readItem (scanned.length + 1) = some pair := by
      rw [represents.readItem (scanned.length + 1) (by simp)]
      simp [List.getElem_append_right]
    have same : pair.key = last.key := uniform pair List.mem_cons_self
    have inner : startsGroup list (scanned.length + 1) = some false := by
      simp [startsGroup, before, current, same]
    have onward := inductionHypothesis (scanned ++ [last]) pair (by simpa using represents) (by
      intro other member
      rw [uniform other (List.mem_cons_of_mem _ member), same])
    rw [List.length_append, List.length_singleton] at onward
    rw [List.length_cons, List.range'_succ, List.cons_append, reduceScan, inner]
    exact onward

/-- Scanning a whole group calls the reducer once, at its first position, and then
goes on behind the group with whatever the call left. -/
theorem reduceScan_group {list : ArrayList (KvPair V)} (user : σ) (rest : List Nat)
    (scanned : List (KvPair V)) (group : Group (KvPair.key : KvPair V → CString))
    (later : List (KvPair V))
    (represents : list.Represents (scanned ++ (group.items ++ later)))
    (boundary : ∀ last, scanned.getLast? = some last → last.key ≠ group.shared)
    (served : Served σ V)
    (serving : runReducer reducer fuel (reducer.enter group.shared partition user) list =
      some served)
    (kept : served.list.Represents (scanned ++ (group.items ++ later))) :
    reduceScan reducer partition fuel
        (List.range' scanned.length group.items.length ++ rest) user list =
      if served.returned then
        (reduceScan reducer partition fuel rest served.user served.list).map (fun onward =>
          { onward with invocations := ⟨group.shared, served.calls⟩ :: onward.invocations })
      else some ⟨[⟨group.shared, served.calls⟩], served.user, served.list, false⟩ := by
  have current : list.readItem scanned.length = some group.first := by
    rw [represents.readItem scanned.length (by simp [Group.items])]
    simp [Group.items]
  have starts : startsGroup list scanned.length = some true := by
    by_cases atStart : scanned.length = 0
    · simp [startsGroup, atStart]
    · obtain ⟨front, last, rfl⟩ :=
        List.eq_nil_or_concat scanned |>.resolve_left (by simpa using atStart)
      have before : list.readItem front.length = some last := by
        rw [represents.readItem front.length (by simp)]
        simp
      have differ : strcmp last.key group.first.key ≠ 0 := fun equal =>
        boundary last (by simp) ((strcmp_eq_zero_iff _ _).mp equal)
      rw [List.length_concat] at current ⊢
      simp [startsGroup, before, current, differ]
  have skipped : ∀ after : σ, reduceScan reducer partition fuel
      (List.range' (scanned.length + 1) group.more.length ++ rest) after served.list =
        reduceScan reducer partition fuel rest after served.list := by
    intro after
    exact reduceScan_within reducer partition fuel after rest scanned group.first group.more later
      (by simpa [Group.items] using kept) group.uniform
  have entered : reducer.enter group.first.key partition user =
      reducer.enter group.shared partition user := rfl
  rw [Group.items, List.length_cons, List.range'_succ, List.cons_append, reduceScan, starts]
  simp only [Option.bind_eq_bind, Option.bind_some, ↓reduceIte, current, entered, serving, skipped]
  cases served.returned with
  | true =>
    cases onward : reduceScan reducer partition fuel rest served.user served.list with
    | none => simp
    | some reduced => simp; rfl
  | false => rfl

end Scan

end OsLabwork.MapReduce
