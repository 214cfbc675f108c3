import OsLabwork.Library.Schedules
import OsLabwork.MapReduce.ValueIterator

/-!
# A reducer thread and its client

The reducer is code of the user. Between its start and its return it may call the
getter any number of times and with any keys, and it shares the read position with
nobody but its own later calls. Here a reducer thread is a machine: the scan takes its
steps, and inside a call of the reducer the user decides at every point whether to
call the getter, and with which key, or to return.

What the scan does depends on the sorted pairs and its own index only, and the read
position moves over a pair exactly when that pair is handed out. So no decision of the
user can make the scan miss or repeat a key, or the getter hand out a pair twice.
-/

namespace OsLabwork.MapReduce

open Schedules

variable {V σ : Type}

/-- The steps of a reducer thread: the scan looks at an index, the user's code calls the
getter, the user's code returns. -/
inductive ReduceLabel where
  | scan
  | call (key : CString)
  | ret
deriving DecidableEq, Repr

/-- The steps that are not the user's calls. -/
def ReduceLabel.isOwn : ReduceLabel → Bool
  | .call _ => false
  | _ => true

/-- A reducer thread: its list, the index of the scan, the calls of the reducer that have
returned, and the one that has not. -/
structure ReduceState (V : Type) where
  list : ArrayList (KvPair V)
  position : Nat
  done : List (Invocation V)
  current : Option (Invocation V)

/-- All calls of the reducer. -/
def ReduceState.invocations (state : ReduceState V) : List (Invocation V) :=
  state.done ++ state.current.toList

/-- How many indices the scan has looked at. -/
def ReduceState.scanned (state : ReduceState V) : Nat :=
  state.position + state.current.toList.length

/-- The values that the getter has handed out, each with the key that was asked for. -/
def ReduceState.answers (state : ReduceState V) : List (CString × V) :=
  (state.invocations.flatMap Invocation.calls).filterMap fun call => call.2.map (call.1, ·)

/-- The scan is at its end. -/
def ReduceState.Finished (state : ReduceState V) : Prop :=
  state.current = none ∧ state.position = state.list.length

/-- One step of `__reduce_thread_runner` behind its sorting. -/
def reduceStep (state : ReduceState V) : ReduceLabel → Option (ReduceState V)
  | .scan =>
      match state.current with
      | some _ => none
      | none =>
          if state.position < state.list.length then do
            if ← startsGroup state.list state.position then
              let pair ← state.list.readItem state.position
              return { state with current := some ⟨pair.key, []⟩ }
            else return { state with position := state.position + 1 }
          else none
  | .call key =>
      state.current.bind fun invocation =>
        (getNextValue state.list key).map fun answered =>
          { state with
            list := answered.2
            current := some { invocation with calls := invocation.calls ++ [(key, answered.1)] } }
  | .ret =>
      state.current.map fun invocation =>
        { state with
          position := state.position + 1
          done := state.done ++ [invocation]
          current := none }

/-- The thread when it has sorted its list. -/
def reduceStart (qsort : (KvPair V → KvPair V → Int) → List (KvPair V) → List (KvPair V))
    (list : ArrayList (KvPair V)) : Option (ReduceState V) :=
  (sortItems qsort comparePair list).map fun sorted => ⟨sorted, 0, [], none⟩

/-- The key at an index differs from the key before. -/
def startsKey (sorted : List (KvPair V)) (index : Nat) : Bool :=
  index = 0 || sorted[index - 1]?.map KvPair.key ≠ sorted[index]?.map KvPair.key

/-- In a sorted list, a group starts where the key changes. -/
theorem startsGroup_sorted {list : ArrayList (KvPair V)} {sorted : List (KvPair V)}
    (represents : list.Represents sorted) {index : Nat} (inside : index < sorted.length) :
    startsGroup list index = some (startsKey sorted index) := by
  by_cases first : index = 0
  · simp [startsGroup, startsKey, first]
  · have before := represents.readItem (index - 1) (by omega)
    have here := represents.readItem index inside
    have beforeInside : index - 1 < sorted.length := by omega
    rw [List.get_eq_getElem] at before here
    simp [startsGroup, startsKey, first, before, here, strcmp_eq_zero_iff, inside, beforeInside]

section Steps

variable {sorted : List (KvPair V)} {state : ReduceState V}

/-- The scan at an index: it starts a call of the reducer, or goes on. -/
theorem reduceStep_scan (represents : state.list.Represents sorted) (idle : state.current = none)
    {pair : KvPair V} (here : sorted[state.position]? = some pair) :
    reduceStep state .scan = some (if startsKey sorted state.position then
        { state with current := some ⟨pair.key, []⟩ }
      else { state with position := state.position + 1 }) := by
  obtain ⟨inside, isPair⟩ := List.getElem?_eq_some_iff.mp here
  have counted := represents.counted
  have read := represents.readItem state.position inside
  rw [List.get_eq_getElem, isPair] at read
  simp only [reduceStep, idle, startsGroup_sorted represents inside, read, Option.bind_eq_bind,
    Option.bind_some, if_pos (counted.symm ▸ inside : state.position < state.list.length)]
  split
  · rfl
  · rfl

/-- A call of the getter: the answer is recorded and the read position moved. -/
theorem reduceStep_call (represents : state.list.Represents sorted) {invocation : Invocation V}
    (active : state.current = some invocation) (key : CString) :
    reduceStep state (.call key) = some
      { state with
        list := state.list.moveTo (answer sorted state.list.iterPos key).2
        current := some { invocation with
          calls := invocation.calls ++ [(key, (answer sorted state.list.iterPos key).1)] } } := by
  simp [reduceStep, active, getNextValue_answer represents key]

/-- The reducer returns. -/
theorem reduceStep_ret {invocation : Invocation V} (active : state.current = some invocation) :
    reduceStep state .ret = some
      { state with
        position := state.position + 1
        done := state.done ++ [invocation]
        current := none } := by
  simp [reduceStep, active]

/-- Everything a step can do. -/
theorem reduceStep_cases (represents : state.list.Represents sorted) {label : ReduceLabel}
    {next : ReduceState V} (taken : reduceStep state label = some next) :
    (label = .scan ∧ state.current = none ∧ ∃ pair, sorted[state.position]? = some pair ∧
      next = if startsKey sorted state.position then
          { state with current := some ⟨pair.key, []⟩ }
        else { state with position := state.position + 1 }) ∨
    (∃ key invocation, label = .call key ∧ state.current = some invocation ∧
      next = { state with
        list := state.list.moveTo (answer sorted state.list.iterPos key).2
        current := some { invocation with
          calls := invocation.calls ++ [(key, (answer sorted state.list.iterPos key).1)] } }) ∨
    (∃ invocation, label = .ret ∧ state.current = some invocation ∧
      next = { state with
        position := state.position + 1
        done := state.done ++ [invocation]
        current := none }) := by
  rcases Option.eq_none_or_eq_some state.current with active | ⟨invocation, active⟩
  · cases label with
    | scan =>
      have inside : state.position < sorted.length := by
        by_contra outside
        have ended : ¬ state.position < state.list.length := by
          rw [represents.counted]
          exact outside
        simp [reduceStep, active, ended] at taken
      have here := List.getElem?_eq_getElem inside
      rw [reduceStep_scan represents active here, Option.some.injEq] at taken
      exact Or.inl ⟨rfl, active, _, here, taken.symm⟩
    | call key => simp [reduceStep, active] at taken
    | ret => simp [reduceStep, active] at taken
  · cases label with
    | scan => simp [reduceStep, active] at taken
    | call key =>
      rw [reduceStep_call represents active, Option.some.injEq] at taken
      exact Or.inr (Or.inl ⟨key, invocation, rfl, active, taken.symm⟩)
    | ret =>
      rw [reduceStep_ret active, Option.some.injEq] at taken
      exact Or.inr (Or.inr ⟨invocation, rfl, active, taken.symm⟩)

end Steps

/-- What holds of a reducer thread at every point, after the given steps. -/
structure Scanning (sorted : List (KvPair V)) (history : List ReduceLabel)
    (state : ReduceState V) : Prop where
  represents : state.list.Represents sorted
  bounded : state.list.iterPos ≤ sorted.length
  inside : state.scanned ≤ sorted.length
  ascending : (state.invocations.map Invocation.key).Pairwise (fun left right =>
    strcmp left right < 0)
  covered : ∀ key, key ∈ state.invocations.map Invocation.key ↔
    ∃ pair ∈ sorted.take state.scanned, pair.key = key
  answered : state.answers =
    (sorted.take state.list.iterPos).map fun pair => (pair.key, pair.value)
  limited : history.countP ReduceLabel.isOwn ≤ state.position + state.scanned

/-- The values handed out move on with the read position. -/
theorem take_answer (sorted : List (KvPair V)) (position : Nat) (key : CString) :
    (sorted.take (answer sorted position key).2).map (fun pair => (pair.key, pair.value)) =
      (sorted.take position).map (fun pair => (pair.key, pair.value)) ++
        ((answer sorted position key).1.map (key, ·)).toList := by
  rw [answer]
  split
  · next pair here =>
    split
    · next same =>
      rw [List.take_add_one, here, List.map_append]
      simp [same]
    · simp
  · simp

/-- An answer moves the position forward, within the list. -/
theorem answer_position (sorted : List (KvPair V)) (position : Nat) (key : CString)
    (bounded : position ≤ sorted.length) :
    position ≤ (answer sorted position key).2 ∧ (answer sorted position key).2 ≤ sorted.length := by
  rw [answer]
  split
  · next pair here =>
    obtain ⟨inside, _⟩ := List.getElem?_eq_some_iff.mp here
    split
    · exact ⟨Nat.le_succ _, inside⟩
    · exact ⟨Nat.le_refl _, bounded⟩
  · exact ⟨Nat.le_refl _, bounded⟩

section Invariant

variable {sorted : List (KvPair V)} {history : List ReduceLabel} {state : ReduceState V}

/-- Between invocations. -/
theorem ReduceState.scanned_idle (idle : state.current = none) :
    state.scanned = state.position := by
  simp [ReduceState.scanned, idle]

/-- Inside an invocation. -/
theorem ReduceState.scanned_active {invocation : Invocation V}
    (active : state.current = some invocation) : state.scanned = state.position + 1 := by
  simp [ReduceState.scanned, active]

/-- The pairs up to an index and the pair at the index. -/
theorem take_next {index : Nat} {pair : KvPair V} (here : sorted[index]? = some pair) :
    sorted.take (index + 1) = sorted.take index ++ [pair] := by
  rw [List.take_add_one, here, Option.toList_some]

/-- Looking at an index whose key has been seen changes nothing but the index. -/
theorem Scanning.goOn (scanning : Scanning sorted history state) (idle : state.current = none)
    {pair : KvPair V} (here : sorted[state.position]? = some pair)
    (same : startsKey sorted state.position = false) :
    Scanning sorted (history ++ [.scan]) { state with position := state.position + 1 } := by
  obtain ⟨inside, _⟩ := List.getElem?_eq_some_iff.mp here
  obtain ⟨positive, previous, before, sameKey⟩ : 0 < state.position ∧
      ∃ previous, sorted[state.position - 1]? = some previous ∧ previous.key = pair.key := by
    simpa [startsKey, here, Nat.pos_iff_ne_zero] using same
  have earlier : previous ∈ sorted.take state.position := by
    apply List.mem_of_getElem? (i := state.position - 1)
    rw [List.getElem?_take_of_lt (by omega), before]
  have covered := scanning.covered
  have limited := scanning.limited
  rw [ReduceState.scanned_idle idle] at covered limited
  have nextScanned : ReduceState.scanned { state with position := state.position + 1 } =
      state.position + 1 := ReduceState.scanned_idle idle
  constructor
  · exact scanning.represents
  · exact scanning.bounded
  · rw [nextScanned]
    exact inside
  · exact scanning.ascending
  · intro key
    rw [nextScanned, take_next here]
    refine (covered key).trans ?_
    simp only [List.mem_append, List.mem_singleton]
    constructor
    · rintro ⟨other, member, isKey⟩
      exact ⟨other, Or.inl member, isKey⟩
    · rintro ⟨other, member | rfl, isKey⟩
      · exact ⟨other, member, isKey⟩
      · exact ⟨previous, earlier, sameKey.trans isKey⟩
  · exact scanning.answered
  · rw [nextScanned, List.countP_append]
    simp only [List.countP_singleton, ReduceLabel.isOwn, ↓reduceIte]
    omega

/-- Where a key starts, all keys before it are smaller. -/
theorem startsKey_above (ordered : sorted.Pairwise (fun left right =>
      strcmp left.key right.key ≤ 0)) {index : Nat} {pair : KvPair V}
    (here : sorted[index]? = some pair) (starts : startsKey sorted index = true) :
    ∀ other ∈ sorted.take index, strcmp other.key pair.key < 0 := by
  intro other member
  obtain ⟨place, placeInside, isOther⟩ := List.getElem_of_mem member
  rw [List.length_take] at placeInside
  rw [List.getElem_take] at isOther
  obtain ⟨inside, isPair⟩ := List.getElem?_eq_some_iff.mp here
  have previousInside : index - 1 < sorted.length := by omega
  have positive : index ≠ 0 := by omega
  have order := List.pairwise_iff_getElem.mp ordered
  have differs : sorted[index - 1].key ≠ pair.key := by
    simpa [startsKey, here, positive, List.getElem?_eq_getElem previousInside] using starts
  have below : strcmp sorted[index - 1].key pair.key < 0 := by
    have atMost := order (index - 1) index previousInside inside (by omega)
    rw [isPair] at atMost
    have nonzero : strcmp sorted[index - 1].key pair.key ≠ 0 := fun equal =>
      differs ((strcmp_eq_zero_iff _ _).mp equal)
    omega
  rcases Nat.lt_or_ge place (index - 1) with earlier | last
  · have atMost := order place (index - 1) (by omega) previousInside earlier
    rw [isOther] at atMost
    have swapped := strcmp_swap other.key pair.key
    have above := strcmp_swap sorted[index - 1].key pair.key
    by_contra notBelow
    have back : strcmp pair.key sorted[index - 1].key ≤ 0 :=
      strcmp_le_trans (by omega) atMost
    omega
  · obtain rfl : place = index - 1 := by omega
    rwa [isOther] at below

/-- Where a key starts, a call of the reducer for this key begins. -/
theorem Scanning.begin (scanning : Scanning sorted history state)
    (ordered : sorted.Pairwise (fun left right => strcmp left.key right.key ≤ 0))
    (idle : state.current = none) {pair : KvPair V} (here : sorted[state.position]? = some pair)
    (starts : startsKey sorted state.position = true) :
    Scanning sorted (history ++ [.scan]) { state with current := some ⟨pair.key, []⟩ } := by
  obtain ⟨inside, _⟩ := List.getElem?_eq_some_iff.mp here
  have covered := scanning.covered
  have limited := scanning.limited
  have above := startsKey_above ordered here starts
  rw [ReduceState.scanned_idle idle] at covered limited
  have nextScanned : ReduceState.scanned { state with current := some ⟨pair.key, []⟩ } =
      state.position + 1 := ReduceState.scanned_active rfl
  have nextInvocations : ReduceState.invocations { state with current := some ⟨pair.key, []⟩ } =
      state.invocations ++ [⟨pair.key, []⟩] := by
    simp [ReduceState.invocations, idle]
  constructor
  · exact scanning.represents
  · exact scanning.bounded
  · rw [nextScanned]
    exact inside
  · rw [nextInvocations, List.map_append, List.pairwise_append]
    refine ⟨scanning.ascending, List.pairwise_singleton _ _, ?_⟩
    intro earlier invoked new isNew
    rw [List.map_singleton, List.mem_singleton] at isNew
    obtain ⟨other, member, rfl⟩ := (covered earlier).mp invoked
    rw [isNew]
    exact above other member
  · intro key
    rw [nextScanned, take_next here, nextInvocations, List.map_append, List.mem_append, covered key]
    simp only [List.map_singleton, List.mem_append, List.mem_singleton]
    constructor
    · rintro (⟨other, member, isKey⟩ | isNew)
      · exact ⟨other, Or.inl member, isKey⟩
      · exact ⟨pair, Or.inr rfl, isNew.symm⟩
    · rintro ⟨other, member | rfl, isKey⟩
      · exact Or.inl ⟨other, member, isKey⟩
      · exact Or.inr isKey.symm
  · have answered := scanning.answered
    rw [ReduceState.answers] at answered ⊢
    rw [nextInvocations, List.flatMap_append, List.flatMap_singleton, List.append_nil]
    exact answered
  · rw [nextScanned, List.countP_append]
    simp only [List.countP_singleton, ReduceLabel.isOwn, ↓reduceIte]
    omega

/-- Whatever key the user asks for, the getter hands out the next pair or nothing. -/
theorem Scanning.call (scanning : Scanning sorted history state) {invocation : Invocation V}
    (active : state.current = some invocation) (key : CString) :
    Scanning sorted (history ++ [.call key])
      { state with
        list := state.list.moveTo (answer sorted state.list.iterPos key).2
        current := some { invocation with
          calls := invocation.calls ++ [(key, (answer sorted state.list.iterPos key).1)] } } := by
  have moved := answer_position sorted state.list.iterPos key scanning.bounded
  have sameScanned := ReduceState.scanned_active active
  have keys : state.invocations.map Invocation.key =
      state.done.map Invocation.key ++ [invocation.key] := by
    simp [ReduceState.invocations, active]
  have inside := scanning.inside
  have ascending := scanning.ascending
  have covered := scanning.covered
  have limited := scanning.limited
  rw [sameScanned] at inside covered limited
  rw [keys] at ascending covered
  constructor
  · exact scanning.represents.moveTo _
  · exact moved.2
  · exact inside
  · simpa [ReduceState.invocations] using ascending
  · simpa [ReduceState.invocations, ReduceState.scanned] using covered
  · have answered := scanning.answered
    have earlier : state.answers = (state.done.flatMap Invocation.calls ++ invocation.calls).filterMap
        (fun call => call.2.map (call.1, ·)) := by
      simp [ReduceState.answers, ReduceState.invocations, active]
    simp only [ArrayList.moveTo, take_answer, ← answered, earlier]
    cases (answer sorted state.list.iterPos key).1 with
    | none => simp [ReduceState.answers, ReduceState.invocations]
    | some value => simp [ReduceState.answers, ReduceState.invocations]
  · rw [List.countP_append]
    simpa [ReduceLabel.isOwn, ReduceState.scanned] using limited

/-- When the user's code returns, the scan goes on to the next index. -/
theorem Scanning.ret (scanning : Scanning sorted history state) {invocation : Invocation V}
    (active : state.current = some invocation) :
    Scanning sorted (history ++ [.ret])
      { state with
        position := state.position + 1
        done := state.done ++ [invocation]
        current := none } := by
  have sameInvocations : ReduceState.invocations { state with
      position := state.position + 1, done := state.done ++ [invocation], current := none } =
      state.invocations := by
    simp [ReduceState.invocations, active]
  have sameScanned : ReduceState.scanned { state with
      position := state.position + 1, done := state.done ++ [invocation], current := none } =
      state.scanned := by
    simp [ReduceState.scanned, active]
  constructor
  · exact scanning.represents
  · exact scanning.bounded
  · rw [sameScanned]
    exact scanning.inside
  · rw [sameInvocations]
    exact scanning.ascending
  · rw [sameInvocations, sameScanned]
    exact scanning.covered
  · rw [ReduceState.answers, sameInvocations]
    exact scanning.answered
  · have limited := scanning.limited
    rw [sameScanned, List.countP_append]
    simp only [List.countP_singleton, ReduceLabel.isOwn, ↓reduceIte]
    omega

/-- No step can break the invariant. -/
theorem Scanning.step (ordered : sorted.Pairwise (fun left right =>
      strcmp left.key right.key ≤ 0)) (scanning : Scanning sorted history state)
    {label : ReduceLabel} {next : ReduceState V} (taken : reduceStep state label = some next) :
    Scanning sorted (history ++ [label]) next := by
  rcases reduceStep_cases scanning.represents taken with
    ⟨rfl, idle, pair, here, rfl⟩ | ⟨key, invocation, rfl, active, rfl⟩ |
      ⟨invocation, rfl, active, rfl⟩
  · cases starts : startsKey sorted state.position with
    | true => exact scanning.begin ordered idle here starts
    | false => exact scanning.goOn idle here starts
  · exact scanning.call active key
  · exact scanning.ret active

/-- No step moves the read position back. -/
theorem Scanning.monotone (scanning : Scanning sorted history state) {label : ReduceLabel}
    {next : ReduceState V} (taken : reduceStep state label = some next) :
    state.list.iterPos ≤ next.list.iterPos := by
  rcases reduceStep_cases scanning.represents taken with
    ⟨rfl, idle, pair, here, rfl⟩ | ⟨key, invocation, rfl, active, rfl⟩ |
      ⟨invocation, rfl, active, rfl⟩
  · split
    · exact Nat.le_refl _
    · exact Nat.le_refl _
  · exact (answer_position sorted state.list.iterPos key scanning.bounded).1
  · exact Nat.le_refl _

/-- The thread is at its end, or the scan can go on, or the user's code can do anything. -/
theorem Scanning.progress (scanning : Scanning sorted history state) :
    state.Finished ∨ (reduceStep state .scan).isSome ∨
      ((∀ key, (reduceStep state (.call key)).isSome) ∧ (reduceStep state .ret).isSome) := by
  rcases Option.eq_none_or_eq_some state.current with idle | ⟨invocation, active⟩
  · have inside := scanning.inside
    rw [ReduceState.scanned_idle idle] at inside
    rcases Nat.lt_or_eq_of_le inside with more | ended
    · right; left
      rw [reduceStep_scan scanning.represents idle (List.getElem?_eq_getElem more)]
      rfl
    · left
      exact ⟨idle, ended.trans scanning.represents.counted.symm⟩
  · right; right
    constructor
    · intro key
      rw [reduceStep_call scanning.represents active key]
      rfl
    · rw [reduceStep_ret active]
      rfl

end Invariant

/-- Sorting leaves a thread that has not looked at anything. -/
theorem reduceStart_scanning
    {qsort : (KvPair V → KvPair V → Int) → List (KvPair V) → List (KvPair V)}
    (contract : Sorting.Contract qsort) {list : ArrayList (KvPair V)} {pairs : List (KvPair V)}
    (represents : list.Represents pairs) (unread : list.iterPos = 0) :
    ∃ start, reduceStart qsort list = some start ∧
      Scanning (qsort comparePair pairs) [] start := by
  obtain ⟨sorted, sorting, sortedRepresents, _, position⟩ :=
    represents.sortItems qsort contract comparePair
  refine ⟨⟨sorted, 0, [], none⟩, by simp [reduceStart, sorting], ?_⟩
  rw [unread] at position
  constructor
  · exact sortedRepresents
  · simp [position]
  · simp [ReduceState.scanned]
  · simp [ReduceState.invocations]
  · simp [ReduceState.invocations, ReduceState.scanned]
  · simp [ReduceState.answers, ReduceState.invocations, position]
  · simp [ReduceState.scanned]

/-- What holds of a reducer thread when the user's code has made whatever calls, and the
scan whatever steps. -/
structure Safe (pairs sorted : List (KvPair V)) (state : ReduceState V) : Prop where
  ascending : (state.invocations.map Invocation.key).Pairwise (fun left right =>
    strcmp left right < 0)
  stored : ∀ key ∈ state.invocations.map Invocation.key, ∃ pair ∈ pairs, pair.key = key
  complete : state.Finished → ∀ pair ∈ pairs, pair.key ∈ state.invocations.map Invocation.key
  handedOut : state.answers =
    (sorted.take state.list.iterPos).map fun pair => (pair.key, pair.value)
  bounded : state.list.iterPos ≤ state.list.length
  monotone : ∀ label next, reduceStep state label = some next →
    state.list.iterPos ≤ next.list.iterPos
  progress : state.Finished ∨ (reduceStep state .scan).isSome ∨
    ((∀ key, (reduceStep state (.call key)).isSome) ∧ (reduceStep state .ret).isSome)

/-- A scan in progress is safe. -/
theorem Scanning.safe {pairs sorted : List (KvPair V)} {history : List ReduceLabel}
    {state : ReduceState V} (scanning : Scanning sorted history state)
    (permuted : sorted.Perm pairs) : Safe pairs sorted state := by
  constructor
  · exact scanning.ascending
  · intro key invoked
    obtain ⟨pair, member, isKey⟩ := (scanning.covered key).mp invoked
    exact ⟨pair, permuted.subset (List.mem_of_mem_take member), isKey⟩
  · rintro ⟨idle, atEnd⟩ pair member
    refine (scanning.covered pair.key).mpr ⟨pair, ?_, rfl⟩
    rw [ReduceState.scanned_idle idle, atEnd, scanning.represents.counted, List.take_length]
    exact permuted.symm.subset member
  · exact scanning.answered
  · rw [scanning.represents.counted]
    exact scanning.bounded
  · intro label next taken
    exact scanning.monotone taken
  · exact scanning.progress

/-- Whatever a partition holds and whatever the user's code does, at every point of the
reduce phase: the reducer has been called for stored keys only, in strictly ascending
order, and for every stored key when the phase is over; the values handed out are those of
the first pairs of the sorted partition, in order, each to a request for its own key, so
that no pair is handed out twice; and the read position never goes back nor beyond the
length. The thread never gets stuck, and only calls of the user's code can make it take
more than a fixed number of steps. -/
theorem value_iterator_is_safe
    (qsort : (KvPair V → KvPair V → Int) → List (KvPair V) → List (KvPair V))
    (contract : Sorting.Contract qsort) (list : ArrayList (KvPair V)) (pairs : List (KvPair V))
    (represents : list.Represents pairs) (unread : list.iterPos = 0) :
    ∃ start sorted, reduceStart qsort list = some start ∧ sorted.Perm pairs ∧
      ∀ schedule state, exec reduceStep start schedule = some state →
        Safe pairs sorted state ∧ schedule.countP ReduceLabel.isOwn ≤ 2 * pairs.length := by
  have permuted := contract.permutes comparePair pairs
  have ordered := contract.ordered comparePair comparePair_consistent pairs
  obtain ⟨start, starting, initially⟩ := reduceStart_scanning contract represents unread
  refine ⟨start, qsort comparePair pairs, starting, permuted, ?_⟩
  intro schedule state ran
  have scanning := exec_invariant reduceStep start (Scanning (qsort comparePair pairs)) initially
    (fun _ _ _ _ holds taken => holds.step ordered taken) schedule state ran
  refine ⟨scanning.safe permuted, ?_⟩
  have limited := scanning.limited
  have inside := scanning.inside
  have position : state.position ≤ state.scanned := Nat.le_add_right _ _
  rw [permuted.length_eq] at inside
  omega

/-- Three pairs with two keys. -/
theorem value_iterator_is_safe_two_and_one :
    ∃ start sorted, reduceStart Sorting.insertionQsort twoAndOneList = some start ∧
      sorted.Perm twoAndOne ∧
      ∀ schedule state, exec reduceStep start schedule = some state →
        Safe twoAndOne sorted state ∧ schedule.countP ReduceLabel.isOwn ≤ 2 * twoAndOne.length :=
  value_iterator_is_safe Sorting.insertionQsort Sorting.insertionQsort_contract twoAndOneList
    twoAndOne twoAndOneList_represents rfl

section Simulation

variable (reducer : Reducer σ V)

/-- The getter keeps the length of the list. -/
theorem getNextValue_length {list : ArrayList (KvPair V)} {key : CString}
    {answered : Option V × ArrayList (KvPair V)} (got : getNextValue list key = some answered) :
    answered.2.length = list.length := by
  simp only [getNextValue] at got
  split at got
  · obtain rfl := Option.some.inj got
    rfl
  · simp only [Option.bind_eq_bind, Option.bind_eq_some_iff] at got
    obtain ⟨current, _, given⟩ := got
    split at given
    · obtain rfl := Option.some.inj given
      rfl
    · obtain rfl := Option.some.inj given
      rfl

/-- A reducer that runs inside a thread takes steps of the thread. -/
theorem runReducer_simulated (fuel : Nat) (user : σ) (state : ReduceState V)
    (invocation : Invocation V) (active : state.current = some invocation) (served : Served σ V)
    (serving : runReducer reducer fuel user state.list = some served) :
    served.list.length = state.list.length ∧
      ∃ schedule, exec reduceStep state schedule = some { state with
        list := served.list
        current := some { invocation with calls := invocation.calls ++ served.calls } } := by
  induction fuel generalizing user state invocation served with
  | zero =>
    obtain rfl := Option.some.inj serving
    refine ⟨rfl, [], ?_⟩
    simp [exec, ← active]
  | succ fuel inductionHypothesis =>
    rw [runReducer] at serving
    cases asked : reducer.request user with
    | none =>
      simp only [asked, Option.some.injEq] at serving
      subst serving
      refine ⟨rfl, [], ?_⟩
      simp [exec, ← active]
    | some key =>
      simp only [asked, Option.bind_eq_bind, Option.bind_eq_some_iff] at serving
      obtain ⟨answered, got, later, serving, result⟩ := serving
      obtain rfl := Option.some.inj result
      obtain ⟨length, schedule, ran⟩ := inductionHypothesis (reducer.receive answered.1 user)
        { state with
          list := answered.2
          current := some { invocation with calls := invocation.calls ++ [(key, answered.1)] } }
        _ rfl later serving
      refine ⟨length.trans (getNextValue_length got), .call key :: schedule, ?_⟩
      have step : reduceStep state (.call key) = some { state with
          list := answered.2
          current := some { invocation with calls := invocation.calls ++ [(key, answered.1)] } } := by
        simp [reduceStep, active, got]
      simp [exec, step, ran]

/-- Every scan with a reducer, as long as its fuel lasts, is a run of the thread. -/
theorem reduceScan_simulated (partition fuel count : Nat) (user : σ) (state : ReduceState V)
    (idle : state.current = none) (atEnd : state.position + count = state.list.length)
    (reduced : Reduced σ V)
    (scanned : reduceScan reducer partition fuel (List.range' state.position count) user
      state.list = some reduced) :
    ∃ schedule final, exec reduceStep state schedule = some final ∧
      final.invocations = state.done ++ reduced.invocations ∧ final.list = reduced.list ∧
      (reduced.returned = true → final.Finished) := by
  induction count generalizing user state reduced with
  | zero =>
    obtain rfl := Option.some.inj scanned
    exact ⟨[], state, rfl, by simp [ReduceState.invocations, idle], rfl, fun _ => ⟨idle, atEnd⟩⟩
  | succ count inductionHypothesis =>
    have inside : state.position < state.list.length := by omega
    simp only [List.range'_succ, reduceScan, Option.bind_eq_bind, Option.bind_eq_some_iff] at scanned
    obtain ⟨starts, started, continued⟩ := scanned
    cases starts with
    | false =>
      have step : reduceStep state .scan =
          some { state with position := state.position + 1 } := by
        simp [reduceStep, idle, inside, started]
      obtain ⟨schedule, final, ran, invocations, list, finished⟩ := inductionHypothesis user
        { state with position := state.position + 1 } idle (by simp only; omega) reduced continued
      exact ⟨.scan :: schedule, final, by simp [exec, step, ran], invocations, list, finished⟩
    | true =>
      simp only [↓reduceIte, Option.bind_eq_some_iff] at continued
      obtain ⟨pair, read, served, serving, rest⟩ := continued
      have step : reduceStep state .scan =
          some { state with current := some ⟨pair.key, []⟩ } := by
        simp [reduceStep, idle, inside, started, read]
      obtain ⟨length, calls, called⟩ := runReducer_simulated reducer fuel _
        { state with current := some ⟨pair.key, []⟩ } ⟨pair.key, []⟩ rfl served serving
      cases returned : served.returned with
      | false =>
        simp only [returned, Bool.false_eq_true, ↓reduceIte] at rest
        obtain rfl := Option.some.inj rest
        refine ⟨.scan :: calls, _, by simp only [exec, step, Option.bind_some]; exact called,
          by simp [ReduceState.invocations], rfl, by simp⟩
      | true =>
        simp only [returned, ↓reduceIte, Option.bind_eq_some_iff] at rest
        obtain ⟨later, scannedLater, result⟩ := rest
        obtain rfl := Option.some.inj result
        obtain ⟨schedule, final, ran, invocations, list, finished⟩ := inductionHypothesis served.user
          ⟨served.list, state.position + 1, state.done ++ [⟨pair.key, served.calls⟩], none⟩ rfl
          (by simp only at length ⊢; omega) later scannedLater
        refine ⟨.scan :: (calls ++ .ret :: schedule), final, ?_, ?_, list, finished⟩
        · simp only [exec, step, Option.bind_some, exec_append, called]
          simp only [reduceStep, Option.map_some, Option.bind_some, List.nil_append]
          exact ran
        · simp [invocations]

/-- `__reduce_thread_runner` with any reducer is a run of the thread, so that all of the
above holds of it. -/
theorem reduceThreadRunner_simulated
    (qsort : (KvPair V → KvPair V → Int) → List (KvPair V) → List (KvPair V))
    (partition fuel : Nat) (user : σ) (list : ArrayList (KvPair V)) (reduced : Reduced σ V)
    (ran : reduceThreadRunner qsort reducer partition fuel user list = some reduced) :
    ∃ start schedule final, reduceStart qsort list = some start ∧
      exec reduceStep start schedule = some final ∧
      final.invocations = reduced.invocations ∧ final.list = reduced.list ∧
      (reduced.returned = true → final.Finished) := by
  simp only [reduceThreadRunner, Option.bind_eq_bind, Option.bind_eq_some_iff] at ran
  obtain ⟨sorted, sorting, scanned⟩ := ran
  rw [List.range_eq_range'] at scanned
  obtain ⟨schedule, final, simulated, invocations, sameList, finished⟩ :=
    reduceScan_simulated reducer partition fuel sorted.length user ⟨sorted, 0, [], none⟩ rfl
      (Nat.zero_add _) reduced scanned
  exact ⟨_, schedule, final, by simp [reduceStart, sorting], simulated, invocations, sameList,
    finished⟩

end Simulation

end OsLabwork.MapReduce
