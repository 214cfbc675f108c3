import OsLabwork.Library.Traversals
import OsLabwork.MapReduce.EmitProtocol
import OsLabwork.MapReduce.ReducePhase

/-!
# From emissions to reducer calls

`MR_Run` lets the mapper threads emit into the multimap and then runs one reducer
thread for each partition. The reducer threads work on different lists, so the
result of each is that of its own runner.

A reducer that drains asks for its key until it is answered NULL and then returns.
With such a reducer, the read position stands at the beginning of a group whenever
the scan reaches it, every call is handed exactly its group, and every run of the
mapper threads leads to one reducer call for each emitted key.
-/

namespace OsLabwork.MapReduce

open Interleaving KeyGroups Schedules

variable {V σ : Type} {threads : Nat}

/-- The reducer's state after it has been handed some values. -/
def Reducer.afterValues (reducer : Reducer σ V) (user : σ) (values : List V) : σ :=
  values.foldl (fun state value => reducer.receive (some value) state) user

/-- The reducer asks for its own key until it is answered NULL, then returns. -/
structure Reducer.Drains (reducer : Reducer σ V) : Prop where
  asks : ∀ user key partition values,
    reducer.request (reducer.afterValues (reducer.enter key partition user) values) = some key
  stops : ∀ user key partition values, reducer.request
    (reducer.receive none (reducer.afterValues (reducer.enter key partition user) values)) = none

/-- The values a reducer call obtained. -/
def Invocation.values (invocation : Invocation V) : List V := invocation.calls.filterMap Prod.snd

/-- The reducer's state after a call in which it was handed some values and then NULL. -/
def Reducer.afterCall (reducer : Reducer σ V) (partition : Nat) (user : σ)
    (invocation : Invocation V) : σ :=
  reducer.receive none
    (reducer.afterValues (reducer.enter invocation.key partition user) invocation.values)

/-- `__exec_reduce`: the runner of every partition on its list, each with its own
reducer state. -/
def execReduce (qsort : (KvPair V → KvPair V → Int) → List (KvPair V) → List (KvPair V))
    (reducer : Reducer σ V) (fuel : Nat) (users : Nat → σ) (map : MultiMap V) :
    Option (List (Reduced σ V)) :=
  (List.range map.tableSize).mapM fun index =>
    map.lists[index]?.bind (reduceThreadRunner qsort reducer index fuel (users index))

/-- The values the threads emitted with a key. -/
def emittedValues (emissions : Fin threads → List (KvPair V)) (key : CString) : List V :=
  (List.finRange threads).flatMap fun thread => valuesOf (emissions thread) key

/-- Some thread emitted the key. -/
def Emitted (emissions : Fin threads → List (KvPair V)) (key : CString) : Prop :=
  ∃ thread, ∃ pair ∈ emissions thread, pair.key = key

/-- A draining call on a whole group: all its values in order, then NULL. -/
def drained (group : Group (KvPair.key : KvPair V → CString)) : Invocation V :=
  ⟨group.shared, group.items.map (fun pair => (group.shared, some pair.value)) ++
    [(group.shared, none)]⟩

/-- The key of an invocation that asks for all values. -/
@[simp] theorem drained_key (group : Group (KvPair.key : KvPair V → CString)) :
    (drained group).key = group.shared := rfl

/-- The values it gets. -/
@[simp] theorem drained_values (group : Group (KvPair.key : KvPair V → CString)) :
    (drained group).values = group.items.map KvPair.value := by
  simp [drained, Invocation.values, List.filterMap_append, List.filterMap_map]

/-- Behind the last pair of a key, the getter answers NULL. -/
theorem answer_behind (scanned later : List (KvPair V)) (key : CString)
    (foreign : ∀ pair, later.head? = some pair → pair.key ≠ key) :
    answer (scanned ++ later) scanned.length key = (none, scanned.length) := by
  rw [answer, List.getElem?_append_right (Nat.le_refl _), Nat.sub_self]
  cases later with
  | nil => rfl
  | cons pair rest => simp [foreign pair rfl]

/-- A draining reducer whose read position stands in its group is handed the rest of
the group and then NULL, and leaves the position behind the group.

Proof: induct on what is left of the group. Each answered value moves the position
by one; behind the group the next pair is foreign, or there is none. -/
theorem runReducer_drains {reducer : Reducer σ V} (drains : reducer.Drains) (user : σ)
    (key : CString) (partition : Nat) (given : List V) (scanned own later : List (KvPair V))
    {list : ArrayList (KvPair V)} (represents : list.Represents (scanned ++ (own ++ later)))
    (position : list.iterPos = scanned.length) (isOwn : ∀ pair ∈ own, pair.key = key)
    (foreign : ∀ pair, later.head? = some pair → pair.key ≠ key) (fuel : Nat)
    (enough : own.length < fuel) :
    runReducer reducer fuel (reducer.afterValues (reducer.enter key partition user) given) list =
      some ⟨own.map (fun pair => (key, some pair.value)) ++ [(key, none)],
        reducer.receive none (reducer.afterValues (reducer.enter key partition user)
          (given ++ own.map KvPair.value)),
        list.moveTo (scanned.length + own.length), true⟩ := by
  induction own generalizing scanned given list fuel with
  | nil =>
    obtain ⟨remaining, rfl⟩ : ∃ remaining, fuel = remaining + 1 := ⟨fuel - 1, by simp at enough; omega⟩
    have answered := getNextValue_answer represents key
    rw [position, List.nil_append, answer_behind scanned later key foreign] at answered
    have stopped := drains.stops user key partition given
    cases remaining with
    | zero => simp [runReducer, drains.asks, answered, stopped]
    | succ remaining => simp [runReducer, drains.asks, answered, stopped]
  | cons pair own inductionHypothesis =>
    obtain ⟨remaining, rfl⟩ : ∃ remaining, fuel = remaining + 1 := ⟨fuel - 1, by simp at enough; omega⟩
    have own' : pair.key = key := isOwn pair List.mem_cons_self
    have first : answer (scanned ++ (pair :: own ++ later)) scanned.length key =
        (some pair.value, scanned.length + 1) := by
      simp [answer, own']
    have answered := getNextValue_answer represents key
    rw [position, first] at answered
    have extended : reducer.receive (some pair.value)
        (reducer.afterValues (reducer.enter key partition user) given) =
          reducer.afterValues (reducer.enter key partition user) (given ++ [pair.value]) := by
      simp [Reducer.afterValues]
    have moved : (list.moveTo (scanned.length + 1)).Represents
        ((scanned ++ [pair]) ++ (own ++ later)) := by
      simpa using represents.moveTo (scanned.length + 1)
    have running := inductionHypothesis (given ++ [pair.value]) (scanned ++ [pair])
      moved (by simp [ArrayList.moveTo])
      (fun other member => isOwn other (List.mem_cons_of_mem _ member)) remaining
      (by simpa using enough)
    simp only [runReducer, drains.asks, answered, Option.bind_eq_bind, Option.bind_some, extended,
      running]
    simp [ArrayList.moveTo, Nat.add_assoc, Nat.add_comm 1]

/-- Scanning groups with a draining reducer gives one draining call for each group.
The position is at the group being scanned, whatever was scanned before. -/
theorem reduceScan_drains {reducer : Reducer σ V} (drains : reducer.Drains) (partition fuel : Nat)
    (user : σ) {list : ArrayList (KvPair V)} (scanned : List (KvPair V))
    (groups : List (Group (KvPair.key : KvPair V → CString)))
    (represents : list.Represents (scanned ++ expand groups))
    (position : list.iterPos = scanned.length)
    (boundary : ∀ last, scanned.getLast? = some last → ∀ group, groups.head? = some group →
      last.key ≠ group.shared)
    (strict : (groups.map Group.shared).Pairwise (fun left right =>
      strcmp left right ≤ 0 ∧ left ≠ right))
    (enough : (expand groups).length < fuel) :
    ∃ reduced, reduceScan reducer partition fuel
        (List.range' scanned.length (expand groups).length) user list = some reduced ∧
      reduced.returned = true ∧ reduced.invocations = groups.map drained ∧
      reduced.user = (groups.map drained).foldl (reducer.afterCall partition) user := by
  induction groups generalizing scanned user list with
  | nil => exact ⟨⟨[], user, list, true⟩, by simp [reduceScan], rfl, rfl, rfl⟩
  | cons group groups inductionHypothesis =>
    rw [expand_cons] at represents
    rw [expand_cons, List.length_append] at enough
    obtain ⟨above, strictLater⟩ := List.pairwise_cons.mp strict
    have behind : ∀ pair, (expand groups).head? = some pair → pair.key ≠ group.shared := by
      intro pair isHead same
      have listed := mem_expand_key (List.mem_of_mem_head? isHead)
      exact (above pair.key listed).2 same.symm
    have serving := runReducer_drains drains user group.shared partition [] scanned
      group.items (expand groups) represents position (fun pair member => group.shared_of_mem member)
      behind fuel (by omega)
    have scan := reduceScan_group reducer partition fuel user
      (List.range' (scanned.length + group.items.length) (expand groups).length)
      scanned group (expand groups) represents (fun last isLast => boundary last isLast group rfl)
      _ serving (represents.moveTo _)
    have indices : List.range' scanned.length (expand (group :: groups)).length =
        List.range' scanned.length group.items.length ++
          List.range' (scanned.length + group.items.length) (expand groups).length := by
      rw [expand_cons, List.length_append, List.range'_append_1]
    have endsGroup : ∀ last, (scanned ++ group.items).getLast? = some last →
        ∀ next, groups.head? = some next → last.key ≠ next.shared := by
      intro last isLast next isNext
      have inGroup : last ∈ group.items := by
        rw [List.getLast?_append, List.getLast?_eq_some_getLast (by simp [Group.items])] at isLast
        simp only [Option.some_or, Option.some.injEq] at isLast
        exact isLast ▸ List.getLast_mem _
      rw [group.shared_of_mem inGroup]
      exact (above next.shared (List.mem_map_of_mem (List.mem_of_mem_head? isNext))).2
    have moved : (list.moveTo (scanned.length + group.items.length)).Represents
        ((scanned ++ group.items) ++ expand groups) := by
      simpa using represents.moveTo (scanned.length + group.items.length)
    obtain ⟨reduced, scanning, returned, invocations, left⟩ := inductionHypothesis
      (reducer.afterCall partition user (drained group)) (scanned ++ group.items) moved
      (by simp [ArrayList.moveTo]) endsGroup strictLater (by omega)
    rw [List.length_append, Reducer.afterCall, drained_key, drained_values] at scanning
    rw [indices, scan]
    exact ⟨{ reduced with invocations := drained group :: reduced.invocations },
      by simp [scanning, drained], returned, by simp [invocations], left⟩

/-- A draining reducer on the list of a partition returns from every call, is called
once for each stored key in ascending order, and obtains that key's values; what it
leaves behind is what these calls leave. -/
theorem reduceThreadRunner_drains
    {qsort : (KvPair V → KvPair V → Int) → List (KvPair V) → List (KvPair V)}
    (contract : Sorting.Contract qsort) {reducer : Reducer σ V} (drains : reducer.Drains)
    (partition fuel : Nat) (user : σ) {list : ArrayList (KvPair V)} {pairs : List (KvPair V)}
    (represents : list.Represents pairs) (unread : list.iterPos = 0)
    (enough : pairs.length < fuel) :
    ∃ reduced, reduceThreadRunner qsort reducer partition fuel user list = some reduced ∧
      reduced.returned = true ∧
      (reduced.invocations.map Invocation.key).Pairwise (fun left right => strcmp left right < 0) ∧
      (∀ key, key ∈ reduced.invocations.map Invocation.key ↔ ∃ pair ∈ pairs, pair.key = key) ∧
      (∀ invocation ∈ reduced.invocations,
        invocation.values.Perm (valuesOf pairs invocation.key)) ∧
      reduced.user = reduced.invocations.foldl (reducer.afterCall partition) user := by
  have permuted := contract.permutes comparePair pairs
  obtain ⟨sorted, groups, expanded, strict, sortedRepresents, position, scan⟩ :=
    reduceThreadRunner_scan contract reducer partition fuel user represents
  obtain ⟨reduced, scanning, returned, invocations, left⟩ := reduceScan_drains drains partition fuel user
    [] groups sortedRepresents (by rw [position, unread]; rfl) (by simp) strict
    (by rwa [expanded, permuted.length_eq])
  have keys : reduced.invocations.map Invocation.key = groups.map Group.shared := by
    simp [invocations, Function.comp_def]
  have distinct : (groups.map Group.shared).Nodup := strict.imp And.right
  refine ⟨reduced, scan.trans scanning, returned, ?_, ?_, ?_, invocations ▸ left⟩
  · rw [keys]
    refine strict.imp ?_
    rintro left right ⟨low, different⟩
    have nonzero : strcmp left right ≠ 0 := fun equal =>
      different ((strcmp_eq_zero_iff left right).mp equal)
    omega
  · intro key
    rw [keys]
    constructor
    · intro listed
      obtain ⟨group, present, rfl⟩ := List.mem_map.mp listed
      have first : group.first ∈ expand groups :=
        List.mem_flatMap.mpr ⟨group, present, List.mem_cons_self⟩
      exact ⟨group.first, permuted.subset (expanded ▸ first), rfl⟩
    · rintro ⟨pair, member, rfl⟩
      exact mem_expand_key (expanded ▸ permuted.symm.subset member)
  · intro invocation member
    rw [invocations] at member
    obtain ⟨group, present, rfl⟩ := List.mem_map.mp member
    have own := filter_expand groups distinct group present
    rw [drained_values, drained_key, ← own, expanded]
    exact (permuted.filter _).map KvPair.value

/-- A draining reducer on all lists of a multimap: in each partition it is called once
for each stored key of that partition, in ascending order, and obtains all values
stored with the key. -/
theorem execReduce_drains
    {qsort : (KvPair V → KvPair V → Int) → List (KvPair V) → List (KvPair V)}
    (contract : Sorting.Contract qsort) {reducer : Reducer σ V} (drains : reducer.Drains)
    (fuel : Nat) (users : Nat → σ) {map : MultiMap V} {partition : CString → Nat → Nat}
    {numReducers : Nat} {pairs : List (KvPair V)}
    (represents : MultiMap.Represents map partition numReducers pairs)
    (enough : pairs.length < fuel) :
    ∃ results, execReduce qsort reducer fuel users map = some results ∧
      results.length = numReducers ∧
      ∀ (index : Nat) (result : Reduced σ V), results[index]? = some result →
        result.returned = true ∧
        (result.invocations.map Invocation.key).Pairwise
          (fun left right => strcmp left right < 0) ∧
        (∀ key, key ∈ result.invocations.map Invocation.key ↔
          (∃ pair ∈ pairs, pair.key = key) ∧ partition key numReducers = index) ∧
        (∀ invocation ∈ result.invocations,
          invocation.values.Perm (valuesOf pairs invocation.key)) ∧
        result.user = result.invocations.foldl (reducer.afterCall index) (users index) := by
  rw [execReduce, represents.sized]
  apply Traversals.exists_mapM_range
  intro index inside
  have present : index < map.lists.length := represents.full ▸ inside
  have found := List.getElem?_eq_getElem present
  have fewer := List.length_filter_le
    (fun pair => decide (partition pair.key numReducers = index)) pairs
  obtain ⟨reduced, running, returned, ascending, keys, values, left⟩ := reduceThreadRunner_drains contract
    drains index fuel (users index) (represents.stored index _ found)
    (represents.unread _ (List.getElem_mem present)) (Nat.lt_of_le_of_lt fewer enough)
  have inPartition : ∀ key, key ∈ reduced.invocations.map Invocation.key ↔
      (∃ pair ∈ pairs, pair.key = key) ∧ partition key numReducers = index := by
    intro key
    rw [keys]
    simp only [List.mem_filter, decide_eq_true_eq]
    constructor
    · rintro ⟨pair, ⟨member, here⟩, rfl⟩
      exact ⟨⟨pair, member, rfl⟩, here⟩
    · rintro ⟨⟨pair, member, rfl⟩, here⟩
      exact ⟨pair, ⟨member, here⟩, rfl⟩
  refine ⟨reduced, by simp only [found, Option.bind_some, running], returned, ascending,
    inPartition, ?_, left⟩
  intro invocation member
  obtain ⟨_, here⟩ := (inPartition invocation.key).mp (List.mem_map_of_mem member)
  -- All pairs of the key are in this list, so nothing is missing from its values.
  have allHere : valuesOf (pairs.filter (fun pair => partition pair.key numReducers = index))
      invocation.key = valuesOf pairs invocation.key := by
    simp only [valuesOf, List.filter_filter]
    apply congrArg
    apply List.filter_congr
    intro pair _
    by_cases isKey : pair.key = invocation.key
    · simp [isKey, here]
    · simp [isKey]
  exact allHere ▸ values invocation member

/-- The logged values of a key are the emitted ones. -/
theorem valuesOf_log_perm (emissions : Fin threads → List (KvPair V))
    (log : List (Fin threads × KvPair V)) (complete : ∀ thread, select thread log = emissions thread)
    (key : CString) : (valuesOf (log.map Prod.snd) key).Perm (emittedValues emissions key) := by
  have merged := perm_flatMap_select log
  simp only [complete] at merged
  have restricted := (merged.filter (fun pair => decide (pair.key = key))).map KvPair.value
  rw [List.filter_flatMap, List.map_flatMap] at restricted
  exact restricted

/-- A key is emitted exactly if it is in the log. -/
theorem emitted_iff_logged (emissions : Fin threads → List (KvPair V))
    (log : List (Fin threads × KvPair V)) (complete : ∀ thread, select thread log = emissions thread)
    (key : CString) : Emitted emissions key ↔ ∃ pair ∈ log.map Prod.snd, pair.key = key := by
  have merged := perm_flatMap_select log
  simp only [complete] at merged
  constructor
  · rintro ⟨thread, pair, member, isKey⟩
    exact ⟨pair, merged.symm.subset
      (List.mem_flatMap.mpr ⟨thread, List.mem_finRange thread, member⟩), isKey⟩
  · rintro ⟨pair, member, isKey⟩
    obtain ⟨thread, _, own⟩ := List.mem_flatMap.mp (merged.subset member)
    exact ⟨thread, pair, own, isKey⟩

/-- With a reducer that drains, every run of the mapper threads leads to exactly one
reducer call for each emitted key, in the partition of that key and in no other. The
call obtains the values emitted with the key, each as often as it was emitted, and
the calls of a partition come in strictly ascending order of keys.

Proof: the lists hold what a log of whole puts stored in them, and the log merges
the threads' emissions. On each list the law for a single partition applies; the
pairs of a key are all in the list of its partition. -/
theorem every_key_is_reduced_once
    (qsort : (KvPair V → KvPair V → Int) → List (KvPair V) → List (KvPair V))
    (contract : Sorting.Contract qsort) (partition : CString → Nat → Nat) (numReducers : Nat)
    (valid : ∀ key, partition key numReducers < numReducers)
    (emissions : Fin threads → List (KvPair V)) (schedule : List (Fin threads))
    (final : EmitState threads V)
    (ran : exec emitStep (emitStart partition numReducers emissions) schedule = some final)
    (finished : ∀ thread, (final.mappers thread).Finished)
    (reducer : Reducer σ V) (drains : reducer.Drains) (users : Nat → σ) :
    ∃ enough, ∀ fuel, enough < fuel → ∃ results,
      execReduce qsort reducer fuel users final.map = some results ∧
      (∀ key, Emitted emissions key → ∃ result, results[partition key numReducers]? = some result ∧
        (result.invocations.map Invocation.key).count key = 1) ∧
      ∀ (index : Nat) (result : Reduced σ V), results[index]? = some result →
        result.returned = true ∧
        (result.invocations.map Invocation.key).Pairwise
          (fun left right => strcmp left right < 0) ∧
        ∀ invocation ∈ result.invocations, Emitted emissions invocation.key ∧
          partition invocation.key numReducers = index ∧
          invocation.values.Perm (emittedValues emissions invocation.key) := by
  obtain ⟨log, complete, represents⟩ :=
    emit_serializable partition numReducers emissions schedule final ran finished
  refine ⟨log.length, fun fuel enough => ?_⟩
  obtain ⟨results, reducing, length, each⟩ := execReduce_drains contract drains fuel users represents
    (by simpa using enough)
  refine ⟨results, reducing, ?_, ?_⟩
  · intro key emitted
    have inside : partition key numReducers < results.length := length ▸ valid key
    have found := List.getElem?_eq_getElem inside
    obtain ⟨_, ascending, keys, _⟩ := each _ _ found
    have listed := (keys key).mpr
      ⟨(emitted_iff_logged emissions log complete key).mp emitted, rfl⟩
    exact ⟨_, found, List.count_eq_one_of_mem (nodup_of_ascending ascending) listed⟩
  · intro index result found
    obtain ⟨returned, ascending, keys, values, _⟩ := each index result found
    refine ⟨returned, ascending, ?_⟩
    intro invocation member
    obtain ⟨logged, here⟩ := (keys invocation.key).mp (List.mem_map_of_mem member)
    exact ⟨(emitted_iff_logged emissions log complete invocation.key).mpr logged, here,
      (values invocation member).trans
        (valuesOf_log_perm emissions log complete invocation.key)⟩

/-- The plainest reducer that drains: it remembers only the key it asks for. -/
def drainOnly : Reducer (Option CString) V where
  enter key _ _ := some key
  request asking := asking
  receive given asking := given.bind fun _ => asking

/-- This reducer asks for all values. -/
theorem drainOnly_drains : (drainOnly : Reducer (Option CString) V).Drains := by
  have kept : ∀ (asking : Option CString) (values : List V),
      drainOnly.afterValues asking values = asking := by
    intro asking values
    induction values with
    | nil => rfl
    | cons value rest inductionHypothesis => exact inductionHypothesis
  constructor
  · intro user key partition values
    exact kept (some key) values
  · intro user key partition values
    rfl

/-- Two mappers emit the same key. -/
theorem every_key_is_reduced_once_sandwiched : ∃ final,
    exec emitStep (emitStart mrDefaultHashPartition 2 sameKeyTwice) sandwiched = some final ∧
    ∃ enough, ∀ fuel, enough < fuel → ∃ results,
      execReduce Sorting.insertionQsort drainOnly fuel (fun _ => none) final.map = some results ∧
      (∀ key, Emitted sameKeyTwice key → ∃ result,
        results[mrDefaultHashPartition key 2]? = some result ∧
        (result.invocations.map Invocation.key).count key = 1) ∧
      ∀ (index : Nat) (result : Reduced (Option CString) Nat), results[index]? = some result →
        result.returned = true ∧
        (result.invocations.map Invocation.key).Pairwise
          (fun left right => strcmp left right < 0) ∧
        ∀ invocation ∈ result.invocations, Emitted sameKeyTwice invocation.key ∧
          mrDefaultHashPartition invocation.key 2 = index ∧
          invocation.values.Perm (emittedValues sameKeyTwice invocation.key) := by
  refine ⟨_, rfl, every_key_is_reduced_once Sorting.insertionQsort Sorting.insertionQsort_contract
    mrDefaultHashPartition 2 (fun key => mrDefaultHashPartition_lt key 2 (by decide)) sameKeyTwice
    sandwiched _ rfl ?_ drainOnly drainOnly_drains (fun _ => none)⟩
  exact Fin.forall_fin_two.mpr ⟨⟨rfl, rfl⟩, ⟨rfl, rfl⟩⟩

end OsLabwork.MapReduce
