import Mathlib.Algebra.BigOperators.Fin
import Mathlib.Algebra.Order.BigOperators.Group.Finset
import OsLabwork.MapReduce.EmitProtocol

/-!
# The mapper threads come to their end

As long as some mapper thread has emissions to make, some thread can take a step: the one
that holds the semaphore, or, when nobody holds it, any that waits for it. Every step
brings its thread nearer to the end of its emissions. So runs are bounded, and every
run can be continued until all threads have finished.
-/

namespace OsLabwork.MapReduce

open Exclusion Interleaving Schedules

universe u
variable {V : Type u} {threads : Nat}

/-- How many steps the current call of `MR_Emit` can still take. -/
def EmitPc.remaining : EmitPc V → Nat
  | .waiting => 0
  | .hashing _ => 8
  | .testing _ _ => 7
  | .allocating _ _ => 6
  | .copying _ _ _ _ => 5
  | .swapping _ _ _ _ => 4
  | .storing _ _ => 3
  | .counting _ _ => 2
  | .posting => 1

/-- How many steps a thread can still take. -/
def MapperThread.remaining (mapper : MapperThread V) : Nat :=
  mapper.pc.remaining + 9 * mapper.todo.length

/-- How many steps all threads together can still take. -/
def EmitState.remaining (state : EmitState threads V) : Nat :=
  ∑ thread, (state.mappers thread).remaining

/-- Every step of a mapper leaves less to do. -/
theorem mapperStep_decreases {sem sem' : Nat} {map map' : MultiMap V}
    {mapper mapper' : MapperThread V}
    (stepped : mapperStep sem map mapper = some (sem', map', mapper')) :
    mapper'.remaining < mapper.remaining := by
  cases place : mapper.pc with
  | waiting =>
    cases todo : mapper.todo with
    | nil => simp [mapperStep, place, todo] at stepped
    | cons pair rest =>
      simp only [mapperStep, place, todo, Option.ite_none_right_eq_some, Option.some.injEq,
        Prod.mk.injEq] at stepped
      obtain ⟨_, _, _, rfl⟩ := stepped
      simp only [MapperThread.remaining, EmitPc.remaining, place, todo, List.length_cons]
      omega
  | hashing pair =>
    simp only [mapperStep, place, Option.some.injEq, Prod.mk.injEq] at stepped
    obtain ⟨_, _, rfl⟩ := stepped
    simp [MapperThread.remaining, EmitPc.remaining, place]
  | testing hash pair =>
    simp only [mapperStep, place, Option.map_eq_some_iff] at stepped
    obtain ⟨list, _, result⟩ := stepped
    split at result
    · obtain ⟨_, _, rfl⟩ := result
      simp [MapperThread.remaining, EmitPc.remaining, place]
    · obtain ⟨_, _, rfl⟩ := result
      simp [MapperThread.remaining, EmitPc.remaining, place]
  | allocating hash pair =>
    simp only [mapperStep, place, Option.bind_eq_some_iff, Option.map_eq_some_iff,
      Prod.mk.injEq] at stepped
    obtain ⟨_, _, _, _, _, _, rfl⟩ := stepped
    simp [MapperThread.remaining, EmitPc.remaining, place]
  | copying hash pair target fresh | swapping hash pair target fresh | storing hash pair
  | counting hash pair =>
    simp only [mapperStep, place, Option.map_eq_some_iff, Prod.mk.injEq] at stepped
    obtain ⟨_, _, _, _, rfl⟩ := stepped
    simp [MapperThread.remaining, EmitPc.remaining, place]
  | posting =>
    simp only [mapperStep, place, Option.some.injEq, Prod.mk.injEq] at stepped
    obtain ⟨_, _, rfl⟩ := stepped
    simp [MapperThread.remaining, EmitPc.remaining, place]

/-- Every step leaves less to do. -/
theorem emitStep_decreases {state next : EmitState threads V} {actor : Fin threads}
    (taken : emitStep state actor = some next) : next.remaining < state.remaining := by
  obtain ⟨⟨sem, map, mapper⟩, stepped, rfl⟩ := Option.map_eq_some_iff.mp taken
  have smaller := mapperStep_decreases stepped
  apply Finset.sum_lt_sum
  · intro thread _
    by_cases isActor : thread = actor
    · subst isActor
      simpa using Nat.le_of_lt smaller
    · simp [Function.update_of_ne isActor]
  · exact ⟨actor, Finset.mem_univ actor, by simpa using smaller⟩

section Progress

variable {partition : CString → Nat → Nat} {numReducers : Nat}
  {log : List (Fin threads × KvPair V)} {base : MultiMap V}

/-- The list of a key is in the table that the puts of a log have led to, and it is well
formed. -/
theorem hashed_list (valid : ∀ key, partition key numReducers < numReducers)
    (serial : (MultiMap.initMap partition numReducers).putAll (log.map Prod.snd) = some base)
    (key : CString) :
    ∃ list items, base.lists[base.hash key]? = some list ∧ list.Represents items := by
  have represents := (MultiMap.initMap_represents partition numReducers).putAll _ serial
  have index : base.hash key = partition key numReducers := by
    rw [MultiMap.hash, represents.hashed, represents.sized]
  have inside : base.hash key < base.lists.length := by
    rw [index, represents.full]
    exact valid key
  have found := List.getElem?_eq_getElem inside
  exact ⟨_, _, found, represents.stored _ _ found⟩

/-- The thread that holds the semaphore can always take its next step. -/
theorem mapperStep_inside (valid : ∀ key, partition key numReducers < numReducers)
    (serial : (MultiMap.initMap partition numReducers).putAll (log.map Prod.snd) = some base)
    {sem : Nat} {map : MultiMap V} {mapper : MapperThread V} (inside : mapper.pc.Inside)
    (progress : mapper.pc.Progress base map) : (mapperStep sem map mapper).isSome = true := by
  cases place : mapper.pc with
  | waiting => simp [place, EmitPc.Inside] at inside
  | hashing pair => simp [mapperStep, place]
  | testing hash pair =>
    rw [place] at progress
    obtain ⟨rfl, rfl⟩ := progress
    obtain ⟨list, _, found, _⟩ := hashed_list valid serial pair.key
    simp [mapperStep, place, found]
  | allocating hash pair =>
    rw [place] at progress
    obtain ⟨rfl, rfl, _⟩ := progress
    obtain ⟨list, _, found, represents⟩ := hashed_list valid serial pair.key
    obtain ⟨_, doubled, _⟩ := ArrayList.doubleTo_reaches (list.length + 1) (list.length + 1)
      list.volume represents.positive (by omega)
    simp [mapperStep, place, found, doubled]
  | copying hash pair target fresh =>
    rw [place] at progress
    obtain ⟨rfl, rfl, _⟩ := progress
    obtain ⟨list, _, found, _⟩ := hashed_list valid serial pair.key
    simp [mapperStep, place, found]
  | swapping hash pair target fresh =>
    rw [place] at progress
    obtain ⟨rfl, rfl, _⟩ := progress
    obtain ⟨list, _, found, _⟩ := hashed_list valid serial pair.key
    simp [mapperStep, place, MultiMap.updateList, found]
  | storing hash pair =>
    rw [place] at progress
    obtain ⟨rfl, grown⟩ := progress
    obtain ⟨list, _, found, represents⟩ := hashed_list valid serial pair.key
    obtain ⟨roomy, growing, kept, room, length, _⟩ := represents.ensureVolume (list.length + 1)
    obtain ⟨stored, storing, _⟩ := kept.storeItem pair (by omega)
    simp only [mapperStep, place, Option.isSome_map, MultiMap.updateList_updateList grown]
    simp [MultiMap.updateList, found, growing, storing]
  | counting hash pair =>
    rw [place] at progress
    obtain ⟨_, stored⟩ := progress
    obtain ⟨list, changed, found, changing, _⟩ :=
      (MultiMap.updateList_eq_some_iff _ _ _ _).mp stored
    simp only [mapperStep, place, Option.isSome_map, MultiMap.updateList_updateList stored]
    simp [MultiMap.updateList, found, changing]
  | posting => simp [mapperStep, place]

/-- Before the end, some thread can take a step. -/
theorem emitStep_goesOn (valid : ∀ key, partition key numReducers < numReducers)
    {emissions : Fin threads → List (KvPair V)} {state : EmitState threads V}
    (explained : Explained partition numReducers emissions log base state)
    (unfinished : ¬ ∀ thread, (state.mappers thread).Finished) :
    ∃ thread next, emitStep state thread = some next := by
  suffices possible : ∃ thread,
      (mapperStep state.sem state.map (state.mappers thread)).isSome = true by
    obtain ⟨thread, stepped⟩ := possible
    obtain ⟨result, taken⟩ := Option.isSome_iff_exists.mp stepped
    exact ⟨thread, _, by rw [emitStep, taken, Option.map_some]⟩
  by_cases held : ∃ thread, (state.mappers thread).pc.Inside
  · obtain ⟨thread, inside⟩ := held
    exact ⟨thread, mapperStep_inside valid explained.serial inside (explained.progress thread)⟩
  · have free : state.sem = 1 :=
      explained.exclusive.free_iff.mpr fun thread inside => held ⟨thread, inside⟩
    obtain ⟨thread, notFinished⟩ := Classical.not_forall.mp unfinished
    have waits : (state.mappers thread).pc = .waiting := by
      cases place : (state.mappers thread).pc with
      | waiting => rfl
      | _ => exact absurd ⟨thread, by simp [place, EmitPc.Inside]⟩ held
    cases todo : (state.mappers thread).todo with
    | nil => exact absurd ⟨waits, todo⟩ notFinished
    | cons pair rest => exact ⟨thread, by simp [mapperStep, waits, todo, free]⟩

end Progress

/-- Whatever the mapper threads have done so far, they can go on until all have finished,
and they have not taken more than nine steps for each emission. -/
theorem emit_completes (partition : CString → Nat → Nat) (numReducers : Nat)
    (valid : ∀ key, partition key numReducers < numReducers)
    (emissions : Fin threads → List (KvPair V)) (schedule : List (Fin threads))
    (state : EmitState threads V)
    (ran : exec emitStep (emitStart partition numReducers emissions) schedule = some state) :
    schedule.length ≤ ∑ thread, 9 * (emissions thread).length ∧
    ∃ rest final, exec emitStep state rest = some final ∧
      ∀ thread, (final.mappers thread).Finished := by
  have preserved : ∀ (state : EmitState threads V) actor next,
      (∃ log base, Explained partition numReducers emissions log base state) →
      emitStep state actor = some next →
      ∃ log base, Explained partition numReducers emissions log base next := by
    rintro state actor next ⟨log, base, explained⟩ taken
    exact explained.emitStep actor taken
  have decreases : ∀ (state : EmitState threads V) actor next,
      (∃ log base, Explained partition numReducers emissions log base state) →
      emitStep state actor = some next → next.remaining < state.remaining :=
    fun _ _ _ _ taken => emitStep_decreases taken
  constructor
  · have bounded := exec_length_le emitStep _ EmitState.remaining preserved decreases _ _
      ⟨_, _, explained_initially partition numReducers emissions⟩ schedule ran
    have start : (emitStart partition numReducers emissions).remaining =
        ∑ thread, 9 * (emissions thread).length := by
      simp [EmitState.remaining, emitStart, MapperThread.remaining, EmitPc.remaining]
    omega
  · apply exec_completes emitStep _ EmitState.remaining preserved decreases
    · rintro state ⟨log, base, explained⟩ unfinished
      exact emitStep_goesOn valid explained unfinished
    · exact emit_explained partition numReducers emissions schedule state ran

end OsLabwork.MapReduce
