import OsLabwork.Library.Exclusion
import OsLabwork.Library.Interleaving
import OsLabwork.Library.Schedules
import OsLabwork.MapReduce.MultiMap

/-!
# Concurrent emission

Mapper threads call `MR_Emit` in any interleaving. One call is a sequence of
separate steps on shared memory: take the semaphore, hash the key, test the
volume, and where the list is full allocate, copy and swap in a larger block, then
store at the first free cell, count it, and post the semaphore. A thread that
addresses a list outside the table is stuck, as is one that waits.

The semaphore starts at one, so the steps between wait and post run alone. Every
run is therefore equal to some sequence of whole `put_item` calls, ordered as the
threads counted their items, and no emission is lost, repeated or misplaced.
-/

namespace OsLabwork.MapReduce

open Exclusion Interleaving Schedules

universe u
variable {V : Type u} {threads : Nat}

/-- Where a mapper thread stands between two steps. Except at `waiting` it holds the
semaphore; the arguments are the values its local variables have by then. -/
inductive EmitPc (V : Type u) where
  | waiting
  | hashing (pair : KvPair V)
  | testing (hash : Nat) (pair : KvPair V)
  | allocating (hash : Nat) (pair : KvPair V)
  | copying (hash : Nat) (pair : KvPair V) (target : Nat) (fresh : List (Option (KvPair V)))
  | swapping (hash : Nat) (pair : KvPair V) (target : Nat) (fresh : List (Option (KvPair V)))
  | storing (hash : Nat) (pair : KvPair V)
  | counting (hash : Nat) (pair : KvPair V)
  | posting

/-- A mapper thread: its place in `MR_Emit` and the emissions still to come. -/
structure MapperThread (V : Type u) where
  pc : EmitPc V
  todo : List (KvPair V)

/-- The semaphore, the multimap and the threads. -/
structure EmitState (threads : Nat) (V : Type u) where
  sem : Nat
  map : MultiMap V
  mappers : Fin threads → MapperThread V

/-- The state `MR_Run` sets up before the mapper threads start. -/
def emitStart (partition : CString → Nat → Nat) (numReducers : Nat)
    (emissions : Fin threads → List (KvPair V)) : EmitState threads V where
  sem := 1
  map := MultiMap.initMap partition numReducers
  mappers thread := ⟨.waiting, emissions thread⟩

/-- One step of one thread on the semaphore and the multimap. -/
def mapperStep (sem : Nat) (map : MultiMap V) (mapper : MapperThread V) :
    Option (Nat × MultiMap V × MapperThread V) :=
  match mapper.pc with
  | .waiting =>
      match mapper.todo with
      | [] => none
      | pair :: rest => if 0 < sem then some (sem - 1, map, ⟨.hashing pair, rest⟩) else none
  | .hashing pair => some (sem, map, ⟨.testing (map.hash pair.key) pair, mapper.todo⟩)
  | .testing hash pair => map.lists[hash]?.map fun list =>
      if list.length + 1 ≤ list.volume then (sem, map, ⟨.storing hash pair, mapper.todo⟩)
      else (sem, map, ⟨.allocating hash pair, mapper.todo⟩)
  | .allocating hash pair => map.lists[hash]?.bind fun list =>
      (ArrayList.doubleTo (list.length + 1) (list.length + 1) list.volume).map fun target =>
        (sem, map, ⟨.copying hash pair target (ArrayList.mallocArray target), mapper.todo⟩)
  | .copying hash pair target fresh => map.lists[hash]?.map fun list =>
      (sem, map, ⟨.swapping hash pair target (ArrayList.copyArray fresh list.array list.volume),
        mapper.todo⟩)
  | .swapping hash pair target fresh =>
      (map.updateList hash (fun list => some (list.swapArray fresh target))).map fun next =>
        (sem, next, ⟨.storing hash pair, mapper.todo⟩)
  | .storing hash pair => (map.updateList hash (·.storeItem pair)).map fun next =>
      (sem, next, ⟨.counting hash pair, mapper.todo⟩)
  | .counting hash _ => (map.updateList hash (fun list => some list.countItem)).map fun next =>
      (sem, next, ⟨.posting, mapper.todo⟩)
  | .posting => some (sem + 1, map, ⟨.waiting, mapper.todo⟩)

/-- One step of the system: the scheduled thread moves. -/
def emitStep (state : EmitState threads V) (thread : Fin threads) : Option (EmitState threads V) :=
  (mapperStep state.sem state.map (state.mappers thread)).map fun next =>
    ⟨next.1, next.2.1, Function.update state.mappers thread next.2.2⟩

/-- A thread that has made all its calls. -/
def MapperThread.Finished (mapper : MapperThread V) : Prop :=
  mapper.pc = .waiting ∧ mapper.todo = []

/-- Inside the critical section, from `sem_wait` up to `sem_post`. -/
def EmitPc.Inside : EmitPc V → Prop
  | .waiting => False
  | _ => True

/-- The emissions of a thread that have not been counted yet, the current one
included. -/
def MapperThread.pending (mapper : MapperThread V) : List (KvPair V) :=
  match mapper.pc with
  | .hashing pair | .testing _ pair | .allocating _ pair | .copying _ pair _ _
  | .swapping _ pair _ _ | .storing _ pair | .counting _ pair => pair :: mapper.todo
  | .waiting | .posting => mapper.todo

/-- How far the thread inside has brought the multimap from what it was when the
semaphore was taken. -/
def EmitPc.Progress (base map : MultiMap V) : EmitPc V → Prop
  | .waiting => True
  | .hashing _ | .posting => map = base
  | .testing hash pair => map = base ∧ hash = base.hash pair.key
  | .allocating hash pair => map = base ∧ hash = base.hash pair.key ∧
      ∃ list, base.lists[hash]? = some list ∧ ¬ list.length + 1 ≤ list.volume
  | .copying hash pair target fresh => map = base ∧ hash = base.hash pair.key ∧
      ∃ list, base.lists[hash]? = some list ∧ ¬ list.length + 1 ≤ list.volume ∧
        ArrayList.doubleTo (list.length + 1) (list.length + 1) list.volume = some target ∧
        fresh = ArrayList.mallocArray target
  | .swapping hash pair target fresh => map = base ∧ hash = base.hash pair.key ∧
      ∃ list, base.lists[hash]? = some list ∧ ¬ list.length + 1 ≤ list.volume ∧
        ArrayList.doubleTo (list.length + 1) (list.length + 1) list.volume = some target ∧
        fresh = ArrayList.copyArray (ArrayList.mallocArray target) list.array list.volume
  | .storing hash pair => hash = base.hash pair.key ∧
      base.updateList hash (fun list => list.ensureVolume (list.length + 1)) = some map
  | .counting hash pair => hash = base.hash pair.key ∧
      base.updateList hash (fun list =>
        (list.ensureVolume (list.length + 1)).bind (·.storeItem pair)) = some map

/-- The state is explained by a log of counted emissions: the whole `put_item` calls
of the log lead to the multimap the semaphore protects, each thread's part of the
log and its pending emissions are its own sequence, and at most one thread is
inside, somewhere on the way through its next call. -/
structure Explained (partition : CString → Nat → Nat) (numReducers : Nat)
    (emissions : Fin threads → List (KvPair V)) (log : List (Fin threads × KvPair V))
    (base : MultiMap V) (state : EmitState threads V) : Prop where
  serial : (MultiMap.initMap partition numReducers).putAll (log.map Prod.snd) = some base
  ordered : ∀ thread, select thread log ++ (state.mappers thread).pending = emissions thread
  binary : state.sem ≤ 1
  exclusive : Exclusive (fun thread => (state.mappers thread).pc.Inside) (state.sem = 1)
  progress : ∀ thread, (state.mappers thread).pc.Progress base state.map
  settled : state.sem = 1 → state.map = base

/-- Carry the explanation over one thread's step. The log may grow by the actor's
own entry; a thread other than the actor is disturbed only when it is not inside. -/
theorem Explained.step {partition : CString → Nat → Nat} {numReducers : Nat}
    {emissions : Fin threads → List (KvPair V)} {log newLog : List (Fin threads × KvPair V)}
    {base newBase : MultiMap V} {state : EmitState threads V}
    (explained : Explained partition numReducers emissions log base state)
    (actor : Fin threads) (sem : Nat) (map : MultiMap V) (mapper : MapperThread V)
    (serial : (MultiMap.initMap partition numReducers).putAll (newLog.map Prod.snd) = some newBase)
    (own : select actor newLog ++ mapper.pending =
      select actor log ++ (state.mappers actor).pending)
    (others : ∀ thread, thread ≠ actor → select thread newLog = select thread log)
    (binary : sem ≤ 1)
    (moved : Move (state.mappers actor).pc.Inside mapper.pc.Inside (state.sem = 1) (sem = 1))
    (alone : (state.mappers actor).pc.Inside ∨ (map = state.map ∧ newBase = base))
    (progress : mapper.pc.Progress newBase map) (settled : sem = 1 → map = newBase) :
    Explained partition numReducers emissions newLog newBase
      ⟨sem, map, Function.update state.mappers actor mapper⟩ where
  serial := serial
  ordered thread := by
    by_cases isActor : thread = actor
    · subst isActor
      simpa [own] using explained.ordered thread
    · simpa [isActor, others thread isActor] using explained.ordered thread
  binary := binary
  exclusive := by
    refine explained.exclusive.move actor ?_ (by simpa using moved)
    intro thread different
    simp [different]
  progress thread := by
    by_cases isActor : thread = actor
    · subst isActor
      simpa using progress
    · simp only [Function.update_of_ne isActor]
      rcases alone with inside | ⟨rfl, rfl⟩
      · -- Another thread cannot be inside as well, so it is waiting.
        cases place : (state.mappers thread).pc with
        | waiting => trivial
        | _ =>
          have both := explained.exclusive.unique thread actor (by simp [place, EmitPc.Inside]) inside
          exact absurd both isActor
      · exact explained.progress thread
  settled := settled

/-- A step from one place inside to another leaves the log and the semaphore alone. -/
theorem Explained.interior {partition : CString → Nat → Nat} {numReducers : Nat}
    {emissions : Fin threads → List (KvPair V)} {log : List (Fin threads × KvPair V)}
    {base : MultiMap V} {state : EmitState threads V}
    (explained : Explained partition numReducers emissions log base state)
    (actor : Fin threads) (map : MultiMap V) (mapper : MapperThread V)
    (inside : (state.mappers actor).pc.Inside) (stays : mapper.pc.Inside)
    (pending : mapper.pending = (state.mappers actor).pending)
    (progress : mapper.pc.Progress base map) :
    Explained partition numReducers emissions log base
      ⟨state.sem, map, Function.update state.mappers actor mapper⟩ := by
  have held : state.sem ≠ 1 := fun free => explained.exclusive.free_iff.mp free actor inside
  exact explained.step actor state.sem map mapper explained.serial (by rw [pending])
    (fun _ _ => rfl) explained.binary (.stays (iff_of_true stays inside) Iff.rfl) (.inl inside)
    progress (fun free => absurd free held)

/-- Inside and not yet at the counting of the item. -/
def EmitPc.Working : EmitPc V → Prop
  | .hashing _ | .testing _ _ | .allocating _ _ | .copying _ _ _ _ | .swapping _ _ _ _
  | .storing _ _ => True
  | .waiting | .counting _ _ | .posting => False

/-- Up to the counting, a step brings the multimap further from what it was and leaves
the semaphore and the emission alone. -/
theorem mapperStep_working {base map map' : MultiMap V} {sem sem' : Nat}
    {mapper mapper' : MapperThread V} (working : mapper.pc.Working)
    (progress : mapper.pc.Progress base map)
    (stepped : mapperStep sem map mapper = some (sem', map', mapper')) :
    sem' = sem ∧ mapper'.pc.Inside ∧ mapper'.pending = mapper.pending ∧
      mapper'.pc.Progress base map' := by
  cases place : mapper.pc with
  | waiting | counting | posting => simp [place, EmitPc.Working] at working
  | hashing pair =>
    simp only [mapperStep, place, Option.some.injEq, Prod.mk.injEq] at stepped
    obtain ⟨rfl, rfl, rfl⟩ := stepped
    simp only [place, EmitPc.Progress] at progress
    exact ⟨rfl, trivial, by simp [MapperThread.pending, place], progress, by rw [progress]⟩
  | testing hash pair =>
    simp only [mapperStep, place, Option.map_eq_some_iff] at stepped
    obtain ⟨list, found, result⟩ := stepped
    simp only [place, EmitPc.Progress] at progress
    obtain ⟨same, hashed⟩ := progress
    rw [same] at found
    by_cases room : list.length + 1 ≤ list.volume
    · simp only [room, ↓reduceIte, Prod.mk.injEq] at result
      obtain ⟨rfl, rfl, rfl⟩ := result
      refine ⟨rfl, trivial, by simp [MapperThread.pending, place], hashed, ?_⟩
      -- With room, growing is no change at all.
      refine (MultiMap.updateList_eq_some_iff base _ hash _).mpr ⟨list, list, found, ?_, ?_⟩
      · simp [ArrayList.ensureVolume, room]
      · obtain ⟨inTable, rfl⟩ := List.getElem?_eq_some_iff.mp found
        rw [same, List.set_getElem_self]
    · simp only [room, ↓reduceIte, Prod.mk.injEq] at result
      obtain ⟨rfl, rfl, rfl⟩ := result
      exact ⟨rfl, trivial, by simp [MapperThread.pending, place], same, hashed, list, found, room⟩
  | allocating hash pair =>
    simp only [mapperStep, place, Option.bind_eq_some_iff, Option.map_eq_some_iff,
      Prod.mk.injEq] at stepped
    obtain ⟨list, found, target, doubled, rfl, rfl, rfl⟩ := stepped
    simp only [place, EmitPc.Progress] at progress
    obtain ⟨same, hashed, full, foundToo, noRoom⟩ := progress
    obtain rfl : list = full := Option.some.inj ((same ▸ found).symm.trans foundToo)
    exact ⟨rfl, trivial, by simp [MapperThread.pending, place],
      same, hashed, list, foundToo, noRoom, doubled, rfl⟩
  | copying hash pair target fresh =>
    simp only [mapperStep, place, Option.map_eq_some_iff, Prod.mk.injEq] at stepped
    obtain ⟨list, found, rfl, rfl, rfl⟩ := stepped
    simp only [place, EmitPc.Progress] at progress
    obtain ⟨same, hashed, full, foundToo, noRoom, doubled, blank⟩ := progress
    obtain rfl : list = full := Option.some.inj ((same ▸ found).symm.trans foundToo)
    exact ⟨rfl, trivial, by simp [MapperThread.pending, place],
      same, hashed, list, foundToo, noRoom, doubled, by rw [blank]⟩
  | swapping hash pair target fresh =>
    simp only [mapperStep, place, Option.map_eq_some_iff, Prod.mk.injEq] at stepped
    obtain ⟨swapped, swapping, rfl, rfl, rfl⟩ := stepped
    simp only [place, EmitPc.Progress] at progress
    obtain ⟨same, hashed, list, found, noRoom, doubled, copied⟩ := progress
    obtain ⟨other, grown, foundToo, grows, rfl⟩ :=
      (MultiMap.updateList_eq_some_iff _ _ _ _).mp swapping
    rw [same] at foundToo
    obtain rfl : list = other := Option.some.inj (found.symm.trans foundToo)
    refine ⟨rfl, trivial, by simp [MapperThread.pending, place], hashed, ?_⟩
    refine (MultiMap.updateList_eq_some_iff base _ hash _).mpr ⟨list, grown, found, ?_, ?_⟩
    · simpa [ArrayList.ensureVolume, noRoom, doubled, copied] using grows
    · rw [same]
  | storing hash pair =>
    simp only [mapperStep, place, Option.map_eq_some_iff, Prod.mk.injEq] at stepped
    obtain ⟨stored, storing, rfl, rfl, rfl⟩ := stepped
    simp only [place, EmitPc.Progress] at progress
    obtain ⟨hashed, grown⟩ := progress
    refine ⟨rfl, trivial, by simp [MapperThread.pending, place], hashed, ?_⟩
    rw [← MultiMap.updateList_updateList grown, storing]

/-- Every possible step keeps the state explained. Only counting an item extends the
log: by then the thread inside has done, in pieces, one whole `put_item`. -/
theorem Explained.emitStep {partition : CString → Nat → Nat} {numReducers : Nat}
    {emissions : Fin threads → List (KvPair V)} {log : List (Fin threads × KvPair V)}
    {base : MultiMap V} {state next : EmitState threads V}
    (explained : Explained partition numReducers emissions log base state)
    (actor : Fin threads) (taken : emitStep state actor = some next) :
    ∃ newLog newBase, Explained partition numReducers emissions newLog newBase next := by
  obtain ⟨⟨sem, map, mapper⟩, stepped, rfl⟩ := Option.map_eq_some_iff.mp taken
  have progress := explained.progress actor
  have binary := explained.binary
  cases place : (state.mappers actor).pc with
  | waiting =>
    cases todo : (state.mappers actor).todo with
    | nil => simp [mapperStep, place, todo] at stepped
    | cons pair rest =>
      by_cases free : 0 < state.sem
      · simp only [mapperStep, place, todo, free, ↓reduceIte, Option.some.injEq,
          Prod.mk.injEq] at stepped
        obtain ⟨rfl, rfl, rfl⟩ := stepped
        have one : state.sem = 1 := by omega
        refine ⟨log, base, explained.step actor _ _ _ explained.serial ?_ (fun _ _ => rfl) (by omega)
          (.enters one trivial (by omega)) (.inr ⟨rfl, rfl⟩) (explained.settled one) (by omega)⟩
        simp [MapperThread.pending, place, todo]
      · simp [mapperStep, place, todo, free] at stepped
  | hashing | testing | allocating | copying | swapping | storing =>
    have working : (state.mappers actor).pc.Working := by simp [place, EmitPc.Working]
    obtain ⟨rfl, inside, pending, further⟩ := mapperStep_working working progress stepped
    exact ⟨log, base, explained.interior actor map mapper (by simp [place, EmitPc.Inside]) inside
      pending further⟩
  | counting hash pair =>
    simp only [mapperStep, place, Option.map_eq_some_iff, Prod.mk.injEq] at stepped
    obtain ⟨counted, counting, rfl, rfl, rfl⟩ := stepped
    simp only [place, EmitPc.Progress] at progress
    obtain ⟨hashed, stored⟩ := progress
    have inside : (state.mappers actor).pc.Inside := by simp [place, EmitPc.Inside]
    have held : state.sem ≠ 1 := fun free => explained.exclusive.free_iff.mp free actor inside
    have whole : base.putItem pair = some counted := by
      rw [MultiMap.putItem_pieces, ← hashed, ← MultiMap.updateList_updateList stored, counting]
    refine ⟨log ++ [(actor, pair)], counted, explained.step actor _ _ _ ?_ ?_ ?_ binary
      (.stays (iff_of_true trivial inside) Iff.rfl) (.inl inside) rfl (fun free => absurd free held)⟩
    · have serial := explained.serial
      rw [MultiMap.putAll] at serial ⊢
      simp [List.foldlM_append, serial, whole]
    · simp [MapperThread.pending, place]
    · intro thread different
      simp [Ne.symm different]
  | posting =>
    simp only [mapperStep, place, Option.some.injEq, Prod.mk.injEq] at stepped
    obtain ⟨rfl, rfl, rfl⟩ := stepped
    simp only [place, EmitPc.Progress] at progress
    have inside : (state.mappers actor).pc.Inside := by simp [place, EmitPc.Inside]
    have held : state.sem ≠ 1 := fun free => explained.exclusive.free_iff.mp free actor inside
    refine ⟨log, base, explained.step actor _ _ _ explained.serial ?_ (fun _ _ => rfl) (by omega)
      (.leaves inside (by simp [EmitPc.Inside]) (by omega)) (.inl inside) trivial
      (fun _ => progress)⟩
    simp [MapperThread.pending, place]

/-- Nothing has been emitted. -/
theorem explained_initially (partition : CString → Nat → Nat) (numReducers : Nat)
    (emissions : Fin threads → List (KvPair V)) :
    Explained partition numReducers emissions [] (MultiMap.initMap partition numReducers)
      (emitStart partition numReducers emissions) where
  serial := rfl
  ordered _ := rfl
  binary := Nat.le_refl 1
  exclusive := exclusive_initially (fun _ inside => inside) rfl
  progress _ := trivial
  settled _ := rfl

/-- Every run is explained by some log. -/
theorem emit_explained (partition : CString → Nat → Nat) (numReducers : Nat)
    (emissions : Fin threads → List (KvPair V)) (schedule : List (Fin threads))
    (final : EmitState threads V)
    (ran : exec emitStep (emitStart partition numReducers emissions) schedule = some final) :
    ∃ log base, Explained partition numReducers emissions log base final := by
  refine exec_invariant emitStep _ (fun _ state => ∃ log base,
    Explained partition numReducers emissions log base state) ?_ ?_ schedule final ran
  · exact ⟨_, _, explained_initially partition numReducers emissions⟩
  · rintro _ state actor next ⟨log, base, explained⟩ taken
    exact explained.emitStep actor taken

/-- When every thread has finished, the multimap is what the whole `put_item` calls
of a log produce that interleaves the threads' complete sequences. -/
theorem emit_serializable (partition : CString → Nat → Nat) (numReducers : Nat)
    (emissions : Fin threads → List (KvPair V)) (schedule : List (Fin threads))
    (final : EmitState threads V)
    (ran : exec emitStep (emitStart partition numReducers emissions) schedule = some final)
    (finished : ∀ thread, (final.mappers thread).Finished) :
    ∃ log : List (Fin threads × KvPair V),
      (∀ thread, select thread log = emissions thread) ∧
        MultiMap.Represents final.map partition numReducers (log.map Prod.snd) := by
  obtain ⟨log, base, explained⟩ := emit_explained partition numReducers emissions schedule final ran
  have released : final.sem = 1 := by
    refine explained.exclusive.free_iff.mpr ?_
    intro thread inside
    simp [(finished thread).1, EmitPc.Inside] at inside
  refine ⟨log, ?_, ?_⟩
  · intro thread
    have ordered := explained.ordered thread
    simpa [MapperThread.pending, (finished thread).1, (finished thread).2] using ordered
  · rw [explained.settled released]
    simpa using (MultiMap.initMap_represents partition numReducers).putAll _ explained.serial

/-- Once all threads have finished, the list of each partition holds exactly the
pairs emitted with a key of that partition: a log of the partition reads back the
matching emissions of every thread in its own order, and so the list contains each
pair as often as the threads emitted it. -/
theorem emissions_are_kept (partition : CString → Nat → Nat) (numReducers : Nat)
    (emissions : Fin threads → List (KvPair V)) (schedule : List (Fin threads))
    (final : EmitState threads V)
    (ran : exec emitStep (emitStart partition numReducers emissions) schedule = some final)
    (finished : ∀ thread, (final.mappers thread).Finished)
    (index : Nat) (inTable : index < numReducers) :
    ∃ (list : ArrayList (KvPair V)) (log : List (Fin threads × KvPair V)),
      final.map.lists[index]? = some list ∧ list.Represents (log.map Prod.snd) ∧
      (∀ thread, select thread log =
        (emissions thread).filter (fun pair => partition pair.key numReducers = index)) ∧
      (log.map Prod.snd).Perm ((List.finRange threads).flatMap fun thread =>
        (emissions thread).filter (fun pair => partition pair.key numReducers = index)) := by
  obtain ⟨log, complete, represents⟩ :=
    emit_serializable partition numReducers emissions schedule final ran finished
  have present : index < final.map.lists.length := represents.full ▸ inTable
  let own := log.filter (fun entry => decide (partition entry.2.key numReducers = index))
  have selected : ∀ thread, select thread own =
      (emissions thread).filter (fun pair => partition pair.key numReducers = index) := by
    intro thread
    rw [← complete thread]
    exact select_filter thread (fun pair => decide (partition pair.key numReducers = index)) log
  refine ⟨_, own, List.getElem?_eq_getElem present, ?_, selected, ?_⟩
  · have stored := represents.stored index _ (List.getElem?_eq_getElem present)
    rwa [List.filter_map] at stored
  · simpa only [selected] using perm_flatMap_select own

/-- Two threads that emit the same key, one of them twice. -/
def sameKeyTwice : Fin 2 → List (KvPair Nat)
  | 0 => [⟨CString.leading (ascii "a"), 1⟩, ⟨CString.leading (ascii "b"), 2⟩]
  | 1 => [⟨CString.leading (ascii "a"), 3⟩]

/-- The second thread emits between the two emissions of the first. -/
def sandwiched : List (Fin 2) := [0, 0, 0, 0, 0, 0, 1, 1, 1, 1, 1, 1, 0, 0, 0, 0, 0, 0]

/-- Two mappers emit the same key. -/
theorem emissions_are_kept_sandwiched : ∃ final,
    exec emitStep (emitStart mrDefaultHashPartition 2 sameKeyTwice) sandwiched = some final ∧
    ∃ (list : ArrayList (KvPair Nat)) (log : List (Fin 2 × KvPair Nat)),
      final.map.lists[0]? = some list ∧ list.Represents (log.map Prod.snd) ∧
      (∀ thread, select thread log =
        (sameKeyTwice thread).filter (fun pair => mrDefaultHashPartition pair.key 2 = 0)) ∧
      (log.map Prod.snd).Perm ((List.finRange 2).flatMap fun thread =>
        (sameKeyTwice thread).filter (fun pair => mrDefaultHashPartition pair.key 2 = 0)) := by
  refine ⟨_, rfl, emissions_are_kept mrDefaultHashPartition 2 sameKeyTwice sandwiched _ rfl ?_ 0
    (by decide)⟩
  exact Fin.forall_fin_two.mpr ⟨⟨rfl, rfl⟩, ⟨rfl, rfl⟩⟩

end OsLabwork.MapReduce
