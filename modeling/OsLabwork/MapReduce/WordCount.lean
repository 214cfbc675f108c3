import Mathlib.Algebra.Order.Ring.Nat
import Mathlib.Data.List.Dedup
import OsLabwork.MapReduce.EndToEnd
import OsLabwork.MapReduce.FileAllocation
import OsLabwork.MapReduce.MapperProgress
import OsLabwork.MapReduce.Tokens

/-!
# The word counter

`main` runs `Map` and `Reduce` with ten mappers, ten reducers and the default hash
function. `Reduce` counts the values of its key and prints one line. Each reducer thread
prints its lines in the order of its calls, and a line is written by a single call of
`printf`, so the output is some merge of the lines of the threads.

The keys of different partitions are different, and within a partition every key is
reduced once. Hence the printed lines are those of the distinct tokens, each once.
-/

namespace OsLabwork.MapReduce

open Interleaving Schedules Words

/-- The variables of `Reduce`, whether it still asks, and the lines that its thread has
printed. -/
structure Counter where
  key : CString
  count : BitVec 32
  asking : Bool
  printed : List (List UInt8)

/-- A thread that has not called `Reduce` yet. -/
def Counter.unused : Counter := ⟨CString.leading [], 0, false, []⟩

/-- `printf("%s %d\n", key, count)`. -/
def countLine (key : CString) (count : Int) : List UInt8 :=
  key.bytes ++ ascii " " ++ ascii (toString count) ++ ascii "\n"

/-- `Reduce`. -/
def reduce : Reducer Counter CString where
  enter key _ counter := { counter with key, count := 0, asking := true }
  request counter := if counter.asking then some counter.key else none
  receive
    | some _, counter => { counter with count := counter.count + 1 }
    | none, counter =>
        { counter with
          asking := false
          printed := counter.printed ++ [countLine counter.key counter.count.toInt] }

/-- Every value is counted. -/
theorem reduce_afterValues (counter : Counter) (values : List CString) :
    reduce.afterValues counter values =
      { counter with count := counter.count + BitVec.ofNat 32 values.length } := by
  induction values generalizing counter with
  | nil => simp [Reducer.afterValues]
  | cons value values inductionHypothesis =>
    have step : reduce.afterValues counter (value :: values) =
        reduce.afterValues { counter with count := counter.count + 1 } values := rfl
    have sum : counter.count + 1 + BitVec.ofNat 32 values.length =
        counter.count + BitVec.ofNat 32 (values.length + 1) := by
      rw [BitVec.ofNat_add, BitVec.add_assoc, BitVec.add_comm 1]
      rfl
    rw [step, inductionHypothesis, List.length_cons, sum]

/-- The reducer of the program asks for all values. -/
theorem reduce_drains : reduce.Drains := by
  constructor
  · intro user key partition values
    rw [reduce_afterValues]
    rfl
  · intro user key partition values
    rw [reduce_afterValues]
    rfl

/-- What a thread has printed after its calls of `Reduce`. -/
theorem reduce_printed (partition : Nat) (invocations : List (Invocation CString))
    (counter : Counter) :
    (invocations.foldl (reduce.afterCall partition) counter).printed =
      counter.printed ++ invocations.map (fun invocation =>
        countLine invocation.key (BitVec.ofNat 32 invocation.values.length).toInt) := by
  induction invocations generalizing counter with
  | nil => simp
  | cons invocation invocations inductionHypothesis =>
    have called : (reduce.afterCall partition counter invocation).printed = counter.printed ++
        [countLine invocation.key (BitVec.ofNat 32 invocation.values.length).toInt] := by
      rw [Reducer.afterCall, reduce_afterValues]
      simp [reduce]
    rw [List.foldl_cons, inductionHypothesis, called, List.map_cons, List.append_assoc,
      List.singleton_append]

/-- A small count is an `int`. -/
theorem toInt_of_small {count : Nat} (small : count < 2 ^ 31) :
    (BitVec.ofNat 32 count).toInt = count := by
  have kept : (BitVec.ofNat 32 count).toNat = count := Nat.mod_eq_of_lt (by omega)
  rw [BitVec.toInt_eq_toNat_of_lt (by omega), kept]

/-- A thread that is handed few enough values prints the number of the values of each key. -/
theorem reduce_lines (partition : Nat) (invocations : List (Invocation CString))
    (count : CString → Nat) (few : ∀ key, count key < 2 ^ 31)
    (obtained : ∀ invocation ∈ invocations, invocation.values.length = count invocation.key) :
    (invocations.foldl (reduce.afterCall partition) Counter.unused).printed =
      (invocations.map Invocation.key).map fun key => countLine key (count key) := by
  rw [reduce_printed, List.map_map]
  apply List.map_congr_left
  intro invocation member
  rw [obtained invocation member, toInt_of_small (few invocation.key)]
  rfl

/-- The lines of some tokens: one for each distinct token, with the number of times it
occurs. -/
def countLines (tokens : List CString) : List (List UInt8) :=
  tokens.dedup.map fun token => countLine token (tokens.count token)

/-- The output merges what the reducer threads have printed. -/
def MergesPrinted {numReducers : Nat} (results : List (Reduced Counter CString))
    (output : List (Fin numReducers × List UInt8)) : Prop :=
  ∀ (index : Fin numReducers) (result : Reduced Counter CString),
    results[index.val]? = some result → select index output = result.user.printed

section Counting

variable {threads : Nat}

/-- Every token is emitted with the value that counts it. -/
def emittedOnce (tokens : Fin threads → List CString) (thread : Fin threads) :
    List (KvPair CString) :=
  (tokens thread).map (⟨·, oneString⟩)

/-- The keys that are emitted are the tokens. -/
theorem emitted_iff_token (tokens : Fin threads → List CString) (key : CString) :
    Emitted (emittedOnce tokens) key ↔ key ∈ (List.finRange threads).flatMap tokens := by
  simp [Emitted, emittedOnce]

/-- A token is emitted as often as it occurs. -/
theorem length_emittedValues (tokens : Fin threads → List CString) (key : CString) :
    (emittedValues (emittedOnce tokens) key).length =
      ((List.finRange threads).flatMap tokens).count key := by
  rw [emittedValues, List.length_flatMap, List.count_flatMap]
  congr 1
  apply List.map_congr_left
  intro thread _
  rw [Function.comp_apply, valuesOf, emittedOnce, List.length_map, List.filter_map,
    List.length_map, List.count_eq_length_filter]
  rfl

/-- The keys of all partitions together are the tokens, each once: a partition has no key
twice, and a key belongs to one partition. -/
theorem keys_perm_tokens {numReducers : Nat} (partition : CString → Nat → Nat)
    (valid : ∀ key, partition key numReducers < numReducers) (tokens : List CString)
    (keys : Fin numReducers → List CString) (distinct : ∀ index, (keys index).Nodup)
    (listed : ∀ index key, key ∈ keys index ↔
      key ∈ tokens ∧ partition key numReducers = index.val) :
    ((List.finRange numReducers).flatMap keys).Perm tokens.dedup := by
  have once : ((List.finRange numReducers).flatMap keys).Nodup := by
    rw [List.nodup_flatMap]
    refine ⟨fun index _ => distinct index, (List.nodup_finRange numReducers).imp ?_⟩
    intro left right different key inLeft inRight
    have leftIndex := ((listed left key).mp inLeft).2
    have rightIndex := ((listed right key).mp inRight).2
    exact different (Fin.ext (leftIndex.symm.trans rightIndex))
  rw [List.perm_ext_iff_of_nodup once tokens.nodup_dedup]
  intro key
  rw [List.mem_dedup, List.mem_flatMap]
  constructor
  · rintro ⟨index, _, member⟩
    exact ((listed index key).mp member).1
  · intro member
    exact ⟨⟨_, valid key⟩, List.mem_finRange _, (listed _ key).mpr ⟨member, rfl⟩⟩

/-- When the mapper threads have emitted their tokens, the reducer threads all end, and
every merge of what they print consists of the lines of the tokens. -/
theorem tokens_are_counted
    {qsort : (KvPair CString → KvPair CString → Int) → List (KvPair CString) →
      List (KvPair CString)}
    (contract : Sorting.Contract qsort) (partition : CString → Nat → Nat) (numReducers : Nat)
    (valid : ∀ key, partition key numReducers < numReducers)
    (tokens : Fin threads → List CString)
    (few : ∀ token, ((List.finRange threads).flatMap tokens).count token < 2 ^ 31)
    {schedule : List (Fin threads)} {final : EmitState threads CString}
    (ran : exec emitStep (emitStart partition numReducers (emittedOnce tokens)) schedule =
      some final)
    (finished : ∀ thread, (final.mappers thread).Finished) :
    ∃ enough, ∀ fuel, enough < fuel → ∃ results,
      execReduce qsort reduce fuel (fun _ => Counter.unused) final.map = some results ∧
      results.length = numReducers ∧ (∀ result ∈ results, result.returned = true) ∧
      ∀ output : List (Fin numReducers × List UInt8), MergesPrinted results output →
        (output.map Prod.snd).Perm (countLines ((List.finRange threads).flatMap tokens)) := by
  obtain ⟨log, complete, represents⟩ :=
    emit_serializable partition numReducers _ schedule final ran finished
  refine ⟨log.length, fun fuel enough => ?_⟩
  obtain ⟨results, reducing, length, each⟩ := execReduce_drains contract reduce_drains fuel
    (fun _ => Counter.unused) represents (by simpa using enough)
  refine ⟨results, reducing, length, ?_, ?_⟩
  · intro result member
    obtain ⟨index, found⟩ := List.getElem?_of_mem member
    exact (each index result found).1
  · intro output merges
    have here : ∀ index : Fin numReducers, index.val < results.length :=
      fun index => length ▸ index.isLt
    let keys := fun index : Fin numReducers =>
      (results.get ⟨index.val, here index⟩).invocations.map Invocation.key
    have whole : ((List.finRange numReducers).flatMap keys).Perm
        ((List.finRange threads).flatMap tokens).dedup := by
      apply keys_perm_tokens partition valid
      · intro index
        obtain ⟨_, ascending, _, _⟩ := each index.val _ (List.getElem?_eq_getElem (here index))
        exact nodup_of_ascending ascending
      · intro index key
        obtain ⟨_, _, inPartition, _⟩ := each index.val _ (List.getElem?_eq_getElem (here index))
        rw [← emitted_iff_token, emitted_iff_logged _ log complete]
        exact inPartition key
    -- A call is handed one value for each emission of its token, whichever thread made it.
    have printed : ∀ index : Fin numReducers, select index output = (keys index).map fun token =>
        countLine token (((List.finRange threads).flatMap tokens).count token) := by
      intro index
      obtain ⟨_, _, _, values, left⟩ := each index.val _ (List.getElem?_eq_getElem (here index))
      rw [merges index _ (List.getElem?_eq_getElem (here index)), left]
      apply reduce_lines _ _ _ few
      intro invocation member
      rw [← length_emittedValues]
      exact ((values invocation member).trans
        (valuesOf_log_perm _ log complete invocation.key)).length_eq
    have merged := perm_flatMap_select output
    simp only [printed] at merged
    rw [← List.map_flatMap] at merged
    exact merged.trans (whole.map _)

end Counting

/-- The numbers of threads in the call of `MR_Run`. -/
def numMappers : Nat := 10

/-- The number of reducers of the program. -/
def numReducers : Nat := 10

/-- The tokens of some files. -/
def tokensOf (content : CString → List UInt8) (paths : List CString) : List CString :=
  paths.flatMap fun path => fileTokens (content path)

/-- A token is counted over all files. -/
theorem count_tokensOf {content : CString → List UInt8} {paths : List CString}
    (clean : ∀ path ∈ paths, (0 : UInt8) ∉ content path) {token : CString}
    (nonempty : token.bytes ≠ []) :
    (tokensOf content paths).count token =
      (paths.map fun path => occurrences isDelimiter token.bytes (content path)).sum := by
  rw [tokensOf, List.count_flatMap]
  congr 1
  apply List.map_congr_left
  intro path member
  rw [Function.comp_apply, count_fileTokens (clean path member) token nonempty,
    count_words nonempty]

/-- A mapper thread emits the tokens of its files. -/
theorem flatMap_mapFile {blockSize : Nat} (positive : 0 < blockSize)
    {content : CString → List UInt8} {paths : List CString}
    (clean : ∀ path ∈ paths, (0 : UInt8) ∉ content path) :
    paths.flatMap (fun path => mapFile positive (content path)) =
      (tokensOf content paths).map (⟨·, oneString⟩) := by
  rw [tokensOf, List.map_flatMap]
  apply List.flatMap_congr
  intro path member
  exact mapFile_tokens positive (clean path member)

/-- The mapper threads emit the tokens of their files. -/
theorem emissions_eq_tokens {blockSize count : Nat} (positive : 0 < blockSize)
    {content : CString → List UInt8} {assigned : List (List CString)}
    (clean : ∀ path ∈ assigned.flatten, (0 : UInt8) ∉ content path) :
    (fun thread : Fin count => (assigned.map fun paths =>
        paths.flatMap fun path => mapFile positive (content path)).getD thread.val []) =
      emittedOnce fun thread => tokensOf content (assigned.getD thread.val []) := by
  funext thread
  rw [emittedOnce, List.getD_eq_getElem?_getD, List.getD_eq_getElem?_getD, List.getElem?_map]
  cases found : assigned[thread.val]? with
  | none => rfl
  | some paths =>
    apply flatMap_mapFile positive
    intro path member
    exact clean path (List.mem_flatten.mpr ⟨paths, List.mem_of_getElem? found, member⟩)

/-- The word counter counts the words of the files that are assigned to mappers. Whatever
order the mapper threads run in, they end; whatever order the reducer threads run in,
they end, and the lines they print are one for each distinct token, with the number of
times that splitting the files yields it. For a token that is not empty this is the number
of its occurrences as a word.

Proof: `Map` emits the tokens of its file. The lists hold a merge of the emissions, so
`Reduce` is called once for every token and counts its emissions. -/
theorem wordcount_counts_words
    (qsortFiles : (FileStat → FileStat → Int) → List FileStat → List FileStat)
    (qsort : (KvPair CString → KvPair CString → Int) → List (KvPair CString) →
      List (KvPair CString))
    (contract : Sorting.Contract qsort) {blockSize : Nat} (positive : 0 < blockSize)
    (stat : CString → Option Nat) (content : CString → List UInt8) (files : List CString)
    (lists : List (ArrayList CString))
    (allocated : execMap qsortFiles stat numMappers files = .ok lists) :
    ∃ assigned emitted,
      lists.mapM ArrayList.readItems = some assigned ∧
      lists.mapM (mapThreadRunner fun path => mapFile positive (content path)) = some emitted ∧
      ((∀ path ∈ assigned.flatten, (0 : UInt8) ∉ content path) →
        (∀ token, (tokensOf content assigned.flatten).count token < 2 ^ 31) →
        (∀ (schedule : List (Fin numMappers)) (state : EmitState numMappers CString),
          exec emitStep (emitStart mrDefaultHashPartition numReducers
            fun thread => emitted.getD thread.val []) schedule = some state →
          schedule.length ≤ 9 * emitted.flatten.length ∧
          (∃ rest final, exec emitStep state rest = some final ∧
            ∀ thread, (final.mappers thread).Finished) ∧
          ((∀ thread, (state.mappers thread).Finished) → ∃ enough, ∀ fuel, enough < fuel →
            ∃ results,
              execReduce qsort reduce fuel (fun _ => Counter.unused) state.map = some results ∧
              results.length = numReducers ∧ (∀ result ∈ results, result.returned = true) ∧
              ∀ output : List (Fin numReducers × List UInt8), MergesPrinted results output →
                (output.map Prod.snd).Perm
                  (countLines (tokensOf content assigned.flatten)))) ∧
        ∀ token, token.bytes ≠ [] → (tokensOf content assigned.flatten).count token =
          (assigned.flatten.map fun path =>
            occurrences isDelimiter token.bytes (content path)).sum) := by
  obtain ⟨assigned, reads, length⟩ := execMap_represents allocated
  have mapped := mapThreadRunner_all (fun path => mapFile positive (content path)) lists assigned
    reads
  refine ⟨assigned, _, reads, mapped, fun clean few =>
    ⟨?_, fun token nonempty => count_tokensOf clean nonempty⟩⟩
  intro schedule state ran
  have valid : ∀ key, mrDefaultHashPartition key numReducers < numReducers :=
    fun key => mrDefaultHashPartition_lt key numReducers (by decide)
  obtain ⟨bounded, completes⟩ := emit_completes mrDefaultHashPartition numReducers valid _ schedule
    state ran
  refine ⟨?_, completes, fun finished => ?_⟩
  · rw [← Finset.mul_sum, Fin.sum_univ_def] at bounded
    rwa [← flatMap_getD _ (by rw [List.length_map, length]), List.length_flatMap]
  · have tokens : (List.finRange numMappers).flatMap
        (fun thread => tokensOf content (assigned.getD thread.val [])) =
          tokensOf content assigned.flatten := by
      rw [← flatMap_getD assigned length, tokensOf, List.flatMap_assoc]
      rfl
    -- Without NUL in the files, what `Map` emits does not depend on the blocks it reads.
    rw [← tokens] at few ⊢
    rw [emissions_eq_tokens positive clean] at ran
    exact tokens_are_counted contract mrDefaultHashPartition numReducers valid _ few ran finished

/-- Every file holds one line with three words. -/
def threeWords (_ : CString) : List UInt8 := ascii "one two one\n"

/-- The first mapper is given the only file. -/
def onlyFile : List (List CString) := [letterFile] :: List.replicate 9 []

/-- A file with three words. -/
theorem wordcount_counts_words_three_words :
    ∃ lists emitted,
      execMap Sorting.insertionQsort (fun path => some (threeWords path).length) numMappers
        [letterFile] = .ok lists ∧
      lists.mapM (mapThreadRunner fun path => mapFile (Nat.succ_pos 3) (threeWords path)) =
        some emitted ∧
      countLines (tokensOf threeWords onlyFile.flatten) =
        [ascii "two 1\n", ascii "one 2\n", ascii " 1\n"] ∧
      (∀ (schedule : List (Fin numMappers)) (state : EmitState numMappers CString),
        exec emitStep (emitStart mrDefaultHashPartition numReducers
          fun thread => emitted.getD thread.val []) schedule = some state →
        schedule.length ≤ 9 * emitted.flatten.length ∧
        (∃ rest final, exec emitStep state rest = some final ∧
          ∀ thread, (final.mappers thread).Finished) ∧
        ((∀ thread, (state.mappers thread).Finished) → ∃ enough, ∀ fuel, enough < fuel →
          ∃ results,
            execReduce Sorting.insertionQsort reduce fuel (fun _ => Counter.unused) state.map =
              some results ∧
            results.length = numReducers ∧ (∀ result ∈ results, result.returned = true) ∧
            ∀ output : List (Fin numReducers × List UInt8), MergesPrinted results output →
              (output.map Prod.snd).Perm (countLines (tokensOf threeWords onlyFile.flatten)))) ∧
      ∀ token, token.bytes ≠ [] → (tokensOf threeWords onlyFile.flatten).count token =
        (onlyFile.flatten.map fun path =>
          occurrences isDelimiter token.bytes (threeWords path)).sum := by
  have allocated : ∃ lists,
      execMap Sorting.insertionQsort (fun path => some (threeWords path).length) numMappers
        [letterFile] = .ok lists ∧
      lists.mapM ArrayList.readItems = some onlyFile := ⟨_, rfl, by decide +kernel⟩
  obtain ⟨lists, distributed, holds⟩ := allocated
  obtain ⟨assigned, emitted, reads, mapped, counted⟩ := wordcount_counts_words
    Sorting.insertionQsort Sorting.insertionQsort Sorting.insertionQsort_contract
    (Nat.succ_pos 3) (fun path => some (threeWords path).length) threeWords [letterFile] lists
    distributed
  obtain rfl : onlyFile = assigned := Option.some.inj (holds.symm.trans reads)
  have short : (tokensOf threeWords onlyFile.flatten).length < 2 ^ 31 := by decide +kernel
  exact ⟨lists, emitted, distributed, mapped, by decide +kernel,
    counted (by decide +kernel) fun token => Nat.lt_of_le_of_lt List.count_le_length short⟩

end OsLabwork.MapReduce
