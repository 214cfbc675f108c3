import OsLabwork.Library.CText
import OsLabwork.Library.QuotaCutting
import OsLabwork.Library.Sorting
import OsLabwork.MapReduce.ArrayList

/-!
# Distribution of the input files over the mappers

`__exec_map` measures every file, sorts the files by `__compare_file_size`, and
lets each mapper in turn take files until it has gathered the quota, which is the
total size divided by the number of mappers. Mappers and files share one cursor.
Each mapper thread then calls the user's map function on its own files.

The allocation is the greedy cut of the sorted files at that quota. It runs to the
end for every set of files, but rounding the quota down can leave files behind.
-/

namespace OsLabwork.MapReduce

open QuotaCutting

/-- `file_stat`: a path with the size reported for it (`st_size`). -/
structure FileStat where
  path : CString
  size : Nat
deriving DecidableEq

/-- The difference of two sizes, converted to a 32-bit `int`. -/
def compareFileSize (file1 file2 : FileStat) : Int :=
  Int.bmod ((file1.size : Int) - file2.size) (2 ^ 32)

/-- The ways in which the map phase ends early: a call of `exit`, with what was
written to standard error, or an access outside the allocated cells. -/
inductive MapStop where
  | exited (message : List UInt8) (status : Nat)
  | undefined
deriving DecidableEq

/-- Measure the files in command-line order and add up their sizes in `size_t`. -/
def statFiles (stat : CString → Option Nat) :
    List CString → Nat → Except MapStop (List FileStat × Nat)
  | [], totalSize => .ok ([], totalSize)
  | path :: rest, totalSize =>
      match stat path with
      | none => .error (.exited (ascii "cannot open file " ++ path.bytes ++ ascii "\n") 1)
      | some size => do
          let measured ← statFiles stat rest ((totalSize + size) % 2 ^ 64)
          return (⟨path, size⟩ :: measured.1, measured.2)

/-- One mapper's turn: `accumSize` is what it has gathered, and the files are those
from the shared cursor on. The second component is the cursor afterwards. -/
def fillMapper (quota : Nat) :
    ArrayList CString → Nat → List FileStat → Option (ArrayList CString × List FileStat)
  | list, _, [] => some (list, [])
  | list, accumSize, file :: rest =>
      if accumSize < quota then do
        let pushed ← list.pushItem file.path
        fillMapper quota pushed ((accumSize + file.size) % 2 ^ 64) rest
      else some (list, file :: rest)

/-- Every mapper's turn, in order. -/
def allocateFiles (quota : Nat) :
    Nat → List FileStat → Option (List (ArrayList CString) × List FileStat)
  | 0, files => some ([], files)
  | mappers + 1, files => do
      let filled ← fillMapper quota ArrayList.initList 0 files
      let later ← allocateFiles quota mappers filled.2
      return (filled.1 :: later.1, later.2)

/-- `__exec_map` up to the creation of the threads: the file list of each mapper. -/
def execMap (qsort : (FileStat → FileStat → Int) → List FileStat → List FileStat)
    (stat : CString → Option Nat) (numMappers : Nat) (files : List CString) :
    Except MapStop (List (ArrayList CString)) := do
  let measured ← statFiles stat files 0
  let sorted := qsort compareFileSize measured.1
  match allocateFiles (measured.2 / numMappers) numMappers sorted with
  | some allocated => return allocated.1
  | none => throw .undefined

/-- `__map_thread_runner`: the effects of the user's map function on the files of
one list, in order. A mapper that only records its argument gives the calls. -/
def mapThreadRunner {ε : Type} (mapper : CString → List ε) (fileList : ArrayList CString) :
    Option (List ε) :=
  fileList.readItems.map (·.flatMap mapper)

/-- Measuring succeeds on files that can all be measured; the running total is
taken modulo the range of `size_t`. -/
theorem statFiles_ok (stat : CString → Option Nat) (size : CString → Nat) (files : List CString)
    (measured : ∀ path ∈ files, stat path = some (size path)) (totalSize : Nat)
    (inRange : totalSize < 2 ^ 64) :
    statFiles stat files totalSize =
      .ok (files.map (fun path => ⟨path, size path⟩),
        (totalSize + (files.map size).sum) % 2 ^ 64) := by
  induction files generalizing totalSize with
  | nil =>
    rw [statFiles, List.map_nil, List.map_nil, List.sum_nil, Nat.add_zero,
      Nat.mod_eq_of_lt inRange]
  | cons path rest inductionHypothesis =>
    have first : stat path = some (size path) := measured path List.mem_cons_self
    have later := inductionHypothesis
      (fun other member => measured other (List.mem_cons_of_mem _ member))
      ((totalSize + size path) % 2 ^ 64) (Nat.mod_lt _ (by decide))
    have total : ((totalSize + size path) % 2 ^ 64 + (rest.map size).sum) % 2 ^ 64 =
        (totalSize + (size path + (rest.map size).sum)) % 2 ^ 64 := by
      rw [Nat.mod_add_mod, Nat.add_assoc]
    have step : statFiles stat (path :: rest) totalSize =
        (statFiles stat rest ((totalSize + size path) % 2 ^ 64)).bind
          (fun measured => .ok (⟨path, size path⟩ :: measured.1, measured.2)) := by
      rw [statFiles, first]
      rfl
    rw [step, later, total]
    rfl

/-- A mapper's turn pushes exactly the files of a greedy block. The sizes still to
come are bounded, so the gathered size never wraps around. -/
theorem fillMapper_exact (quota : Nat) (list : ArrayList CString) (items : List CString)
    (represents : list.Represents items) (accumSize : Nat) (files : List FileStat)
    (inRange : accumSize + load FileStat.size files < 2 ^ 64) :
    ∃ filled, fillMapper quota list accumSize files =
        some (filled, (fill FileStat.size quota accumSize files).2) ∧
      filled.Represents
        (items ++ (fill FileStat.size quota accumSize files).1.map FileStat.path) := by
  induction files generalizing list items accumSize with
  | nil => exact ⟨list, rfl, by simpa [fill] using represents⟩
  | cons file rest inductionHypothesis =>
    by_cases below : accumSize < quota
    · obtain ⟨pushed, pushing, grown, _⟩ := represents.pushItem file.path
      rw [load_cons] at inRange
      have gathered : (accumSize + file.size) % 2 ^ 64 = accumSize + file.size :=
        Nat.mod_eq_of_lt (by omega)
      obtain ⟨filled, result, final⟩ := inductionHypothesis pushed (items ++ [file.path]) grown
        (accumSize + file.size) (by omega)
      refine ⟨filled, ?_, ?_⟩
      · simp only [fillMapper, below, ↓reduceIte, pushing, gathered, fill]
        exact result
      · simpa [fill, below] using final
    · exact ⟨list, by simp [fillMapper, fill, below], by simpa [fill, below] using represents⟩

/-- All turns together are the greedy cut: no mapper faults, and the file lists
hold the paths of the blocks. -/
theorem allocateFiles_exact (quota mappers : Nat) (files : List FileStat)
    (inRange : load FileStat.size files < 2 ^ 64) :
    ∃ lists, allocateFiles quota mappers files =
        some (lists, (cut FileStat.size quota mappers files).2) ∧
      List.Forall₂ (fun list block => ArrayList.Represents list (block.map FileStat.path))
        lists (cut FileStat.size quota mappers files).1 := by
  induction mappers generalizing files with
  | zero => exact ⟨[], rfl, .nil⟩
  | succ mappers inductionHypothesis =>
    obtain ⟨filled, filling, represents⟩ := fillMapper_exact quota ArrayList.initList []
      ArrayList.initList_represents 0 files (by omega)
    have remaining : load FileStat.size (fill FileStat.size quota 0 files).2 < 2 ^ 64 := by
      have parts := congrArg (load FileStat.size) (fill_append FileStat.size quota 0 files)
      rw [load_append] at parts
      omega
    obtain ⟨lists, allocating, blocks⟩ := inductionHypothesis _ remaining
    refine ⟨filled :: lists, ?_, ?_⟩
    · simp [allocateFiles, filling, allocating, cut]
    · exact .cons (by simpa using represents) blocks

/-- Whatever sizes were reported, a mapper's turn ends and takes files from the cursor on. -/
theorem fillMapper_takes (quota : Nat) {list : ArrayList CString} {items : List CString}
    (represents : list.Represents items) (accumSize : Nat) (files : List FileStat) :
    ∃ filled taken rest, fillMapper quota list accumSize files = some (filled, rest) ∧
      filled.Represents (items ++ taken.map FileStat.path) ∧ taken ++ rest = files := by
  induction files generalizing list items accumSize with
  | nil => exact ⟨list, [], [], rfl, by simpa using represents, rfl⟩
  | cons file files inductionHypothesis =>
    by_cases below : accumSize < quota
    · obtain ⟨pushed, pushing, grown, _⟩ := represents.pushItem file.path
      obtain ⟨filled, taken, rest, filling, stored, order⟩ :=
        inductionHypothesis grown ((accumSize + file.size) % 2 ^ 64)
      refine ⟨filled, file :: taken, rest, ?_, by simpa using stored, by simp [order]⟩
      rw [fillMapper, if_pos below, pushing]
      exact filling
    · exact ⟨list, [], file :: files, by rw [fillMapper, if_neg below], by simpa using represents,
        rfl⟩

/-- Whatever sizes were reported, all turns end and take files in the order of the cursor. -/
theorem allocateFiles_takes (quota mappers : Nat) (files : List FileStat) :
    ∃ lists blocks rest, allocateFiles quota mappers files = some (lists, rest) ∧
      List.Forall₂ (fun list block => ArrayList.Represents list (block.map FileStat.path))
        lists blocks ∧
      blocks.length = mappers ∧ blocks.flatten ++ rest = files := by
  induction mappers generalizing files with
  | zero => exact ⟨[], [], files, rfl, .nil, rfl, rfl⟩
  | succ mappers inductionHypothesis =>
    obtain ⟨filled, taken, behind, filling, represents, order⟩ :=
      fillMapper_takes quota ArrayList.initList_represents 0 files
    obtain ⟨lists, blocks, rest, allocating, stored, length, later⟩ := inductionHypothesis behind
    refine ⟨filled :: lists, taken :: blocks, rest, ?_, .cons (by simpa using represents) stored,
      by rw [List.length_cons, length], ?_⟩
    · simp [allocateFiles, filling, allocating]
    · rw [List.flatten_cons, List.append_assoc, later, order]

/-- Reading the file lists gives the paths of the blocks, mapper by mapper. -/
theorem readItems_all (lists : List (ArrayList CString)) (blocks : List (List FileStat))
    (stored : List.Forall₂ (fun list block => ArrayList.Represents list (block.map FileStat.path))
      lists blocks) :
    lists.mapM ArrayList.readItems = some (blocks.map (·.map FileStat.path)) := by
  induction stored with
  | nil => rfl
  | cons represents _ inductionHypothesis =>
    simp [List.mapM_cons, represents.readItems, inductionHypothesis]

/-- When the map phase gets as far as creating the threads, every mapper has a list of
paths it can read. -/
theorem execMap_represents
    {qsort : (FileStat → FileStat → Int) → List FileStat → List FileStat}
    {stat : CString → Option Nat} {numMappers : Nat} {files : List CString}
    {lists : List (ArrayList CString)}
    (allocated : execMap qsort stat numMappers files = .ok lists) :
    ∃ assigned, lists.mapM ArrayList.readItems = some assigned ∧
      assigned.length = numMappers := by
  rw [execMap] at allocated
  cases measuring : statFiles stat files 0 with
  | error stopped => simp [measuring, bind, Except.bind] at allocated
  | ok measured =>
    simp only [measuring, bind, Except.bind] at allocated
    split at allocated
    · next result allocating =>
      obtain rfl : result.1 = lists := Except.ok.inj allocated
      obtain ⟨lists, blocks, rest, taken, stored, length, _⟩ := allocateFiles_takes
        (measured.2 / numMappers) numMappers (qsort compareFileSize measured.1)
      obtain rfl : (lists, rest) = result := Option.some.inj (taken.symm.trans allocating)
      exact ⟨_, readItems_all lists blocks stored, by rw [List.length_map, length]⟩
    · cases allocated

/-- The effects of the mapper threads are those of the map function on their files. -/
theorem mapThreadRunner_all {ε : Type} (mapper : CString → List ε)
    (lists : List (ArrayList CString)) (assigned : List (List CString))
    (reads : lists.mapM ArrayList.readItems = some assigned) :
    lists.mapM (mapThreadRunner mapper) = some (assigned.map (·.flatMap mapper)) := by
  induction lists generalizing assigned with
  | nil =>
    obtain rfl : [] = assigned := Option.some.inj reads
    rfl
  | cons list lists inductionHypothesis =>
    rw [List.mapM_cons] at reads
    obtain ⟨paths, own, reads⟩ := Option.bind_eq_some_iff.mp reads
    obtain ⟨later, others, same⟩ := Option.bind_eq_some_iff.mp reads
    obtain rfl : paths :: later = assigned := Option.some.inj same
    simp [List.mapM_cons, mapThreadRunner, own, inductionHypothesis later others]

/-- Running every mapper thread with a recording map function gives the paths of
the blocks, mapper by mapper. -/
theorem mapThreadRunner_calls (lists : List (ArrayList CString)) (blocks : List (List FileStat))
    (stored : List.Forall₂ (fun list block => ArrayList.Represents list (block.map FileStat.path))
      lists blocks) :
    lists.mapM (mapThreadRunner (fun path => [path])) =
      some (blocks.map (·.map FileStat.path)) := by
  rw [mapThreadRunner_all _ lists _ (readItems_all lists blocks stored)]
  simp [List.flatMap_singleton']

/-- Measuring files that can all be measured, sorting them and letting the mappers take
them in turn. -/
theorem execMap_eq (qsort : (FileStat → FileStat → Int) → List FileStat → List FileStat)
    {stat : CString → Option Nat} {size : CString → Nat} (numMappers : Nat) {files : List CString}
    (measured : ∀ path ∈ files, stat path = some (size path)) :
    execMap qsort stat numMappers files =
      match allocateFiles ((files.map size).sum % 2 ^ 64 / numMappers) numMappers
        (qsort compareFileSize (files.map fun path => ⟨path, size path⟩)) with
      | some allocated => .ok allocated.1
      | none => .error .undefined := by
  have measuring := statFiles_ok stat size files measured 0 (by decide)
  rw [Nat.zero_add] at measuring
  simp only [execMap, measuring, bind, Except.bind, pure, Except.pure]
  rfl

/-- While the total size is in the range of `size_t`, the map phase is the greedy cut. -/
theorem execMap_cuts {qsort : (FileStat → FileStat → Int) → List FileStat → List FileStat}
    (permutes : ∀ compare items, (qsort compare items).Perm items) {stat : CString → Option Nat}
    {size : CString → Nat} (numMappers : Nat) {files : List CString}
    (measured : ∀ path ∈ files, stat path = some (size path))
    (fits : (files.map size).sum < 2 ^ 64) :
    ∃ lists, execMap qsort stat numMappers files = .ok lists ∧
      List.Forall₂ (fun list block => ArrayList.Represents list (block.map FileStat.path)) lists
        (cut FileStat.size ((files.map size).sum / numMappers) numMappers
          (qsort compareFileSize (files.map fun path => ⟨path, size path⟩))).1 ∧
      load FileStat.size (qsort compareFileSize (files.map fun path => ⟨path, size path⟩)) =
        (files.map size).sum := by
  have total : load FileStat.size
      (qsort compareFileSize (files.map fun path => ⟨path, size path⟩)) =
        (files.map size).sum := by
    rw [load_perm FileStat.size (permutes _ _)]
    simp [load, Function.comp_def]
  obtain ⟨lists, allocating, stored⟩ := allocateFiles_exact ((files.map size).sum / numMappers)
    numMappers (qsort compareFileSize (files.map fun path => ⟨path, size path⟩)) (total ▸ fits)
  refine ⟨lists, ?_, stored, total⟩
  rw [execMap_eq qsort numMappers measured, Nat.mod_eq_of_lt fits, allocating]

/-- The map phase always produces one file list per mapper, and the map function
is called exactly once for each command-line file precisely when the sorted files
cannot be cut into one quota-reaching block per mapper with a file left over.

Proof: the calls are the paths of the greedy blocks, and blocks and rest together
are a permutation of the files. Hence nothing is missing exactly when the rest is
empty, which is the case exactly when no quota-reaching cut leaves a rest. -/
theorem execMap_covers_iff
    (qsort : (FileStat → FileStat → Int) → List FileStat → List FileStat)
    (contract : Sorting.Contract qsort) (stat : CString → Option Nat) (size : CString → Nat)
    (numMappers : Nat) (files : List CString) (_positive : 1 ≤ numMappers)
    (measured : ∀ path ∈ files, stat path = some (size path))
    (fits : (files.map size).sum < 2 ^ 64) :
    ∃ lists calls, execMap qsort stat numMappers files = .ok lists ∧
      lists.mapM (mapThreadRunner (fun path => [path])) = some calls ∧
      calls.length = numMappers ∧
      (calls.flatten.Perm files ↔
        ¬ LeavesOver FileStat.size ((files.map size).sum / numMappers) numMappers
          (qsort compareFileSize (files.map (fun path => ⟨path, size path⟩)))) := by
  let stats : List FileStat := files.map (fun path => ⟨path, size path⟩)
  let sorted := qsort compareFileSize stats
  let quota := (files.map size).sum / numMappers
  have permuted : sorted.Perm stats := contract.permutes compareFileSize stats
  obtain ⟨lists, mapping, stored, _⟩ := execMap_cuts contract.permutes numMappers measured fits
  let blocks := (cut FileStat.size quota numMappers sorted).1
  let rest := (cut FileStat.size quota numMappers sorted).2
  refine ⟨lists, blocks.map (·.map FileStat.path), mapping,
    mapThreadRunner_calls lists blocks stored, ?_, ?_⟩
  · rw [List.length_map]
    exact cut_length FileStat.size quota numMappers sorted
  · -- Calls and left-over paths are all the paths, so only an empty rest is complete.
    have everything : ((blocks.map (·.map FileStat.path)).flatten ++ rest.map FileStat.path).Perm
        files := by
      have parts : blocks.flatten ++ rest = sorted :=
        cut_flatten FileStat.size quota numMappers sorted
      have paths := permuted.map FileStat.path
      rw [← parts, List.map_append, List.map_flatten] at paths
      simpa [stats, Function.comp_def] using paths
    rw [← cut_rest_iff, not_ne_iff]
    constructor
    · intro complete
      have lengths := (everything.trans complete.symm).length_eq
      rw [List.length_append, List.length_map] at lengths
      have none : rest.length = 0 := by omega
      exact List.length_eq_zero_iff.mp none
    · intro nothing
      have empty : rest = [] := nothing
      simpa [empty] using everything

/-- One input file, named by the single letter `a`. -/
def letterFile : CString := ⟨ascii "a", by decide⟩

/-- The name of a second file. -/
def otherFile : CString := CString.leading (ascii "b")

/-- The name of a third file. -/
def thirdFile : CString := CString.leading (ascii "c")

/-- The three files have five, three and four bytes. -/
def fewBytes (path : CString) : Nat :=
  if path = letterFile then 5 else if path = otherFile then 3 else 4

/-- Two mappers share twelve bytes: the first takes the two smaller files, and nothing is
left over. -/
theorem execMap_covers_iff_three_files :
    1 ≤ 2 ∧ ∃ lists calls,
      execMap Sorting.insertionQsort (fun path => some (fewBytes path)) 2
        [letterFile, otherFile, thirdFile] = .ok lists ∧
      lists.mapM (mapThreadRunner (fun path => [path])) = some calls ∧
      calls.length = 2 ∧
      (calls.flatten.Perm [letterFile, otherFile, thirdFile] ↔
        ¬ LeavesOver FileStat.size
          (([letterFile, otherFile, thirdFile].map fewBytes).sum / 2) 2
          (Sorting.insertionQsort compareFileSize
            ([letterFile, otherFile, thirdFile].map (fun path => ⟨path, fewBytes path⟩)))) ∧
      calls.flatten.Perm [letterFile, otherFile, thirdFile] := by
  obtain ⟨lists, calls, mapped, called, length, covers⟩ :=
    execMap_covers_iff Sorting.insertionQsort Sorting.insertionQsort_contract
      (fun path => some (fewBytes path)) fewBytes 2 [letterFile, otherFile, thirdFile]
      (by decide) (fun _ _ => rfl) (by decide)
  refine ⟨by decide, lists, calls, mapped, called, length, covers, covers.mpr ?_⟩
  rw [← cut_rest_iff]
  decide

/-- A file of five bytes and ten mappers: the quota is zero and the map function is
never called. -/
theorem small_file_is_not_mapped :
    ∃ lists calls,
      execMap Sorting.insertionQsort (fun _ => some 5) 10 [letterFile] = .ok lists ∧
      lists.mapM (mapThreadRunner (fun path => [path])) = some calls ∧
      ¬ calls.flatten.Perm [letterFile] := by
  refine ⟨List.replicate 10 ArrayList.initList, List.replicate 10 [], by decide, by decide, ?_⟩
  decide

end OsLabwork.MapReduce
