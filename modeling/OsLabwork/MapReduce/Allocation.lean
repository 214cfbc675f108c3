import Mathlib.Algebra.Order.Ring.Int
import OsLabwork.MapReduce.FileAllocation

/-!
# Order, completeness and balance of the allocation

The mappers' lists, put one after the other, are an initial part of the sorted files.
What is left out weighs less than one byte per mapper, and no mapper gets more than
twice what any other division of the files would have to give to one of its groups.

Order by size rests on `__compare_file_size`, which converts a 64-bit difference to
`int`. Its sign is right exactly while the low half of the larger size minus the
smaller one is a positive `int`.
-/

namespace OsLabwork.MapReduce

open QuotaCutting

section Comparison

/-- The sign of the comparison is right in both directions exactly when the difference
keeps its sign in the conversion. -/
theorem compareFileSize_sign (larger smaller : FileStat) (less : smaller.size < larger.size) :
    ((compareFileSize larger smaller).sign = ((larger.size : Int) - smaller.size).sign ∧
      (compareFileSize smaller larger).sign = ((smaller.size : Int) - larger.size).sign) ↔
    0 < (larger.size - smaller.size) % 2 ^ 32 ∧ (larger.size - smaller.size) % 2 ^ 32 < 2 ^ 31 := by
  have above : ((larger.size : Int) - smaller.size).sign = 1 :=
    Int.sign_eq_one_of_pos (by omega)
  have below : ((smaller.size : Int) - larger.size).sign = -1 :=
    Int.sign_eq_neg_one_of_neg (by omega)
  rw [above, below, Int.sign_eq_one_iff_pos, Int.sign_eq_neg_one_iff_neg]
  simp only [compareFileSize, Int.bmod_def]
  omega

/-- The comparison of a size with itself. -/
theorem compareFileSize_same (left right : FileStat) (same : left.size = right.size) :
    (compareFileSize left right).sign = ((left.size : Int) - right.size).sign := by
  simp [compareFileSize, same]

/-- Over a list of files the signs are right exactly when the difference of every larger
and every smaller size keeps its sign. -/
theorem compareFileSize_signs (size : CString → Nat) (files : List CString) :
    (∀ path ∈ files, ∀ other ∈ files,
      (compareFileSize ⟨path, size path⟩ ⟨other, size other⟩).sign =
        ((size path : Int) - size other).sign) ↔
    ∀ path ∈ files, ∀ other ∈ files, size other < size path →
      0 < (size path - size other) % 2 ^ 32 ∧ (size path - size other) % 2 ^ 32 < 2 ^ 31 := by
  constructor
  · intro agree path member other present less
    exact (compareFileSize_sign ⟨path, size path⟩ ⟨other, size other⟩ less).mp
      ⟨agree path member other present, agree other present path member⟩
  · intro kept path member other present
    rcases Nat.lt_trichotomy (size path) (size other) with less | same | more
    · exact ((compareFileSize_sign ⟨other, size other⟩ ⟨path, size path⟩ less).mpr
        (kept other present path member less)).2
    · exact compareFileSize_same _ _ same
    · exact ((compareFileSize_sign ⟨path, size path⟩ ⟨other, size other⟩ more).mpr
        (kept path member other present more)).1

/-- Where its sign is right, the comparison orders by size. -/
theorem compareFileSize_le_iff {left right : FileStat}
    (agree : (compareFileSize left right).sign = ((left.size : Int) - right.size).sign) :
    compareFileSize left right ≤ 0 ↔ left.size ≤ right.size := by
  rw [← Int.sign_nonpos_iff, agree, Int.sign_nonpos_iff]
  omega

end Comparison

section Order

variable {qsort : (FileStat → FileStat → Int) → List FileStat → List FileStat}
variable {size : CString → Nat} {files : List CString}

/-- A comparison with the right signs is a consistent one. -/
theorem compareFileSize_consistent
    (agree : ∀ path ∈ files, ∀ other ∈ files,
      (compareFileSize ⟨path, size path⟩ ⟨other, size other⟩).sign =
        ((size path : Int) - size other).sign) :
    Sorting.ConsistentOn compareFileSize (files.map fun path => ⟨path, size path⟩) where
  antisymmetric := by
    simp only [List.forall_mem_map]
    intro left isLeft right isRight
    rw [compareFileSize_le_iff (agree left isLeft right isRight), ← Int.sign_nonneg_iff,
      agree right isRight left isLeft, Int.sign_nonneg_iff, Int.sub_nonneg, Int.ofNat_le]
  transitive := by
    simp only [List.forall_mem_map]
    intro first isFirst second isSecond third isThird
    rw [compareFileSize_le_iff (agree first isFirst second isSecond),
      compareFileSize_le_iff (agree second isSecond third isThird),
      compareFileSize_le_iff (agree first isFirst third isThird)]
    exact Nat.le_trans

/-- The sizes of the sorted files are those that were reported. -/
theorem sorted_size (permutes : ∀ compare items, (qsort compare items).Perm items) :
    ∀ file ∈ qsort compareFileSize (files.map fun path => ⟨path, size path⟩),
      file.path ∈ files ∧ file = ⟨file.path, size file.path⟩ := by
  intro file member
  obtain ⟨path, present, rfl⟩ := List.mem_map.mp ((permutes _ _).mem_iff.mp member)
  exact ⟨present, rfl⟩

/-- Sorting the files loses none. -/
theorem sorted_paths (permutes : ∀ compare items, (qsort compare items).Perm items) :
    ((qsort compareFileSize (files.map fun path => ⟨path, size path⟩)).map
      FileStat.path).Perm files := by
  have paths := (permutes compareFileSize
    (files.map fun path => ⟨path, size path⟩)).map FileStat.path
  simpa [Function.comp_def] using paths

/-- With the right signs the sorted files ascend in size. -/
theorem sorted_ascending (sorts : Sorting.Sorts qsort)
    (agree : ∀ path ∈ files, ∀ other ∈ files,
      (compareFileSize ⟨path, size path⟩ ⟨other, size other⟩).sign =
        ((size path : Int) - size other).sign) :
    ((qsort compareFileSize (files.map fun path => ⟨path, size path⟩)).map
      FileStat.path).Pairwise (fun path other => size path ≤ size other) := by
  rw [List.pairwise_map]
  refine (sorts.ordered _ _ (compareFileSize_consistent agree)).imp_of_mem ?_
  intro left right isLeft isRight ordered
  obtain ⟨leftFile, leftSize⟩ := sorted_size sorts.permutes left isLeft
  obtain ⟨rightFile, rightSize⟩ := sorted_size sorts.permutes right isRight
  rw [leftSize, rightSize] at ordered
  exact (compareFileSize_le_iff (agree _ leftFile _ rightFile)).mp ordered

/-- The paths of sorted files weigh what the files weigh. -/
theorem load_paths (permutes : ∀ compare items, (qsort compare items).Perm items)
    {taken : List FileStat}
    (within : taken ⊆ qsort compareFileSize (files.map fun path => ⟨path, size path⟩)) :
    ((taken.map FileStat.path).map size).sum = load FileStat.size taken := by
  rw [List.map_map, load]
  congr 1
  refine List.map_congr_left fun file member => ?_
  obtain ⟨_, same⟩ := sorted_size permutes file (within member)
  rw [Function.comp_apply, same]

end Order

/-- The shape of the allocation, while the total is in the range of `size_t` and the
differences of sizes are in the range of `int`: the mappers' lists are an initial part of
the files sorted by ascending size, the others weigh no more than the remainder of the
division, and a file of at least one byte per mapper makes the allocation complete.

Proof of the last part: the heaviest files come last, so a file left out would weigh at
least one byte per mapper, which is more than the remainder. -/
theorem execMap_shape (qsort : (FileStat → FileStat → Int) → List FileStat → List FileStat)
    (sorts : Sorting.Sorts qsort) (stat : CString → Option Nat) (size : CString → Nat)
    (numMappers : Nat) (files : List CString) (positive : 1 ≤ numMappers)
    (measured : ∀ path ∈ files, stat path = some (size path))
    (fits : (files.map size).sum < 2 ^ 64)
    (differences : ∀ path ∈ files, ∀ other ∈ files,
      -2 ^ 31 ≤ (size path : Int) - size other ∧ (size path : Int) - size other < 2 ^ 31) :
    ∃ lists assigned rest, execMap qsort stat numMappers files = .ok lists ∧
      lists.mapM ArrayList.readItems = some assigned ∧
      assigned.length = numMappers ∧
      (assigned.flatten ++ rest).Perm files ∧
      (assigned.flatten ++ rest).Pairwise (fun path other => size path ≤ size other) ∧
      (rest.map size).sum ≤ (files.map size).sum % numMappers ∧
      ((∃ path ∈ files, numMappers ≤ size path) → rest = []) := by
  obtain ⟨lists, mapping, stored, total⟩ := execMap_cuts sorts.permutes numMappers measured fits
  let sorted := qsort compareFileSize (files.map fun path => ⟨path, size path⟩)
  let blocks := (cut FileStat.size ((files.map size).sum / numMappers) numMappers sorted).1
  let left := (cut FileStat.size ((files.map size).sum / numMappers) numMappers sorted).2
  have order : blocks.flatten ++ left = sorted :=
    cut_flatten FileStat.size ((files.map size).sum / numMappers) numMappers sorted
  have paths : (blocks.map (·.map FileStat.path)).flatten ++ left.map FileStat.path =
      sorted.map FileStat.path := by
    rw [← List.map_flatten, ← List.map_append, order]
  have agree := (compareFileSize_signs size files).mpr fun path member other present less => by
    have difference := differences path member other present
    omega
  have ascending : (sorted.map FileStat.path).Pairwise
      (fun path other => size path ≤ size other) := sorted_ascending sorts agree
  have remainder : ((left.map FileStat.path).map size).sum ≤
      (files.map size).sum % numMappers := by
    rw [load_paths sorts.permutes (order ▸ List.subset_append_right _ _), ← total]
    simp only [left, ← total]
    exact load_cut_rest_le FileStat.size numMappers sorted
  refine ⟨lists, blocks.map (·.map FileStat.path), left.map FileStat.path, mapping,
    readItems_all lists blocks stored, ?_, ?_, ?_, remainder, ?_⟩
  · rw [List.length_map]
    exact cut_length FileStat.size _ numMappers sorted
  · rw [paths]
    exact sorted_paths sorts.permutes
  · rw [paths]
    exact ascending
  · rintro ⟨path, member, large⟩
    have small := Nat.mod_lt (files.map size).sum positive
    have placed : path ∈ sorted.map FileStat.path :=
      (sorted_paths sorts.permutes).mem_iff.mpr member
    rw [← paths] at placed
    rw [← paths] at ascending
    exact rest_nil_of_ascending size ascending placed
      (Nat.lt_of_le_of_lt remainder (Nat.lt_of_lt_of_le small large))

/-- Two files of one byte for two mappers. -/
theorem execMap_shape_two_files :
    1 ≤ 2 ∧ ∃ lists assigned rest,
      execMap Sorting.insertionQsort (fun path => some path.bytes.length) 2
        [letterFile, letterFile] = .ok lists ∧
      lists.mapM ArrayList.readItems = some assigned ∧
      assigned.length = 2 ∧
      (assigned.flatten ++ rest).Perm [letterFile, letterFile] ∧
      (assigned.flatten ++ rest).Pairwise
        (fun path other => path.bytes.length ≤ other.bytes.length) ∧
      (rest.map fun path => path.bytes.length).sum ≤
        ([letterFile, letterFile].map fun path => path.bytes.length).sum % 2 ∧
      ((∃ path ∈ [letterFile, letterFile], 2 ≤ path.bytes.length) → rest = []) :=
  ⟨by decide, execMap_shape Sorting.insertionQsort Sorting.insertionQsort_sorts
    (fun path => some path.bytes.length) (fun path => path.bytes.length) 2
    [letterFile, letterFile] (by decide) (fun _ _ => rfl) (by decide) (by decide)⟩

/-- No mapper gets more than twice the heaviest group of any division of the files into
as many groups. Nothing is assumed about the order that the sort leaves behind. -/
theorem execMap_balanced (qsort : (FileStat → FileStat → Int) → List FileStat → List FileStat)
    (permutes : ∀ compare items, (qsort compare items).Perm items)
    (stat : CString → Option Nat) (size : CString → Nat) (numMappers : Nat)
    (files : List CString) (positive : 1 ≤ numMappers)
    (measured : ∀ path ∈ files, stat path = some (size path))
    (fits : (files.map size).sum < 2 ^ 64) :
    ∃ lists assigned, execMap qsort stat numMappers files = .ok lists ∧
      lists.mapM ArrayList.readItems = some assigned ∧
      assigned.length = numMappers ∧
      ∀ part ∈ assigned, ∀ groups : List (List CString), groups.length = numMappers →
        groups.flatten.Perm files →
        ∃ group ∈ groups, (part.map size).sum ≤ 2 * (group.map size).sum := by
  obtain ⟨lists, mapping, stored, total⟩ := execMap_cuts permutes numMappers measured fits
  let sorted := qsort compareFileSize (files.map fun path => ⟨path, size path⟩)
  let blocks := (cut FileStat.size ((files.map size).sum / numMappers) numMappers sorted).1
  refine ⟨lists, blocks.map (·.map FileStat.path), mapping,
    readItems_all lists blocks stored, ?_, ?_⟩
  · rw [List.length_map]
    exact cut_length FileStat.size _ numMappers sorted
  · intro part isPart groups count division
    obtain ⟨block, isBlock, rfl⟩ := List.mem_map.mp isPart
    -- The competing division is one of the measured files as well.
    let measuredGroups : List (List FileStat) := groups.map (·.map fun path => ⟨path, size path⟩)
    have same : measuredGroups.flatten.Perm sorted := by
      rw [← List.map_flatten]
      exact (division.map _).trans (permutes _ _).symm
    have inCut : block ∈ (cut FileStat.size (load FileStat.size sorted / numMappers) numMappers
        sorted).1 := by
      rw [total]
      exact isBlock
    obtain ⟨group, isGroup, bound⟩ := cut_balanced FileStat.size positive inCut
      (by rw [List.length_map, count]) same
    obtain ⟨paths, isPaths, rfl⟩ := List.mem_map.mp isGroup
    have within : block ⊆ sorted := by
      intro file inBlock
      rw [show sorted = _ from
        (cut_flatten FileStat.size ((files.map size).sum / numMappers) numMappers sorted).symm]
      exact List.mem_append_left _ (List.mem_flatten.mpr ⟨block, isBlock, inBlock⟩)
    refine ⟨paths, isPaths, ?_⟩
    rw [load_paths permutes within]
    simpa [load, Function.comp_def] using bound

/-- Two files of one size for two mappers. -/
theorem execMap_balanced_two_files :
    1 ≤ 2 ∧ ∃ lists assigned,
      execMap Sorting.insertionQsort (fun path => some path.bytes.length) 2
        [letterFile, letterFile] = .ok lists ∧
      lists.mapM ArrayList.readItems = some assigned ∧
      assigned.length = 2 ∧
      ∀ part ∈ assigned, ∀ groups : List (List CString), groups.length = 2 →
        groups.flatten.Perm [letterFile, letterFile] →
        ∃ group ∈ groups, (part.map fun path => path.bytes.length).sum ≤
          2 * (group.map fun path => path.bytes.length).sum :=
  ⟨by decide, execMap_balanced Sorting.insertionQsort Sorting.insertionQsort_sorts.permutes
    (fun path => some path.bytes.length) (fun path => path.bytes.length) 2
    [letterFile, letterFile] (by decide) (fun _ _ => rfl) (by decide)⟩

/-- The files are allocated in ascending order of size, by a consistent comparison with
the right signs, exactly when for any two files of different size the low 32 bits of the
difference are a positive `int`.

The total and the gathered sizes may wrap around here: whatever the quota, the mappers
take the files in the order of the sort. -/
theorem execMap_ascending_iff
    (qsort : (FileStat → FileStat → Int) → List FileStat → List FileStat)
    (sorts : Sorting.Sorts qsort) (stat : CString → Option Nat) (size : CString → Nat)
    (numMappers : Nat) (files : List CString)
    (measured : ∀ path ∈ files, stat path = some (size path)) :
    ∃ lists assigned, execMap qsort stat numMappers files = .ok lists ∧
      lists.mapM ArrayList.readItems = some assigned ∧
      (((∀ path ∈ files, ∀ other ∈ files,
          (compareFileSize ⟨path, size path⟩ ⟨other, size other⟩).sign =
            ((size path : Int) - size other).sign) ∧
        Sorting.ConsistentOn compareFileSize (files.map fun path => ⟨path, size path⟩) ∧
        ∃ rest, (assigned.flatten ++ rest).Perm files ∧
          (assigned.flatten ++ rest).Pairwise (fun path other => size path ≤ size other)) ↔
      ∀ path ∈ files, ∀ other ∈ files, size other < size path →
        0 < (size path - size other) % 2 ^ 32 ∧ (size path - size other) % 2 ^ 32 < 2 ^ 31) := by
  obtain ⟨lists, blocks, rest, allocating, stored, _, order⟩ := allocateFiles_takes
    ((files.map size).sum % 2 ^ 64 / numMappers) numMappers
    (qsort compareFileSize (files.map fun path => ⟨path, size path⟩))
  refine ⟨lists, blocks.map (·.map FileStat.path), ?_, readItems_all lists blocks stored, ?_⟩
  · rw [execMap_eq qsort numMappers measured, allocating]
  · rw [← compareFileSize_signs]
    refine ⟨fun all => all.1, fun agree =>
      ⟨agree, compareFileSize_consistent agree, rest.map FileStat.path, ?_⟩⟩
    rw [← List.map_flatten, ← List.map_append, order]
    exact ⟨sorted_paths sorts.permutes, sorted_ascending sorts agree⟩

/-- A file of three gibibytes and one of a single byte. -/
def giganticSize (path : CString) : Nat := if path = letterFile then 3 * 2 ^ 30 else 1

/-- Two files of different sizes, the larger one first on the command line. -/
theorem execMap_ascending_iff_two_files :
    ∃ lists assigned,
      execMap Sorting.insertionQsort (fun path => some (fewBytes path)) 2
        [letterFile, otherFile] = .ok lists ∧
      lists.mapM ArrayList.readItems = some assigned ∧
      (((∀ path ∈ [letterFile, otherFile], ∀ other ∈ [letterFile, otherFile],
          (compareFileSize ⟨path, fewBytes path⟩ ⟨other, fewBytes other⟩).sign =
            ((fewBytes path : Int) - fewBytes other).sign) ∧
        Sorting.ConsistentOn compareFileSize
          ([letterFile, otherFile].map fun path => ⟨path, fewBytes path⟩) ∧
        ∃ rest, (assigned.flatten ++ rest).Perm [letterFile, otherFile] ∧
          (assigned.flatten ++ rest).Pairwise
            (fun path other => fewBytes path ≤ fewBytes other)) ↔
      ∀ path ∈ [letterFile, otherFile], ∀ other ∈ [letterFile, otherFile],
        fewBytes other < fewBytes path →
          0 < (fewBytes path - fewBytes other) % 2 ^ 32 ∧
          (fewBytes path - fewBytes other) % 2 ^ 32 < 2 ^ 31) ∧
      fewBytes otherFile < fewBytes letterFile := by
  obtain ⟨lists, assigned, mapped, reads, ascending⟩ :=
    execMap_ascending_iff Sorting.insertionQsort Sorting.insertionQsort_sorts
      (fun path => some (fewBytes path)) fewBytes 2 [letterFile, otherFile] (fun _ _ => rfl)
  exact ⟨lists, assigned, mapped, reads, ascending, by decide⟩

/-- Three gibibytes compare as less than one byte, and are given to the mapper first. -/
theorem gigantic_file_is_first :
    compareFileSize ⟨letterFile, giganticSize letterFile⟩ ⟨otherFile, giganticSize otherFile⟩ < 0 ∧
      giganticSize otherFile < giganticSize letterFile ∧
      ∃ lists, execMap Sorting.insertionQsort (fun path => some (giganticSize path)) 1
          [letterFile, otherFile] = .ok lists ∧
        lists.mapM ArrayList.readItems = some [[letterFile, otherFile]] := by
  refine ⟨by decide, by decide, ?_⟩
  have measured : ∀ path ∈ [letterFile, otherFile],
      (fun path => some (giganticSize path)) path = some (giganticSize path) := fun _ _ => rfl
  obtain ⟨lists, mapping, stored, _⟩ :=
    execMap_cuts Sorting.insertionQsort_sorts.permutes 1 measured (by decide)
  exact ⟨lists, mapping, readItems_all lists _ stored⟩

end OsLabwork.MapReduce
