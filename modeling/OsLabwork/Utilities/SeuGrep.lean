import Mathlib.Data.List.Infix
import OsLabwork.Library.LineReading
import OsLabwork.Library.Splitting

/-!
# The line searcher

`searchStrFromFile` reads line after line with `getline`, looks for the term with
`strstr` and prints the line with `printf`. The last two take the line for a C string. A
line with a NUL is therefore searched, and printed, only up to the NUL.

The loop is given a fuel, and there is no result when it does not suffice.
-/

namespace OsLabwork.Utilities

open BufferedInput

/-- What is printed for one line. -/
def searchLine (str : CString) (buffer : List UInt8) : List UInt8 :=
  if (strstr (CString.leading buffer) str).isSome then (CString.leading buffer).bytes else []

/-- `searchStrFromFile`. -/
def searchStrFromFile (str : CString) : Nat → Stream → List UInt8 → Option (List UInt8)
  | 0, _, _ => none
  | fuel + 1, stream, stdout =>
      match stream.getline with
      | (none, _) => some stdout
      | (some buffer, next) => searchStrFromFile str fuel next (stdout ++ searchLine str buffer)

/-- The loop of `main` over the files. -/
def searchFiles (fuel : Nat) (fopen : CString → Option Stream) (str : CString) :
    List CString → List UInt8 → Option Outcome
  | [], stdout => some ⟨stdout, 0⟩
  | path :: paths, stdout =>
      match fopen path with
      | none => some ⟨stdout ++ ascii "cannot open file\n", 1⟩
      | some stream =>
          (searchStrFromFile str fuel stream stdout).bind (searchFiles fuel fopen str paths)

/-- The program on its arguments, the name of the program left out. -/
def seugrep (fuel : Nat) (fopen : CString → Option Stream) (stdin : Stream) :
    List CString → Option Outcome
  | [] => some ⟨ascii "searchterm [file ...]\n", 1⟩
  | [str] => (searchStrFromFile str fuel stdin []).map (⟨·, 0⟩)
  | str :: path :: paths => searchFiles fuel fopen str (path :: paths) []

/-- The lines of a content, with their newlines, in which the term occurs. -/
def matchingLines (str : CString) (content : List UInt8) : List (List UInt8) :=
  (lines endsLine content).filter fun line => str.bytes <:+: line

/-- What is searched: the standard input, unless there are files. -/
def searchedContents (input : List UInt8) (contents : CString → List UInt8) :
    List CString → List (List UInt8)
  | [] => [input]
  | path :: paths => (path :: paths).map contents

/-- The loop goes through the lines of the content. -/
theorem searchStrFromFile_lines (str : CString) (fuel : Nat) {stream : Stream}
    (sound : stream.Sound) (enough : (lines endsLine stream.rest).length < fuel)
    (stdout : List UInt8) :
    searchStrFromFile str fuel stream stdout =
      some (stdout ++ (lines endsLine stream.rest).flatMap (searchLine str)) := by
  induction fuel generalizing stream stdout with
  | zero => exact absurd enough (Nat.not_lt_zero _)
  | succ fuel inductionHypothesis =>
    obtain ⟨delivered, remaining, later⟩ := Stream.getline_lines sound
    rw [searchStrFromFile]
    rcases read : stream.getline with ⟨_ | line, next⟩
    · rw [read, eq_comm, List.head?_eq_none_iff] at delivered
      simp [delivered]
    · rw [read] at delivered remaining later
      obtain ⟨others, shape⟩ := List.head?_eq_some_iff.mp delivered.symm
      rw [shape, List.tail_cons] at remaining
      rw [shape, List.length_cons] at enough
      have continued := inductionHypothesis later (by rw [remaining]; omega)
        (stdout ++ searchLine str line)
      simp only [continued, remaining, shape, List.flatMap_cons, List.append_assoc]

/-- A file is searched line by line. -/
theorem searchStrFromFile_file (str : CString) (content : List UInt8) (fuel : Nat)
    (enough : content.length < fuel) (stdout : List UInt8) :
    searchStrFromFile str fuel (Stream.file content) stdout =
      some (stdout ++ (lines endsLine content).flatMap (searchLine str)) :=
  searchStrFromFile_lines str fuel (Stream.file_sound content)
    (Nat.lt_of_le_of_lt (lines_length_le endsLine content) enough) stdout

/-- So are the files, in order. -/
theorem searchFiles_lines (fopen : CString → Option Stream) (contents : CString → List UInt8)
    (str : CString) (paths : List CString)
    (openable : ∀ path ∈ paths, fopen path = some (Stream.file (contents path))) (fuel : Nat)
    (enough : (paths.flatMap contents).length < fuel) (stdout : List UInt8) :
    searchFiles fuel fopen str paths stdout =
      some ⟨stdout ++ (paths.flatMap fun path => lines endsLine (contents path)).flatMap
        (searchLine str), 0⟩ := by
  induction paths generalizing stdout with
  | nil => simp [searchFiles]
  | cons path paths inductionHypothesis =>
    obtain ⟨opened, others⟩ := List.forall_mem_cons.mp openable
    rw [List.flatMap_cons, List.length_append] at enough
    have file := searchStrFromFile_file str (contents path) fuel (by omega) stdout
    have continued := inductionHypothesis others (by omega)
    simp [searchFiles, opened, file, continued]

/-- The program prints what is printed for each line of what it searches. -/
theorem seugrep_lines (fopen : CString → Option Stream) (input : List UInt8)
    (contents : CString → List UInt8) (str : CString) (paths : List CString)
    (openable : ∀ path ∈ paths, fopen path = some (Stream.file (contents path))) (fuel : Nat)
    (enough : input.length + (paths.flatMap contents).length < fuel) :
    seugrep fuel fopen (Stream.file input) (str :: paths) =
      some ⟨((searchedContents input contents paths).flatMap (lines endsLine)).flatMap
        (searchLine str), 0⟩ := by
  cases paths with
  | nil =>
    have search := searchStrFromFile_file str input fuel (by omega) []
    simp [seugrep, search, searchedContents]
  | cons path paths =>
    have search := searchFiles_lines fopen contents str (path :: paths) openable fuel (by omega) []
    simpa [seugrep, searchedContents, List.flatMap_map] using search

/-- The part of a line that should be printed. -/
def wantedLine (str : CString) (line : List UInt8) : List UInt8 :=
  if str.bytes <:+: line then line else []

/-- The matching lines, one after the other. -/
theorem matchingLines_flatten (str : CString) (content : List UInt8) :
    (matchingLines str content).flatten = (lines endsLine content).flatMap (wantedLine str) := by
  rw [matchingLines]
  induction lines endsLine content with
  | nil => rfl
  | cons line others inductionHypothesis =>
    rw [List.flatMap_cons, ← inductionHypothesis, wantedLine]
    by_cases occurs : str.bytes <:+: line <;> simp [occurs]

/-- What is printed of a line is what is before its zero byte. -/
theorem searchLine_eq (str : CString) (line : List UInt8) :
    searchLine str line =
      if str.bytes <:+: (CString.leading line).bytes then (CString.leading line).bytes else [] := by
  simp only [searchLine, strstr, strstrBytes_isSome_iff]

/-- What occurs before the NUL of a line occurs in the line. -/
theorem occurs_of_leading (str : CString) (line : List UInt8)
    (occurs : str.bytes <:+: (CString.leading line).bytes) : str.bytes <:+: line :=
  occurs.trans (List.takeWhile_prefix _).isInfix

/-- Nothing is added to a line. -/
theorem searchLine_length_le (str : CString) (line : List UInt8) :
    (searchLine str line).length ≤ (wantedLine str line).length := by
  rw [searchLine_eq, wantedLine]
  split
  · next occurs =>
    rw [if_pos (occurs_of_leading str line occurs)]
    exact (List.takeWhile_sublist _).length_le
  · exact Nat.zero_le _

/-- A line is treated as it should be unless the term occurs in it and it has a NUL. -/
theorem searchLine_eq_wantedLine_iff (str : CString) (line : List UInt8) :
    searchLine str line = wantedLine str line ↔ (str.bytes <:+: line → (0 : UInt8) ∉ line) := by
  have whole : (CString.leading line).bytes = line ↔ (0 : UInt8) ∉ line :=
    Splitting.takeWhile_ne_eq_self_iff 0 line
  rw [searchLine_eq, wantedLine, ← whole]
  by_cases occurs : str.bytes <:+: line
  · rw [if_pos occurs]
    by_cases early : str.bytes <:+: (CString.leading line).bytes
    · simp [early, occurs]
    · rw [if_neg early]
      have cut : (CString.leading line).bytes ≠ line := by
        intro same
        rw [same] at early
        exact early occurs
      have nonempty : [] ≠ line := by
        rintro rfl
        exact cut rfl
      simp [occurs, cut, nonempty]
  · have absent : ¬ str.bytes <:+: (CString.leading line).bytes := fun early =>
      occurs (occurs_of_leading str line early)
    simp [occurs, absent]

/-- For every term and all files that can be opened, or the standard input without files,
the output is the concatenation of the lines in which the term occurs exactly when none of
these lines has a NUL. -/
theorem seugrep_matching_lines_iff (fopen : CString → Option Stream) (input : List UInt8)
    (contents : CString → List UInt8) (str : CString) (paths : List CString)
    (openable : ∀ path ∈ paths, fopen path = some (Stream.file (contents path))) :
    ∃ enough output, ∀ fuel, enough < fuel →
      seugrep fuel fopen (Stream.file input) (str :: paths) = some ⟨output, 0⟩ ∧
      (output = ((searchedContents input contents paths).flatMap (matchingLines str)).flatten ↔
        ∀ content ∈ searchedContents input contents paths, ∀ line ∈ lines endsLine content,
          str.bytes <:+: line → (0 : UInt8) ∉ line) := by
  refine ⟨input.length + (paths.flatMap contents).length, _, fun fuel enough =>
    ⟨seugrep_lines fopen input contents str paths openable fuel enough, ?_⟩⟩
  have wanted : ((searchedContents input contents paths).flatMap (matchingLines str)).flatten =
      ((searchedContents input contents paths).flatMap (lines endsLine)).flatMap
        (wantedLine str) := by
    induction searchedContents input contents paths with
    | nil => rfl
    | cons content others inductionHypothesis =>
      simp only [List.flatMap_cons, List.flatten_append, List.flatMap_append, inductionHypothesis,
        matchingLines_flatten]
  rw [wanted, Splitting.flatMap_eq_iff fun line _ => searchLine_length_le str line]
  simp only [searchLine_eq_wantedLine_iff, List.mem_flatMap]
  exact ⟨fun all content isContent line isLine => all line ⟨content, isContent, isLine⟩,
    fun all line ⟨content, isContent, isLine⟩ => all content isContent line isLine⟩

/-- A line with a NUL behind the term, and a line without one. -/
def nulLine : List UInt8 := [97, 0, 98, 10, 97, 10]

/-- A line with a zero byte. -/
theorem seugrep_matching_lines_iff_nul_line :
    ∃ enough output, ∀ fuel, enough < fuel →
      seugrep fuel (fun _ => some (Stream.file nulLine)) (Stream.file [])
        [CString.leading (ascii "a"), CString.leading (ascii "f")] = some ⟨output, 0⟩ ∧
      (output = ((searchedContents [] (fun _ => nulLine)
            [CString.leading (ascii "f")]).flatMap
          (matchingLines (CString.leading (ascii "a")))).flatten ↔
        ∀ content ∈ searchedContents [] (fun _ => nulLine) [CString.leading (ascii "f")],
          ∀ line ∈ lines endsLine content,
            (CString.leading (ascii "a")).bytes <:+: line → (0 : UInt8) ∉ line) :=
  seugrep_matching_lines_iff (fun _ => some (Stream.file nulLine)) [] (fun _ => nulLine)
    (CString.leading (ascii "a")) [CString.leading (ascii "f")] (fun _ _ => rfl)

/-- The first line is printed up to its NUL only: neither the letter behind it nor the
newline is printed. -/
theorem line_is_cut_at_its_nul :
    seugrep 9 (fun _ => some (Stream.file nulLine)) (Stream.file [])
        [CString.leading (ascii "a"), CString.leading (ascii "f")] =
      some ⟨[97, 97, 10], 0⟩ ∧
    (matchingLines (CString.leading (ascii "a")) nulLine).flatten = [97, 0, 98, 10, 97, 10] := by
  decide

end OsLabwork.Utilities
