import OsLabwork.Library.RunLength
import OsLabwork.Library.Splitting
import OsLabwork.Library.Streams

/-!
# The compressor

`seuzip` feeds every byte of its files through `printCompressed`, which counts equal
bytes in static variables and writes a count and a byte when the run ends. The
variables live on across files; a last call with the value of `EOF` writes the
pending run.

Bytes pass through the `char` type before they are compared with `EOF`. A byte with
all bits set is taken for the end of its file. Files without such a byte are compressed
to the canonical run-length code of their concatenation.
-/

namespace OsLabwork.Utilities

open RunLength

/-- The static variables of `printCompressed` and what has been written so far. -/
structure ZipState where
  previous : UInt8
  count : Nat
  stdout : List UInt8
deriving DecidableEq, Repr

/-- The state before the first byte. -/
def zipStart : ZipState := ⟨0, 0, []⟩

/-- `printCompressed`. -/
def printCompressed (state : ZipState) (current : UInt8) : ZipState :=
  if (state.previous = current ∨ state.count = 0) ∧ state.count ≠ uintMax then
    { state with count := (state.count + 1) % 2 ^ 32, previous := current }
  else
    { stdout := state.stdout ++ unsignedBytes state.count ++ [state.previous]
      count := 1
      previous := current }

/-- `while ((current = fgetc(pFile)) != EOF)`; there is no result when the fuel does
not suffice. -/
def compressLoop : Nat → ZipState → Stream → Option ZipState
  | 0, _, _ => none
  | fuel + 1, state, stream =>
      let current := toChar stream.fgetc.1
      if charValue current ≠ eofValue then
        compressLoop fuel (printCompressed state current) stream.fgetc.2
      else some state

/-- The loop over the files and the last call. -/
def zipFiles (fuel : Nat) (fopen : CString → Option Stream) :
    List CString → ZipState → Option Outcome
  | [], state => some ⟨(printCompressed state (toChar eofValue)).stdout, 0⟩
  | path :: paths, state =>
      match fopen path with
      | none => some ⟨state.stdout ++ ascii "cannot open file\n", 1⟩
      | some stream => (compressLoop fuel state stream).bind (zipFiles fuel fopen paths)

/-- The program on its arguments, the name of the program left out. -/
def seuzip (fuel : Nat) (fopen : CString → Option Stream) (paths : List CString) :
    Option Outcome :=
  if paths = [] then some ⟨ascii "seuzip: file1 [file2 ...]\n", 1⟩
  else zipFiles fuel fopen paths zipStart

/-- A run as it is written. -/
def entryBytes (run : Run UInt8) : List UInt8 := unsignedBytes run.count ++ [run.value]

/-- The bytes of a file up to the first one that is taken for its end. -/
def readable (content : List UInt8) : List UInt8 := content.takeWhile (fun byte => byte ≠ 255)

/-- The static variables hold the newest run, and all earlier ones have been written. -/
def ZipState.Holds (state : ZipState) : List (Run UInt8) → Prop
  | [] => state.count = 0 ∧ state.stdout = []
  | run :: done => run = ⟨state.count, state.previous⟩ ∧
      state.stdout = done.reverse.flatMap entryBytes

/-- One call takes one byte into the runs. -/
theorem ZipState.Holds.printCompressed {state : ZipState} {runs : List (Run UInt8)}
    (holds : state.Holds runs) (bounded : Bounded uintMax runs) (current : UInt8) :
    (printCompressed state current).Holds (push uintMax runs current) := by
  cases runs with
  | nil =>
    obtain ⟨fresh, unwritten⟩ := holds
    simp [Utilities.printCompressed, fresh, push, ZipState.Holds, unwritten, uintMax]
  | cons run done =>
    obtain ⟨rfl, written⟩ := holds
    obtain ⟨positive, below⟩ := bounded _ List.mem_cons_self
    have started : state.count ≠ 0 := Nat.ne_of_gt positive
    by_cases extends' : state.previous = current ∧ state.count ≠ uintMax
    · have wrapped : (state.count + 1) % 2 ^ 32 = state.count + 1 := by
        have room := extends'.2
        simp only [uintMax] at below room
        exact Nat.mod_eq_of_lt (by omega)
      have counts : (state.previous = current ∨ state.count = 0) ∧ state.count ≠ uintMax :=
        ⟨Or.inl extends'.1, extends'.2⟩
      simp only [push]
      rw [Utilities.printCompressed, if_pos counts, if_pos extends', wrapped]
      exact ⟨rfl, written⟩
    · simp [Utilities.printCompressed, push, extends', started, ZipState.Holds, written, entryBytes]

/-- Reading a file takes its readable bytes into the runs. -/
theorem compressLoop_holds {state : ZipState} {runs : List (Run UInt8)} (holds : state.Holds runs)
    (bounded : Bounded uintMax runs) (content : List UInt8) (stream : Stream)
    (stored : stream.rest = content) (fuel : Nat) (enough : content.length < fuel) :
    ∃ final, compressLoop fuel state stream = some final ∧
      final.Holds (pushAll uintMax runs (readable content)) := by
  induction content generalizing state runs stream fuel with
  | nil =>
    cases fuel with
    | zero => simp at enough
    | succ fuel =>
      refine ⟨state, ?_, holds⟩
      simp [compressLoop, Stream.fgetc, stored, charValue_eq_eofValue_iff]
  | cons byte rest inductionHypothesis =>
    cases fuel with
    | zero => simp at enough
    | succ fuel =>
      by_cases ends : byte = 255
      · refine ⟨state, ?_, ?_⟩
        · have taken : charValue byte = eofValue := (charValue_eq_eofValue_iff byte).mpr ends
          simp [compressLoop, Stream.fgetc, stored, taken]
        · simpa [readable, ends, pushAll] using holds
      · obtain ⟨final, onward, held⟩ := inductionHypothesis (holds.printCompressed bounded byte)
          (bounded.push (by decide) byte) { stream with rest := rest } rfl fuel
          (by simpa using enough)
        refine ⟨final, ?_, ?_⟩
        · simpa [compressLoop, Stream.fgetc, stored, charValue_eq_eofValue_iff, ends] using onward
        · simpa [readable, ends, pushAll] using held

/-- The last call writes the pending run: no run consists of the value it passes. -/
theorem ZipState.Holds.flush {state : ZipState} {runs : List (Run UInt8)}
    (holds : state.Holds runs) (bounded : Bounded uintMax runs)
    (clean : (255 : UInt8) ∉ expand runs.reverse) :
    (Utilities.printCompressed state (toChar eofValue)).stdout =
      runs.reverse.flatMap entryBytes := by
  rw [toChar_eofValue]
  cases runs with
  | nil =>
    obtain ⟨fresh, unwritten⟩ := holds
    simp [Utilities.printCompressed, fresh, unwritten, uintMax]
  | cons run done =>
    obtain ⟨rfl, written⟩ := holds
    have started : state.count ≠ 0 := Nat.ne_of_gt (bounded _ List.mem_cons_self).1
    have differs : state.previous ≠ 255 := by
      intro same
      apply clean
      simp [Run.items, started, same]
    simp [Utilities.printCompressed, started, differs, written, entryBytes]

/-- On files that can all be opened, the program ends normally and writes the runs of
the readable bytes of all files together. -/
theorem zipFiles_writes (fopen : CString → Option Stream) (contents : CString → List UInt8)
    (paths : List CString)
    (openable : ∀ path ∈ paths, ∃ stream, fopen path = some stream ∧ stream.rest = contents path)
    {state : ZipState} {runs : List (Run UInt8)} (holds : state.Holds runs)
    (bounded : Bounded uintMax runs) (clean : (255 : UInt8) ∉ expand runs.reverse) (fuel : Nat)
    (enough : ∀ path ∈ paths, (contents path).length < fuel) :
    zipFiles fuel fopen paths state = some ⟨(pushAll uintMax runs
      (paths.flatMap fun path => readable (contents path))).reverse.flatMap entryBytes, 0⟩ := by
  induction paths generalizing state runs with
  | nil =>
    rw [zipFiles, holds.flush bounded clean]
    rfl
  | cons path paths inductionHypothesis =>
    obtain ⟨stream, opened, stored⟩ := openable path List.mem_cons_self
    obtain ⟨next, looping, held⟩ := compressLoop_holds holds bounded (contents path) stream stored
      fuel (enough path List.mem_cons_self)
    have stillClean : (255 : UInt8) ∉
        expand (pushAll uintMax runs (readable (contents path))).reverse := by
      rw [expand_pushAll, List.mem_append]
      rintro (earlier | here)
      · exact clean earlier
      · simpa using List.mem_takeWhile_imp here
    have onward := inductionHypothesis
      (fun other member => openable other (List.mem_cons_of_mem _ member)) held
      (bounded.pushAll (by decide) _) stillClean
      (fun other member => enough other (List.mem_cons_of_mem _ member))
    simp only [zipFiles, opened, looping, Option.bind_some, onward, List.flatMap_cons,
      pushAll_append]

/-- A file is read to its end exactly when no byte is taken for it. -/
theorem readable_eq_self_iff (content : List UInt8) :
    readable content = content ↔ (255 : UInt8) ∉ content :=
  Splitting.takeWhile_ne_eq_self_iff 255 content

/-- The runs of a text, oldest first. -/
def code (text : List UInt8) : List (Run UInt8) := (pushAll uintMax [] text).reverse

/-- The code is canonical. -/
theorem code_canonical (text : List UInt8) : Canonical uintMax (code text) := by
  have nothing : Canonical uintMax ([] : List (Run UInt8)).reverse := ⟨by simp [Bounded], by simp⟩
  exact nothing.pushAll (by decide) text

/-- It is a code of the text. -/
theorem expand_code (text : List UInt8) : expand (code text) = text :=
  expand_pushAll uintMax [] text

/-- The program writes the code of what it reads of its files. -/
theorem seuzip_writes (fopen : CString → Option Stream) (contents : CString → List UInt8)
    (paths : List CString) (nonempty : paths ≠ [])
    (openable : ∀ path ∈ paths, ∃ stream, fopen path = some stream ∧ stream.rest = contents path)
    (fuel : Nat) (enough : (paths.flatMap contents).length < fuel) :
    seuzip fuel fopen paths =
      some ⟨(code (paths.flatMap fun path => readable (contents path))).flatMap entryBytes, 0⟩ := by
  have each : ∀ path ∈ paths, (contents path).length < fuel := by
    intro path member
    have part : (contents path).length ≤ (paths.flatMap contents).length :=
      (List.sublist_flatten_of_mem (List.mem_map_of_mem member)).length_le
    omega
  have unused : zipStart.Holds [] := ⟨rfl, rfl⟩
  rw [seuzip, if_neg nonempty]
  exact zipFiles_writes fopen contents paths openable unused (by simp [Bounded]) (by simp) fuel each

/-- The program ends normally, and this is its whole output. -/
def Writes (fopen : CString → Option Stream) (paths : List CString) (output : List UInt8) : Prop :=
  ∃ enough, ∀ fuel, enough < fuel → seuzip fuel fopen paths = some ⟨output, 0⟩

/-- The program writes it. -/
theorem writes_code (fopen : CString → Option Stream) (contents : CString → List UInt8)
    (paths : List CString) (nonempty : paths ≠ [])
    (openable : ∀ path ∈ paths, ∃ stream, fopen path = some stream ∧ stream.rest = contents path)
    (clean : ∀ path ∈ paths, (255 : UInt8) ∉ contents path) :
    Writes fopen paths ((code (paths.flatMap contents)).flatMap entryBytes) := by
  refine ⟨(paths.flatMap contents).length, ?_⟩
  intro fuel enough
  have whole : (paths.flatMap fun path => readable (contents path)) = paths.flatMap contents := by
    apply List.flatMap_congr
    intro path member
    exact (readable_eq_self_iff (contents path)).mpr (clean path member)
  rw [seuzip_writes fopen contents paths nonempty openable fuel enough, whole]

/-- For every nonempty list of files without a byte whose bits are all set, the output is
the code of the concatenation of the files, whatever the files are cut at. The entries of
the code stand for the concatenation, their counts are from 1 to `UINT_MAX`, and one is
followed by another of its byte only when its count is `UINT_MAX`. Conversely, all entries
of that shape without such a byte are the output for some single file. -/
theorem seuzip_output_is_canonical (fopen : CString → Option Stream)
    (contents : CString → List UInt8) (paths : List CString) (nonempty : paths ≠ [])
    (openable : ∀ path ∈ paths, ∃ stream, fopen path = some stream ∧ stream.rest = contents path)
    (clean : ∀ path ∈ paths, (255 : UInt8) ∉ contents path) :
    Writes fopen paths ((code (paths.flatMap contents)).flatMap entryBytes) ∧
    expand (code (paths.flatMap contents)) = paths.flatMap contents ∧
    Canonical uintMax (code (paths.flatMap contents)) ∧
    ∀ runs : List (Run UInt8), Canonical uintMax runs → (∀ run ∈ runs, run.value ≠ 255) →
      ∃ content, ∀ (anyFopen : CString → Option Stream) (path : CString) (stream : Stream),
        anyFopen path = some stream → stream.rest = content →
        Writes anyFopen [path] (runs.flatMap entryBytes) := by
  refine ⟨writes_code fopen contents paths nonempty openable clean, expand_code _,
    code_canonical _, ?_⟩
  intro runs canonical plain
  refine ⟨expand runs, ?_⟩
  intro anyFopen path stream opened stored
  have plainText : (255 : UInt8) ∉ expand runs := by
    intro member
    obtain ⟨run, present, inRun⟩ := List.mem_flatMap.mp member
    exact plain run present (List.eq_of_mem_replicate inRun).symm
  have written := writes_code anyFopen (fun _ => expand runs) [path] (by simp)
    (by simpa using ⟨stream, opened, stored⟩) (by simpa using plainText)
  have same : code (expand runs) = runs := pushAll_expand canonical
  rwa [List.flatMap_singleton, same] at written

/-- Two files with a run across their boundary. -/
def boundaryRun (path : CString) : List UInt8 :=
  if path.bytes = ascii "f" then ascii "ab" else ascii "bbc"

/-- A run that goes on in the next file. -/
theorem seuzip_output_is_canonical_boundary_run :
    Writes (fun path => some (Stream.file (boundaryRun path)))
      [CString.leading (ascii "f"), CString.leading (ascii "g")]
      [1, 0, 0, 0, 97, 3, 0, 0, 0, 98, 1, 0, 0, 0, 99] :=
  (seuzip_output_is_canonical (fun path => some (Stream.file (boundaryRun path))) boundaryRun
    [CString.leading (ascii "f"), CString.leading (ascii "g")] (by simp)
    (fun path _ => ⟨_, rfl, rfl⟩) (by decide)).1

end OsLabwork.Utilities
