import OsLabwork.Library.OpenFiles
import OsLabwork.Shell.SearchPath

/-!
# Redirected output

For `> file` the child opens the file once for its standard output and once more for its
standard error. So the streams have offsets of their own, and what is written to one of
them lands on top of what was written to the other. The file holds everything that was
written, in order, exactly when only one of the streams was used.
-/

namespace OsLabwork.Shell

open OpenFiles

variable {W : Type}

/-- The streams that a command writes to. -/
inductive OutputStream where
  | stdout
  | stderr
deriving DecidableEq, Repr

/-- The open files of a child when it has redirected its output. -/
def ChildRun.files (child : ChildRun) (files : Files CString OutputStream) :
    Files CString OutputStream :=
  match child.redirect with
  | none => files
  | some redirectDest => (files.freopen redirectDest .stdout).freopen redirectDest .stderr

/-- Every branch of the child redirects as the command says. -/
theorem childProcess_redirect (kernel : Kernel W) (world : W) (path : List PathEntry)
    (command : Command) : (childProcess kernel world path command).redirect = command.redirect := by
  simp only [childProcess]
  split
  · split
    · rfl
    · split
      · rfl
      · rfl
  · rfl

/-- Both streams are at the beginning of the empty file. -/
theorem redirected_tracks {child : ChildRun} {dest : CString} (redirects : child.redirect = some dest)
    (files : Files CString OutputStream) :
    Tracks (child.files files) dest .stdout .stderr 0 0 ∧ (child.files files).content dest = [] := by
  simp only [ChildRun.files, redirects, Files.freopen]
  refine ⟨⟨?_, ?_, ?_⟩, ?_⟩
  · simp [Function.update_of_ne]
  · simp
  · simp
  · simp

/-- There are two streams. -/
theorem OutputStream.one_or_other (stream : OutputStream) :
    stream = .stdout ∨ stream = .stderr := by
  cases stream with
  | stdout => exact Or.inl rfl
  | stderr => exact Or.inr rfl

/-- A stream with nothing written to it is silent. -/
theorem silent_of_writtenTo {stream : OutputStream} {writes : List (OutputStream × List UInt8)}
    (nothing : writtenTo stream writes = []) : ∀ write ∈ writes, write.1 = stream → write.2 = [] := by
  intro write member isStream
  rw [writtenTo, written, List.flatten_eq_nil_iff] at nothing
  apply nothing write.2
  exact List.mem_map.mpr ⟨write, List.mem_filter.mpr ⟨member, by simpa using isStream⟩, rfl⟩

/-- A file that one stream alone is written to holds all that is written, in order. -/
theorem redirected_alone {files : Files CString OutputStream} {dest : CString}
    {stream other : OutputStream} (opened : files.opened stream = some ⟨dest, 0⟩)
    (empty : files.content dest = []) (only : ∀ used, used = stream ∨ used = other)
    {writes : List (OutputStream × List UInt8)} (nothing : writtenTo other writes = []) :
    (files.writeAll writes).content dest = written writes := by
  have silent : ∀ write ∈ writes, write.1 ≠ stream → write.2 = [] := by
    intro write member different
    rcases only write.1 with same | isOther
    · exact absurd same different
    · exact silent_of_writtenTo nothing write member isOther
  have appended := writeAll_appends (by rw [empty]; exact opened) writes silent
  rwa [empty, List.nil_append] at appended

/-- Whatever a child of the shell whose output is redirected writes to its streams, and in
whatever order, the file holds the concatenation of it all exactly when one of the streams
is not written to. -/
theorem redirected_output_is_complete_iff (kernel : Kernel W) (world : W) (path : List PathEntry)
    (command : Command) (dest : CString) (redirects : command.redirect = some dest)
    (files : Files CString OutputStream) (writes : List (OutputStream × List UInt8)) :
    (((childProcess kernel world path command).files files).writeAll writes).content dest =
        written writes ↔
      writtenTo .stdout writes = [] ∨ writtenTo .stderr writes = [] := by
  have childRedirects : (childProcess kernel world path command).redirect = some dest :=
    (childProcess_redirect kernel world path command).trans redirects
  obtain ⟨tracks, empty⟩ := redirected_tracks childRedirects files
  have different : OutputStream.stdout ≠ .stderr := by decide
  have among : ∀ write ∈ writes, write.1 = .stdout ∨ write.1 = .stderr :=
    fun write _ => write.1.one_or_other
  have both := tracks.writeAll different writes among
  have total := written_length different writes among
  constructor
  · intro complete
    have length := both.length
    rw [complete, total] at length
    rw [← List.length_eq_zero_iff, ← List.length_eq_zero_iff]
    omega
  · rintro (noOutput | noError)
    · exact redirected_alone tracks.second empty (fun used => used.one_or_other.symm) noOutput
    · exact redirected_alone tracks.first empty OutputStream.one_or_other noError

/-- `ls > out`. -/
def redirectedLs : Command := { lsCommand with redirect := some (CString.leading (ascii "out")) }

/-- No file has content and no stream is open. -/
def noFiles : Files CString OutputStream := ⟨fun _ => [], fun _ => none⟩

/-- Output to one stream only. -/
theorem redirected_output_is_complete_iff_one_stream :
    (((childProcess obligingKernel () binState.path redirectedLs).files noFiles).writeAll
        [(.stdout, ascii "ab"), (.stdout, ascii "c")]).content (CString.leading (ascii "out")) =
      ascii "abc" :=
  (redirected_output_is_complete_iff obligingKernel () binState.path redirectedLs _ rfl noFiles
    [(.stdout, ascii "ab"), (.stdout, ascii "c")]).mpr (by decide)

/-- Of `ab` on standard output and then `c` on standard error, `cb` is left. -/
theorem error_overwrites_output :
    (((childProcess obligingKernel () binState.path redirectedLs).files noFiles).writeAll
        [(.stdout, ascii "ab"), (.stderr, ascii "c")]).content (CString.leading (ascii "out")) =
      ascii "cb" ∧
    written [(OutputStream.stdout, ascii "ab"), (.stderr, ascii "c")] = ascii "abc" := by
  decide +kernel

end OsLabwork.Shell
