import OsLabwork.Shell.InPlace
import OsLabwork.Shell.SearchPath
import OsLabwork.Shell.Segments

/-!
# The buffer of a candidate

The child writes each candidate, a directory, a `/` and the name of the command, into a
block that it sizes by the length of `cmd_line` instead of that of the name. By then
`cmd_line` has been cut at its first blank. When that blank is behind the name, the two
are the same string. When the segment begins with a blank, `cmd_line` is empty, and the
block has no room for the name.
-/

namespace OsLabwork.Shell

open CMemory

/-- `real_path_size`, from the memory that parsing has left. -/
def realPathSize (memory : List UInt8) (cmdLine : Nat) (entry : PathEntry) : Nat :=
  entry.text.bytes.length + 1 + strlen memory cmdLine + 1

/-- The bytes that the three calls of `strcat` write, a NUL at the end included. -/
def candidateSize (entry : PathEntry) (name : CString) : Nat :=
  entry.text.bytes.length + 1 + name.bytes.length + 1

/-- The string that is put between a directory and a name. -/
def slash : CString := CString.leading (ascii "/")

/-- The block when the three calls of `strcat` are done, if they stay in it. -/
def candidateBlock (size : Nat) (entry : PathEntry) (name : CString) : Option (List UInt8) :=
  (strcat (List.replicate size 0) entry.text).bind fun block =>
    (strcat block slash).bind fun block => strcat block name

/-- The calls of `strcat` stay in a block of sufficient size and build the candidate in it;
in a smaller block they do not stay. -/
theorem candidateBlock_builds (size : Nat) (entry : PathEntry) (name : CString) :
    candidateBlock size entry name =
      if candidateSize entry name ≤ size then
        some ((realPath entry name).bytes ++
          List.replicate (size - (realPath entry name).bytes.length) 0)
      else none := by
  have needed : candidateSize entry name =
      entry.text.bytes.length + 1 + name.bytes.length + 1 := rfl
  have slashBytes : slash.bytes = [47] := by decide
  have clean : (0 : UInt8) ∉ entry.text.bytes ++ slash.bytes := by
    rw [slashBytes]
    simpa using entry.text.noNul
  have directory : strcat (List.replicate size 0) entry.text =
      if entry.text.bytes.length < size then
        some (entry.text.bytes ++ List.replicate (size - entry.text.bytes.length) 0)
      else none := strcat_zeroed [] (by simp) size entry.text
  rw [candidateBlock, directory]
  by_cases fitsDirectory : entry.text.bytes.length < size
  · rw [if_pos fitsDirectory, Option.bind_some, strcat_zeroed _ entry.text.noNul]
    by_cases fitsSlash : slash.bytes.length < size - entry.text.bytes.length
    · rw [if_pos fitsSlash, Option.bind_some, strcat_zeroed _ clean]
      simp only [slashBytes, realPath, List.append_assoc, List.length_append, List.length_cons,
        List.length_nil, Nat.zero_add, List.cons_append, List.nil_append] at fitsSlash ⊢
      by_cases fits : name.bytes.length < size - entry.text.bytes.length - 1
      · have room : size - entry.text.bytes.length - 1 - name.bytes.length =
            size - (entry.text.bytes.length + (name.bytes.length + 1)) := by omega
        rw [if_pos fits, if_pos (by omega), room]
      · rw [if_neg fits, if_neg (by omega)]
    · rw [if_neg fitsSlash, Option.bind_none]
      rw [slashBytes, List.length_singleton] at fitsSlash
      rw [if_neg (by omega)]
  · rw [if_neg fitsDirectory, Option.bind_none, if_neg (by omega)]

/-- The first word begins where the segment does, unless a blank is there; then the
segment is empty when its words have been found. -/
theorem tokenLoop_first (fuel : Nat) (memory after : List UInt8) (token first : Nat)
    (others : List Nat) (looped : tokenLoop fuel memory token = some (after, first :: others)) :
    (isBlank (charAt memory token) = false ∧ first = token) ∨
      (isBlank (charAt memory token) = true ∧ charAt after token = 0) := by
  cases fuel with
  | zero => simp [tokenLoop] at looped
  | succ fuel =>
    rw [tokenLoop] at looped
    by_cases zero : charAt memory token = 0
    · simp [strsep_at_end blanks zero, zero] at looped
    · cases blank : isBlank (charAt memory token) with
      | true =>
        simp only [strsep_at_delimiter blank zero, Option.map_eq_some_iff, Prod.mk.injEq] at looped
        obtain ⟨⟨final, later⟩, loopedLater, rfl, _⟩ := looped
        have frame := (tokenLoop_tokens _ _ _ _ _ loopedLater).2.1 token (by omega)
        right
        exact ⟨rfl, by rw [frame, charAt_set_zero, if_pos rfl]⟩
      | false =>
        have kept := strsep_keeps_first blank zero
        left
        refine ⟨rfl, ?_⟩
        cases more : (strsep blanks memory token).2 with
        | none =>
          simp only [more, kept, zero, ne_eq, not_false_eq_true, ↓reduceIte, Option.some.injEq,
            Prod.mk.injEq, List.cons.injEq] at looped
          exact looped.2.1.symm
        | some next =>
          simp only [more, kept, zero, ne_eq, not_false_eq_true, ↓reduceIte,
            Option.map_eq_some_iff, Prod.mk.injEq, List.singleton_append, List.cons.injEq] at looped
          obtain ⟨_, _, _, isFirst, _⟩ := looped
          exact isFirst.symm

/-- When a segment has been read as a command, the name either is what `cmd_line` has
become, or the segment began with a blank, `cmd_line` is empty, and the name is not. -/
theorem readSegment_name (memory : List UInt8) (cmdLine : Nat) (command : Command)
    (parses : (readSegment memory cmdLine).2 = .command command) :
    (isBlank (charAt memory cmdLine) = false ∧
      command.name.bytes.length = strlen (readSegment memory cmdLine).1 cmdLine) ∨
    (isBlank (charAt memory cmdLine) = true ∧
      strlen (readSegment memory cmdLine).1 cmdLine = 0 ∧ 0 < command.name.bytes.length) := by
  obtain ⟨first, others, looped, isName, _⟩ := readSegment_command parses
  have nonempty : 0 < command.name.bytes.length := by
    rw [isName]
    exact strlen_pos ((tokenLoop_tokens _ _ _ _ _ looped).2.2 first List.mem_cons_self)
  have atStart : charAt (parseRedirectDest memory cmdLine).memory cmdLine =
      charAt memory cmdLine := by
    rcases (erased_parseRedirectDest memory cmdLine).bytes cmdLine with same | zero
    · exact same
    · -- A segment that has become empty has no words.
      simp [tokenLoop, strsep_at_end blanks zero, zero] at looped
  rcases tokenLoop_first _ _ _ _ _ _ looped with ⟨plain, rfl⟩ | ⟨blank, zero⟩
  · left
    exact ⟨atStart ▸ plain, by rw [isName]; rfl⟩
  · right
    exact ⟨atStart ▸ blank, strlen_eq_zero zero, nonempty⟩

/-- For every segment that is read as a command and every directory, `real_path_size` is
sufficient for the candidate exactly when the segment does not begin with a blank. -/
theorem candidate_fits_iff (memory : List UInt8) (cmdLine : Nat) (command : Command)
    (parses : (readSegment memory cmdLine).2 = .command command) (entry : PathEntry) :
    candidateSize entry command.name ≤
        realPathSize (readSegment memory cmdLine).1 cmdLine entry ↔
      isBlank (charAt memory cmdLine) = false := by
  rw [candidateSize, realPathSize]
  rcases readSegment_name memory cmdLine command parses with
    ⟨plain, same⟩ | ⟨blank, empty, nonempty⟩
  · simp only [plain, iff_true]
    omega
  · simp only [blank, Bool.true_eq_false, iff_false]
    omega

/-- `/bin`, as the shell has stored it when it starts. -/
def binEntry : PathEntry := ⟨ascii "/bin" ++ [0], []⟩

/-- For `ls` alone the buffer is large enough. -/
theorem candidate_fits_iff_ls :
    candidateSize binEntry lsCommand.name ≤
      realPathSize (readSegment (ascii "ls" ++ [0]) 0).1 0 binEntry :=
  (candidate_fits_iff (ascii "ls" ++ [0]) 0 lsCommand (by decide +kernel) binEntry).mpr
    (by decide)

/-- With a blank before `ls`, six bytes are allocated for the eight of `/bin/ls`. -/
theorem blank_before_ls_overflows :
    ∃ call ∈ lineCalls obligingHost () (ascii " ls\n").zipIdx,
      call.reading = .command lsCommand ∧ candidateSize binEntry lsCommand.name = 8 ∧
      realPathSize (readSegment call.memory call.cmdLine).1 call.cmdLine binEntry = 6 ∧
      candidateBlock 6 binEntry lsCommand.name = none := by
  decide +kernel

end OsLabwork.Shell
