import Mathlib.Data.List.Nodup
import OsLabwork.Shell.MainLoop

/-!
# The lines of a batch file

Running a batch file should hand its lines to `exec_parallel_cmd` in order, each once,
up to the first that exits.

A child that cannot execute its command leaves through `exit`, and so moves the
offset of the file back over the bytes that the shell has read ahead. The shell does
not notice while its buffer lasts. So the lines are run as they should exactly when,
behind every line with such a child, either nothing had been read ahead, or a line
that exits lies whole in what had been.
-/

namespace OsLabwork.Shell

open BufferedInput CMemory

variable {W : Type}

/-- The string that stands for a line: up to its first NUL, without a last white space. -/
def lineText (bytes : List UInt8) : CString :=
  let text := bytes.takeWhile (fun byte => byte ≠ 0)
  CString.leading (if text.getLast?.any isspace then text.dropLast else text)

/-- A line is stored as its text up to the first NUL, and something behind. -/
theorem stored_text (bytes behind : List UInt8) :
    ∃ text rest, bytes.takeWhile (fun byte => byte ≠ 0) = text ∧ (0 : UInt8) ∉ text ∧
      bytes ++ 0 :: behind = text ++ 0 :: rest := by
  have clean : (0 : UInt8) ∉ bytes.takeWhile (fun byte => byte ≠ 0) := fun member => by
    simpa using List.mem_takeWhile_imp member
  by_cases inside : (0 : UInt8) ∈ bytes
  · obtain ⟨nul, rest, split, isNul⟩ := Splitting.takeWhile_split
      (fun byte : UInt8 => decide (byte ≠ 0)) bytes ⟨0, inside, rfl⟩
    obtain rfl : nul = 0 := by simpa using isNul
    refine ⟨_, rest ++ 0 :: behind, rfl, clean, ?_⟩
    rw [← List.cons_append, ← List.append_assoc, ← split]
  · exact ⟨bytes, behind, takeWhile_clean bytes inside, inside, rfl⟩

/-- Cutting off the last character of a line in memory. Of an empty line, the byte
before it is looked at, and overwritten if it is white space. -/
theorem cutLast_placed (front text behind : List UInt8) (clean : (0 : UInt8) ∉ text) :
    stringAt (cutLast (front ++ (text ++ 0 :: behind)) front.length) front.length =
      CString.leading (if text.getLast?.any isspace then text.dropLast else text) := by
  have length : strlen (front ++ (text ++ 0 :: behind)) front.length = text.length := by
    rw [strlen, textFrom_placed front text behind clean]
  rw [cutLast, length]
  rcases List.eq_nil_or_concat text with rfl | ⟨word, last, rfl⟩
  · rcases List.eq_nil_or_concat front with rfl | ⟨early, guard, rfl⟩
    · exact stringAt_placed [] [] behind clean
    · have guarded := charAt_placed early [] (0 :: behind) guard
      have overwritten := set_placed early [] (0 :: behind) guard 0
      have untouched := stringAt_placed (early ++ [guard]) [] behind clean
      have zeroed := stringAt_placed (early ++ [0]) [] behind clean
      simp only [List.concat_eq_append, List.nil_append, List.length_append, List.length_nil,
        List.length_singleton, Nat.add_zero, Nat.add_sub_cancel, List.append_assoc,
        List.singleton_append, List.getLast?_nil, Option.any_none, Bool.false_eq_true,
        ↓reduceIte] at guarded overwritten untouched zeroed ⊢
      rw [guarded]
      split
      · rw [overwritten, zeroed]
      · exact untouched
  · rw [List.concat_eq_append] at clean ⊢
    have wordClean : (0 : UInt8) ∉ word := fun member => clean (List.mem_append_left _ member)
    have isLast := charAt_placed front word (0 :: behind) last
    have cut := set_placed front word (0 :: behind) last 0
    have whole := stringAt_placed front (word ++ [last]) behind clean
    have shorter := stringAt_placed front word (0 :: behind) wordClean
    have place : front.length + (word ++ [last]).length - 1 = front.length + word.length := by
      rw [List.length_append, List.length_singleton]
      omega
    rw [List.append_assoc, List.singleton_append] at whole ⊢
    rw [place, isLast, List.getLast?_concat, Option.any_some, List.dropLast_concat]
    split
    · rw [cut, shorter]
    · exact whole

/-- Whatever lies around the line in memory, this string is passed. -/
theorem passLine_text (host : Host W) (world : W) (line : List InputByte) :
    passLine host world line = ⟨line, lineText (line.map Prod.fst)⟩ := by
  obtain ⟨text, rest, isText, clean, stored⟩ :=
    stored_text (line.map Prod.fst) (host.around world (line.map Prod.fst)).2
  have cut := cutLast_placed (host.around world (line.map Prod.fst)).1 text rest clean
  rw [passLine, cmdLine, lineBuffer, lineText, stored, cut, isText]

/-- Hand on the lines of the file, each once, up to the first that exits. -/
def batch (host : Host W) : List (List InputByte) → State W → List Passed
  | [], _ => []
  | line :: rest, state =>
      ⟨line, lineText (line.map Prod.fst)⟩ ::
        match handleLine host line state with
        | (_, .exited _) => []
        | (after, .returned _) => batch host rest after

/-- How many bytes behind a position the shell has read ahead, in an input of the
given length. -/
def unread (host : Host W) (length position : Nat) : Nat :=
  blockEnd host.blockSize length position - position

/-- In a shell whose input was not disturbed, this is what its buffer holds. -/
theorem unread_synced {host : Host W} {stdin : Reader InputByte} {position : Nat}
    (synced : stdin.Synced host.blockSize position) :
    unread host stdin.file.length position = stdin.buffer.length := by
  rw [unread, ← synced.block, synced.fetched, Nat.add_sub_cancel_left]

/-- The lines up to one that exits lie whole in so many bytes. -/
def ExitsWithin (host : Host W) : Nat → List (List InputByte) → State W → Prop
  | _, [], _ => False
  | room, line :: rest, state =>
      Terminated newline line ∧ line.length ≤ room ∧
        match handleLine host line state with
        | (_, .exited _) => True
        | (after, .returned _) => ExitsWithin host (room - line.length) rest after

/-- Whenever a child of a line leaves through `exit`, nothing had been read ahead, or
the shell exits on what had been. -/
def Undisturbed (host : Host W) (length : Nat) : Nat → List (List InputByte) → State W → Prop
  | _, [], _ => True
  | position, line :: rest, state =>
      match handleLine host line state with
      | (_, .exited _) => True
      | (after, .returned _) =>
          (0 < exits (after.events.drop state.events.length) →
            unread host length (position + line.length) = 0 ∨
              ExitsWithin host (unread host length (position + line.length)) rest after) ∧
          Undisturbed host length (position + line.length) rest after

/-- A run that exits in time is not disturbed. -/
theorem ExitsWithin.undisturbed {host : Host W} {length position : Nat}
    {rest : List (List InputByte)} {state : State W}
    (within : ExitsWithin host (unread host length position) rest state) :
    Undisturbed host length position rest state := by
  induction rest generalizing position state with
  | nil => trivial
  | cons line rest inductionHypothesis =>
    rw [ExitsWithin] at within
    obtain ⟨⟨word, last, rfl, _⟩, fits, run⟩ := within
    rw [Undisturbed]
    rcases handled : handleLine host (word ++ [last]) state with ⟨after, _ | status⟩
    · rw [handled] at run
      have same : blockEnd host.blockSize length (position + (word ++ [last]).length) =
          blockEnd host.blockSize length position := by
        apply blockEnd_within host.positive (Nat.le_add_right _ _)
        rw [unread] at fits
        rw [List.length_append, List.length_singleton] at fits ⊢
        omega
      have left : unread host length (position + (word ++ [last]).length) =
          unread host length position - (word ++ [last]).length := by
        rw [unread, same, unread, Nat.sub_sub]
      rw [← left] at run
      exact ⟨fun _ => Or.inr run, inductionHypothesis run⟩
    · trivial

/-- The lines that lie in the buffer are run as they should, wherever the offset is. -/
theorem mainLoop_buffered (host : Host W) (rest : List (List InputByte)) (state : State W)
    (stdin : Reader InputByte) (tail : List InputByte)
    (text : lines newline (stdin.buffer ++ tail) = rest)
    (within : ExitsWithin host stdin.buffer.length rest state) (fuel : Nat)
    (enough : rest.length < fuel) :
    ∃ ended, mainLoop host fuel stdin state = some ended ∧
      ended.passed = batch host rest state := by
  induction rest generalizing state stdin fuel with
  | nil => exact absurd within id
  | cons line rest inductionHypothesis =>
    rw [ExitsWithin] at within
    obtain ⟨terminated, fits, run⟩ := within
    obtain ⟨fuel, rfl⟩ := Nat.exists_eq_succ_of_ne_zero (Nat.ne_zero_of_lt enough)
    rw [List.length_cons] at enough
    obtain ⟨left, holds⟩ : ∃ left, stdin.buffer = line ++ left := by
      have whole := lines_flatten newline (stdin.buffer ++ tail)
      rw [text, List.flatten_cons] at whole
      have first : line <+: stdin.buffer ++ tail := ⟨rest.flatten, whole⟩
      obtain ⟨left, split⟩ :=
        List.prefix_of_prefix_length_le first (List.prefix_append stdin.buffer tail) fits
      exact ⟨left, split.symm⟩
    have later : lines newline (left ++ tail) = rest := by
      rw [holds, List.append_assoc, lines_terminated terminated] at text
      exact (List.cons.inj text).2
    have read := stdin.getline_buffered host.positive terminated holds
    rcases handled : handleLine host line state with ⟨after, _ | status⟩
    · rw [handled] at run
      obtain ⟨buffer, _, _⟩ := Reader.rewinds_keeps
        (exits (after.events.drop state.events.length)) { stdin with buffer := left }
      have room : left.length = stdin.buffer.length - line.length := by
        rw [holds, List.length_append, Nat.add_sub_cancel_left]
      obtain ⟨ended, ran, passed⟩ := inductionHypothesis after
        (Reader.rewinds (exits (after.events.drop state.events.length))
          { stdin with buffer := left }) (by rw [buffer]; exact later)
        (by rw [buffer, room]; exact run) fuel (by omega)
      simp only [mainLoop, read, handled, ran, Option.map_some, batch]
      exact ⟨_, rfl, by rw [passed, passLine_text]⟩
    · simp only [mainLoop, read, handled, batch]
      exact ⟨_, rfl, by rw [passLine_text]⟩

/-- A run that is not disturbed passes on the lines of the file. -/
theorem mainLoop_undisturbed (host : Host W) (rest : List (List InputByte)) (state : State W)
    (stdin : Reader InputByte) (position : Nat) (synced : stdin.Synced host.blockSize position)
    (text : lines newline stdin.ahead = rest)
    (undisturbed : Undisturbed host stdin.file.length position rest state) (fuel : Nat)
    (enough : rest.length < fuel) :
    ∃ ended, mainLoop host fuel stdin state = some ended ∧
      ended.passed = batch host rest state := by
  induction rest generalizing state stdin position fuel with
  | nil =>
    obtain ⟨fuel, rfl⟩ := Nat.exists_eq_succ_of_ne_zero (Nat.ne_zero_of_lt enough)
    have delivered := (stdin.getline_lines host.positive newline).1
    rw [text, List.head?_nil] at delivered
    rw [mainLoop, (Prod.ext delivered rfl : stdin.getline newline host.positive = (none, _))]
    exact ⟨_, rfl, rfl⟩
  | cons line rest inductionHypothesis =>
    obtain ⟨fuel, rfl⟩ := Nat.exists_eq_succ_of_ne_zero (Nat.ne_zero_of_lt enough)
    rw [List.length_cons] at enough
    obtain ⟨next, read, remaining, sameFile⟩ := stdin.getline_cons host.positive text
    have nextSynced := synced.getline host.positive read
    rw [Undisturbed] at undisturbed
    rcases handled : handleLine host line state with ⟨after, _ | status⟩
    · rw [handled] at undisturbed
      obtain ⟨harmless, later⟩ := undisturbed
      generalize children : exits (after.events.drop state.events.length) = count at harmless
      have continued : ∃ ended, mainLoop host fuel (next.rewinds count) after = some ended ∧
          ended.passed = batch host rest after := by
        by_cases still : count = 0 ∨ next.buffer = []
        · -- The offset has not moved.
          rw [Reader.rewinds_still still]
          exact inductionHypothesis after next _ nextSynced remaining (sameFile ▸ later) fuel
            (by omega)
        · rw [not_or] at still
          obtain ⟨buffer, _, _⟩ := next.rewinds_keeps count
          rw [← sameFile, unread_synced nextSynced] at harmless
          rcases harmless (Nat.pos_of_ne_zero still.1) with used | within
          · exact absurd (List.length_eq_zero_iff.mp used) still.2
          · exact mainLoop_buffered host rest after (next.rewinds count)
              (next.file.drop next.offset) (by rw [buffer]; exact remaining)
              (by rw [buffer]; exact within) fuel (by omega)
      obtain ⟨ended, ran, passed⟩ := continued
      simp only [mainLoop, read, handled, children, ran, Option.map_some, batch]
      exact ⟨_, rfl, by rw [passed, passLine_text]⟩
    · simp only [mainLoop, read, handled, batch]
      exact ⟨_, rfl, by rw [passLine_text]⟩

section Inversion

variable {host : Host W} {fuel : Nat} {stdin next : Reader InputByte} {state : State W}
  {line : List InputByte} {ended : Ended W}

/-- A line that is read is passed on. -/
theorem mainLoop_first (read : stdin.getline newline host.positive = (some line, next))
    (ran : mainLoop host fuel stdin state = some ended) :
    ∃ others, ended.passed = passLine host state.world line :: others := by
  cases fuel with
  | zero => simp [mainLoop] at ran
  | succ fuel =>
    rcases handled : handleLine host line state with ⟨after, _ | status⟩
    · simp only [mainLoop, read, handled, Option.map_eq_some_iff] at ran
      obtain ⟨later, _, rfl⟩ := ran
      exact ⟨later.passed, rfl⟩
    · simp only [mainLoop, read, handled, Option.some.injEq] at ran
      subst ran
      exact ⟨[], rfl⟩

/-- Behind a line that returns, the loop goes on with what its children left. -/
theorem mainLoop_next (read : stdin.getline newline host.positive = (some line, next))
    {after : State W} {value : Unit} (handled : handleLine host line state = (after, .returned value))
    (ran : mainLoop host fuel stdin state = some ended) :
    ∃ less later, mainLoop host less
        (next.rewinds (exits (after.events.drop state.events.length))) after = some later ∧
      ended = { later with passed := passLine host state.world line :: later.passed } := by
  cases fuel with
  | zero => simp [mainLoop] at ran
  | succ fuel =>
    simp only [mainLoop, read, handled, Option.map_eq_some_iff] at ran
    obtain ⟨later, continued, same⟩ := ran
    exact ⟨fuel, later, continued, same.symm⟩

end Inversion

/-- Once the offset has moved back over bytes in the buffer, only an exit on the
buffer's lines keeps the shell from reading something twice.

The next byte that is read into the buffer lies before the one that should follow, so
the line with it is not a line of the file. -/
theorem exitsWithin_of_moved (host : Host W) (rest : List (List InputByte)) (state : State W)
    (stdin : Reader InputByte) (due : Nat) (distinct : stdin.file.Nodup)
    (moved : stdin.offset < due) (inside : due ≤ stdin.file.length)
    (text : lines newline (stdin.buffer ++ stdin.file.drop due) = rest) (fuel : Nat)
    (ended : Ended W) (ran : mainLoop host fuel stdin state = some ended)
    (passed : ended.passed = batch host rest state) :
    ExitsWithin host stdin.buffer.length rest state := by
  induction rest generalizing state stdin fuel ended with
  | nil =>
    have nothing := (lines_eq_nil_iff _).mp text
    have plain : ∀ item ∈ stdin.buffer, newline item = false := by
      simp [(List.append_eq_nil_iff.mp nothing).1]
    obtain ⟨line, next, read, _⟩ := stdin.getline_moved host.positive distinct moved inside plain
    obtain ⟨others, first⟩ := mainLoop_first read ran
    simp [first, batch] at passed
  | cons line rest inductionHypothesis =>
    rcases buffered_or_plain newline stdin.buffer with ⟨first, left, terminated, holds⟩ | plain
    · have cut := text
      rw [holds, List.append_assoc, lines_terminated terminated] at cut
      obtain ⟨rfl, later⟩ := List.cons.inj cut
      have read := stdin.getline_buffered host.positive terminated holds
      have room : left.length = stdin.buffer.length - first.length := by
        rw [holds, List.length_append, Nat.add_sub_cancel_left]
      rw [ExitsWithin]
      refine ⟨terminated, by rw [holds, List.length_append]; omega, ?_⟩
      rcases handled : handleLine host first state with ⟨after, _ | status⟩
      · obtain ⟨fuel, others, continued, rfl⟩ := mainLoop_next read handled ran
        simp only [batch, handled, List.cons.injEq] at passed
        obtain ⟨buffer, file, offset⟩ := Reader.rewinds_keeps
          (exits (after.events.drop state.events.length)) { stdin with buffer := left }
        have within := inductionHypothesis after _ (by rw [file]; exact distinct)
          (Nat.lt_of_le_of_lt offset moved) (by rw [file]; exact inside)
          (by rw [buffer, file]; exact later) fuel others continued passed.2
        rw [buffer, room] at within
        exact within
      · trivial
    · obtain ⟨wrong, next, read, isWrong⟩ :=
        stdin.getline_moved host.positive distinct moved inside plain
      obtain ⟨others, first⟩ := mainLoop_first read ran
      rw [first, passLine_text, batch, List.cons.injEq, Passed.mk.injEq] at passed
      exact absurd (passed.1.1 ▸ text) (isWrong rest)

/-- A run that passes on the lines of the file was not disturbed. -/
theorem undisturbed_of_passed (host : Host W) (rest : List (List InputByte)) (state : State W)
    (stdin : Reader InputByte) (position : Nat) (distinct : stdin.file.Nodup)
    (synced : stdin.Synced host.blockSize position) (text : lines newline stdin.ahead = rest)
    (fuel : Nat) (ended : Ended W) (ran : mainLoop host fuel stdin state = some ended)
    (passed : ended.passed = batch host rest state) :
    Undisturbed host stdin.file.length position rest state := by
  induction rest generalizing state stdin position fuel ended with
  | nil => trivial
  | cons line rest inductionHypothesis =>
    obtain ⟨next, read, remaining, sameFile⟩ := stdin.getline_cons host.positive text
    have nextSynced := synced.getline host.positive read
    rw [Undisturbed]
    rcases handled : handleLine host line state with ⟨after, _ | status⟩
    · obtain ⟨fuel, later, continued, rfl⟩ := mainLoop_next read handled ran
      simp only [batch, handled, List.cons.injEq] at passed
      dsimp only
      generalize exits (after.events.drop state.events.length) = count at continued ⊢
      rw [← sameFile] at distinct ⊢
      by_cases still : count = 0 ∨ next.buffer = []
      · rw [Reader.rewinds_still still] at continued
        refine ⟨?_, inductionHypothesis after next _ distinct nextSynced remaining fuel later
          continued passed.2⟩
        intro some
        rw [unread_synced nextSynced]
        rcases still with rfl | used
        · exact absurd some (Nat.lt_irrefl 0)
        · exact Or.inl (by rw [used, List.length_nil])
      · rw [not_or] at still
        obtain ⟨buffer, file, _⟩ := next.rewinds_keeps count
        have moved := next.rewinds_moves count (Nat.pos_of_ne_zero still.1) still.2
          (by rw [nextSynced.fetched]; omega)
        have within := exitsWithin_of_moved host rest after (next.rewinds count) next.offset
          (by rw [file]; exact distinct) moved
          (by rw [file, nextSynced.block]; exact Nat.min_le_left _ _)
          (by rw [buffer, file]; exact remaining) fuel later continued passed.2
        rw [buffer, ← unread_synced nextSynced] at within
        exact ⟨fun _ => Or.inr within, within.undisturbed⟩
    · trivial

/-- The shell called with a batch file passes on the lines of the file in order, each
once, up to the first that exits or the end, exactly when the run is not disturbed: whenever
a child of a line leaves through `exit`, the shell has not read beyond that line, or it
exits on a line that it had read with it.

Lines are told apart by their places in the file. Without the condition the shell may
run lines again, run pieces of lines, or run on forever. -/
theorem each_line_runs_once_iff (host : Host W) (world : W) (stdin file : List UInt8) :
    (∃ fuel ended, main host fuel 2 stdin (some file) world = some ended ∧
      ended.passed = batch host (lines newline file.zipIdx) (startState host world)) ↔
    Undisturbed host file.length 0 (lines newline file.zipIdx) (startState host world) := by
  have synced := synced_initially host.positive file.zipIdx
  have length : (openInput file).file.length = file.length := List.length_zipIdx
  have distinct : file.zipIdx.Nodup := by
    apply List.Nodup.of_map Prod.snd
    rw [List.zipIdx_map_snd]
    exact List.nodup_range'
  have loop : ∀ fuel, main host fuel 2 stdin (some file) world =
      mainLoop host fuel (openInput file) (startState host world) := fun _ => rfl
  simp only [loop, ← length]
  constructor
  · rintro ⟨fuel, ended, ran, passed⟩
    exact undisturbed_of_passed host _ _ (openInput file) 0 distinct synced rfl fuel ended ran
      passed
  · intro undisturbed
    obtain ⟨ended, ran, passed⟩ := mainLoop_undisturbed host _ _ (openInput file) 0 synced rfl
      undisturbed _ (Nat.lt_succ_self _)
    exact ⟨_, ended, ran, passed⟩

/-- Of the two lines of this file, the second is run twice. -/
theorem second_line_runs_twice :
    (main refusingHost 4 2 [] (some (ascii "a\nb\n")) ()).map
        (fun ended => ended.passed.map (fun passed => passed.text.bytes)) =
      some [ascii "a", ascii "b", ascii "b"] ∧
    (batch refusingHost (lines newline (ascii "a\nb\n").zipIdx)
        (startState refusingHost ())).map (fun passed => passed.text.bytes) =
      [ascii "a", ascii "b"] := by
  constructor
  · decide +kernel
  · decide +kernel

-- With an exit in the same block, nothing is run twice.
example : (main refusingHost 3 2 [] (some (ascii "a\nexit\n")) ()).map
    (fun ended => ended.passed.map (fun passed => passed.text.bytes)) =
      some [ascii "a", ascii "exit"] := by decide +kernel

end OsLabwork.Shell
