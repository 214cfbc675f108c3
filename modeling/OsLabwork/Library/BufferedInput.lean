import Mathlib.Data.Nat.Basic
import Mathlib.Logic.Function.Iterate
import OsLabwork.Library.Splitting

/-!
# Reading lines through a buffer

A stream reads a file block by block into its buffer and hands out lines from there. A
line ends behind the first stop, or at the end of the file. The offset belongs to the
open file and may be shared with other processes; the buffer is the stream's own.

A process that ends with unread bytes in its buffer moves the offset back by their
number. For another process that shares the offset this goes unnoticed as long as the
other's buffer serves its reads, and shows when that buffer is filled again.
-/

namespace OsLabwork.BufferedInput

universe u
variable {α : Type u}

section Lines

variable (stop : α → Bool)

/-- The lines of a text, each with the stop that ends it. -/
def lines : List α → List (List α)
  | [] => []
  | item :: rest =>
      if stop item then [item] :: lines rest
      else match lines rest with
        | [] => [[item]]
        | line :: later => (item :: line) :: later

/-- A line that ends in a stop, its only one. -/
def Terminated (line : List α) : Prop :=
  ∃ word last, line = word ++ [last] ∧ (∀ item ∈ word, stop item = false) ∧ stop last = true

variable {stop}

/-- A text without an end of a line is one line. -/
theorem lines_plain {word : List α} (plain : ∀ item ∈ word, stop item = false)
    (nonempty : word ≠ []) : lines stop word = [word] := by
  induction word with
  | nil => exact absurd rfl nonempty
  | cons item rest inductionHypothesis =>
    have itemPlain := plain item List.mem_cons_self
    cases rest with
    | nil => simp [lines, itemPlain]
    | cons other others =>
      have later := inductionHypothesis
        (fun item member => plain item (List.mem_cons_of_mem _ member)) (by simp)
      rw [lines, later]
      simp [itemPlain]

/-- A whole line, and then the others. -/
theorem lines_terminated {line : List α} (terminated : Terminated stop line) (rest : List α) :
    lines stop (line ++ rest) = line :: lines stop rest := by
  obtain ⟨word, last, rfl, plain, stops⟩ := terminated
  induction word with
  | nil => simp [lines, stops]
  | cons item word inductionHypothesis =>
    have itemPlain := plain item List.mem_cons_self
    have later := inductionHypothesis (fun item member => plain item (List.mem_cons_of_mem _ member))
    rw [List.cons_append, List.cons_append, lines, later]
    simp [itemPlain]

/-- There are no lines in nothing. -/
theorem lines_eq_nil_iff (text : List α) : lines stop text = [] ↔ text = [] := by
  cases text with
  | nil => simp [lines]
  | cons item rest =>
    simp only [lines, reduceCtorEq, iff_false]
    split
    · simp
    · split
      · simp
      · simp

/-- The lines make up the text. -/
theorem lines_flatten (stop : α → Bool) (text : List α) : (lines stop text).flatten = text := by
  induction text with
  | nil => rfl
  | cons item rest inductionHypothesis =>
    rw [lines]
    split
    · rw [List.flatten_cons, inductionHypothesis, List.singleton_append]
    · split
      · rename_i none
        rw [(lines_eq_nil_iff rest).mp none, List.flatten_singleton]
      · rename_i line later shape
        rw [shape, List.flatten_cons] at inductionHypothesis
        rw [List.flatten_cons, List.cons_append, inductionHypothesis]

/-- Nothing is in a line that is not in the text. -/
theorem subset_of_mem_lines {text line : List α} (member : line ∈ lines stop text) : line ⊆ text := by
  intro item inLine
  rw [← lines_flatten stop text]
  exact List.mem_flatten.mpr ⟨line, member, inLine⟩

/-- Every line has something in it. -/
theorem lines_length_le (stop : α → Bool) (text : List α) :
    (lines stop text).length ≤ text.length := by
  induction text with
  | nil => exact Nat.le_refl _
  | cons item rest inductionHypothesis =>
    rw [lines]
    split
    · simpa using inductionHypothesis
    · split
      · simp
      · next line later shape =>
        rw [shape, List.length_cons] at inductionHypothesis
        rw [List.length_cons, List.length_cons]
        omega

/-- Without a stop before it, an item belongs to the first line. -/
theorem lines_head {word : List α} (plain : ∀ item ∈ word, stop item = false) {item : α}
    {rest line : List α} {later : List (List α)}
    (cut : lines stop (word ++ item :: rest) = line :: later) :
    ∃ more, line = word ++ item :: more := by
  induction word generalizing line later with
  | nil =>
    simp only [List.nil_append, lines] at cut ⊢
    split at cut
    · exact ⟨[], (List.cons.inj cut).1.symm⟩
    · split at cut
      · exact ⟨[], (List.cons.inj cut).1.symm⟩
      · exact ⟨_, (List.cons.inj cut).1.symm⟩
  | cons first word inductionHypothesis =>
    have firstPlain := plain first List.mem_cons_self
    rw [List.cons_append, lines, firstPlain] at cut
    cases shape : lines stop (word ++ item :: rest) with
    | nil => simp [lines_eq_nil_iff] at shape
    | cons head others =>
      obtain ⟨more, rfl⟩ := inductionHypothesis
        (fun item member => plain item (List.mem_cons_of_mem _ member)) shape
      simp only [shape, Bool.false_eq_true, ↓reduceIte, List.cons.injEq] at cut
      exact ⟨more, cut.1.symm⟩

end Lines

/-- A stream on an open file. -/
structure Reader (α : Type u) where
  file : List α
  offset : Nat
  buffer : List α
deriving DecidableEq, Repr

/-- What the stream would deliver if nobody else touched the offset. -/
def Reader.ahead (reader : Reader α) : List α := reader.buffer ++ reader.file.drop reader.offset

/-- Read the next block, with the buffer used up. -/
def Reader.refill (blockSize : Nat) (reader : Reader α) : Reader α :=
  let block := (reader.file.drop reader.offset).take blockSize
  { reader with offset := reader.offset + block.length, buffer := block }

/-- Read up to a stop or the end of the file. -/
def Reader.takeLine (stop : α → Bool) (blockSize : Nat) :
    Nat → Reader α → Option (List α × Reader α)
  | 0, _ => none
  | fuel + 1, reader =>
      match reader.buffer.dropWhile (fun item => !stop item) with
      | last :: rest => some (reader.buffer.takeWhile (fun item => !stop item) ++ [last],
          { reader with buffer := rest })
      | [] =>
          let next := reader.refill blockSize
          if next.buffer.isEmpty then some (reader.buffer, next)
          else (Reader.takeLine stop blockSize fuel next).map fun read =>
            (reader.buffer ++ read.1, read.2)

/-- The process of the stream, or another one with a copy of its buffer, ends: the
offset moves back over the unread bytes, if that does not lead before the beginning. -/
def Reader.rewind (reader : Reader α) : Reader α :=
  if reader.buffer.length ≤ reader.offset then
    { reader with offset := reader.offset - reader.buffer.length }
  else reader

section Reading

variable {stop : α → Bool} {blockSize : Nat}

/-- A line that is in the buffer is handed out without touching the file. -/
theorem Reader.takeLine_buffered (reader : Reader α) {line rest : List α}
    (terminated : Terminated stop line) (holds : reader.buffer = line ++ rest) (fuel : Nat) :
    reader.takeLine stop blockSize (fuel + 1) = some (line, { reader with buffer := rest }) := by
  obtain ⟨word, last, rfl, plain, stops⟩ := terminated
  have kept : ∀ item ∈ word, (!stop item) = true := by simpa using plain
  rw [List.append_assoc, List.singleton_append] at holds
  have front : reader.buffer.takeWhile (fun item => !stop item) = word := by
    rw [holds, List.takeWhile_append_of_pos kept, List.takeWhile_cons_of_neg (by simp [stops]),
      List.append_nil]
  have back : reader.buffer.dropWhile (fun item => !stop item) = last :: rest := by
    rw [holds, List.dropWhile_append_of_pos kept, List.dropWhile_cons_of_neg (by simp [stops])]
  rw [Reader.takeLine, back, front]

/-- Without a stop in the buffer, all of it goes into the line. -/
theorem Reader.takeLine_refilled (reader : Reader α)
    (plain : ∀ item ∈ reader.buffer, stop item = false) (fuel : Nat) :
    reader.takeLine stop blockSize (fuel + 1) =
      if (reader.refill blockSize).buffer.isEmpty then
        some (reader.buffer, reader.refill blockSize)
      else ((reader.refill blockSize).takeLine stop blockSize fuel).map fun read =>
        (reader.buffer ++ read.1, read.2) := by
  have used : reader.buffer.dropWhile (fun item => !stop item) = [] := by
    rw [List.dropWhile_eq_nil_iff]
    simpa using plain
  rw [Reader.takeLine, used]

/-- Either a line is in the buffer, or the buffer has no stop. -/
theorem buffered_or_plain (stop : α → Bool) (buffer : List α) :
    (∃ line rest, Terminated stop line ∧ buffer = line ++ rest) ∨
      ∀ item ∈ buffer, stop item = false := by
  by_cases stopped : ∃ item ∈ buffer, (!stop item) = false
  · obtain ⟨last, rest, split, stops⟩ :=
      Splitting.takeWhile_split (fun item => !stop item) buffer stopped
    refine Or.inl ⟨buffer.takeWhile (fun item => !stop item) ++ [last], rest, ?_, ?_⟩
    · refine ⟨_, last, rfl, ?_, by simpa using stops⟩
      intro item member
      simpa using List.mem_takeWhile_imp member
    · rw [List.append_assoc, List.singleton_append, ← split]
  · apply Or.inr
    intro item member
    have kept : (!stop item) ≠ false := fun stops => stopped ⟨item, member, stops⟩
    simpa using kept

/-- A refill leaves what is ahead from the offset on. -/
theorem Reader.refill_ahead (blockSize : Nat) (reader : Reader α) :
    (reader.refill blockSize).ahead = reader.file.drop reader.offset := by
  rw [Reader.ahead, Reader.refill, ← List.drop_drop]
  exact List.prefix_iff_eq_append.mp (List.take_prefix _ _)

/-- A block is empty only at the end of the file. -/
theorem Reader.refill_empty_iff (positive : 0 < blockSize) (reader : Reader α) :
    (reader.refill blockSize).buffer = [] ↔ reader.file.length ≤ reader.offset := by
  rw [Reader.refill, List.take_eq_nil_iff, List.drop_eq_nil_iff]
  exact or_iff_right (Nat.ne_of_gt positive)

/-- The offset moves by a block, or to the end. -/
theorem Reader.refill_offset (blockSize : Nat) (reader : Reader α) :
    (reader.refill blockSize).offset =
      reader.offset + min blockSize (reader.file.length - reader.offset) := by
  simp [Reader.refill]

/-- Reading a line ends: every block that is not empty moves the offset on. -/
theorem Reader.takeLine_ends (positive : 0 < blockSize) (fuel : Nat) (reader : Reader α)
    (enough : reader.file.length - reader.offset < fuel) :
    (reader.takeLine stop blockSize fuel).isSome = true := by
  induction fuel generalizing reader with
  | zero => exact absurd enough (Nat.not_lt_zero _)
  | succ fuel inductionHypothesis =>
    rcases buffered_or_plain stop reader.buffer with ⟨line, rest, terminated, holds⟩ | plain
    · rw [reader.takeLine_buffered terminated holds]
      rfl
    · rw [reader.takeLine_refilled plain]
      split
      · rfl
      · rename_i filled
        rw [List.isEmpty_iff, reader.refill_empty_iff positive] at filled
        have moved := reader.refill_offset blockSize
        rw [Option.isSome_map]
        apply inductionHypothesis
        change reader.file.length - (reader.refill blockSize).offset < fuel
        omega

/-- What a stream delivers is what is ahead: the line ends in its stop, or it has none
and nothing is left behind it. -/
theorem Reader.takeLine_ahead (positive : 0 < blockSize) (fuel : Nat) (reader final : Reader α)
    (line : List α) (read : reader.takeLine stop blockSize fuel = some (line, final)) :
    final.file = reader.file ∧ reader.ahead = line ++ final.ahead ∧
      (Terminated stop line ∨ (∀ item ∈ line, stop item = false) ∧ final.ahead = []) := by
  induction fuel generalizing reader line with
  | zero => simp [Reader.takeLine] at read
  | succ fuel inductionHypothesis =>
    rcases buffered_or_plain stop reader.buffer with ⟨word, rest, terminated, holds⟩ | plain
    · rw [reader.takeLine_buffered terminated holds] at read
      obtain ⟨rfl, rfl⟩ := Prod.mk.inj (Option.some.inj read)
      exact ⟨rfl, by simp [Reader.ahead, holds], Or.inl terminated⟩
    · rw [reader.takeLine_refilled plain] at read
      have same := reader.refill_ahead blockSize
      split at read
      · rename_i empty
        obtain ⟨rfl, rfl⟩ := Prod.mk.inj (Option.some.inj read)
        rw [List.isEmpty_iff, reader.refill_empty_iff positive] at empty
        have exhausted : (reader.refill blockSize).ahead = [] := by
          rw [same, List.drop_eq_nil_iff]
          exact empty
        exact ⟨rfl, by rw [same, Reader.ahead], Or.inr ⟨plain, exhausted⟩⟩
      · obtain ⟨⟨more, last⟩, looped, pair⟩ := Option.map_eq_some_iff.mp read
        obtain ⟨rfl, rfl⟩ := Prod.mk.inj pair
        obtain ⟨sameFile, split, shape⟩ := inductionHypothesis _ _ looped
        refine ⟨sameFile, ?_, ?_⟩
        · rw [Reader.ahead, ← same, split, List.append_assoc]
        · rcases shape with ⟨word, stopper, rfl, moreplain, stops⟩ | ⟨morePlain, exhausted⟩
          · refine Or.inl ⟨reader.buffer ++ word, stopper, by simp, ?_, stops⟩
            intro item member
            rcases List.mem_append.mp member with early | late
            · exact plain item early
            · exact moreplain item late
          · refine Or.inr ⟨?_, exhausted⟩
            intro item member
            rcases List.mem_append.mp member with early | late
            · exact plain item early
            · exact morePlain item late

/-- As long as something is ahead, a line is not empty. -/
theorem Reader.takeLine_nonempty (positive : 0 < blockSize) (fuel : Nat) (reader final : Reader α)
    (line : List α) (read : reader.takeLine stop blockSize fuel = some (line, final))
    (more : reader.ahead ≠ []) : line ≠ [] := by
  obtain ⟨_, split, shape⟩ := reader.takeLine_ahead positive fuel final line read
  rintro rfl
  rcases shape with ⟨word, last, shape, _⟩ | ⟨_, exhausted⟩
  · simp at shape
  · exact more (by simpa [exhausted] using split)

end Reading

/-- Where the block that contains the bytes before a position ends. -/
def blockEnd (blockSize length position : Nat) : Nat :=
  min length ((position + (blockSize - 1)) / blockSize * blockSize)

/-- A multiple of the block size with less than a block before it is the end of that
block. -/
theorem blockEnd_unique {blockSize position count : Nat} (length : Nat)
    (below : position ≤ count * blockSize) (above : count * blockSize < position + blockSize) :
    blockEnd blockSize length position = min length (count * blockSize) := by
  have quotient : (position + (blockSize - 1)) / blockSize = count := by
    apply Nat.div_eq_of_lt_le
    · omega
    · rw [Nat.succ_mul]
      omega
  rw [blockEnd, quotient]

/-- Positions up to the end of a block are in that block. -/
theorem blockEnd_within {blockSize : Nat} (positive : 0 < blockSize) {length position later : Nat}
    (before : position ≤ later) (within : later ≤ blockEnd blockSize length position) :
    blockEnd blockSize length later = blockEnd blockSize length position := by
  have above := Nat.div_mul_le_self (position + (blockSize - 1)) blockSize
  apply blockEnd_unique
  · exact within.trans (Nat.min_le_right _ _)
  · omega

/-- The stream stands at a position, and the offset at the end of the block that it
has read last. -/
structure Reader.Synced (blockSize position : Nat) (reader : Reader α) : Prop where
  ahead : reader.ahead = reader.file.drop position
  fetched : reader.offset = position + reader.buffer.length
  block : reader.offset = blockEnd blockSize reader.file.length position

/-- A reader that has just been opened has read nothing. -/
theorem synced_initially {blockSize : Nat} (positive : 0 < blockSize) (file : List α) :
    (Reader.mk file 0 []).Synced blockSize 0 where
  ahead := rfl
  fetched := rfl
  block := by
    have none : (0 + (blockSize - 1)) / blockSize = 0 := Nat.div_eq_of_lt (by omega)
    rw [blockEnd, none, Nat.zero_mul, Nat.min_zero]

section Synced

variable {stop : α → Bool} {blockSize : Nat}

/-- A line that was read block by block ends in the last block read. -/
theorem Reader.takeLine_block (positive : 0 < blockSize) (fuel : Nat) (reader final : Reader α)
    (line : List α) (read : reader.takeLine stop blockSize fuel = some (line, final))
    (nonempty : line ≠ []) (position count : Nat)
    (fetched : reader.offset = position + reader.buffer.length)
    (block : reader.offset = min reader.file.length (count * blockSize))
    (near : count * blockSize ≤ position + blockSize) :
    final.offset = position + line.length + final.buffer.length ∧
      ∃ last, final.offset = min reader.file.length (last * blockSize) ∧
        last * blockSize < position + line.length + blockSize := by
  induction fuel generalizing reader line position count with
  | zero => simp [Reader.takeLine] at read
  | succ fuel inductionHypothesis =>
    have some : 0 < line.length := List.length_pos_iff.mpr nonempty
    rcases buffered_or_plain stop reader.buffer with ⟨word, rest, terminated, holds⟩ | plain
    · rw [reader.takeLine_buffered terminated holds] at read
      obtain ⟨rfl, rfl⟩ := Prod.mk.inj (Option.some.inj read)
      rw [holds, List.length_append] at fetched
      exact ⟨by dsimp only; omega, count, block, by omega⟩
    · rw [reader.takeLine_refilled plain] at read
      have moved := reader.refill_offset blockSize
      split at read
      · rename_i empty
        obtain ⟨rfl, rfl⟩ := Prod.mk.inj (Option.some.inj read)
        rw [List.isEmpty_iff] at empty
        have exhausted := (reader.refill_empty_iff positive).mp empty
        rw [empty, List.length_nil]
        exact ⟨by omega, count, by omega, by omega⟩
      · rename_i filled
        obtain ⟨⟨more, last⟩, looped, pair⟩ := Option.map_eq_some_iff.mp read
        simp only [Prod.mk.injEq] at pair
        obtain ⟨rfl, rfl⟩ := pair
        rw [List.isEmpty_iff, reader.refill_empty_iff positive] at filled
        have whole : count * blockSize = reader.offset := by omega
        have moreNonempty : more ≠ [] := by
          apply Reader.takeLine_nonempty positive fuel _ _ more looped
          rw [reader.refill_ahead, ne_eq, List.drop_eq_nil_iff]
          exact filled
        have next : (count + 1) * blockSize = reader.offset + blockSize := by
          rw [Nat.succ_mul, whole]
        obtain ⟨offset, final, end', close⟩ := inductionHypothesis (reader.refill blockSize) more
          looped moreNonempty reader.offset (count + 1) rfl
          (by change _ = min reader.file.length _; omega) (by omega)
        rw [List.length_append]
        exact ⟨by omega, final, end', by omega⟩

end Synced

section Getline

variable (stop : α → Bool) {blockSize : Nat} (positive : 0 < blockSize)

/-- `getline`: the next line, or nothing at the end of the file. -/
@[irreducible] def Reader.getline (reader : Reader α) : Option (List α) × Reader α :=
  let read := (reader.takeLine stop blockSize (reader.file.length + 1)).get
    (Reader.takeLine_ends positive _ reader (by omega))
  (if read.1.isEmpty then none else some read.1, read.2)

variable {stop}

/-- Reading by blocks gives the next line. -/
theorem Reader.takeLine_getline (reader : Reader α) : ∃ line,
    reader.takeLine stop blockSize (reader.file.length + 1) =
      some (line, (reader.getline stop positive).2) ∧
    (reader.getline stop positive).1 = if line.isEmpty then none else some line := by
  rw [Reader.getline]
  exact ⟨_, (Option.some_get _).symm, rfl⟩

/-- Lines are delivered in order, the last one up to the end of the file. -/
theorem Reader.getline_lines (stop : α → Bool) (reader : Reader α) :
    (reader.getline stop positive).1 = (lines stop reader.ahead).head? ∧
      lines stop (reader.getline stop positive).2.ahead = (lines stop reader.ahead).tail ∧
      (reader.getline stop positive).2.file = reader.file := by
  obtain ⟨line, taken, delivered⟩ := reader.takeLine_getline positive
  obtain ⟨sameFile, split, shape⟩ := reader.takeLine_ahead positive _ _ line taken
  rw [delivered, split]
  refine ⟨?_, ?_, sameFile⟩
  all_goals
    rcases shape with terminated | ⟨plain, exhausted⟩
    · rw [lines_terminated terminated]
      obtain ⟨word, last, rfl, _⟩ := terminated
      simp
    · rw [exhausted, List.append_nil]
      cases line with
      | nil => rfl
      | cons item rest =>
        rw [lines_plain plain (by simp)]
        rfl

/-- The first line ahead is delivered, and the others stay ahead. -/
theorem Reader.getline_cons (reader : Reader α) {line : List α} {later : List (List α)}
    (cut : lines stop reader.ahead = line :: later) :
    ∃ next, reader.getline stop positive = (some line, next) ∧ lines stop next.ahead = later ∧
      next.file = reader.file := by
  obtain ⟨delivered, remaining, sameFile⟩ := reader.getline_lines positive stop
  rw [cut] at delivered remaining
  exact ⟨_, Prod.ext delivered rfl, remaining, sameFile⟩

/-- A line in the buffer is delivered without touching the file. -/
theorem Reader.getline_buffered (reader : Reader α) {line rest : List α}
    (terminated : Terminated stop line) (holds : reader.buffer = line ++ rest) :
    reader.getline stop positive = (some line, { reader with buffer := rest }) := by
  obtain ⟨word, last, rfl, _⟩ := id terminated
  simp [Reader.getline, reader.takeLine_buffered terminated holds]

/-- Where the next block starts before the position that is due, a line is delivered that
is not due, if the items of the file can be told apart. -/
theorem Reader.getline_moved (reader : Reader α) (distinct : reader.file.Nodup) {due : Nat}
    (moved : reader.offset < due) (inside : due ≤ reader.file.length)
    (plain : ∀ item ∈ reader.buffer, stop item = false) :
    ∃ line next, reader.getline stop positive = (some line, next) ∧
      ∀ later, lines stop (reader.buffer ++ reader.file.drop due) ≠ line :: later := by
  obtain ⟨wrong, others, start⟩ : ∃ wrong others,
      reader.file.drop reader.offset = wrong :: others :=
    ⟨_, _, List.drop_eq_getElem_cons (by omega)⟩
  obtain ⟨line, later, cut⟩ : ∃ line later, lines stop reader.ahead = line :: later := by
    apply List.exists_cons_of_ne_nil
    rw [ne_eq, lines_eq_nil_iff, Reader.ahead, start]
    simp
  obtain ⟨next, read, _⟩ := reader.getline_cons positive cut
  rw [Reader.ahead, start] at cut
  obtain ⟨more, rfl⟩ := lines_head plain cut
  refine ⟨_, next, read, ?_⟩
  intro others' expected
  cases right : reader.file.drop due with
  | nil =>
    have whole := congrArg List.length (lines_flatten stop (reader.buffer ++ reader.file.drop due))
    rw [expected, right] at whole
    simp at whole
  | cons item rest =>
    rw [right] at expected
    obtain ⟨_, same⟩ := lines_head plain expected
    obtain ⟨rfl, _⟩ := List.cons.inj (List.append_cancel_left same)
    -- The wrong item is also the one that is due, further on in the file.
    have again : wrong ∈ others := by
      have suffix : reader.file.drop due <:+ others := by
        have tail : others = reader.file.drop (reader.offset + 1) := by
          rw [← List.drop_drop, start, List.drop_one, List.tail_cons]
        rw [tail, show due = reader.offset + 1 + (due - (reader.offset + 1)) by omega,
          ← List.drop_drop]
        exact List.drop_suffix _ _
      apply suffix.mem
      rw [right]
      exact List.mem_cons_self
    have once := distinct.sublist (List.drop_sublist reader.offset reader.file)
    rw [start, List.nodup_cons] at once
    exact once.1 again

/-- An undisturbed stream advances by the lines it delivers. -/
theorem Reader.Synced.getline {reader next : Reader α} {position : Nat}
    (synced : reader.Synced blockSize position) {line : List α}
    (delivered : reader.getline stop positive = (some line, next)) :
    next.Synced blockSize (position + line.length) := by
  obtain ⟨read, taken, result⟩ := Reader.takeLine_getline positive reader
  rw [delivered] at taken result
  have isLine : read = line ∧ line ≠ [] := by
    cases read with
    | nil => simp at result
    | cons item rest =>
      obtain rfl : item :: rest = line := by simpa using result.symm
      exact ⟨rfl, by simp⟩
  obtain ⟨rfl, nonempty⟩ := isLine
  obtain ⟨sameFile, split, _⟩ := reader.takeLine_ahead positive _ _ read taken
  have near : (position + (blockSize - 1)) / blockSize * blockSize ≤ position + blockSize := by
    have below := Nat.div_mul_le_self (position + (blockSize - 1)) blockSize
    omega
  obtain ⟨fetched, last, block, close⟩ := reader.takeLine_block positive _ _ read taken nonempty
    position _ synced.fetched synced.block near
  refine ⟨?_, fetched, ?_⟩
  · rw [synced.ahead] at split
    rw [sameFile, ← List.drop_drop, split, List.drop_left]
  · rw [sameFile, blockEnd_unique _ (by omega) close, block]

end Getline

section Rewind

/-- The buffer stays. -/
theorem Reader.rewind_buffer (reader : Reader α) : reader.rewind.buffer = reader.buffer := by
  rw [Reader.rewind]
  split
  · rfl
  · rfl

/-- The file stays. -/
theorem Reader.rewind_file (reader : Reader α) : reader.rewind.file = reader.file := by
  rw [Reader.rewind]
  split
  · rfl
  · rfl

/-- The offset goes back. -/
theorem Reader.rewind_offset_le (reader : Reader α) : reader.rewind.offset ≤ reader.offset := by
  rw [Reader.rewind]
  split
  · exact Nat.sub_le _ _
  · exact Nat.le_refl _

/-- Several processes with copies of the buffer end one after the other. -/
def Reader.rewinds (count : Nat) (reader : Reader α) : Reader α := Reader.rewind^[count] reader

/-- Once, and then the other times. -/
theorem Reader.rewinds_succ (count : Nat) (reader : Reader α) :
    reader.rewinds (count + 1) = reader.rewind.rewinds count := rfl

/-- Any number of times. -/
theorem Reader.rewinds_keeps (count : Nat) (reader : Reader α) :
    (reader.rewinds count).buffer = reader.buffer ∧ (reader.rewinds count).file = reader.file ∧
      (reader.rewinds count).offset ≤ reader.offset := by
  induction count generalizing reader with
  | zero => exact ⟨rfl, rfl, Nat.le_refl _⟩
  | succ count inductionHypothesis =>
    obtain ⟨buffer, file, offset⟩ := inductionHypothesis reader.rewind
    rw [reader.rewinds_succ]
    exact ⟨buffer.trans reader.rewind_buffer, file.trans reader.rewind_file,
      offset.trans reader.rewind_offset_le⟩

/-- If nobody ends, or with the buffer used up, nothing moves. -/
theorem Reader.rewinds_still {count : Nat} {reader : Reader α}
    (still : count = 0 ∨ reader.buffer = []) : reader.rewinds count = reader := by
  rcases still with rfl | used
  · rfl
  · induction count with
    | zero => rfl
    | succ count inductionHypothesis =>
      have same : reader.rewind = reader := by
        cases reader
        simp_all [Reader.rewind]
      rw [reader.rewinds_succ, same, inductionHypothesis]

/-- With unread bytes in the buffer, the offset moves back. -/
theorem Reader.rewinds_moves (count : Nat) (reader : Reader α) (some : 0 < count)
    (unread : reader.buffer ≠ []) (fetched : reader.buffer.length ≤ reader.offset) :
    (reader.rewinds count).offset < reader.offset := by
  obtain ⟨count, rfl⟩ := Nat.exists_eq_succ_of_ne_zero (Nat.ne_of_gt some)
  have later := (reader.rewind.rewinds_keeps count).2.2
  have moved : reader.rewind.offset < reader.offset := by
    have positive := List.length_pos_iff.mpr unread
    simp only [Reader.rewind, fetched, ↓reduceIte]
    omega
  exact Nat.lt_of_le_of_lt later moved

end Rewind

end OsLabwork.BufferedInput
