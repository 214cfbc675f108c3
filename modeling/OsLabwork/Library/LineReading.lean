import OsLabwork.Library.BufferedInput
import OsLabwork.Library.Streams

/-!
# Reading lines from a stream

`fgets` reads a line as far as the given memory has room for it, and `getline` reads a
line of any length. Both keep the newline, and both return no line when they find the end
of the file first or when reading fails.

On a stream that ends as a file does, `fgets` cuts the content into pieces and `getline`
into its lines.
-/

namespace OsLabwork

open BufferedInput

/-- A newline. -/
def endsLine (byte : UInt8) : Bool := byte = 10

/-- Read byte by byte up to a newline, up to the end of the stream, or as many bytes as
there is room for. -/
def Stream.takeLine : Nat → Stream → List UInt8 × Stream
  | 0, stream => ([], stream)
  | room + 1, stream =>
      match stream.rest with
      | [] => ([], stream.finish)
      | byte :: rest =>
          if endsLine byte then ([byte], { stream with rest := rest })
          else
            let later := Stream.takeLine room { stream with rest := rest }
            (byte :: later.1, later.2)

/-- There is no line if nothing was read or reading failed. -/
def Stream.lineRead (read : List UInt8 × Stream) : Option (List UInt8) × Stream :=
  (if read.1 = [] ∨ read.2.error then none else some read.1, read.2)

/-- `fgets` into memory of the given size, one byte of which is for the NUL. -/
def Stream.fgets (size : Nat) (stream : Stream) : Option (List UInt8) × Stream :=
  Stream.lineRead (stream.takeLine (size - 1))

/-- `getline`, whose memory grows as needed. -/
def Stream.getline (stream : Stream) : Option (List UInt8) × Stream :=
  Stream.lineRead (stream.takeLine (stream.rest.length + 1))

/-- The stream ends as a file does, and no read has failed. -/
structure Stream.Sound (stream : Stream) : Prop where
  ending : stream.ending = .endOfFile
  clear : stream.error = false

/-- A file that has just been opened. -/
theorem Stream.file_sound (content : List UInt8) : (Stream.file content).Sound := ⟨rfl, rfl⟩

/-- A stream at its end. -/
theorem Stream.Sound.finish {stream : Stream} (sound : stream.Sound) : stream.finish.Sound := by
  rw [Stream.finish, sound.ending]
  exact ⟨rfl, sound.clear⟩

/-- A stream further on. -/
theorem Stream.Sound.advance {stream : Stream} (sound : stream.Sound) (rest : List UInt8) :
    { stream with rest := rest }.Sound := ⟨sound.ending, sound.clear⟩

/-- At the end there is no line. -/
theorem Stream.takeLine_at_end (room : Nat) (stream : Stream) (exhausted : stream.rest = []) :
    stream.takeLine (room + 1) = ([], stream.finish) := by
  rw [Stream.takeLine, exhausted]

/-- A newline ends the line. -/
theorem Stream.takeLine_newline (room : Nat) (stream : Stream) {byte : UInt8} {rest : List UInt8}
    (content : stream.rest = byte :: rest) (ends : endsLine byte = true) :
    stream.takeLine (room + 1) = ([byte], { stream with rest := rest }) := by
  simp only [Stream.takeLine, content, ends, ↓reduceIte]

/-- Any other byte goes on. -/
theorem Stream.takeLine_more (room : Nat) (stream : Stream) {byte : UInt8} {rest : List UInt8}
    (content : stream.rest = byte :: rest) (plain : endsLine byte = false) :
    stream.takeLine (room + 1) =
      (byte :: (Stream.takeLine room { stream with rest := rest }).1,
        (Stream.takeLine room { stream with rest := rest }).2) := by
  simp only [Stream.takeLine, content, plain, Bool.false_eq_true, ↓reduceIte]

/-- Noticing the end reads nothing. -/
theorem finish_rest (stream : Stream) : stream.finish.rest = stream.rest := by
  cases ending : stream.ending <;> simp [Stream.finish, ending]

/-- What is read is the next part of the content: a line with its newline, or bytes
without one up to the end or to the limit. -/
theorem Stream.takeLine_spec (room : Nat) {stream : Stream} (sound : stream.Sound) :
    (stream.takeLine room).2.Sound ∧
      stream.rest = (stream.takeLine room).1 ++ (stream.takeLine room).2.rest ∧
      (Terminated endsLine (stream.takeLine room).1 ∨
        (∀ byte ∈ (stream.takeLine room).1, endsLine byte = false) ∧
          ((stream.takeLine room).2.rest = [] ∨ (stream.takeLine room).1.length = room)) := by
  induction room generalizing stream with
  | zero => exact ⟨sound, rfl, Or.inr ⟨by simp [Stream.takeLine], Or.inr rfl⟩⟩
  | succ room inductionHypothesis =>
    rcases content : stream.rest with _ | ⟨byte, rest⟩
    · rw [stream.takeLine_at_end room content]
      have none : stream.finish.rest = [] := (finish_rest stream).trans content
      exact ⟨sound.finish, by simp [none], Or.inr ⟨by simp, Or.inl none⟩⟩
    · cases ends : endsLine byte with
      | true =>
        rw [stream.takeLine_newline room content ends]
        exact ⟨sound.advance rest, rfl, Or.inl ⟨[], byte, rfl, by simp, ends⟩⟩
      | false =>
        obtain ⟨later, split, shape⟩ := inductionHypothesis (sound.advance rest)
        rw [stream.takeLine_more room content ends]
        refine ⟨later, congrArg (byte :: ·) split, ?_⟩
        rcases shape with ⟨word, last, line, plain, stops⟩ | ⟨plain, limit⟩
        · refine Or.inl ⟨byte :: word, last, congrArg (byte :: ·) line, ?_, stops⟩
          exact List.forall_mem_cons.mpr ⟨ends, plain⟩
        · refine Or.inr ⟨List.forall_mem_cons.mpr ⟨ends, plain⟩, ?_⟩
          exact limit.imp id (congrArg (· + 1))

/-- `fgets` delivers a piece of the content while there is any. -/
theorem Stream.fgets_piece {size : Nat} (room : 2 ≤ size) {stream : Stream}
    (sound : stream.Sound) :
    (stream.rest = [] ∧ ∃ next, stream.fgets size = (none, next)) ∨
      ∃ piece next, piece ≠ [] ∧ stream.fgets size = (some piece, next) ∧ next.Sound ∧
        stream.rest = piece ++ next.rest := by
  obtain ⟨later, split, shape⟩ := Stream.takeLine_spec (size - 1) sound
  rw [Stream.fgets]
  generalize stream.takeLine (size - 1) = read at later split shape ⊢
  by_cases empty : read.1 = []
  · refine Or.inl ⟨?_, read.2, by simp [Stream.lineRead, empty]⟩
    rw [empty] at shape split
    rcases shape with ⟨word, last, line, _⟩ | ⟨_, exhausted | full⟩
    · simp at line
    · rw [split, exhausted]
      rfl
    · rw [List.length_nil] at full
      omega
  · exact Or.inr ⟨read.1, read.2, empty, by simp [Stream.lineRead, empty, later.clear], later,
      split⟩

/-- `getline` delivers the first line of the content and leaves the others. -/
theorem Stream.getline_lines {stream : Stream} (sound : stream.Sound) :
    stream.getline.1 = (lines endsLine stream.rest).head? ∧
      lines endsLine stream.getline.2.rest = (lines endsLine stream.rest).tail ∧
      stream.getline.2.Sound := by
  obtain ⟨later, split, shape⟩ := Stream.takeLine_spec (stream.rest.length + 1) sound
  generalize taken : stream.takeLine (stream.rest.length + 1) = read at later split shape
  have short : read.1.length ≠ stream.rest.length + 1 := by
    have lengths := congrArg List.length split
    rw [List.length_append] at lengths
    omega
  have delivered : stream.getline = (if read.1 = [] then none else some read.1, read.2) := by
    simp [Stream.getline, Stream.lineRead, taken, later.clear]
  rw [delivered, split]
  refine ⟨?_, ?_, later⟩
  all_goals
    rcases shape with terminated | ⟨plain, exhausted | full⟩
    · rw [lines_terminated terminated]
      obtain ⟨word, last, line, _⟩ := terminated
      simp [line]
    · rw [exhausted, List.append_nil]
      rcases line : read.1 with _ | ⟨byte, more⟩
      · rfl
      · rw [line] at plain
        rw [lines_plain plain (by simp)]
        simp [lines]
    · exact absurd full short

end OsLabwork
