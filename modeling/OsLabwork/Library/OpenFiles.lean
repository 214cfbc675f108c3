import OsLabwork.Library.Overwriting

/-!
# Open files

A process writes to files through streams. A stream refers to an open file description,
which has an offset of its own; bytes are written at that offset and advance it. Opening
a file for writing truncates it and makes a new description with offset zero.

Two streams for one file, each with its own description, overwrite each other: the file
is as long as the longer of what they have written. A single stream that writes from
the end of the file on appends to it.
-/

namespace OsLabwork.OpenFiles

open Overwriting

universe u v
variable {F : Type u} {S : Type v} [DecidableEq F] [DecidableEq S]

/-- An open file description. -/
structure Description (F : Type u) where
  file : F
  offset : Nat
deriving DecidableEq, Repr

/-- The contents of the files and the descriptions behind the streams of a process. -/
structure Files (F : Type u) (S : Type v) where
  content : F → List UInt8
  opened : S → Option (Description F)

/-- Put bytes at an offset. A gap is filled with zeros, and nothing written is no change. -/
def writeAt (content : List UInt8) (offset : Nat) (bytes : List UInt8) : List UInt8 :=
  if bytes = [] then content
  else overwrite (content ++ List.replicate (offset - content.length) 0) offset bytes

/-- `write`; a stream that is not open cannot be written to. -/
def Files.write (files : Files F S) (stream : S) (bytes : List UInt8) : Files F S :=
  match files.opened stream with
  | none => files
  | some description =>
      { content := Function.update files.content description.file
          (writeAt (files.content description.file) description.offset bytes)
        opened := Function.update files.opened stream
          (some { description with offset := description.offset + bytes.length }) }

/-- `freopen` for writing, when it succeeds. -/
def Files.freopen (files : Files F S) (file : F) (stream : S) : Files F S where
  content := Function.update files.content file []
  opened := Function.update files.opened stream (some ⟨file, 0⟩)

/-- One write after the other, each to its stream. -/
def Files.writeAll (files : Files F S) (writes : List (S × List UInt8)) : Files F S :=
  writes.foldl (fun files write => files.write write.1 write.2) files

/-- The first write, and then the others. -/
theorem Files.writeAll_cons (files : Files F S) (write : S × List UInt8)
    (writes : List (S × List UInt8)) :
    files.writeAll (write :: writes) = (files.write write.1 write.2).writeAll writes := rfl

/-- All bytes, in the order in which they are written. -/
def written (writes : List (S × List UInt8)) : List UInt8 := (writes.map Prod.snd).flatten

/-- The bytes that are written to one stream. -/
def writtenTo (stream : S) (writes : List (S × List UInt8)) : List UInt8 :=
  written (writes.filter fun write => write.1 = stream)

omit [DecidableEq S] in
/-- Nothing is written. -/
@[simp] theorem written_nil : written ([] : List (S × List UInt8)) = [] := rfl

omit [DecidableEq S] in
/-- The bytes of the first write, and then those of the others. -/
@[simp] theorem written_cons (write : S × List UInt8) (writes : List (S × List UInt8)) :
    written (write :: writes) = write.2 ++ written writes := by
  simp [written]

/-- The first write counts if it is to the stream. -/
theorem writtenTo_cons (stream : S) (write : S × List UInt8) (writes : List (S × List UInt8)) :
    writtenTo stream (write :: writes) =
      (if write.1 = stream then write.2 else []) ++ writtenTo stream writes := by
  by_cases same : write.1 = stream
  · simp [writtenTo, same]
  · simp [writtenTo, same]

/-- Inside a file, a write is no gap to be filled. -/
theorem writeAt_eq {content : List UInt8} {offset : Nat} (within : offset ≤ content.length)
    (bytes : List UInt8) : writeAt content offset bytes = overwrite content offset bytes := by
  rw [writeAt]
  split
  · next empty => rw [empty, overwrite_nil]
  · rw [Nat.sub_eq_zero_of_le within, List.replicate_zero, List.append_nil]

/-- Two streams are open for one file, at these offsets, and the file is as long as they
have come. -/
structure Tracks (files : Files F S) (file : F) (first second : S) (here there : Nat) : Prop where
  first : files.opened first = some ⟨file, here⟩
  second : files.opened second = some ⟨file, there⟩
  length : (files.content file).length = max here there

section Tracks

variable {files : Files F S} {file : F} {first second : S} {here there : Nat}

omit [DecidableEq F] [DecidableEq S] in
/-- Either of the streams may be named first. -/
theorem Tracks.symm (tracks : Tracks files file first second here there) :
    Tracks files file second first there here where
  first := tracks.second
  second := tracks.first
  length := by rw [tracks.length, Nat.max_comm]

/-- Writing to one of the streams advances that one only. -/
theorem Tracks.write (tracks : Tracks files file first second here there)
    (different : first ≠ second) (bytes : List UInt8) :
    Tracks (files.write first bytes) file first second (here + bytes.length) there := by
  have length := tracks.length
  simp only [Files.write, tracks.first]
  constructor
  · simp
  · simp [Function.update_of_ne different.symm, tracks.second]
  · simp only [Function.update_self]
    rw [writeAt_eq (by omega), length_overwrite _ _ (by omega)]
    omega

/-- Writing to both streams, in whatever order, advances each by what is written to it. -/
theorem Tracks.writeAll (tracks : Tracks files file first second here there)
    (different : first ≠ second) (writes : List (S × List UInt8))
    (among : ∀ write ∈ writes, write.1 = first ∨ write.1 = second) :
    Tracks (files.writeAll writes) file first second
      (here + (writtenTo first writes).length) (there + (writtenTo second writes).length) := by
  induction writes generalizing files here there with
  | nil => simpa [writtenTo, Files.writeAll] using tracks
  | cons write writes inductionHypothesis =>
    have later := fun other member => among other (List.mem_cons_of_mem _ member)
    simp only [Files.writeAll_cons, writtenTo_cons, List.length_append]
    rcases among write List.mem_cons_self with isFirst | isSecond
    · have advanced := inductionHypothesis (tracks.write different write.2) later
      simpa [isFirst, different, Nat.add_assoc] using advanced
    · have advanced := inductionHypothesis (tracks.symm.write different.symm write.2).symm later
      simpa [isSecond, different.symm, Nat.add_assoc] using advanced

omit [DecidableEq F] in
/-- The bytes written are those written to the one stream and those written to the other. -/
theorem written_length (different : first ≠ second) (writes : List (S × List UInt8))
    (among : ∀ write ∈ writes, write.1 = first ∨ write.1 = second) :
    (written writes).length =
      (writtenTo first writes).length + (writtenTo second writes).length := by
  induction writes with
  | nil => rfl
  | cons write writes inductionHypothesis =>
    have later := inductionHypothesis fun other member =>
      among other (List.mem_cons_of_mem _ member)
    simp only [written_cons, writtenTo_cons, List.length_append]
    rcases among write List.mem_cons_self with isFirst | isSecond
    · simp only [isFirst, ↓reduceIte, if_neg different, List.length_nil]
      omega
    · simp only [isSecond, ↓reduceIte, if_neg different.symm, List.length_nil]
      omega

end Tracks

/-- When a single stream is written to, from the end of its file on, all bytes are appended
in order. -/
theorem writeAll_appends {files : Files F S} {file : F} {stream : S}
    (atEnd : files.opened stream = some ⟨file, (files.content file).length⟩)
    (writes : List (S × List UInt8)) (silent : ∀ write ∈ writes, write.1 ≠ stream → write.2 = []) :
    (files.writeAll writes).content file = files.content file ++ written writes := by
  induction writes generalizing files with
  | nil => simp [Files.writeAll]
  | cons write writes inductionHypothesis =>
    have later := fun other member => silent other (List.mem_cons_of_mem _ member)
    obtain ⟨target, bytes⟩ := write
    simp only [Files.writeAll_cons, written_cons]
    by_cases same : target = stream
    · subst same
      have appended : (files.write target bytes).content file = files.content file ++ bytes := by
        simp [Files.write, atEnd, writeAt_eq, overwrite_end]
      have stillAtEnd : (files.write target bytes).opened target =
          some ⟨file, ((files.write target bytes).content file).length⟩ := by
        rw [appended]
        simp [Files.write, atEnd]
      have continued := inductionHypothesis stillAtEnd later
      rwa [appended, List.append_assoc] at continued
    · obtain rfl : bytes = [] := silent _ List.mem_cons_self same
      have unchanged : (files.write target []).content = files.content := by
        simp only [Files.write]
        split
        · rfl
        · simp [writeAt]
      have stillOpened : (files.write target []).opened stream =
          some ⟨file, ((files.write target []).content file).length⟩ := by
        rw [unchanged, ← atEnd]
        simp only [Files.write]
        split
        · rfl
        · exact Function.update_of_ne (Ne.symm same) _ _
      have continued := inductionHypothesis stillOpened later
      rwa [unchanged] at continued

end OsLabwork.OpenFiles
