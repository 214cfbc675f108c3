import OsLabwork.Kernel.SleepWakeup
import OsLabwork.Library.Histories
import OsLabwork.Library.RingCounters

/-!
# Pipes

`pipe.c` keeps a ring of 512 bytes between writers and readers. A writer that finds the
ring full wakes the readers and sleeps on the address of `nwrite`; a reader that finds it
empty, while the write end is open, sleeps on the address of `nread`.

The code from one acquisition of the pipe's lock to its release, or to `sleep`, is a region
of a monitor. The processes run it with the locks, `sleep` and `wakeup` of the kernel. The
two counters are unsigned 32-bit words that wrap around after four gigabytes.

A process that has been killed and finds the ring full gives up without waking the readers,
even if it has filled the ring itself before. Only then may a reader sleep over bytes.
-/

namespace OsLabwork.Kernel.Pipes

open Histories Monitors RingCounters Schedules SleepWakeup

/-- The number of bytes in a pipe. -/
def pipesize : Nat := 512

/-- The data, and whether the two ends are still open. -/
structure Pipe where
  data : Nat → BitVec 8
  nread : BitVec 32
  nwrite : BitVec 32
  readopen : Bool
  writeopen : Bool

/-- What `pipealloc` makes of a fresh page. -/
def newPipe (page : Nat → BitVec 8) : Pipe := ⟨page, 0#32, 0#32, true, true⟩

/-- The addresses that processes sleep on. -/
inductive Channel where
  | nread
  | nwrite
deriving DecidableEq

/-- What a process does with the pipe: it writes the rest of a buffer, from the given index
on, reads up to so many bytes, or closes an end. -/
inductive Call where
  | write (i : Nat) (rest : List (BitVec 8))
  | read (n : Nat)
  | close (writable : Bool)

/-- Bytes that enter and leave the pipe, results of calls, and the release of the page. -/
inductive Event where
  | accepted (byte : BitVec 8)
  | wrote (n : Nat)
  | writeFailed
  | delivered (byte : BitVec 8)
  | readBytes (n count : Nat)
  | readFailed
  | closed (writable : Bool)
  | freed
deriving DecidableEq

/-- `p->data[p->nwrite++ % PIPESIZE] = byte` -/
def Pipe.put (pipe : Pipe) (byte : BitVec 8) : Pipe :=
  { pipe with
    data := Function.update pipe.data (pipe.nwrite.toNat % pipesize) byte
    nwrite := pipe.nwrite + 1#32 }

/-- The test of `pipewrite` for a full pipe. -/
def Pipe.full (pipe : Pipe) : Bool := pipe.nwrite == pipe.nread + BitVec.ofNat 32 pipesize

/-- The test of `piperead` for an empty pipe. -/
def Pipe.empty (pipe : Pipe) : Bool := pipe.nread == pipe.nwrite

/-- `pipewrite` with the lock held, at index `i` with the rest of the buffer to go. -/
def pipewrite (killed : Bool) (pipe : Pipe) (i : Nat) :
    List (BitVec 8) → Region Pipe Channel Call Event
  | [] => ⟨pipe, [.wrote i], [.nread], none⟩
  | byte :: rest =>
      if pipe.full then
        if !pipe.readopen || killed then ⟨pipe, [.writeFailed], [], none⟩
        else ⟨pipe, [], [.nread], some (.write i (byte :: rest), .nwrite)⟩
      else
        let region := pipewrite killed (pipe.put byte) (i + 1) rest
        { region with events := .accepted byte :: region.events }

/-- The loop of `piperead` that copies bytes out. -/
def readLoop (pipe : Pipe) : Nat → Pipe × List (BitVec 8)
  | 0 => (pipe, [])
  | n + 1 =>
      if pipe.empty then (pipe, [])
      else
        let byte := pipe.data (pipe.nread.toNat % pipesize)
        let (after, bytes) := readLoop { pipe with nread := pipe.nread + 1#32 } n
        (after, byte :: bytes)

/-- `piperead` with the lock held. -/
def piperead (killed : Bool) (pipe : Pipe) (n : Nat) : Region Pipe Channel Call Event :=
  if pipe.empty && pipe.writeopen then
    if killed then ⟨pipe, [.readFailed], [], none⟩
    else ⟨pipe, [], [], some (.read n, .nread)⟩
  else
    let (after, bytes) := readLoop pipe n
    ⟨after, bytes.map .delivered ++ [.readBytes n bytes.length], [.nwrite], none⟩

/-- `pipeclose` closes one end and wakes up the other. With both ends closed the page is freed. -/
def pipeclose (pipe : Pipe) (writable : Bool) : Region Pipe Channel Call Event :=
  let after := if writable then { pipe with writeopen := false }
    else { pipe with readopen := false }
  ⟨after, .closed writable :: if !after.readopen && !after.writeopen then [.freed] else [],
    [if writable then .nread else .nwrite], none⟩

/-- The calls on a pipe, each a region under the lock of the pipe. -/
def pipe : Monitor Pipe Channel Call Event := fun shared killed what =>
  match what with
  | .write i rest => pipewrite killed shared i rest
  | .read n => piperead killed shared n
  | .close writable => pipeclose shared writable

/-! ## What the regions do -/

/-- The bytes in the pipe, the oldest first. -/
def Pipe.contents (pipe : Pipe) : List (BitVec 8) :=
  window pipesize pipe.data pipe.nread pipe.nwrite

/-- Bytes that have entered the pipe. -/
def acceptedBytes (events : List Event) : List (BitVec 8) :=
  events.filterMap (fun | .accepted byte => some byte | _ => none)

/-- Bytes that have left the pipe. -/
def deliveredBytes (events : List Event) : List (BitVec 8) :=
  events.filterMap (fun | .delivered byte => some byte | _ => none)

/-- The counters wrap around at the same place of the array each time. -/
theorem pipesize_divides : pipesize ∣ 2 ^ 32 := by decide

/-- A full pipe is told from an empty one. -/
theorem pipesize_small : pipesize < 2 ^ 32 := by decide

/-- The test finds out whether there are bytes in the pipe. -/
@[simp] theorem empty_iff (pipe : Pipe) : pipe.empty = true ↔ pipe.contents = [] := by
  rw [Pipe.empty, beq_iff_eq, Pipe.contents, window_eq_nil_iff]

/-- The test finds out whether there is room in the pipe. -/
@[simp] theorem full_iff (pipe : Pipe) : pipe.full = true ↔ pipe.contents.length = pipesize := by
  rw [Pipe.full, beq_iff_eq, Pipe.contents, length_eq_size_iff pipesize_small]

/-- A byte is put behind the others. -/
theorem contents_put {pipe : Pipe} (room : pipe.contents.length < pipesize) (byte : BitVec 8) :
    (pipe.put byte).contents = pipe.contents ++ [byte] := by
  rw [Pipe.contents, window_length] at room
  exact window_put pipesize_divides pipesize_small room byte

/-- How a region of `pipewrite` may end after some bytes, with the rest to go. -/
inductive WriteEnds (killed : Bool) (after : Pipe) (i : Nat) :
    List (BitVec 8) → List Event → List Channel → Option (Call × Channel) → Prop where
  | finished : WriteEnds killed after i [] [.wrote i] [.nread] none
  | failed {rest : List (BitVec 8)} (more : rest ≠ []) (full : after.full)
      (givesUp : after.readopen = false ∨ killed = true) :
      WriteEnds killed after i rest [.writeFailed] [] none
  | sleeps {rest : List (BitVec 8)} (more : rest ≠ []) (full : after.full)
      (readopen : after.readopen = true) (alive : killed = false) :
      WriteEnds killed after i rest [] [.nread] (some (.write i rest, .nwrite))

/-- What a region of `pipewrite` does: some of the bytes go into the pipe, in order. -/
structure Writes (killed : Bool) (pipe : Pipe) (i : Nat) (bytes : List (BitVec 8))
    (region : Region Pipe Channel Call Event) (written rest : List (BitVec 8))
    (last : List Event) : Prop where
  split : bytes = written ++ rest
  contents : pipe.contents.length ≤ pipesize →
    region.shared.contents = pipe.contents ++ written ∧
      region.shared.contents.length ≤ pipesize
  readopen : region.shared.readopen = pipe.readopen
  writeopen : region.shared.writeopen = pipe.writeopen
  events : region.events = written.map .accepted ++ last
  ends : WriteEnds killed region.shared (i + written.length) rest last region.wakes region.sleeps

/-- What `pipewrite` does between taking the lock and giving it up. -/
theorem pipewrite_writes (killed : Bool) (pipe : Pipe) (i : Nat) (bytes : List (BitVec 8)) :
    ∃ written rest last,
      Writes killed pipe i bytes (pipewrite killed pipe i bytes) written rest last := by
  induction bytes generalizing pipe i with
  | nil =>
    exact ⟨[], [], [.wrote i], rfl, fun bounded => ⟨(List.append_nil _).symm, bounded⟩, rfl, rfl,
      rfl, .finished⟩
  | cons byte rest inductionHypothesis =>
    by_cases full : pipe.full = true
    · by_cases givesUp : (!pipe.readopen || killed) = true
      · refine ⟨[], byte :: rest, [.writeFailed], ?_⟩
        rw [pipewrite, if_pos full, if_pos givesUp]
        refine ⟨rfl, fun bounded => ⟨(List.append_nil _).symm, bounded⟩, rfl, rfl, rfl,
          .failed (List.cons_ne_nil _ _) full ?_⟩
        simpa using givesUp
      · refine ⟨[], byte :: rest, [], ?_⟩
        rw [pipewrite, if_pos full, if_neg givesUp]
        obtain ⟨readopen, alive⟩ : pipe.readopen = true ∧ killed = false := by simpa using givesUp
        exact ⟨rfl, fun bounded => ⟨(List.append_nil _).symm, bounded⟩, rfl, rfl, rfl,
          .sleeps (List.cons_ne_nil _ _) full readopen alive⟩
    · obtain ⟨written, left, last, writes⟩ := inductionHypothesis (pipe.put byte) (i + 1)
      refine ⟨byte :: written, left, last, ?_⟩
      rw [pipewrite, if_neg full]
      refine ⟨by rw [writes.split, List.cons_append], fun bounded => ?_, writes.readopen,
        writes.writeopen, congrArg (Event.accepted byte :: ·) writes.events, ?_⟩
      · have room : pipe.contents.length < pipesize := by
          rw [full_iff] at full
          omega
        have contents := contents_put room byte
        obtain ⟨more, stillBounded⟩ := writes.contents
          (by rw [contents, List.length_append, List.length_singleton]; omega)
        refine ⟨?_, stillBounded⟩
        rw [more, contents, List.append_assoc, List.singleton_append]
      · have index : i + (byte :: written).length = i + 1 + written.length := by
          rw [List.length_cons]
          omega
        rw [index]
        exact writes.ends

/-- The loop of `piperead` takes bytes from the front until it has enough, or all. -/
theorem readLoop_reads (pipe : Pipe) (n : Nat) :
    pipe.contents = (readLoop pipe n).2 ++ (readLoop pipe n).1.contents ∧
      (readLoop pipe n).2.length ≤ n ∧
      ((readLoop pipe n).2.length < n → (readLoop pipe n).1.contents = []) ∧
      (readLoop pipe n).1.readopen = pipe.readopen ∧
      (readLoop pipe n).1.writeopen = pipe.writeopen := by
  induction n generalizing pipe with
  | zero => exact ⟨rfl, Nat.le_refl 0, fun less => absurd less (Nat.lt_irrefl 0), rfl, rfl⟩
  | succ n inductionHypothesis =>
    by_cases empty : pipe.empty = true
    · rw [readLoop, if_pos empty]
      exact ⟨rfl, Nat.zero_le _, fun _ => (empty_iff pipe).mp empty, rfl, rfl⟩
    · rw [readLoop, if_neg empty]
      obtain ⟨contents, bounded, drained, readopen, writeopen⟩ :=
        inductionHypothesis { pipe with nread := pipe.nread + 1#32 }
      have different : pipe.nread ≠ pipe.nwrite := by
        simpa [Pipe.empty] using empty
      refine ⟨?_, Nat.succ_le_succ bounded, fun less => drained (Nat.lt_of_succ_lt_succ less),
        readopen, writeopen⟩
      rw [Pipe.contents, window_take different, List.cons_append, ← contents]
      rfl

/-- What a region of `piperead` may do. -/
inductive Reads (killed : Bool) (pipe : Pipe) (n : Nat) :
    Region Pipe Channel Call Event → Prop where
  | failed (empty : pipe.contents = []) (writeopen : pipe.writeopen = true)
      (dead : killed = true) : Reads killed pipe n ⟨pipe, [.readFailed], [], none⟩
  | sleeps (empty : pipe.contents = []) (writeopen : pipe.writeopen = true)
      (alive : killed = false) : Reads killed pipe n ⟨pipe, [], [], some (.read n, .nread)⟩
  | finished {after : Pipe} {bytes : List (BitVec 8)}
      (ready : pipe.contents = [] → pipe.writeopen = false)
      (contents : pipe.contents = bytes ++ after.contents) (bounded : bytes.length ≤ n)
      (drained : bytes.length < n → after.contents = [])
      (readopen : after.readopen = pipe.readopen) (writeopen : after.writeopen = pipe.writeopen) :
      Reads killed pipe n
        ⟨after, bytes.map .delivered ++ [.readBytes n bytes.length], [.nwrite], none⟩

/-- What `piperead` does between taking the lock and giving it up. -/
theorem piperead_reads (killed : Bool) (pipe : Pipe) (n : Nat) :
    Reads killed pipe n (piperead killed pipe n) := by
  by_cases waits : (pipe.empty && pipe.writeopen) = true
  · have why := waits
    rw [Bool.and_eq_true, empty_iff] at why
    cases killed with
    | true =>
      rw [piperead, if_pos waits]
      exact .failed why.1 why.2 rfl
    | false =>
      rw [piperead, if_pos waits]
      exact .sleeps why.1 why.2 rfl
  · rw [piperead, if_neg waits]
    obtain ⟨contents, bounded, drained, readopen, writeopen⟩ := readLoop_reads pipe n
    refine .finished (fun empty => ?_) contents bounded drained readopen writeopen
    rw [Bool.and_eq_true, empty_iff, not_and] at waits
    simpa using waits empty

/-- `pipeclose` closes its end, and may free the page. -/
theorem pipeclose_events (pipe : Pipe) (writable : Bool) :
    (pipeclose pipe writable).events = [.closed writable] ∨
      (pipeclose pipe writable).events = [.closed writable, .freed] := by
  simp only [pipeclose]
  generalize (if writable then { pipe with writeopen := false }
    else { pipe with readopen := false }) = after
  cases after.readopen <;> cases after.writeopen <;> simp

/-! ## Invariants of a pipe -/

/-- Bytes accepted earlier and later. -/
@[simp] theorem acceptedBytes_append (first later : List Event) :
    acceptedBytes (first ++ later) = acceptedBytes first ++ acceptedBytes later :=
  List.filterMap_append ..

/-- Bytes delivered earlier and later. -/
@[simp] theorem deliveredBytes_append (first later : List Event) :
    deliveredBytes (first ++ later) = deliveredBytes first ++ deliveredBytes later :=
  List.filterMap_append ..

/-- What is accepted is accepted. -/
@[simp] theorem acceptedBytes_accepted (bytes : List (BitVec 8)) :
    acceptedBytes (bytes.map .accepted) = bytes := by
  simp [acceptedBytes, List.filterMap_map]

/-- What is accepted is not delivered by that. -/
@[simp] theorem deliveredBytes_accepted (bytes : List (BitVec 8)) :
    deliveredBytes (bytes.map .accepted) = [] := by
  simp [deliveredBytes, List.filterMap_map]

/-- What is delivered is not accepted by that. -/
@[simp] theorem acceptedBytes_delivered (bytes : List (BitVec 8)) :
    acceptedBytes (bytes.map .delivered) = [] := by
  simp [acceptedBytes, List.filterMap_map]

/-- What is delivered is delivered. -/
@[simp] theorem deliveredBytes_delivered (bytes : List (BitVec 8)) :
    deliveredBytes (bytes.map .delivered) = bytes := by
  simp [deliveredBytes, List.filterMap_map]

/-- A read that was asked for bytes and got none had been given all there were, and nobody
could write any more. -/
def Due (past : List Event) : Event → Prop
  | .readBytes n count => 0 < n → count = 0 →
      acceptedBytes past = deliveredBytes past ∧ .closed true ∈ past
  | _ => True

/-- What holds of a pipe, of what has happened to it and of those who sleep on it. -/
structure Sound (pipe : Pipe) (events : List Event) (sleepers : Channel → Call → Prop) : Prop where
  bounded : pipe.contents.length ≤ pipesize
  stream : acceptedBytes events = deliveredBytes events ++ pipe.contents
  closed : pipe.writeopen = false → .closed true ∈ events
  due : Justified Due [] events
  writers : ∀ what, sleepers .nwrite what →
    pipe.contents.length = pipesize ∧ pipe.readopen = true
  readers : ∀ what, sleepers .nread what →
    pipe.contents = [] ∧ pipe.writeopen = true ∨ .writeFailed ∈ events
  apart : ∀ reader writer, sleepers .nread reader → ¬ sleepers .nwrite writer

/-- With fewer sleepers there is less to be said. -/
theorem Sound.fewer {pipe : Pipe} {events : List Event} {sleepers fewer : Channel → Call → Prop}
    (sound : Sound pipe events sleepers)
    (are : ∀ channel what, fewer channel what → sleepers channel what) :
    Sound pipe events fewer where
  bounded := sound.bounded
  stream := sound.stream
  closed := sound.closed
  due := sound.due
  writers what sleeps := sound.writers what (are _ _ sleeps)
  readers what sleeps := sound.readers what (are _ _ sleeps)
  apart reader writer reads writes := sound.apart reader writer (are _ _ reads) (are _ _ writes)

section Regions

variable {pipe : Pipe} {events : List Event} {sleepers : Channel → Call → Prop}

/-- Before a writer sleeps, it wakes the readers; while it sleeps, nobody gets a byte in. -/
theorem Sound.write (sound : Sound pipe events sleepers) (killed : Bool) (i : Nat)
    (bytes : List (BitVec 8)) :
    Sound (pipewrite killed pipe i bytes).shared (events ++ (pipewrite killed pipe i bytes).events)
      ((pipewrite killed pipe i bytes).sleepersAfter sleepers) := by
  obtain ⟨written, rest, last, writes⟩ := pipewrite_writes killed pipe i bytes
  generalize pipewrite killed pipe i bytes = region at writes
  obtain ⟨after, newEvents, wakes, fallsAsleep⟩ := region
  obtain ⟨_, more, readopen, writeopen, rfl, ends⟩ := writes
  obtain ⟨contents, bounded⟩ := more sound.bounded
  simp only at contents bounded readopen writeopen ends ⊢
  have lastEvents : acceptedBytes last = [] ∧ deliveredBytes last = [] ∧
      ∀ event ∈ last, ∀ past, Due past event := by
    cases ends <;> simp [acceptedBytes, deliveredBytes, Due]
  have stillFull : ∀ {what}, sleepers .nwrite what →
      after.contents.length = pipesize ∧ after.readopen = true := by
    intro what sleeps
    obtain ⟨full, isOpen⟩ := sound.writers what sleeps
    refine ⟨Nat.le_antisymm bounded ?_, readopen.trans isOpen⟩
    rw [contents, List.length_append]
    omega
  refine ⟨bounded, ?_, ?_, ?_, ?_, ?_, ?_⟩
  · simp [lastEvents, sound.stream, contents]
  · intro isClosed
    exact List.mem_append_left _ (sound.closed (writeopen ▸ isClosed))
  · rw [justified_append, justified_append]
    refine ⟨sound.due, justified_of_forall _ (fun event inWritten past => ?_),
      justified_of_forall _ lastEvents.2.2⟩
    obtain ⟨byte, _, rfl⟩ := List.mem_map.mp inWritten
    trivial
  · rintro what (⟨sleeps, _⟩ | fellAsleep)
    · exact stillFull sleeps
    · cases ends with
      | finished => exact absurd fellAsleep.symm (Option.some_ne_none _)
      | failed => exact absurd fellAsleep.symm (Option.some_ne_none _)
      | sleeps _ full isOpen _ => exact ⟨(full_iff after).mp full, isOpen⟩
  · rintro what (⟨sleeps, notWoken⟩ | fellAsleep)
    · cases ends with
      | finished => exact absurd List.mem_cons_self notWoken
      | failed => exact Or.inr (by simp)
      | sleeps => exact absurd List.mem_cons_self notWoken
    · cases ends <;> simp at fellAsleep
  · rintro reader writer (⟨reads, notWoken⟩ | fellAsleep)
    · cases ends with
      | finished => exact absurd List.mem_cons_self notWoken
      | failed =>
        rintro (⟨writes, _⟩ | fellAsleep)
        · exact sound.apart reader writer reads writes
        · exact absurd fellAsleep.symm (Option.some_ne_none _)
      | sleeps => exact absurd List.mem_cons_self notWoken
    · cases ends <;> simp at fellAsleep

/-- A reader that takes bytes wakes the writers, and one that sleeps found no bytes. -/
theorem Sound.read (sound : Sound pipe events sleepers) (killed : Bool) (n : Nat) :
    Sound (piperead killed pipe n).shared (events ++ (piperead killed pipe n).events)
      ((piperead killed pipe n).sleepersAfter sleepers) := by
  have reads := piperead_reads killed pipe n
  generalize piperead killed pipe n = region at reads
  cases reads with
  | failed empty writeopen _ =>
    refine ⟨sound.bounded, ?_, ?_, ?_, ?_, ?_, ?_⟩
    · rw [acceptedBytes_append, deliveredBytes_append, sound.stream, empty]
      rfl
    · exact fun isClosed => List.mem_append_left _ (sound.closed isClosed)
    · exact (justified_append ..).mpr ⟨sound.due, trivial, trivial⟩
    · rintro what (⟨sleeps, _⟩ | fellAsleep)
      · exact sound.writers what sleeps
      · exact absurd fellAsleep.symm (Option.some_ne_none _)
    · exact fun _ _ => Or.inl ⟨empty, writeopen⟩
    · rintro reader writer (⟨reads, _⟩ | fellAsleep) (⟨writes, _⟩ | fellAsleep')
      · exact sound.apart reader writer reads writes
      · exact absurd fellAsleep'.symm (Option.some_ne_none _)
      · exact absurd fellAsleep.symm (Option.some_ne_none _)
      · exact absurd fellAsleep.symm (Option.some_ne_none _)
  | sleeps empty writeopen _ =>
    have noWriter : ∀ what, ¬ sleepers .nwrite what := by
      intro what sleeps
      have full := (sound.writers what sleeps).1
      rw [empty] at full
      exact absurd full (by decide)
    refine ⟨sound.bounded, ?_, ?_, ?_, ?_, ?_, ?_⟩
    · rw [List.append_nil]
      exact sound.stream
    · rw [List.append_nil]
      exact sound.closed
    · rw [List.append_nil]
      exact sound.due
    · rintro what (⟨sleeps, _⟩ | fellAsleep)
      · exact absurd sleeps (noWriter what)
      · simp at fellAsleep
    · exact fun _ _ => Or.inl ⟨empty, writeopen⟩
    · rintro reader writer _ (⟨writes, _⟩ | fellAsleep)
      · exact noWriter writer writes
      · simp at fellAsleep
  | @finished after bytes ready contents bounded drained readopen writeopen =>
    have length : pipe.contents.length = bytes.length + after.contents.length := by
      rw [contents, List.length_append]
    have noWriter : ∀ what, ¬ (Region.sleepersAfter (σ := Pipe) (ε := Event) ⟨after,
        bytes.map .delivered ++ [.readBytes n bytes.length], [.nwrite], none⟩
        sleepers .nwrite what) := by
      rintro what (⟨_, notWoken⟩ | fellAsleep)
      · exact notWoken List.mem_cons_self
      · exact absurd fellAsleep.symm (Option.some_ne_none _)
    refine ⟨?_, ?_, ?_, ?_, ?_, ?_, ?_⟩
    · have := sound.bounded
      simp only
      omega
    · simp only [acceptedBytes_append, deliveredBytes_append, acceptedBytes_delivered,
        deliveredBytes_delivered, sound.stream, contents]
      simp [acceptedBytes, deliveredBytes]
    · exact fun isClosed => List.mem_append_left _ (sound.closed (writeopen ▸ isClosed))
    · rw [justified_append, justified_append]
      refine ⟨sound.due, justified_of_forall _ (fun event inBytes past => ?_), ?_, trivial⟩
      · obtain ⟨byte, _, rfl⟩ := List.mem_map.mp inBytes
        trivial
      · intro asked none
        have noBytes : bytes = [] := List.length_eq_zero_iff.mp none
        have nothingLeft : pipe.contents = [] := by
          rw [contents, noBytes, drained (by omega)]
          rfl
        subst noBytes
        refine ⟨?_, ?_⟩
        · simpa [nothingLeft] using sound.stream
        · simpa using sound.closed (ready nothingLeft)
    · exact fun what sleeps => absurd sleeps (noWriter what)
    · rintro what (⟨sleeps, _⟩ | fellAsleep)
      · obtain ⟨empty, isOpen⟩ | failed := sound.readers what sleeps
        · rw [ready empty] at isOpen
          exact Bool.noConfusion isOpen
        · exact Or.inr (List.mem_append_left _ failed)
      · exact absurd fellAsleep.symm (Option.some_ne_none _)
    · exact fun _ writer _ => noWriter writer

/-- Closing an end wakes those who wait for the other side. -/
theorem Sound.close (sound : Sound pipe events sleepers) (writable : Bool) :
    Sound (pipeclose pipe writable).shared (events ++ (pipeclose pipe writable).events)
      ((pipeclose pipe writable).sleepersAfter sleepers) := by
  have contents : (pipeclose pipe writable).shared.contents = pipe.contents := by
    cases writable <;> rfl
  have silent : acceptedBytes (pipeclose pipe writable).events = [] ∧
      deliveredBytes (pipeclose pipe writable).events = [] ∧
      ∀ event ∈ (pipeclose pipe writable).events, ∀ past, Due past event := by
    obtain events | events := pipeclose_events pipe writable <;>
      simp [events, acceptedBytes, deliveredBytes, Due]
  refine ⟨contents ▸ sound.bounded, ?_, ?_, ?_, ?_, ?_, ?_⟩
  · rw [acceptedBytes_append, deliveredBytes_append, silent.1, silent.2.1, contents,
      List.append_nil, List.append_nil]
    exact sound.stream
  · intro isClosed
    cases writable with
    | true => exact List.mem_append_right _ List.mem_cons_self
    | false => exact List.mem_append_left _ (sound.closed isClosed)
  · exact (justified_append ..).mpr ⟨sound.due, justified_of_forall _ silent.2.2⟩
  · rintro what (⟨sleeps, notWoken⟩ | fellAsleep)
    · cases writable with
      | true => exact sound.writers what sleeps
      | false => exact absurd List.mem_cons_self notWoken
    · exact absurd fellAsleep.symm (Option.some_ne_none _)
  · rintro what (⟨sleeps, notWoken⟩ | fellAsleep)
    · cases writable with
      | true => exact absurd List.mem_cons_self notWoken
      | false =>
        obtain waits | failed := sound.readers what sleeps
        · exact Or.inl waits
        · exact Or.inr (List.mem_append_left _ failed)
    · exact absurd fellAsleep.symm (Option.some_ne_none _)
  · rintro reader writer (⟨reads, _⟩ | fellAsleep) (⟨writes, _⟩ | fellAsleep')
    · exact sound.apart reader writer reads writes
    · exact absurd fellAsleep'.symm (Option.some_ne_none _)
    · exact absurd fellAsleep.symm (Option.some_ne_none _)
    · exact absurd fellAsleep.symm (Option.some_ne_none _)

end Regions

section Runs

variable {ι : Type} [DecidableEq ι]

/-- A new pipe is empty, and nobody sleeps. -/
theorem newPipe_sound (page : Nat → BitVec 8) : Sound (newPipe page) [] (fun _ _ => False) := by
  have contents : (newPipe page).contents = [] := window_self
  exact ⟨by rw [contents]; exact Nat.zero_le _, by rw [contents]; rfl, Bool.noConfusion, trivial,
    fun _ => False.elim, fun _ => False.elim, fun _ _ => False.elim⟩

/-- Everything that regions keep holds after every run of the code with its locks. -/
theorem run_sound {page : Nat → BitVec 8} {schedule : List (Label ι Call)}
    {final : System ι Pipe Channel Call Event}
    (ran : exec (SleepWakeup.step pipe) (SleepWakeup.start (newPipe page)) schedule = some final) :
    Sound final.shared final.events final.sleepers := by
  refine SleepWakeup.sleepers_invariant Sound (fun _ _ _ _ are sound => sound.fewer are) ?_
    (newPipe_sound page) ran
  intro shared events sleepers killed what sound
  cases what with
  | write i rest => exact sound.write killed i rest
  | read n => exact sound.read killed n
  | close writable => exact sound.close writable

/-- The bytes that have come out are those that have gone in, in the same order, but for the
last few, at most 512, which are still in the pipe. -/
theorem bytes_leave_in_order (page : Nat → BitVec 8) (schedule : List (Label ι Call))
    (final : System ι Pipe Channel Call Event)
    (ran : exec (SleepWakeup.step pipe) (SleepWakeup.start (newPipe page)) schedule = some final) :
    acceptedBytes final.events = deliveredBytes final.events ++ final.shared.contents ∧
      final.shared.contents.length ≤ pipesize :=
  ⟨(run_sound ran).stream, (run_sound ran).bounded⟩

/-- The schedule of a call that is not disturbed, up to its return or to the switch away from
a process that falls asleep. -/
def callThrough (process : Bool) (what : Call) : List (Label Bool Call) :=
  .call process what :: List.replicate 6 (.next process)

/-- Two bytes go in and one of them comes out. -/
def twoInOneOut : List (Label Bool Call) :=
  callThrough false (.write 0 [7#8, 8#8]) ++ callThrough true (.read 1)

/-- One byte has come out, and the other is in the pipe. -/
theorem bytes_leave_in_order_two_bytes :
    ∃ final, exec (SleepWakeup.step pipe) (SleepWakeup.start (newPipe (fun _ => 0#8)))
      twoInOneOut = some final ∧
      final.events = [.accepted 7#8, .accepted 8#8, .wrote 2, .delivered 7#8, .readBytes 1 1] ∧
      final.shared.contents = [8#8] ∧
      acceptedBytes final.events = deliveredBytes final.events ++ final.shared.contents ∧
      final.shared.contents.length ≤ pipesize :=
  ⟨_, rfl, rfl, rfl, bytes_leave_in_order (fun _ => 0#8) twoInOneOut _ rfl⟩

/-- Writers sleep for good only while the pipe is full and can be read; readers only while it
is empty and can be written, unless a write has failed; and never both. -/
theorem sleepers_have_cause (page : Nat → BitVec 8) (schedule : List (Label ι Call))
    (final : System ι Pipe Channel Call Event)
    (ran : exec (SleepWakeup.step pipe) (SleepWakeup.start (newPipe page)) schedule = some final) :
    (∀ what, final.sleepers .nwrite what →
      final.shared.contents.length = pipesize ∧ final.shared.readopen = true) ∧
    (∀ what, final.sleepers .nread what →
      final.shared.contents = [] ∧ final.shared.writeopen = true ∨
        .writeFailed ∈ final.events) ∧
    ∀ reader writer, final.sleepers .nread reader → ¬ final.sleepers .nwrite writer :=
  ⟨(run_sound ran).writers, (run_sound ran).readers, (run_sound ran).apart⟩

/-- A reader sleeps on a pipe that is empty. -/
theorem sleepers_have_cause_one_reader :
    ∃ final, exec (SleepWakeup.step pipe) (SleepWakeup.start (newPipe (fun _ => 0#8)))
      (callThrough true (.read 1)) = some final ∧ (final.procs true).place = .sleeping (.read 1) .nread ∧
      (∀ what, final.sleepers .nwrite what →
        final.shared.contents.length = pipesize ∧ final.shared.readopen = true) ∧
      (∀ what, final.sleepers .nread what →
        final.shared.contents = [] ∧ final.shared.writeopen = true ∨
          .writeFailed ∈ final.events) ∧
      ∀ reader writer, final.sleepers .nread reader → ¬ final.sleepers .nwrite writer :=
  ⟨_, rfl, rfl, sleepers_have_cause (fun _ => 0#8) (callThrough true (.read 1)) _ rfl⟩

/-- A process that is killed and then writes one byte more than the pipe has room for. -/
def killedWriter (process : Bool) : List (Label Bool Call) :=
  [.kill process, .releaseElsewhere,
    .call process (.write 0 (List.replicate (pipesize + 1) 0#8))] ++
    List.replicate 3 (.next process)

-- The reader has slept since the pipe was empty, and nobody is left to wake it.
example : (exec (SleepWakeup.step pipe) (SleepWakeup.start (newPipe (fun _ => 0#8)))
    (callThrough true (.read 1) ++ killedWriter false)).any (fun final => final.shared.full &&
      (match (final.procs true).place with | .sleeping _ .nread => true | _ => false) &&
      (match (final.procs false).place with | .outside => true | _ => false)) = true := by
  decide +kernel

/-- Whoever asks for bytes and gets none does so after the write end has been closed and all
bytes have been read. -/
theorem end_of_file_after_last_byte (page : Nat → BitVec 8) (schedule : List (Label ι Call))
    (final : System ι Pipe Channel Call Event)
    (ran : exec (SleepWakeup.step pipe) (SleepWakeup.start (newPipe page)) schedule = some final)
    (before after : List Event) (n : Nat) (asked : 0 < n)
    (endOfFile : final.events = before ++ .readBytes n 0 :: after) :
    acceptedBytes before = deliveredBytes before ∧ .closed true ∈ before :=
  (run_sound ran).due.due_of_split endOfFile asked rfl

/-- What happens when two bytes are written and read, and the write end is closed then. -/
def bothBytesRead : List Event :=
  [.accepted 7#8, .accepted 8#8, .wrote 2, .delivered 7#8, .delivered 8#8, .readBytes 3 2,
    .closed true]

/-- Two bytes are written and read, the write end is closed, and more is asked for. -/
def closeThenRead : List (Label Bool Call) :=
  callThrough false (.write 0 [7#8, 8#8]) ++ callThrough true (.read 3) ++
    callThrough false (.close true) ++ callThrough true (.read 3)

/-- Two bytes are written and the end is closed; then two bytes are read, and none. -/
theorem end_of_file_after_close :
    ∃ final, exec (SleepWakeup.step pipe) (SleepWakeup.start (newPipe (fun _ => 0#8)))
      closeThenRead = some final ∧ final.events = bothBytesRead ++ .readBytes 3 0 :: [] ∧
      acceptedBytes bothBytesRead = deliveredBytes bothBytesRead ∧
      .closed true ∈ bothBytesRead :=
  ⟨_, rfl, rfl, end_of_file_after_last_byte (fun _ => 0#8) closeThenRead _ rfl bothBytesRead [] 3
    (by decide) rfl⟩

end Runs

/-! ## What the calls come to -/

/-- What a call that has not returned has done, and what it has yet to do. -/
def Begun : Call → List Event → Call → Prop
  | .write i bytes, events, left => ∃ written rest, bytes = written ++ rest ∧
      events = written.map .accepted ∧ left = .write (i + written.length) rest
  | call, events, left => events = [] ∧ left = call

/-- What a call has done when it returns. -/
def Kept : Call → List Event → Prop
  | .write i bytes, events => events = bytes.map .accepted ++ [.wrote (i + bytes.length)] ∨
      ∃ written rest, rest ≠ [] ∧ bytes = written ++ rest ∧
        events = written.map .accepted ++ [.writeFailed]
  | .read n, events => events = [.readFailed] ∨
      ∃ bytes : List (BitVec 8), bytes.length ≤ n ∧
        events = bytes.map .delivered ++ [.readBytes n bytes.length]
  | .close writable, events => events = [.closed writable] ∨ events = [.closed writable, .freed]

/-- A call that has done nothing is left as it was. -/
theorem begun_self (call : Call) : Begun call [] call := by
  cases call with
  | write i bytes => exact ⟨[], bytes, rfl, rfl, rfl⟩
  | read n => exact ⟨rfl, rfl⟩
  | close writable => exact ⟨rfl, rfl⟩

/-- A region that ends asleep leaves the rest of its call. -/
theorem Begun.goesOn {call left later : Call} {events : List Event} (begun : Begun call events left)
    (shared : Pipe) (killed : Bool) {channel : Channel}
    (sleeps : (pipe shared killed left).sleeps = some (later, channel)) :
    Begun call (events ++ (pipe shared killed left).events) later := by
  cases call with
  | write i bytes =>
    obtain ⟨written, rest, rfl, rfl, rfl⟩ := begun
    obtain ⟨more, left, last, writes⟩ := pipewrite_writes killed shared (i + written.length) rest
    simp only [pipe] at sleeps ⊢
    generalize pipewrite killed shared (i + written.length) rest = region at writes sleeps
    obtain ⟨after, newEvents, wakes, fallsAsleep⟩ := region
    obtain ⟨rfl, _, _, _, rfl, ends⟩ := writes
    simp only at sleeps ends ⊢
    cases ends with
    | finished => exact absurd sleeps.symm (Option.some_ne_none _)
    | failed => exact absurd sleeps.symm (Option.some_ne_none _)
    | sleeps =>
      simp only [Option.some.injEq, Prod.mk.injEq] at sleeps
      refine ⟨written ++ more, left, by rw [List.append_assoc], by simp, ?_⟩
      rw [← sleeps.1, List.length_append, Nat.add_assoc]
  | read n =>
    obtain ⟨rfl, rfl⟩ := begun
    have reads := piperead_reads killed shared n
    simp only [pipe] at sleeps ⊢
    generalize piperead killed shared n = region at reads sleeps
    cases reads with
    | sleeps =>
      simp only [Option.some.injEq, Prod.mk.injEq] at sleeps
      exact ⟨rfl, sleeps.1.symm⟩
    | failed => exact absurd sleeps.symm (Option.some_ne_none _)
    | finished => exact absurd sleeps.symm (Option.some_ne_none _)
  | close writable =>
    obtain ⟨rfl, rfl⟩ := begun
    exact absurd sleeps.symm (Option.some_ne_none _)

/-- A region that ends its call has kept the word of the call. -/
theorem Begun.ends {call left : Call} {events : List Event} (begun : Begun call events left)
    (shared : Pipe) (killed : Bool) (leaves : (pipe shared killed left).sleeps = none) :
    Kept call (events ++ (pipe shared killed left).events) := by
  cases call with
  | write i bytes =>
    obtain ⟨written, rest, rfl, rfl, rfl⟩ := begun
    obtain ⟨more, left, last, writes⟩ := pipewrite_writes killed shared (i + written.length) rest
    simp only [pipe] at leaves ⊢
    generalize pipewrite killed shared (i + written.length) rest = region at writes leaves
    obtain ⟨after, newEvents, wakes, fallsAsleep⟩ := region
    obtain ⟨rfl, _, _, _, rfl, ends⟩ := writes
    simp only at leaves ends ⊢
    cases ends with
    | finished => exact Or.inl (by simp [Nat.add_assoc])
    | failed moreLeft => exact Or.inr ⟨written ++ more, left, moreLeft, by simp, by simp⟩
    | sleeps => exact absurd leaves (Option.some_ne_none _)
  | read n =>
    obtain ⟨rfl, rfl⟩ := begun
    have reads := piperead_reads killed shared n
    simp only [pipe] at leaves ⊢
    generalize piperead killed shared n = region at reads leaves
    cases reads with
    | sleeps => exact absurd leaves (Option.some_ne_none _)
    | failed => exact Or.inl rfl
    | @finished _ bytes _ _ bounded => exact Or.inr ⟨bytes, bounded, rfl⟩
  | close writable =>
    obtain ⟨rfl, rfl⟩ := begun
    exact pipeclose_events shared writable

/-- Every process has made its calls one after the other. A write that returned its count has
put in all its bytes, in order, and one that failed those before some byte; a read has got as
many bytes as it says, and no more than it asked for. -/
theorem calls_keep_their_word {ι : Type} [DecidableEq ι] (page : Nat → BitVec 8)
    (schedule : List (Label ι Call)) (final : System ι Pipe Channel Call Event)
    (ran : exec (SleepWakeup.step pipe) (SleepWakeup.start (newPipe page)) schedule = some final)
    (process : ι) :
    Conforms Begun Kept (final.procs process).place.view.doing (logOf final.log process) :=
  SleepWakeup.calls_conform Begun Kept begun_self
    (fun _ _ _ shared killed _ _ begun sleeps => begun.goesOn shared killed sleeps)
    (fun _ _ _ shared killed begun leaves => begun.ends shared killed leaves) ran process

/-- The reader of the first of two bytes. -/
theorem calls_keep_their_word_two_bytes :
    ∃ final, exec (SleepWakeup.step pipe) (SleepWakeup.start (newPipe (fun _ => 0#8)))
      twoInOneOut = some final ∧
      logOf final.log true = [.called (.read 1), .did (.delivered 7#8), .did (.readBytes 1 1)] ∧
      Conforms Begun Kept (final.procs true).place.view.doing (logOf final.log true) :=
  ⟨_, rfl, rfl, calls_keep_their_word (fun _ => 0#8) twoInOneOut _ rfl true⟩

end OsLabwork.Kernel.Pipes
