import OsLabwork.Shell.MainLoop

/-!
# The segments of any line

How a segment is read depends on the bytes in memory only, not on what the commands of
other segments do: all that parsing does to memory is to put NULs in it. So handling a
line, whatever bytes it has, is cutting it into calls of `exec_single_cmd`, and then acting
on what each of them reads, from left to right, until a command exits.
-/

namespace OsLabwork.Shell

open CMemory

variable {W : Type}

section Reading

variable (memory : List UInt8) (pointer : Nat)

/-- `trim` erases one byte at most. -/
theorem erased_trim : Erased memory (trim memory pointer).1 := erased_set memory _

/-- Cutting a segment at its sign erases bytes only. -/
theorem erased_cutRedirect : Erased memory (cutRedirect memory pointer).1 := by
  have trimmed := erased_trim memory pointer
  simp only [cutRedirect]
  split
  · exact trimmed
  · split
    · exact trimmed
    · split <;> exact trimmed.trans (erased_set _ _)

/-- Reading a destination erases bytes only. -/
theorem erased_parseDest : Erased memory (parseDest memory pointer).memory := by
  simp only [parseDest]
  split
  · exact erased_trim memory _
  · split
    · exact erased_trim memory _
    · exact erased_trim memory _

/-- `parse_redirect_dest` erases bytes only. -/
theorem erased_parseRedirectDest : Erased memory (parseRedirectDest memory pointer).memory := by
  have erased := erased_cutRedirect memory pointer
  rw [parseRedirectDest]
  rcases isCut : cutRedirect memory pointer with ⟨cut, _ | _ | divider⟩ <;> rw [isCut] at erased
  · exact erased
  · exact erased
  · exact erased.trans (erased_parseDest cut divider)

end Reading

/-- Any fuel that suffices for the loop of `parse_cmd` gives the same result. -/
theorem tokenLoop_fuel (fuel other : Nat) (memory : List UInt8) (token : Nat)
    (enough : memory.length - token < fuel) (enoughToo : memory.length - token < other) :
    tokenLoop fuel memory token = tokenLoop other memory token := by
  induction fuel generalizing other memory token with
  | zero => exact absurd enough (Nat.not_lt_zero _)
  | succ fuel inductionHypothesis =>
    obtain ⟨remaining, rfl⟩ : ∃ remaining, other = remaining + 1 := ⟨other - 1, by omega⟩
    have sameLength := strsep_length blanks memory token
    rw [tokenLoop, tokenLoop]
    cases more : (strsep blanks memory token).2 with
    | none => rfl
    | some next =>
      have advances := strsep_advances more
      simp only
      rw [inductionHypothesis remaining _ next (by omega) (by omega)]

/-- The loop of `parse_cmd` leaves the bytes before its first token alone, and every
token it keeps still begins with a byte that is not NUL when it is done. -/
theorem tokenLoop_tokens (fuel : Nat) (memory after : List UInt8) (token : Nat)
    (tokens : List Nat) (looped : tokenLoop fuel memory token = some (after, tokens)) :
    Erased memory after ∧ (∀ earlier < token, charAt after earlier = charAt memory earlier) ∧
      ∀ kept ∈ tokens, charAt after kept ≠ 0 := by
  induction fuel generalizing memory after token tokens with
  | zero => simp [tokenLoop] at looped
  | succ fuel inductionHypothesis =>
    have erased := erased_strsep blanks memory token
    rw [tokenLoop] at looped
    cases more : (strsep blanks memory token).2 with
    | none =>
      simp only [more, Option.some.injEq, Prod.mk.injEq] at looped
      obtain ⟨rfl, rfl⟩ := looped
      have unchanged : (strsep blanks memory token).1 = memory := by
        simp only [strsep] at more ⊢
        split at more
        · next ended => rw [if_pos ended]
        · simp at more
      refine ⟨erased, fun earlier _ => by rw [unchanged], ?_⟩
      intro kept member
      split at member
      · next own => rwa [List.mem_singleton.mp member]
      · simp at member
    | some next =>
      simp only [more, Option.map_eq_some_iff, Prod.mk.injEq] at looped
      obtain ⟨⟨final, later⟩, loopedLater, rfl, rfl⟩ := looped
      have advances := strsep_advances more
      obtain ⟨_, untouched⟩ := strsep_cuts more
      obtain ⟨erasedLater, frame, keeps⟩ := inductionHypothesis _ _ _ _ loopedLater
      refine ⟨erased.trans erasedLater, ?_, ?_⟩
      · intro earlier before
        rw [frame earlier (by omega), untouched earlier (by omega)]
      · intro kept member
        rcases List.mem_append.mp member with own | inLater
        · split at own
          · next nonempty =>
            rw [List.mem_singleton.mp own, frame token advances.1]
            exact nonempty
          · simp at own
        · exact keeps kept inLater

/-- What `exec_single_cmd` has found in its argument when it is about to act. -/
inductive Reading where
  | malformed
  | blank
  | command (found : Command)
deriving DecidableEq, Repr

/-- `parse_cmd` ends. -/
theorem parseCmd_isSome (memory : List UInt8) (cmdLine : Nat) :
    (parseCmd (memory.length + 1) memory cmdLine).isSome = true := by
  obtain ⟨after, parsed, ends, _⟩ := parseCmd_ends (memory.length + 1) memory cmdLine (by omega)
  rw [ends]
  rfl

/-- The parsing part of `exec_single_cmd`: the memory afterwards, and what was found. -/
def readSegment (memory : List UInt8) (cmdLine : Nat) : List UInt8 × Reading :=
  let redirect := parseRedirectDest memory cmdLine
  if redirect.formatError then (redirect.memory, .malformed)
  else
    match (parseCmd (redirect.memory.length + 1) redirect.memory cmdLine).get
        (parseCmd_isSome redirect.memory cmdLine) with
    | (next, none) => (next, .blank)
    | (next, some parsed) => (next, .command (parsed.command next redirect.dest))

/-- The rest of `exec_single_cmd`. -/
def Reading.act (kernel : Kernel W) : Reading → State W → State W × Flow Nat
  | .malformed, state => (printError state, .returned 0)
  | .blank, state => (state, .returned 0)
  | .command found, state => execCommand kernel found state

/-- The parsing part of `exec_single_cmd`, if the fuel suffices. -/
def readWithin (fuel : Nat) (memory : List UInt8) (cmdLine : Nat) :
    Option (List UInt8 × Reading) :=
  let redirect := parseRedirectDest memory cmdLine
  if redirect.formatError then some (redirect.memory, .malformed)
  else (parseCmd fuel redirect.memory cmdLine).map fun
    | (next, none) => (next, .blank)
    | (next, some parsed) => (next, .command (parsed.command next redirect.dest))

/-- `exec_single_cmd` reads its argument and acts on what it has found. -/
theorem execSingleCmd_eq (kernel : Kernel W) (fuel : Nat) (memory : List UInt8)
    (cmdLine : Nat) (state : State W) :
    execSingleCmd kernel fuel memory cmdLine state =
      (readWithin fuel memory cmdLine).map fun read => (read.1, read.2.act kernel state) := by
  simp only [execSingleCmd, readWithin]
  split
  · rfl
  · rw [Option.map_map]
    refine congrArg (Option.map · _) (funext fun parsed => ?_)
    obtain ⟨next, _ | parsed⟩ := parsed
    · rfl
    · rfl

/-- With fuel for all the memory behind its argument, it is read to the end. -/
theorem readWithin_enough (fuel : Nat) (memory : List UInt8) (cmdLine : Nat)
    (enough : memory.length - cmdLine < fuel) :
    readWithin fuel memory cmdLine = some (readSegment memory cmdLine) := by
  have length := (erased_parseRedirectDest memory cmdLine).length
  have sameParse : parseCmd fuel (parseRedirectDest memory cmdLine).memory cmdLine =
      parseCmd ((parseRedirectDest memory cmdLine).memory.length + 1)
        (parseRedirectDest memory cmdLine).memory cmdLine := by
    rw [parseCmd, parseCmd, tokenLoop_fuel fuel
      ((parseRedirectDest memory cmdLine).memory.length + 1) _ cmdLine (by omega) (by omega)]
  obtain ⟨⟨next, parsed⟩, ends⟩ := Option.isSome_iff_exists.mp
    (parseCmd_isSome (parseRedirectDest memory cmdLine).memory cmdLine)
  simp only [readWithin, readSegment, sameParse, ends, Option.get_some, Option.map_some]
  split
  · rfl
  · cases parsed with
    | none => rfl
    | some parsed => rfl

/-- What less fuel suffices for is read with more of it. -/
theorem tokenLoop_more (fuel other : Nat) (memory : List UInt8) (token : Nat)
    (result : List UInt8 × List Nat) (less : fuel ≤ other)
    (looped : tokenLoop fuel memory token = some result) :
    tokenLoop other memory token = some result := by
  induction fuel generalizing other memory token result with
  | zero => simp [tokenLoop] at looped
  | succ fuel inductionHypothesis =>
    obtain ⟨remaining, rfl⟩ : ∃ remaining, other = remaining + 1 := ⟨other - 1, by omega⟩
    rw [tokenLoop] at looped ⊢
    cases more : (strsep blanks memory token).2 with
    | none => simpa only [more] using looped
    | some next =>
      simp only [more, Option.map_eq_some_iff] at looped ⊢
      obtain ⟨later, loopedLater, isResult⟩ := looped
      exact ⟨later, inductionHypothesis remaining _ next later (by omega) loopedLater, isResult⟩

/-- Whatever is read, be the fuel small or large, is what there is to read. -/
theorem eq_readSegment_of_readWithin {fuel : Nat} {memory : List UInt8} {cmdLine : Nat}
    {result : List UInt8 × Reading} (read : readWithin fuel memory cmdLine = some result) :
    result = readSegment memory cmdLine := by
  have enough := readWithin_enough (max fuel (memory.length + 1)) memory cmdLine (by omega)
  have more : readWithin (max fuel (memory.length + 1)) memory cmdLine = some result := by
    simp only [readWithin] at read ⊢
    split at read
    · next malformed => rwa [if_pos malformed]
    · next wellFormed =>
      rw [if_neg wellFormed]
      simp only [parseCmd, Option.map_map, Option.map_eq_some_iff] at read ⊢
      obtain ⟨tokens, looped, isResult⟩ := read
      exact ⟨tokens, tokenLoop_more _ _ _ _ _ (Nat.le_max_left ..) looped, isResult⟩
  exact Option.some.inj (more.symm.trans enough)

/-- With fuel enough, `exec_single_cmd` acts on what there is to read. -/
theorem execSingleCmd_reads (kernel : Kernel W) (fuel : Nat) (memory : List UInt8)
    (cmdLine : Nat) (state : State W) (enough : memory.length - cmdLine < fuel) :
    execSingleCmd kernel fuel memory cmdLine state =
      some ((readSegment memory cmdLine).1, (readSegment memory cmdLine).2.act kernel state) := by
  rw [execSingleCmd_eq, readWithin_enough fuel memory cmdLine enough, Option.map_some]

/-- Reading a segment puts NULs in memory and does nothing else to it. -/
theorem erased_readSegment (memory : List UInt8) (cmdLine : Nat) :
    Erased memory (readSegment memory cmdLine).1 := by
  have redirected := erased_parseRedirectDest memory cmdLine
  obtain ⟨⟨next, parsed⟩, ends⟩ := Option.isSome_iff_exists.mp
    (parseCmd_isSome (parseRedirectDest memory cmdLine).memory cmdLine)
  have parsing : Erased (parseRedirectDest memory cmdLine).memory next := by
    rw [parseCmd, Option.map_eq_some_iff] at ends
    obtain ⟨⟨after, tokens⟩, looped, shape⟩ := ends
    have erased := (tokenLoop_tokens _ _ _ _ _ looped).1
    cases tokens with
    | nil | cons first others =>
      obtain rfl := (Prod.mk.inj shape).1
      exact erased
  simp only [readSegment, ends, Option.get_some]
  split
  · exact redirected
  · cases parsed with
    | none => exact redirected.trans parsing
    | some parsed => exact redirected.trans parsing

/-- A command that was read is made of the words that the loop of `parse_cmd` has found:
its name is the first of them, and its arguments are all of them and a NULL. -/
theorem readSegment_command {memory : List UInt8} {cmdLine : Nat} {command : Command}
    (parses : (readSegment memory cmdLine).2 = .command command) :
    ∃ first others, tokenLoop ((parseRedirectDest memory cmdLine).memory.length + 1)
        (parseRedirectDest memory cmdLine).memory cmdLine =
          some ((readSegment memory cmdLine).1, first :: others) ∧
      command.name = stringAt (readSegment memory cmdLine).1 first ∧
      command.argv = (first :: others).map
        (fun token => some (stringAt (readSegment memory cmdLine).1 token)) ++ [none] ∧
      command.argc = (first :: others).length := by
  obtain ⟨⟨next, parsed⟩, ends⟩ := Option.isSome_iff_exists.mp
    (parseCmd_isSome (parseRedirectDest memory cmdLine).memory cmdLine)
  simp only [readSegment, ends, Option.get_some] at parses ⊢
  split at parses
  · simp at parses
  · next wellFormed =>
    rw [if_neg wellFormed]
    rw [parseCmd, Option.map_eq_some_iff] at ends
    obtain ⟨⟨after, _ | ⟨first, others⟩⟩, looped, shape⟩ := ends
    · obtain ⟨rfl, rfl⟩ := Prod.mk.inj shape
      simp at parses
    · obtain ⟨rfl, rfl⟩ := Prod.mk.inj shape
      refine ⟨first, others, looped, ?_⟩
      rw [← Reading.command.inj parses]
      refine ⟨rfl, ?_, rfl⟩
      simp [ParsedCmd.command, Function.comp_def]

/-- A call of `exec_single_cmd`: the memory it finds and its argument. -/
structure SegmentCall where
  memory : List UInt8
  cmdLine : Nat
deriving DecidableEq, Repr

/-- How the segment is read. -/
def SegmentCall.reading (call : SegmentCall) : Reading := (readSegment call.memory call.cmdLine).2

/-- The calls that `exec_parallel_cmd` makes if no command exits. -/
def segmentCalls : Nat → List UInt8 → Nat → List SegmentCall
  | 0, _, _ => []
  | fuel + 1, memory, token =>
      let cut := strsep [38] memory token
      let calls := if charAt cut.1 token ≠ 0 then [⟨cut.1, token⟩] else []
      let next := if charAt cut.1 token ≠ 0 then (readSegment cut.1 token).1 else cut.1
      match cut.2 with
      | none => calls
      | some rest => calls ++ segmentCalls fuel next rest

/-- A call is the one for the first token, or one for the rest of the line, to whose bytes
nothing has happened but that some have become NUL. -/
theorem mem_segmentCalls {fuel : Nat} {memory : List UInt8} {token : Nat} {call : SegmentCall}
    (member : call ∈ segmentCalls (fuel + 1) memory token) :
    (call = ⟨(strsep [38] memory token).1, token⟩ ∧
      charAt (strsep [38] memory token).1 token ≠ 0) ∨
    ∃ rest next, (strsep [38] memory token).2 = some rest ∧
      Erased (strsep [38] memory token).1 next ∧ call ∈ segmentCalls fuel next rest := by
  have nextErased : Erased (strsep [38] memory token).1
      (if charAt (strsep [38] memory token).1 token ≠ 0 then
        (readSegment (strsep [38] memory token).1 token).1 else (strsep [38] memory token).1) := by
    split
    · exact erased_readSegment _ token
    · exact Erased.refl _
  have isFirst : ∀ first ∈ if charAt (strsep [38] memory token).1 token ≠ 0 then
      [(⟨(strsep [38] memory token).1, token⟩ : SegmentCall)] else [],
      first = ⟨(strsep [38] memory token).1, token⟩ ∧
        charAt (strsep [38] memory token).1 token ≠ 0 := by
    intro first inFirst
    split at inFirst
    · next nonempty => exact ⟨List.mem_singleton.mp inFirst, nonempty⟩
    · simp at inFirst
  rw [segmentCalls] at member
  cases more : (strsep [38] memory token).2 with
  | none =>
    simp only [more] at member
    exact Or.inl (isFirst call member)
  | some rest =>
    simp only [more] at member
    rcases List.mem_append.mp member with inFirst | later
    · exact Or.inl (isFirst call inFirst)
    · exact Or.inr ⟨rest, _, rfl, nextErased, later⟩

/-- A first token that is not empty makes the first call. -/
theorem segmentCalls_head (fuel : Nat) (memory : List UInt8) (token : Nat)
    (nonempty : charAt (strsep [38] memory token).1 token ≠ 0) :
    ∃ later, segmentCalls (fuel + 1) memory token =
      ⟨(strsep [38] memory token).1, token⟩ :: later := by
  rw [segmentCalls]
  simp only [if_pos nonempty]
  cases (strsep [38] memory token).2 with
  | none => exact ⟨[], rfl⟩
  | some rest => exact ⟨_, rfl⟩

/-- Act on the calls from left to right and add up the processes to wait for. -/
def runCalls (kernel : Kernel W) : List SegmentCall → State W → Nat → State W × Flow Nat
  | [], state, processCount => (state, .returned processCount)
  | call :: calls, state, processCount =>
      match call.reading.act kernel state with
      | (after, .exited status) => (after, .exited status)
      | (after, .returned count) => runCalls kernel calls after (processCount + count)

/-- Calls behind others are acted on unless one of the others exits. -/
theorem runCalls_append (kernel : Kernel W) (calls later : List SegmentCall) (state : State W)
    (already processCount : Nat) :
    runCalls kernel (calls ++ later) state (already + processCount) =
      match runCalls kernel calls state processCount with
      | (after, .exited status) => (after, .exited status)
      | (after, .returned count) => runCalls kernel later after (already + count) := by
  induction calls generalizing state processCount with
  | nil => rfl
  | cons call calls inductionHypothesis =>
    rw [List.cons_append, runCalls, runCalls]
    rcases call.reading.act kernel state with ⟨after, count | status⟩
    · simp only [Nat.add_assoc]
      exact inductionHypothesis after (processCount + count)
    · rfl

/-- The calls that are made before the shell exits, the one that exits included. -/
def reachedCalls (kernel : Kernel W) : List SegmentCall → State W → List SegmentCall
  | [], _ => []
  | call :: calls, state =>
      call :: match call.reading.act kernel state with
        | (_, .exited _) => []
        | (after, .returned _) => reachedCalls kernel calls after

/-- The segments that are reached are the first ones. -/
theorem reachedCalls_initial (kernel : Kernel W) (calls : List SegmentCall) (state : State W) :
    reachedCalls kernel calls state <+: calls := by
  induction calls generalizing state with
  | nil => exact List.prefix_refl _
  | cons call calls inductionHypothesis =>
    rw [reachedCalls, List.prefix_cons_inj]
    split
    · exact List.nil_prefix
    · exact inductionHypothesis _

/-- The loop of `exec_parallel_cmd` makes these calls. -/
theorem segmentLoop_calls (kernel : Kernel W) (fuel : Nat) (memory : List UInt8) (token : Nat)
    (state : State W) (processCount : Nat) (enough : memory.length - token + 1 < fuel) :
    segmentLoop kernel fuel memory token state processCount =
      some (runCalls kernel (segmentCalls fuel memory token) state processCount) := by
  induction fuel generalizing memory token state processCount with
  | zero => exact absurd enough (Nat.not_lt_zero _)
  | succ fuel inductionHypothesis =>
    have cutLength := (erased_strsep [38] memory token).length
    have readLength := (erased_readSegment (strsep [38] memory token).1 token).length
    rw [segmentLoop, segmentCalls, execToken]
    by_cases nonempty : charAt (strsep [38] memory token).1 token ≠ 0
    · rw [if_pos nonempty, execSingleCmd_reads kernel fuel _ token state (by omega),
        Option.bind_some]
      simp only [if_pos nonempty]
      have call : (⟨(strsep [38] memory token).1, token⟩ : SegmentCall).reading =
          (readSegment (strsep [38] memory token).1 token).2 := rfl
      rcases acting : (readSegment (strsep [38] memory token).1 token).2.act kernel state with
        ⟨after, count | status⟩
      · cases more : (strsep [38] memory token).2 with
        | none => simp only [runCalls, call, acting]
        | some rest =>
          have advances := strsep_advances more
          simp only [List.singleton_append, runCalls, call, acting]
          exact inductionHypothesis _ rest after (processCount + count) (by omega)
      · cases more : (strsep [38] memory token).2 with
        | none => simp only [runCalls, call, acting]
        | some rest => simp only [List.singleton_append, runCalls, call, acting]
    · rw [if_neg nonempty, Option.bind_some]
      simp only [if_neg nonempty]
      cases more : (strsep [38] memory token).2 with
      | none => simp [runCalls]
      | some rest =>
        have advances := strsep_advances more
        simp only [List.nil_append, Nat.add_zero]
        exact inductionHypothesis _ rest state processCount (by omega)

/-- The calls for a line that was read, if no command exits. -/
def lineCalls (host : Host W) (world : W) (line : List InputByte) : List SegmentCall :=
  let argument := cmdLine host world line
  segmentCalls (argument.1.length + 2) argument.1 argument.2

/-- Handling a line is acting on its calls and waiting for the processes they started. -/
theorem handleLine_calls (host : Host W) (line : List InputByte) (state : State W) :
    handleLine host line state = waitForAll host.kernel
      (runCalls host.kernel (lineCalls host state.world line) state 0) := by
  have looped := segmentLoop_calls host.kernel ((cmdLine host state.world line).1.length + 2)
    (cmdLine host state.world line).1 (cmdLine host state.world line).2 state 0 (by omega)
  delta handleLine
  exact Option.get_of_eq_some _ (congrArg (Option.map _) looped)

end OsLabwork.Shell
