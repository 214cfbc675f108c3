import OsLabwork.Library.CMemory
import OsLabwork.Shell.Commands

/-!
# Parsing a line in place

The shell cuts a line into segments and words by overwriting separators with NUL in
the line's own buffer. Positions are kept while the bytes change, and the segment is
parsed from its first byte although the text was trimmed through another pointer.

Reading backwards stops at the beginning of memory; the buffer of a line does not
lie there. The lists of the shell are modelled by sequences, and lines are shorter
than the largest `int`. The loops are given a fuel, and there is no result when it
does not suffice.
-/

namespace OsLabwork.Shell

open CMemory

variable {W : Type}

/-- `trim` on a pointer that is not NULL: the memory afterwards and the new pointer. -/
def trim (memory : List UInt8) (str : Nat) : List UInt8 × Nat :=
  let start := str + ((memory.drop str).takeWhile isspace).length
  let stop := start + strlen memory start
  let back := ((memory.take stop).reverse.takeWhile isspace).length
  (memory.set (stop - back) 0, start)

/-- The result of `parse_redirect_dest`. -/
structure Redirect where
  memory : List UInt8
  formatError : Bool
  dest : Option Nat
deriving DecidableEq, Repr

/-- How `parse_redirect_dest` cuts its argument before it trims for the second time. -/
inductive Cut where
  | malformed
  | whole
  | divided (divider : Nat)
deriving DecidableEq, Repr

/-- `parse_redirect_dest` up to its second call of `trim`: the memory then, and whether it
has returned already. -/
def cutRedirect (memory : List UInt8) (cmdLine : Nat) : List UInt8 × Cut :=
  let line := trim memory cmdLine
  if charAt line.1 line.2 = 62 then (line.1, .malformed)
  else
    match strchr line.1 line.2 62 with
    | none => (line.1, .whole)
    | some divider =>
        let cut := line.1.set divider 0
        if (strchr cut (divider + 1) 62).isSome then (cut, .malformed)
        else (cut, .divided divider)

/-- `parse_redirect_dest` from its second call of `trim` on. -/
def parseDest (memory : List UInt8) (divider : Nat) : Redirect :=
  let dest := trim memory (divider + 1)
  if charAt dest.1 dest.2 = 0 then ⟨dest.1, true, none⟩
  else if (textFrom dest.1 dest.2).any isspace then ⟨dest.1, true, none⟩
  else ⟨dest.1, false, some dest.2⟩

/-- `parse_redirect_dest`. -/
def parseRedirectDest (memory : List UInt8) (cmdLine : Nat) : Redirect :=
  match cutRedirect memory cmdLine with
  | (cut, .malformed) => ⟨cut, true, none⟩
  | (cut, .whole) => ⟨cut, false, none⟩
  | (cut, .divided divider) => parseDest cut divider

/-- The delimiters of `parse_cmd`. -/
def blanks : List UInt8 := [32, 9, 10, 13]

/-- The loop of `parse_cmd`: the pointers to its nonempty tokens. -/
def tokenLoop : Nat → List UInt8 → Nat → Option (List UInt8 × List Nat)
  | 0, _, _ => none
  | fuel + 1, memory, token =>
      let cut := strsep blanks memory token
      let own := if charAt cut.1 token ≠ 0 then [token] else []
      match cut.2 with
      | none => some (cut.1, own)
      | some next => (tokenLoop fuel cut.1 next).map fun later => (later.1, own ++ later.2)

/-- `cmd_name`, `cmd_argv` and `cmd_argc`. -/
structure ParsedCmd where
  cmdName : Nat
  cmdArgv : List (Option Nat)
  cmdArgc : Nat
deriving DecidableEq, Repr

/-- `parse_cmd`. -/
def parseCmd (fuel : Nat) (memory : List UInt8) (cmdLine : Nat) :
    Option (List UInt8 × Option ParsedCmd) :=
  (tokenLoop fuel memory cmdLine).map fun
    | (next, []) => (next, none)
    | (next, first :: others) => (next, some
        ⟨first, (first :: others).map some ++ [none], (first :: others).length⟩)

/-- The command that pointers into memory stand for. -/
def ParsedCmd.command (parsed : ParsedCmd) (memory : List UInt8) (dest : Option Nat) : Command where
  name := stringAt memory parsed.cmdName
  argv := parsed.cmdArgv.map (Option.map (stringAt memory))
  argc := parsed.cmdArgc
  redirect := dest.map (stringAt memory)

/-- `exec_single_cmd`. -/
def execSingleCmd (kernel : Kernel W) (fuel : Nat) (memory : List UInt8) (cmdLine : Nat)
    (state : State W) : Option (List UInt8 × State W × Flow Nat) :=
  let redirect := parseRedirectDest memory cmdLine
  if redirect.formatError then some (redirect.memory, printError state, .returned 0)
  else (parseCmd fuel redirect.memory cmdLine).map fun
    | (next, none) => (next, state, .returned 0)
    | (next, some parsed) => (next, execCommand kernel (parsed.command next redirect.dest) state)

/-- The body of the loop of `exec_parallel_cmd`: empty tokens are skipped. -/
def execToken (kernel : Kernel W) (fuel : Nat) (memory : List UInt8) (token : Nat)
    (state : State W) : Option (List UInt8 × State W × Flow Nat) :=
  if charAt memory token ≠ 0 then execSingleCmd kernel fuel memory token state
  else some (memory, state, .returned 0)

/-- The loop of `exec_parallel_cmd`, with the processes counted so far. -/
def segmentLoop (kernel : Kernel W) : Nat → List UInt8 → Nat → State W → Nat →
    Option (State W × Flow Nat)
  | 0, _, _, _, _ => none
  | fuel + 1, memory, token, state, processCount =>
      let cut := strsep [38] memory token
      (execToken kernel fuel cut.1 token state).bind fun
        | (_, after, .exited status) => some (after, .exited status)
        | (next, after, .returned count) =>
            match cut.2 with
            | none => some (after, .returned (processCount + count))
            | some rest => segmentLoop kernel fuel next rest after (processCount + count)

/-- The end of `exec_parallel_cmd`: it waits for the processes, unless the shell has exited. -/
def waitForAll (kernel : Kernel W) : State W × Flow Nat → State W × Flow Unit
  | (after, .exited status) => (after, .exited status)
  | (after, .returned processCount) => (waitFor kernel processCount after, .returned ())

/-- `exec_parallel_cmd`. -/
def execParallelCmd (kernel : Kernel W) (fuel : Nat) (memory : List UInt8) (cmdLine : Nat)
    (state : State W) : Option (State W × Flow Unit) :=
  (segmentLoop kernel fuel memory cmdLine state 0).map (waitForAll kernel)

end OsLabwork.Shell
