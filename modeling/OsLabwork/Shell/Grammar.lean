import OsLabwork.Shell.InPlace
import OsLabwork.Shell.Segments

/-!
# The grammar of a line

A line is a sequence of segments between `&`. A segment is blank, or words with at
most one redirection: `>` and one word behind it. Anything else is malformed.

Parsing in place follows this grammar: what `exec_single_cmd` finds in the segments of a
line, one call after the other, is what the grammar reads there, and running the line in
its buffer is acting on that from left to right.
-/

namespace OsLabwork.Shell

open CMemory Words

variable {W : Type}

/-- What a segment means. -/
inductive Segment where
  | blank
  | malformed
  | command (words : List (List UInt8)) (redirect : Option (List UInt8))
deriving DecidableEq, Repr

/-- How the grammar reads a segment. -/
def parseSegment (text : List UInt8) : Segment :=
  let front := text.takeWhile (fun byte => byte ≠ 62)
  let target := (text.dropWhile (fun byte => byte ≠ 62)).tail
  if text.all isBlank then .blank
  else if 62 ∈ text then
    if words isBlank front = [] ∨ 62 ∈ target ∨ words isBlank target = [] ∨
        1 < (words isBlank target).length then .malformed
    else .command (words isBlank front) (words isBlank target).head?
  else .command (words isBlank text) none

/-- The command with the given words as its arguments and a terminating NULL. -/
def wordsCommand (words : List (List UInt8)) (redirect : Option (List UInt8)) : Command where
  name := CString.leading (words.headD [])
  argv := words.map (fun word => some (CString.leading word)) ++ [none]
  argc := words.length
  redirect := redirect.map CString.leading

/-- What `exec_single_cmd` is to find in a segment with this meaning. -/
def Segment.reading : Segment → Reading
  | .blank => .blank
  | .malformed => .malformed
  | .command words redirect => .command (wordsCommand words redirect)

/-- What `exec_single_cmd` finds in a segment with these words. -/
def wordsReading (words : List (List UInt8)) (redirect : Option (List UInt8)) : Reading :=
  if words = [] then .blank else .command (wordsCommand words redirect)

/-- Handle one segment. -/
def runSegment (kernel : Kernel W) (text : List UInt8) (state : State W) : State W × Flow Nat :=
  match parseSegment text with
  | .blank => (state, .returned 0)
  | .malformed => (printError state, .returned 0)
  | .command words redirect => execCommand kernel (wordsCommand words redirect) state

/-- Running a segment is doing what it is read as. -/
theorem runSegment_eq_act (kernel : Kernel W) (text : List UInt8) (state : State W) :
    runSegment kernel text state = (parseSegment text).reading.act kernel state := by
  rw [runSegment]
  cases parseSegment text <;> rfl

/-- Handle segments from left to right and add up the processes to wait for. -/
def runSegments (kernel : Kernel W) : List (List UInt8) → State W → Nat → State W × Flow Nat
  | [], state, processCount => (state, .returned processCount)
  | text :: texts, state, processCount =>
      match runSegment kernel text state with
      | (after, .exited status) => (after, .exited status)
      | (after, .returned count) => runSegments kernel texts after (processCount + count)

/-- Handle the segments of a line and wait for the processes they started. -/
def runLine (kernel : Kernel W) (line : List UInt8) (state : State W) : State W × Flow Unit :=
  waitForAll kernel (runSegments kernel (line.splitOnP (fun byte => byte = 38)) state 0)

/-- No NUL, VT or FF: the bytes on which the shell's notions of white space agree. -/
def Plain (text : List UInt8) : Prop := ∀ byte ∈ text, byte ≠ 0 ∧ byte ≠ 11 ∧ byte ≠ 12

/-- The two kinds of white space differ in two bytes only. -/
theorem isspace_eq_isBlank {byte : UInt8} (noVt : byte ≠ 11) (noFf : byte ≠ 12) :
    isspace byte = isBlank byte := by
  simp only [ne_eq, ← UInt8.toNat_inj] at noVt noFf
  rw [Bool.eq_iff_iff]
  simp only [isspace, isBlank, blanks, List.contains_cons, List.contains_nil, Bool.or_eq_true,
    Bool.and_eq_true, decide_eq_true_eq, beq_iff_eq, Bool.or_false, UInt8.le_iff_toNat_le,
    ← UInt8.toNat_inj]
  change ¬ byte.toNat = 11 at noVt
  change ¬ byte.toNat = 12 at noFf
  change byte.toNat = 32 ∨ 9 ≤ byte.toNat ∧ byte.toNat ≤ 13 ↔
    byte.toNat = 32 ∨ byte.toNat = 9 ∨ byte.toNat = 10 ∨ byte.toNat = 13
  omega

/-- Every blank is white space. -/
theorem isspace_of_isBlank {byte : UInt8} (blank : isBlank byte = true) : isspace byte = true := by
  have oneOf : byte = 32 ∨ byte = 9 ∨ byte = 10 ∨ byte = 13 := by
    simpa [isBlank, blanks] using blank
  rcases oneOf with rfl | rfl | rfl | rfl <;> decide

/-- A text that is not all white space has words. -/
theorem words_ne_nil {text : List UInt8} (word : ∃ byte ∈ text, isspace byte = false) :
    words isBlank text ≠ [] := by
  obtain ⟨byte, member, solid⟩ := word
  rw [ne_eq, words_eq_nil_iff]
  intro allBlank
  simp [isspace_of_isBlank (allBlank byte member)] at solid

/-- A plain text has the same words for both. -/
theorem Plain.words_eq {text : List UInt8} (plain : Plain text) :
    words isspace text = words isBlank text :=
  words_congr text (fun byte member => isspace_eq_isBlank (plain byte member).2.1
    (plain byte member).2.2)

/-- A plain text has no zero byte. -/
theorem Plain.clean {text : List UInt8} (plain : Plain text) : (0 : UInt8) ∉ text := fun zero =>
  (plain 0 zero).1 rfl

/-- A part of a plain text is plain. -/
theorem Plain.subset {text part : List UInt8} (plain : Plain text) (within : part ⊆ text) :
    Plain part := fun byte member => plain byte (within member)

/-- The two sides of the sign are plain. -/
theorem Plain.parts {front target : List UInt8} (plain : Plain (front ++ 62 :: target)) :
    Plain front ∧ Plain target := by
  constructor
  · exact plain.subset (List.subset_append_left _ _)
  · exact plain.subset (fun byte member => by simp [member])

/-- A segment without the sign. -/
theorem parseSegment_undivided {text : List UInt8} (absent : (62 : UInt8) ∉ text) :
    parseSegment text =
      if words isBlank text = [] then .blank else .command (words isBlank text) none := by
  simp [parseSegment, absent, words_eq_nil_iff]

/-- A segment with the sign. -/
theorem parseSegment_divided {front : List UInt8} (absent : (62 : UInt8) ∉ front)
    (target : List UInt8) : parseSegment (front ++ 62 :: target) =
      if words isBlank front = [] ∨ 62 ∈ target ∨ words isBlank target = [] ∨
          1 < (words isBlank target).length then .malformed
      else .command (words isBlank front) (words isBlank target).head? := by
  have before : ∀ byte ∈ front, (fun byte : UInt8 => decide (byte ≠ 62)) byte = true := by
    rintro byte member
    simp only [ne_eq, decide_not, Bool.not_eq_eq_eq_not, Bool.not_true, decide_eq_false_iff_not]
    rintro rfl
    exact absent member
  have fronts : (front ++ 62 :: target).takeWhile (fun byte => decide (byte ≠ 62)) = front :=
    takeWhile_placed front target _ before 62 (by simp)
  have targets : ((front ++ 62 :: target).dropWhile (fun byte => decide (byte ≠ 62))).tail =
      target := by
    rw [List.dropWhile_append_of_pos before, List.dropWhile_cons_of_neg (by simp), List.tail_cons]
  have notBlank : (front ++ 62 :: target).all isBlank = false := by
    simp [isBlank, blanks]
  simp only [parseSegment, fronts, targets, notBlank]
  simp

/-- Parsing the words of a segment gives its command, or none when there is no word. -/
theorem parseCmd_placed (before text behind : List UInt8) (clean : (0 : UInt8) ∉ text)
    (fuel : Nat) (enough : text.length < fuel) :
    ∃ cut parsed, parseCmd fuel (before ++ (text ++ 0 :: behind)) before.length =
        some (before ++ (cut ++ 0 :: behind), parsed) ∧ cut.length = text.length ∧
      (words isBlank text = [] → parsed = none) ∧
      (words isBlank text ≠ [] → ∃ cmd, parsed = some cmd ∧ ∀ dest target,
        dest.map (stringAt (before ++ (cut ++ 0 :: behind))) = target.map CString.leading →
        cmd.command (before ++ (cut ++ 0 :: behind)) dest =
          wordsCommand (words isBlank text) target) := by
  obtain ⟨cut, pointers, running, length, texts⟩ :=
    tokenLoop_placed before text behind clean fuel enough
  cases pointers with
  | nil =>
    have none : words isBlank text = [] := by simpa using texts.symm
    exact ⟨cut, Option.none, by simp [parseCmd, running], length, fun _ => rfl,
      fun some => absurd none some⟩
  | cons first others =>
    refine ⟨cut, some ⟨first, (first :: others).map some ++ [none], (first :: others).length⟩,
      by simp [parseCmd, running], length, ?_, ?_⟩
    · intro none
      simp [none] at texts
    · intro _
      refine ⟨_, rfl, ?_⟩
      intro dest target same
      cases found : words isBlank text with
      | nil => simp [found] at texts
      | cons word more =>
        rw [found, List.map_cons, List.map_cons, List.cons.injEq] at texts
        have count := congrArg List.length texts.2
        simp only [List.length_map] at count
        simp only [ParsedCmd.command, wordsCommand, Command.mk.injEq, List.headD_cons, texts.1,
          same, List.length_cons, count, and_true, true_and]
        have tails : others.map (fun pointer => some (stringAt (before ++ (cut ++ 0 :: behind))
            pointer)) = more.map (fun word => some (CString.leading word)) := by
          have mapped := congrArg (List.map some) texts.2
          simpa [List.map_map, Function.comp_def] using mapped
        simp [texts.1, Function.comp_def, tails]

section Parsing

variable (before behind : List UInt8)

/-- A segment without `>` is trimmed and cut into words. -/
theorem parse_undivided (text : List UInt8) (stops : Stops before text)
    (clean : (0 : UInt8) ∉ text) (absent : (62 : UInt8) ∉ text) (fuel : Nat)
    (enough : text.length < fuel) :
    ∃ memory next parsed, parseRedirectDest (before ++ (text ++ 0 :: behind)) before.length =
        ⟨memory, false, none⟩ ∧
      parseCmd fuel memory before.length = some (next, parsed) ∧
      (words isBlank (stripEnd isspace text) = [] → parsed = none) ∧
      (words isBlank (stripEnd isspace text) ≠ [] → ∃ cmd, parsed = some cmd ∧
        cmd.command next none = wordsCommand (words isBlank (stripEnd isspace text)) none) ∧
      Framed before behind (text.length + 1) next := by
  obtain ⟨junk, redirect, length, closed⟩ :=
    parseRedirectDest_plain before behind text stops clean absent
  have part : stripEnd isspace text ⊆ text := (List.rdropWhile_prefix isspace text).subset
  obtain ⟨cut, parsed, parsing, cutLength, whenBlank, whenWords⟩ := parseCmd_placed before
    (stripEnd isspace text) (junk ++ behind) (fun zero => clean (part zero)) fuel (by omega)
  refine ⟨_, _, parsed, redirect, parsing, whenBlank, ?_,
    framed_intro before cut junk behind _ (by omega) closed⟩
  intro some
  obtain ⟨cmd, isParsed, command⟩ := whenWords some
  exact ⟨cmd, isParsed, command none none rfl⟩

/-- A segment with a word, `>` and one target is cut into the words before `>` and the
target behind it. -/
theorem parse_redirected (front target : List UInt8) (clean : (0 : UInt8) ∉ front ++ 62 :: target)
    (absent : (62 : UInt8) ∉ front) (word : ∃ byte ∈ front, isspace byte = false)
    (good : ¬ BadTarget (stripEnd isspace target)) (fuel : Nat) (enough : front.length < fuel) :
    ∃ memory dest next cmd,
      parseRedirectDest (before ++ ((front ++ 62 :: target) ++ 0 :: behind)) before.length =
        ⟨memory, false, some dest⟩ ∧
      parseCmd fuel memory before.length = some (next, some cmd) ∧
      cmd.command next (some dest) =
        wordsCommand (words isBlank front) (some (strip isspace target)) ∧
      Framed before behind ((front ++ 62 :: target).length + 1) next := by
  have cleanFront : (0 : UInt8) ∉ front := fun zero => clean (List.mem_append_left _ zero)
  have cleanTarget : (0 : UInt8) ∉ strip isspace target := fun zero =>
    clean (by simp [strip_subset target zero])
  obtain ⟨junk, redirect, length, closed⟩ := parseRedirectDest_accepted before behind front target
    clean absent word good
  obtain ⟨cut, parsed, parsing, cutLength, _, whenWords⟩ := parseCmd_placed before front
    (stripEnd isspace target ++ 0 :: (junk ++ behind)) cleanFront fuel enough
  obtain ⟨cmd, rfl, command⟩ := whenWords (words_ne_nil word)
  have nonempty : strip isspace (stripEnd isspace target) ≠ [] := fun empty =>
    good (Or.inr (Or.inl empty))
  have whole := stripEnd_eq_append nonempty
  rw [stripEnd_stripEnd, strip_stripEnd] at whole
  generalize List.takeWhile isspace (stripEnd isspace target) = spaces at redirect whole
  -- The target stands behind the words and is not touched by cutting them.
  have dest : stringAt (before ++ (cut ++ 0 :: (stripEnd isspace target ++ 0 :: (junk ++ behind))))
      (before.length + front.length + 1 + spaces.length) =
        CString.leading (strip isspace target) := by
    have placed := stringAt_placed (before ++ (cut ++ 0 :: spaces)) (strip isspace target)
      (junk ++ behind) cleanTarget
    rw [whole]
    simpa [cutLength, Nat.add_assoc, Nat.add_comm 1] using placed
  refine ⟨_, _, _, cmd, redirect, parsing,
    command _ (some (strip isspace target)) (by rw [Option.map_some, dest]; rfl), ?_⟩
  have framed := framed_intro before cut (stripEnd isspace target ++ 0 :: junk) behind
    ((front ++ 62 :: target).length + 1)
    (by simp only [List.length_append, List.length_cons]; omega) (getLastD_append_nul _ closed)
  simpa using framed

end Parsing

/-- What is read follows from what the two parsers deliver. -/
theorem readWithin_parsed {fuel cmdLine : Nat} {memory cut next : List UInt8} {dest : Option Nat}
    {parsed : Option ParsedCmd} {found : List (List UInt8)} {target : Option (List UInt8)}
    (redirect : parseRedirectDest memory cmdLine = ⟨cut, false, dest⟩)
    (parsing : parseCmd fuel cut cmdLine = some (next, parsed))
    (whenBlank : found = [] → parsed = none)
    (whenWords : found ≠ [] → ∃ cmd, parsed = some cmd ∧
      cmd.command next dest = wordsCommand found target) :
    readWithin fuel memory cmdLine = some (next, wordsReading found target) := by
  simp only [readWithin, redirect, parsing, Bool.false_eq_true, ↓reduceIte, Option.map_some]
  by_cases blank : found = []
  · rw [whenBlank blank, wordsReading, if_pos blank]
  · obtain ⟨cmd, rfl, command⟩ := whenWords blank
    rw [wordsReading, if_neg blank, ← command]

section Reading

variable (before behind : List UInt8)

/-- A segment without `>` is read by its words, once white space has been cut from its end. -/
theorem readWithin_undivided (text : List UInt8) (stops : Stops before text)
    (clean : (0 : UInt8) ∉ text) (absent : (62 : UInt8) ∉ text) (fuel : Nat)
    (enough : text.length < fuel) :
    ∃ memory, readWithin fuel (before ++ (text ++ 0 :: behind)) before.length =
        some (memory, wordsReading (words isBlank (stripEnd isspace text)) none) ∧
      Framed before behind (text.length + 1) memory := by
  obtain ⟨memory, next, parsed, redirect, parsing, whenBlank, whenWords, framed⟩ :=
    parse_undivided before behind text stops clean absent fuel enough
  exact ⟨next, readWithin_parsed redirect parsing whenBlank whenWords, framed⟩

/-- A segment with `>` but no word before it, or no target behind it, is malformed. -/
theorem readWithin_malformed (front target : List UInt8)
    (clean : (0 : UInt8) ∉ front ++ 62 :: target) (absent : (62 : UInt8) ∉ front)
    (bad : (∀ byte ∈ front, isspace byte = true) ∨ BadTarget (stripEnd isspace target))
    (fuel : Nat) :
    ∃ memory, readWithin fuel (before ++ ((front ++ 62 :: target) ++ 0 :: behind)) before.length =
        some (memory, .malformed) ∧
      Framed before behind ((front ++ 62 :: target).length + 1) memory := by
  by_cases spaces : ∀ byte ∈ front, isspace byte = true
  · obtain ⟨memory, redirect, framed⟩ :=
      parseRedirectDest_missing before behind front target clean spaces
    exact ⟨memory, by simp only [readWithin, redirect, ↓reduceIte], framed⟩
  · have word : ∃ byte ∈ front, isspace byte = false := by simpa using spaces
    obtain ⟨memory, redirect, framed⟩ := parseRedirectDest_rejected before behind front target
      clean absent word (bad.resolve_left spaces)
    exact ⟨memory, by simp only [readWithin, redirect, ↓reduceIte], framed⟩

/-- A segment with a word before `>` and a target behind it is read by the words before it. -/
theorem readWithin_redirected (front target : List UInt8)
    (clean : (0 : UInt8) ∉ front ++ 62 :: target) (absent : (62 : UInt8) ∉ front)
    (word : ∃ byte ∈ front, isspace byte = false)
    (good : ¬ BadTarget (stripEnd isspace target)) (fuel : Nat) (enough : front.length < fuel) :
    ∃ memory, readWithin fuel (before ++ ((front ++ 62 :: target) ++ 0 :: behind)) before.length =
        some (memory, wordsReading (words isBlank front) (some (strip isspace target))) ∧
      Framed before behind ((front ++ 62 :: target).length + 1) memory := by
  obtain ⟨memory, dest, next, cmd, redirect, parsing, command, framed⟩ := parse_redirected
    before behind front target clean absent word good fuel enough
  exact ⟨next, readWithin_parsed redirect parsing
    (fun blank => absurd blank (words_ne_nil word)) (fun _ => ⟨cmd, rfl, command⟩), framed⟩

end Reading

/-- The parser rejects a trimmed target exactly when the grammar does. -/
theorem badTarget_iff {target : List UInt8} (plain : Plain target) :
    BadTarget (stripEnd isspace target) ↔
      62 ∈ target ∨ words isBlank target = [] ∨ 1 < (words isBlank target).length := by
  rw [BadTarget, strip_stripEnd, mem_stripEnd_iff target (by decide), strip_eq_nil_iff,
    ← words_eq_nil_iff, plain.words_eq]
  by_cases empty : words isBlank target = []
  · simp [empty]
  · have nonempty : strip isspace target ≠ [] := by
      rw [ne_eq, strip_eq_nil_iff, ← words_eq_nil_iff, plain.words_eq]
      exact empty
    have inner_iff : (∃ byte ∈ strip isspace target, isspace byte = true) ↔
        1 < (words isBlank target).length := by
      rw [← plain.words_eq]
      constructor
      · exact one_lt_words_length
      · intro several
        by_contra none
        have solid : ∀ byte ∈ strip isspace target, isspace byte = false := by
          simpa using none
        rw [words_eq_single nonempty solid] at several
        simp at several
    rw [inner_iff]

/-- A target that is not rejected is the only word behind the divider. -/
theorem goodTarget_words {target : List UInt8} (plain : Plain target)
    (good : ¬ BadTarget (stripEnd isspace target)) :
    words isBlank target = [strip isspace target] := by
  simp only [BadTarget, strip_stripEnd, not_or] at good
  obtain ⟨_, nonempty, inner⟩ := good
  rw [← plain.words_eq]
  exact words_eq_single nonempty (by simpa using inner)

section Placed

variable (before behind : List UInt8)

/-- A segment with `>` is malformed or a command with a redirection. -/
theorem readWithin_divided (front target : List UInt8)
    (plain : Plain (front ++ 62 :: target)) (absent : (62 : UInt8) ∉ front) (fuel : Nat)
    (enough : (front ++ 62 :: target).length < fuel) :
    ∃ memory, readWithin fuel (before ++ ((front ++ 62 :: target) ++ 0 :: behind))
          before.length =
        some (memory, (parseSegment (front ++ 62 :: target)).reading) ∧
      Framed before behind ((front ++ 62 :: target).length + 1) memory := by
  obtain ⟨plainFront, plainTarget⟩ := plain.parts
  have noWord_iff : words isBlank front = [] ↔ ∀ byte ∈ front, isspace byte = true := by
    rw [← words_eq_nil_iff, plainFront.words_eq]
  rw [parseSegment_divided absent]
  by_cases bad : (∀ byte ∈ front, isspace byte = true) ∨ BadTarget (stripEnd isspace target)
  · have malformed := bad
    rw [badTarget_iff plainTarget, ← noWord_iff] at malformed
    rw [if_pos malformed]
    exact readWithin_malformed before behind front target plain.clean absent bad fuel
  · have wellFormed := bad
    rw [badTarget_iff plainTarget, ← noWord_iff] at wellFormed
    obtain ⟨notSpaces, good⟩ := not_or.mp bad
    have word : ∃ byte ∈ front, isspace byte = false := by simpa using notSpaces
    rw [List.length_append] at enough
    obtain ⟨memory, read, framed⟩ := readWithin_redirected before behind front target plain.clean
      absent word good fuel (by omega)
    refine ⟨memory, ?_, framed⟩
    rw [read, if_neg wellFormed, goodTarget_words plainTarget good, List.head?_cons, wordsReading,
      if_neg (words_ne_nil word)]
    rfl

/-- A segment in its buffer is read as the grammar says. -/
theorem readWithin_placed (text : List UInt8) (guarded : Guarded before) (plain : Plain text)
    (fuel : Nat) (enough : text.length < fuel) :
    ∃ memory, readWithin fuel (before ++ (text ++ 0 :: behind)) before.length =
        some (memory, (parseSegment text).reading) ∧
      Framed before behind (text.length + 1) memory := by
  by_cases sign : (62 : UInt8) ∈ text
  · obtain ⟨byte, target, split, isSign⟩ := Splitting.takeWhile_split
      (fun byte => decide (byte ≠ 62)) text ⟨62, sign, by simp⟩
    obtain rfl : byte = 62 := by simpa using isSign
    have absent : (62 : UInt8) ∉ text.takeWhile (fun byte => decide (byte ≠ 62)) := fun member => by
      simpa using List.mem_takeWhile_imp member
    generalize List.takeWhile (fun byte => decide (byte ≠ 62)) text = front at split absent
    subst split
    exact readWithin_divided before behind front target plain absent fuel enough
  · obtain ⟨memory, read, framed⟩ :=
      readWithin_undivided before behind text (Or.inl guarded) plain.clean sign fuel enough
    have part : stripEnd isspace text ⊆ text := (List.rdropWhile_prefix isspace text).subset
    have sameWords : words isBlank (stripEnd isspace text) = words isBlank text := by
      rw [← (plain.subset part).words_eq, words_stripEnd, plain.words_eq]
    refine ⟨memory, ?_, framed⟩
    rw [read, sameWords, parseSegment_undivided sign, wordsReading]
    split <;> rfl

/-- A token that is not empty makes one call, in which the grammar's reading of it is found,
and an empty one makes none. -/
theorem token_placed (kernel : Kernel W) (word : List UInt8) (guarded : Guarded before)
    (plain : Plain word) (fuel : Nat) (enough : word.length < fuel) :
    ∃ next calls, Framed before behind (word.length + 1) next ∧
      (if charAt (before ++ (word ++ 0 :: behind)) before.length ≠ 0 then
        [⟨before ++ (word ++ 0 :: behind), before.length⟩] else []) = calls ∧
      (if charAt (before ++ (word ++ 0 :: behind)) before.length ≠ 0 then
        (readSegment (before ++ (word ++ 0 :: behind)) before.length).1
        else before ++ (word ++ 0 :: behind)) = next ∧
      calls.map SegmentCall.reading =
        ([word].filter (fun text => text ≠ [])).map (fun text => (parseSegment text).reading) ∧
      ∀ state, execToken kernel fuel (before ++ (word ++ 0 :: behind)) before.length state =
        some (next, runCalls kernel calls state 0) := by
  have empty := charAt_start_eq_zero_iff before word behind plain.clean
  by_cases skipped : word = []
  · have zero := empty.mpr skipped
    refine ⟨_, [], framed_intro before word [] behind _ rfl rfl, ?_, ?_, ?_, fun state => ?_⟩
    · rw [if_neg (not_not_intro zero)]
    · rw [if_neg (not_not_intro zero)]
      simp
    · simp [skipped]
    · rw [execToken, if_neg (not_not_intro zero)]
      simp [runCalls]
  · have nonzero : charAt (before ++ (word ++ 0 :: behind)) before.length ≠ 0 :=
      fun zero => skipped (empty.mp zero)
    obtain ⟨memory, read, framed⟩ :=
      readWithin_placed before behind word guarded plain fuel enough
    have reading := eq_readSegment_of_readWithin read
    refine ⟨memory, _, framed, if_pos nonzero, ?_, ?_, fun state => ?_⟩
    · rw [if_pos nonzero, ← reading]
    · simp [skipped, SegmentCall.reading, ← reading]
    · rw [execToken, if_pos nonzero, execSingleCmd_eq, read]
      simp only [Option.map_some, runCalls, SegmentCall.reading, ← reading]
      rcases (parseSegment word).reading.act kernel state with ⟨after, count | status⟩
      · simp
      · rfl

/-- The loop over the tokens makes a call for each segment that is not empty, and finds in
it what the grammar reads there. It then does what acting on these calls does.

Proof: cut the line at `&`. Handling a segment leaves a NUL before the next one, so
the same law applies behind it. -/
theorem segmentLoop_placed (kernel : Kernel W) (line : List UInt8) (guarded : Guarded before)
    (plain : Plain line) (fuel : Nat) (enough : line.length + 1 < fuel) :
    (segmentCalls fuel (before ++ (line ++ 0 :: behind)) before.length).map SegmentCall.reading =
        ((line.splitOnP (fun byte => byte = 38)).filter (fun text => text ≠ [])).map
          (fun text => (parseSegment text).reading) ∧
      ∀ state processCount,
        segmentLoop kernel fuel (before ++ (line ++ 0 :: behind)) before.length state
            processCount =
          some (runCalls kernel (segmentCalls fuel (before ++ (line ++ 0 :: behind))
            before.length) state processCount) := by
  induction line using Splitting.cut_induction (fun byte : UInt8 => decide (byte = 38))
    generalizing before fuel with
  | plain word separatorFree =>
    obtain ⟨remaining, rfl⟩ : ∃ remaining, fuel = remaining + 1 := ⟨fuel - 1, by omega⟩
    have last := strsep_last before word behind [38] plain.clean (by simpa using separatorFree)
    obtain ⟨next, calls, _, called, _, readings, handled⟩ :=
      token_placed before behind kernel word guarded plain remaining (by omega)
    rw [List.splitOnP_eq_singleton separatorFree]
    simp only [segmentCalls, segmentLoop, last, called]
    refine ⟨readings, fun state processCount => ?_⟩
    have acting := runCalls_append kernel calls [] state processCount 0
    rw [List.append_nil] at acting
    rw [handled, Option.bind_some]
    rcases ran : runCalls kernel calls state 0 with ⟨after, count | status⟩
    · simpa [ran, runCalls] using acting.symm
    · simpa [ran, runCalls] using acting.symm
  | cut word separator rest separatorFree separates inductionHypothesis =>
    obtain ⟨remaining, rfl⟩ : ∃ remaining, fuel = remaining + 1 := ⟨fuel - 1, by omega⟩
    have plainWord : Plain word := plain.subset (List.subset_append_left _ _)
    have plainRest : Plain rest := plain.subset (by
      intro byte member
      simp [member])
    obtain rfl : separator = 38 := by simpa using separates
    have first := strsep_cut before word (rest ++ 0 :: behind) [38] plainWord.clean
      (by simpa using separatorFree) 38 (by decide) (by decide)
    rw [List.length_append, List.length_cons] at enough
    obtain ⟨next, calls, ⟨block, isNext, length, ends⟩, called, left, readings, handled⟩ :=
      token_placed before (rest ++ 0 :: behind) kernel word guarded plainWord remaining (by omega)
    have solid : Guarded (before ++ block) := by
      intro byte isLast
      rw [List.getLast?_append, ends, Option.some_or, Option.some.injEq] at isLast
      rw [← isLast]
      decide
    obtain ⟨later, acting⟩ := inductionHypothesis (before ++ block) solid plainRest remaining
      (by omega)
    rw [List.length_append, length, List.append_assoc, ← isNext, ← Nat.add_assoc] at later acting
    rw [List.splitOnP_append_cons_of_forall_mem separatorFree 38 separates, List.append_assoc,
      List.cons_append]
    simp only [segmentCalls, segmentLoop, first, called, left]
    constructor
    · rw [List.map_append, readings, later, ← List.map_append, ← List.filter_append,
        List.singleton_append]
    · intro state processCount
      have whole := runCalls_append kernel calls
        (segmentCalls remaining next (before.length + word.length + 1)) state processCount 0
      simp only [Nat.add_zero] at whole
      rw [handled, Option.bind_some, whole]
      rcases runCalls kernel calls state 0 with ⟨after, count | status⟩
      · exact acting after (processCount + count)
      · rfl

end Placed

/-- Acting on calls in which the grammar's readings were found is handling the segments. -/
theorem runCalls_eq_runSegments (kernel : Kernel W) (texts : List (List UInt8))
    (calls : List SegmentCall)
    (readings : calls.map SegmentCall.reading =
      (texts.filter (fun text => text ≠ [])).map (fun text => (parseSegment text).reading))
    (state : State W) (processCount : Nat) :
    runCalls kernel calls state processCount = runSegments kernel texts state processCount := by
  induction texts generalizing calls state processCount with
  | nil =>
    obtain rfl : calls = [] := by simpa using readings
    rfl
  | cons text texts inductionHypothesis =>
    by_cases skipped : text = []
    · subst skipped
      rw [List.filter_cons_of_neg (by simp)] at readings
      exact inductionHypothesis calls readings state processCount
    · rw [List.filter_cons_of_pos (by simpa using skipped), List.map_cons] at readings
      obtain ⟨call, later, rfl, found, readingsLater⟩ := List.map_eq_cons_iff.mp readings
      rw [runCalls, runSegments, found, runSegment_eq_act]
      rcases (parseSegment text).reading.act kernel state with ⟨after, count | status⟩
      · exact inductionHypothesis later readingsLater after (processCount + count)
      · rfl

/-- A line that stands in memory behind a byte that is not white space, and has no
NUL, VT or FF, is run as the grammar reads it: its segments between `&` are handled
from left to right, a malformed one with a single error message, a command with its
words, a terminating NULL, their number and its redirection, and then the shell waits
for the processes that were started. -/
theorem execParallelCmd_follows_grammar (kernel : Kernel W) (front : List UInt8) (guard : UInt8)
    (solid : isspace guard = false) (line behind : List UInt8)
    (plain : ∀ byte ∈ line, byte ≠ 0 ∧ byte ≠ 11 ∧ byte ≠ 12) (state : State W) (fuel : Nat)
    (enough : line.length + 1 < fuel) :
    execParallelCmd kernel fuel (front ++ guard :: (line ++ 0 :: behind)) (front.length + 1) state =
        some (runLine kernel line state) ∧
      ∃ calls : List SegmentCall,
        execParallelCmd kernel fuel (front ++ guard :: (line ++ 0 :: behind)) (front.length + 1)
            state =
          some (waitForAll kernel (runCalls kernel calls state 0)) ∧
        calls.map SegmentCall.reading =
          ((line.splitOnP (fun byte => byte = 38)).filter (fun text => text ≠ [])).map
            (fun text =>
              match parseSegment text with
              | .blank => .blank
              | .malformed => .malformed
              | .command words redirect => .command
                  { name := CString.leading (words.headD [])
                    argv := words.map (fun word => some (CString.leading word)) ++ [none]
                    argc := words.length
                    redirect := redirect.map CString.leading }) := by
  obtain ⟨readings, looped⟩ := segmentLoop_placed (front ++ [guard]) behind kernel line
    (guarded_concat solid front) plain fuel enough
  rw [List.append_assoc, List.singleton_append, List.length_append, List.length_singleton]
    at readings looped
  rw [execParallelCmd, looped state 0, Option.map_some]
  refine ⟨?_, _, rfl, readings.trans (List.map_congr_left fun text _ => ?_)⟩
  · rw [runCalls_eq_runSegments kernel _ _ readings, runLine]
  · cases parseSegment text <;> rfl

/-- A command with a redirection, and a malformed segment. -/
def mixedLine : List UInt8 := ascii "ls -l\t> out & >"

/-- A line with every kind of segment. -/
theorem execParallelCmd_follows_grammar_mixed :
    execParallelCmd obligingKernel 20 ([] ++ 0 :: (mixedLine ++ 0 :: [])) 1 ⟨(), [], []⟩ =
        some (runLine obligingKernel mixedLine ⟨(), [], []⟩) ∧
      ∃ calls : List SegmentCall,
        execParallelCmd obligingKernel 20 ([] ++ 0 :: (mixedLine ++ 0 :: [])) 1 ⟨(), [], []⟩ =
          some (waitForAll obligingKernel (runCalls obligingKernel calls ⟨(), [], []⟩ 0)) ∧
        calls.map SegmentCall.reading =
          [.command
            { name := CString.leading (ascii "ls")
              argv := [some (CString.leading (ascii "ls")), some (CString.leading (ascii "-l")),
                none]
              argc := 2
              redirect := some (CString.leading (ascii "out")) }, .malformed] := by
  obtain ⟨ran, calls, acted, readings⟩ := execParallelCmd_follows_grammar obligingKernel [] 0
    (by decide) mixedLine [] (by decide +kernel) ⟨(), [], []⟩ 20 (by decide)
  exact ⟨ran, calls, acted, readings.trans (by decide +kernel)⟩

example : parseSegment (ascii "ls -l\t> out ") =
    .command [ascii "ls", ascii "-l"] (some (ascii "out")) := by decide

example : (mixedLine.splitOnP fun byte => byte = 38).map parseSegment =
    [.command [ascii "ls", ascii "-l"] (some (ascii "out")), .malformed] := by decide

end OsLabwork.Shell
