import OsLabwork.Library.Words
import OsLabwork.Shell.Parsing

/-!
# What parsing does to the buffer

Each pass over a segment is described by what it does to a text that stands between
other bytes and a NUL: the text is cut, the bytes around it stay, and the block it
stood in still ends with a NUL. That NUL is what the backward scan of the next
segment stops at.
-/

namespace OsLabwork.Shell

open CMemory Words

/-- The separators of words. -/
def isBlank (byte : UInt8) : Bool := blanks.contains byte

/-- The last byte, if there is one, is not white space. -/
def Guarded (before : List UInt8) : Prop :=
  ∀ byte, before.getLast? = some byte → isspace byte = false

/-- A byte that is not white space guards what is behind it. -/
theorem guarded_concat {byte : UInt8} (solid : isspace byte = false) (front : List UInt8) :
    Guarded (front ++ [byte]) := by
  intro other isLast
  rw [List.getLast?_concat, Option.some.injEq] at isLast
  rwa [← isLast]

/-- A scan of the text from its end over white space stops in the text or right before it. -/
def Stops (before text : List UInt8) : Prop :=
  Guarded before ∨ ∃ byte ∈ text, isspace byte = false

/-- A sign is not white space. -/
theorem stops_at_sign (before front target : List UInt8) : Stops before (front ++ 62 :: target) :=
  Or.inr ⟨62, by simp, by decide⟩

/-- Going back over white space stops in the text, or before it. -/
theorem Stops.takeWhile_reverse {before text : List UInt8} (stops : Stops before text) :
    (before ++ text).reverse.takeWhile isspace = text.reverse.takeWhile isspace := by
  rw [List.reverse_append]
  rcases stops with guarded | ⟨byte, member, solid⟩
  · apply Splitting.takeWhile_append_stop
    intro byte isFirst
    rw [List.head?_reverse] at isFirst
    exact guarded byte isFirst
  · obtain ⟨last, rest, split, ends⟩ := Splitting.takeWhile_split isspace text.reverse
      ⟨byte, List.mem_reverse.mpr member, solid⟩
    rw [split, List.append_assoc, List.cons_append, Splitting.takeWhile_append_stop,
      Splitting.takeWhile_append_stop]
    · simp [ends]
    · simp [ends]

/-- Where trimming puts its NUL and its pointer: the text ends behind its last byte that
is not white space, since the backward scan stops in it or before it. -/
theorem trim_position (before text behind : List UInt8) (stops : Stops before text)
    (clean : (0 : UInt8) ∉ text) :
    trim (before ++ (text ++ 0 :: behind)) before.length =
      ((before ++ (text ++ 0 :: behind)).set (before.length + (stripEnd isspace text).length) 0,
        before.length + (text.takeWhile isspace).length) := by
  have lead : (text ++ 0 :: behind).takeWhile isspace = text.takeWhile isspace := by
    apply Splitting.takeWhile_append_stop
    rintro byte isFirst
    rw [List.head?_cons, Option.some.injEq] at isFirst
    rw [← isFirst]
    decide
  have split : text.takeWhile isspace ++ text.dropWhile isspace = text :=
    List.takeWhile_append_dropWhile
  have lengths : (text.takeWhile isspace).length + (text.dropWhile isspace).length =
      text.length := by
    rw [← List.length_append, split]
  have stop : strlen (before ++ (text ++ 0 :: behind))
      (before.length + (text.takeWhile isspace).length) = (text.dropWhile isspace).length := by
    have placed := textFrom_placed (before ++ text.takeWhile isspace) (text.dropWhile isspace)
      behind (fun zero => clean ((List.dropWhile_sublist _).subset zero))
    rw [List.append_assoc, ← List.append_assoc (text.takeWhile isspace), split,
      List.length_append] at placed
    rw [strlen, placed]
  have taken : (before ++ (text ++ 0 :: behind)).take (before.length + text.length) =
      before ++ text := by
    rw [← List.append_assoc, ← List.length_append, List.take_left]
  have trailing : (stripEnd isspace text).length + (text.reverse.takeWhile isspace).length =
      text.length := by
    have whole : stripEnd isspace text ++ text.rtakeWhile isspace = text :=
      List.rdropWhile_append_rtakeWhile
    have sum := congrArg List.length whole
    rwa [List.length_append, List.rtakeWhile, List.length_reverse] at sum
  have position : before.length + (text.takeWhile isspace).length +
      (text.dropWhile isspace).length - (text.reverse.takeWhile isspace).length =
        before.length + (stripEnd isspace text).length := by
    omega
  simp only [trim, List.drop_left, lead, stop]
  rw [Nat.add_assoc before.length, lengths, taken, stops.takeWhile_reverse, ← lengths,
    ← Nat.add_assoc, position]

/-- Trimming puts a NUL behind the last byte that is not white space and moves the
pointer over the white space at the beginning. What stood between that NUL and the
old one ends with the old one. -/
theorem trim_placed (before text behind : List UInt8) (stops : Stops before text)
    (clean : (0 : UInt8) ∉ text) :
    ∃ junk, trim (before ++ (text ++ 0 :: behind)) before.length =
        (before ++ (stripEnd isspace text ++ 0 :: (junk ++ behind)),
          before.length + (text.takeWhile isspace).length) ∧
      (stripEnd isspace text).length + junk.length = text.length ∧ junk.getLastD 0 = 0 := by
  rw [trim_position before text behind stops clean]
  have whole : stripEnd isspace text ++ text.rtakeWhile isspace = text :=
    List.rdropWhile_append_rtakeWhile
  -- The NUL falls on the old one or on the first byte of the white space at the end.
  cases spaces : text.rtakeWhile isspace with
  | nil =>
    rw [spaces, List.append_nil] at whole
    refine ⟨[], ?_, by rw [whole]; rfl, rfl⟩
    rw [whole, set_placed, List.nil_append]
  | cons space more =>
    rw [spaces] at whole
    refine ⟨more ++ [0], ?_, ?_, by simp⟩
    · nth_rewrite 1 [← whole]
      rw [List.append_assoc (stripEnd isspace text), List.cons_append, set_placed,
        List.append_assoc, List.singleton_append]
    · have sum := congrArg List.length whole
      simpa using sum

/-- The trimmed text stands where the returned pointer points. Where the text is all
white space, that is at the old NUL. -/
theorem trim_points (before text behind : List UInt8) (stops : Stops before text)
    (clean : (0 : UInt8) ∉ text) :
    ∃ skipped rest, (trim (before ++ (text ++ 0 :: behind)) before.length).1 =
        skipped ++ (strip isspace text ++ 0 :: rest) ∧
      (trim (before ++ (text ++ 0 :: behind)) before.length).2 = skipped.length := by
  obtain ⟨junk, trimmed, length, closed⟩ := trim_placed before text behind stops clean
  rw [trimmed]
  by_cases empty : strip isspace text = []
  · have allSpace := (strip_eq_nil_iff text).mp empty
    have nothing : stripEnd isspace text = [] := List.rdropWhile_eq_nil_iff.mpr allSpace
    have everything : text.takeWhile isspace = text := List.takeWhile_eq_self_iff.mpr allSpace
    rw [nothing, List.length_nil, Nat.zero_add] at length
    have block : (0 :: junk) = (0 :: junk).dropLast ++ [0] := by
      have last : (0 :: junk).getLast (by simp) = 0 := by
        rw [List.getLast_eq_getLastD, closed]
      nth_rewrite 1 [← List.dropLast_append_getLast (by simp : (0 :: junk) ≠ [])]
      rw [last]
    refine ⟨before ++ (0 :: junk).dropLast, behind, ?_, ?_⟩
    · rw [nothing, empty, List.nil_append, List.nil_append, ← List.cons_append, block]
      simp
    · simp [everything, length]
  · refine ⟨before ++ text.takeWhile isspace, junk ++ behind, ?_, ?_⟩
    · rw [stripEnd_eq_append empty]
      simp
    · simp

/-- The memory around a block of the given size is as before, and the block still ends
with a NUL. -/
def Framed (before behind : List UInt8) (size : Nat) (memory : List UInt8) : Prop :=
  ∃ block, memory = before ++ (block ++ behind) ∧ block.length = size ∧ block.getLast? = some 0

/-- A text that was cut short, with what is left of it. -/
theorem framed_intro (before text junk behind : List UInt8) (size : Nat)
    (length : text.length + 1 + junk.length = size) (closed : junk.getLastD 0 = 0) :
    Framed before behind size (before ++ (text ++ 0 :: (junk ++ behind))) := by
  refine ⟨text ++ 0 :: junk, by simp, by simp; omega, ?_⟩
  rw [List.getLast?_append, List.getLast?_cons, ← List.getLastD_eq_getLast?, closed]
  rfl

/-- Bytes that end with a NUL still do so behind others. -/
theorem getLastD_append_nul (front : List UInt8) {junk : List UInt8} (closed : junk.getLastD 0 = 0) :
    (front ++ 0 :: junk).getLastD 0 = 0 := by
  rw [List.getLastD_eq_getLast?, List.getLast?_append, List.getLast?_cons,
    ← List.getLastD_eq_getLast?, closed]
  rfl

/-- A framed block with closed ends is part of a larger framed block. -/
theorem Framed.outer {before front junk behind memory : List UInt8} {size : Nat}
    (framed : Framed (before ++ front) (junk ++ behind) size memory)
    (closed : junk.getLastD 0 = 0) :
    Framed before behind (front.length + size + junk.length) memory := by
  obtain ⟨block, rfl, rfl, ends⟩ := framed
  refine ⟨front ++ block ++ junk, by simp, by simp [Nat.add_assoc], ?_⟩
  rw [List.getLast?_append, List.getLast?_append, ends, Option.some_or]
  cases last : junk.getLast? with
  | none => rfl
  | some byte =>
    rw [List.getLastD_eq_getLast?, last, Option.getD_some] at closed
    rw [closed, Option.some_or]

/-- Cutting a text into tokens replaces every blank by NUL; the pointers are to the
words of the text, in order.

Proof: cut the text at its blanks. The token before a blank is followed by the NUL
that replaced it, whatever happens behind. -/
theorem tokenLoop_placed (before text behind : List UInt8) (clean : (0 : UInt8) ∉ text)
    (fuel : Nat) (enough : text.length < fuel) :
    ∃ cut pointers, tokenLoop fuel (before ++ (text ++ 0 :: behind)) before.length =
        some (before ++ (cut ++ 0 :: behind), pointers) ∧ cut.length = text.length ∧
      pointers.map (stringAt (before ++ (cut ++ 0 :: behind))) =
        (words isBlank text).map CString.leading := by
  induction text using Splitting.cut_induction isBlank generalizing before fuel with
  | plain word plain =>
    obtain ⟨remaining, rfl⟩ : ∃ remaining, fuel = remaining + 1 := ⟨fuel - 1, by omega⟩
    have last := strsep_last before word behind blanks clean plain
    refine ⟨word, if word = [] then [] else [before.length], ?_, rfl, ?_⟩
    · simp only [tokenLoop, last, charAt_start_eq_zero_iff before word behind clean, ne_eq]
      simp
    · rw [words_plain plain]
      split
      · rfl
      · simp [stringAt_placed before word behind clean]
  | cut word separator rest plain separates inductionHypothesis =>
    obtain ⟨remaining, rfl⟩ : ∃ remaining, fuel = remaining + 1 := ⟨fuel - 1, by omega⟩
    have cleanWord : (0 : UInt8) ∉ word := fun zero => clean (List.mem_append_left _ zero)
    have cleanRest : (0 : UInt8) ∉ rest := fun zero =>
      clean (List.mem_append_right _ (List.mem_cons_of_mem _ zero))
    have nonzero : separator ≠ 0 := fun zero => clean (by simp [zero])
    have first := strsep_cut before word (rest ++ 0 :: behind) blanks cleanWord plain separator
      nonzero separates
    rw [List.length_append, List.length_cons] at enough
    obtain ⟨cut, pointers, onward, length, texts⟩ := inductionHypothesis
      (before ++ (word ++ [0])) cleanRest remaining (by omega)
    have memory : ∀ later, (before ++ (word ++ [0])) ++ later = before ++ (word ++ 0 :: later) := by
      simp
    have position : (before ++ (word ++ [0])).length = before.length + word.length + 1 := by
      simp [Nat.add_assoc]
    rw [memory, position] at onward
    rw [memory] at texts
    refine ⟨word ++ 0 :: cut, (if word = [] then [] else [before.length]) ++ pointers, ?_, ?_, ?_⟩
    · simp only [tokenLoop, List.append_assoc, List.cons_append, first, ne_eq,
        charAt_start_eq_zero_iff before word _ cleanWord, onward, Option.map_some]
      simp
    · simp [length]
    · have ownText := stringAt_placed before word (cut ++ 0 :: behind) cleanWord
      simp only [List.append_assoc, List.cons_append] at texts ⊢
      rw [List.map_append, texts, words_split plain separates, List.map_append, words_plain plain]
      congr 1
      split
      · rfl
      · simp [ownText]

section Redirect

variable (before behind : List UInt8)

/-- Without `>` there is no redirection and no error; the segment is trimmed. -/
theorem parseRedirectDest_plain (text : List UInt8) (stops : Stops before text)
    (clean : (0 : UInt8) ∉ text) (absent : (62 : UInt8) ∉ text) :
    ∃ junk, parseRedirectDest (before ++ (text ++ 0 :: behind)) before.length =
        ⟨before ++ (stripEnd isspace text ++ 0 :: (junk ++ behind)), false, none⟩ ∧
      (stripEnd isspace text).length + junk.length = text.length ∧ junk.getLastD 0 = 0 := by
  obtain ⟨junk, trimmed, length, closed⟩ := trim_placed before text behind stops clean
  obtain ⟨skipped, rest, memory, pointer⟩ := trim_points before text behind stops clean
  have within : ∀ byte ∈ strip isspace text, byte ∈ text := fun byte member =>
    strip_subset text member
  have cleanStrip : (0 : UInt8) ∉ strip isspace text := fun zero => clean (within 0 zero)
  have absentStrip : (62 : UInt8) ∉ strip isspace text := fun sign => absent (within 62 sign)
  have first := charAt_start_ne skipped (strip isspace text) rest (by decide) absentStrip
  have none := strchr_absent skipped (strip isspace text) rest cleanStrip 62 absentStrip
  refine ⟨junk, ?_, length, closed⟩
  rw [parseRedirectDest, cutRedirect, memory, pointer]
  simp only [first, ↓reduceIte, none]
  rw [← memory, trimmed]

/-- Nothing but white space before `>` is an error. -/
theorem parseRedirectDest_missing (front target : List UInt8)
    (clean : (0 : UInt8) ∉ front ++ 62 :: target) (spaces : ∀ byte ∈ front, isspace byte = true) :
    ∃ memory, parseRedirectDest (before ++ ((front ++ 62 :: target) ++ 0 :: behind)) before.length =
        ⟨memory, true, none⟩ ∧
      Framed before behind ((front ++ 62 :: target).length + 1) memory := by
  obtain ⟨junk, trimmed, length, closed⟩ :=
    trim_placed before (front ++ 62 :: target) behind (stops_at_sign _ _ _) clean
  have lead : (front ++ 62 :: target).takeWhile isspace = front :=
    takeWhile_placed front target isspace spaces 62 (by decide)
  have kept : stripEnd isspace (front ++ 62 :: target) = front ++ 62 :: stripEnd isspace target :=
    stripEnd_append_cons front (by decide) target
  have sign := charAt_placed before front (stripEnd isspace target ++ 0 :: (junk ++ behind)) 62
  rw [kept] at trimmed length
  refine ⟨_, ?_, framed_intro before (front ++ 62 :: stripEnd isspace target) junk behind _
    (by omega) closed⟩
  rw [parseRedirectDest, cutRedirect, trimmed, lead]
  simp only [List.append_assoc, List.cons_append, sign, ↓reduceIte]

/-- What is left of the target has no NUL. -/
theorem strippedTarget_clean {front target : List UInt8}
    (clean : (0 : UInt8) ∉ front ++ 62 :: target) : (0 : UInt8) ∉ stripEnd isspace target := by
  intro zero
  have inside := (List.rdropWhile_prefix isspace target).subset zero
  exact clean (by simp [inside])

/-- With some word before `>`, parsing goes on behind the divider unless there is another
`>`. The words before the divider are then followed by the NUL that replaced it. -/
theorem parseRedirectDest_divided (front target : List UInt8)
    (clean : (0 : UInt8) ∉ front ++ 62 :: target) (absent : (62 : UInt8) ∉ front)
    (word : ∃ byte ∈ front, isspace byte = false) :
    ∃ junk, parseRedirectDest (before ++ ((front ++ 62 :: target) ++ 0 :: behind)) before.length =
        (if 62 ∈ stripEnd isspace target then
          ⟨before ++ (front ++ 0 :: (stripEnd isspace target ++ 0 :: (junk ++ behind))), true, none⟩
        else parseDest (before ++ (front ++ 0 :: (stripEnd isspace target ++
          0 :: (junk ++ behind)))) (before.length + front.length)) ∧
      (stripEnd isspace target).length + junk.length = target.length ∧ junk.getLastD 0 = 0 := by
  obtain ⟨junk, trimmed, length, closed⟩ :=
    trim_placed before (front ++ 62 :: target) behind (stops_at_sign _ _ _) clean
  have kept : stripEnd isspace (front ++ 62 :: target) = front ++ 62 :: stripEnd isspace target :=
    stripEnd_append_cons front (by decide) target
  -- The trimmed line begins at the first word, and that is before the divider.
  obtain ⟨first, more, split, solid⟩ := Splitting.takeWhile_split isspace front word
  have lead : (front ++ 62 :: target).takeWhile isspace = front.takeWhile isspace := by
    rw [split, List.append_assoc, List.cons_append]
    rw [Splitting.takeWhile_append_stop, Splitting.takeWhile_append_stop]
    · simp [solid]
    · simp [solid]
  generalize List.takeWhile isspace front = spaces at split lead
  subst split
  have starts : (62 : UInt8) ∉ first :: more := fun sign => absent (List.mem_append_right _ sign)
  have firstByte : charAt ((before ++ spaces) ++
      (((first :: more) ++ 62 :: stripEnd isspace target) ++ 0 :: (junk ++ behind)))
        (before ++ spaces).length ≠ 62 := by
    rw [List.cons_append, List.cons_append, charAt_start]
    rintro rfl
    exact starts List.mem_cons_self
  have cleanLine : (0 : UInt8) ∉ (first :: more) ++ 62 :: stripEnd isspace target := by
    intro zero
    rcases List.mem_append.mp zero with inWords | inTarget
    · exact clean (List.mem_append_left _ (List.mem_append_right _ inWords))
    · rcases List.mem_cons.mp inTarget with isSign | inTarget
      · simp at isSign
      · exact strippedTarget_clean clean inTarget
  have divider := strchr_first (before ++ spaces) (first :: more) (junk ++ behind) 62 starts
    (stripEnd isspace target) cleanLine
  have memory : before ++ ((spaces ++ first :: more) ++ 62 :: stripEnd isspace target ++
      0 :: (junk ++ behind)) = (before ++ spaces) ++
        (((first :: more) ++ 62 :: stripEnd isspace target) ++ 0 :: (junk ++ behind)) := by
    simp
  have replaced : ((before ++ spaces) ++ (((first :: more) ++ 62 :: stripEnd isspace target) ++
      0 :: (junk ++ behind))).set ((before ++ spaces).length + (first :: more).length) 0 =
        before ++ ((spaces ++ first :: more) ++ 0 :: (stripEnd isspace target ++
          0 :: (junk ++ behind))) := by
    have placed := set_placed (before ++ spaces) (first :: more)
      (stripEnd isspace target ++ 0 :: (junk ++ behind)) 62 0
    rw [List.append_assoc (first :: more)]
    simpa using placed
  have again : (strchr (before ++ ((spaces ++ first :: more) ++ 0 :: (stripEnd isspace target ++
      0 :: (junk ++ behind)))) ((before ++ spaces).length + (first :: more).length + 1) 62).isSome =
        decide (62 ∈ stripEnd isspace target) := by
    have found := textFrom_placed (before ++ ((spaces ++ first :: more) ++ [0]))
      (stripEnd isspace target) (junk ++ behind) (strippedTarget_clean clean)
    have place : (before ++ ((spaces ++ first :: more) ++ [0])).length =
        (before ++ spaces).length + (first :: more).length + 1 := by
      simp only [List.length_append, List.length_cons, List.length_nil]
      omega
    rw [place, List.append_assoc, List.append_assoc, List.singleton_append] at found
    by_cases second : 62 ∈ stripEnd isspace target
    · simp only [strchr, found, second, decide_true, ↓reduceIte, Option.isSome_some]
    · simp only [strchr, found, second, decide_false, ↓reduceIte, Option.isSome_none]
  refine ⟨junk, ?_, ?_, closed⟩
  · rw [parseRedirectDest, cutRedirect, trimmed, lead, kept, memory, ← List.length_append]
    simp only [firstByte, ↓reduceIte, divider]
    rw [replaced, again]
    by_cases second : 62 ∈ stripEnd isspace target
    · simp [second]
    · simp [second, Nat.add_assoc]
  · rw [kept] at length
    simp only [List.length_append, List.length_cons] at length
    omega

/-- A text behind the divider that cannot be a target: it has another `>`, or it is
blank, or it has white space inside. -/
def BadTarget (text : List UInt8) : Prop :=
  62 ∈ text ∨ strip isspace text = [] ∨ ∃ byte ∈ strip isspace text, isspace byte = true

/-- A destination that is no single word is refused. -/
theorem parseDest_rejected (divider : Nat) (isBefore : before.length = divider + 1)
    (guarded : Guarded before) (text : List UInt8) (clean : (0 : UInt8) ∉ text)
    (bad : strip isspace text = [] ∨ ∃ byte ∈ strip isspace text, isspace byte = true) :
    ∃ memory, parseDest (before ++ (text ++ 0 :: behind)) divider = ⟨memory, true, none⟩ ∧
      Framed before behind (text.length + 1) memory := by
  obtain ⟨junk, trimmed, length, closed⟩ := trim_placed before text behind (Or.inl guarded) clean
  obtain ⟨skipped, rest, moved, pointer⟩ := trim_points before text behind (Or.inl guarded) clean
  have cleanStrip : (0 : UInt8) ∉ strip isspace text := fun zero => clean (strip_subset text zero)
  have empty := charAt_start_eq_zero_iff skipped (strip isspace text) rest cleanStrip
  have found := textFrom_placed skipped (strip isspace text) rest cleanStrip
  refine ⟨_, ?_, framed_intro before (stripEnd isspace text) junk behind _ (by omega) closed⟩
  rw [parseDest, ← isBefore]
  simp only [moved, pointer, empty, found]
  rw [← moved, trimmed]
  rcases bad with blank | inner
  · rw [if_pos blank]
  · split
    · rfl
    · rw [if_pos (by simpa using inner)]

/-- A destination that is a single word is accepted. -/
theorem parseDest_accepted (divider : Nat) (isBefore : before.length = divider + 1)
    (guarded : Guarded before) (text : List UInt8) (clean : (0 : UInt8) ∉ text)
    (nonempty : strip isspace text ≠ [])
    (solid : ¬ ∃ byte ∈ strip isspace text, isspace byte = true) :
    ∃ junk, parseDest (before ++ (text ++ 0 :: behind)) divider =
        ⟨before ++ (stripEnd isspace text ++ 0 :: (junk ++ behind)), false,
          some (before.length + (text.takeWhile isspace).length)⟩ ∧
      (stripEnd isspace text).length + junk.length = text.length ∧ junk.getLastD 0 = 0 := by
  obtain ⟨junk, trimmed, length, closed⟩ := trim_placed before text behind (Or.inl guarded) clean
  obtain ⟨skipped, rest, moved, pointer⟩ := trim_points before text behind (Or.inl guarded) clean
  have cleanStrip : (0 : UInt8) ∉ strip isspace text := fun zero => clean (strip_subset text zero)
  have empty := charAt_start_eq_zero_iff skipped (strip isspace text) rest cleanStrip
  have found := textFrom_placed skipped (strip isspace text) rest cleanStrip
  refine ⟨junk, ?_, length, closed⟩
  rw [parseDest, ← isBefore]
  simp only [↓reduceIte, moved, pointer, empty, found, nonempty]
  rw [if_neg (by simpa using solid), ← moved, ← pointer, trimmed]

/-- With a word before `>` and no target behind it, there is an error. -/
theorem parseRedirectDest_rejected (front target : List UInt8)
    (clean : (0 : UInt8) ∉ front ++ 62 :: target) (absent : (62 : UInt8) ∉ front)
    (word : ∃ byte ∈ front, isspace byte = false) (bad : BadTarget (stripEnd isspace target)) :
    ∃ memory, parseRedirectDest (before ++ ((front ++ 62 :: target) ++ 0 :: behind)) before.length =
        ⟨memory, true, none⟩ ∧
      Framed before behind ((front ++ 62 :: target).length + 1) memory := by
  obtain ⟨junk, divided, length, closed⟩ :=
    parseRedirectDest_divided before behind front target clean absent word
  have size : (front ++ [0]).length + ((stripEnd isspace target).length + 1) + junk.length =
      (front ++ 62 :: target).length + 1 := by
    simp only [List.length_append, List.length_cons, List.length_nil]
    omega
  rw [divided, ← size]
  by_cases second : 62 ∈ stripEnd isspace target
  · rw [if_pos second]
    have framed := framed_intro (before ++ (front ++ [0])) (stripEnd isspace target) []
      (junk ++ behind) _ rfl rfl
    exact ⟨_, rfl, by simpa using framed.outer closed⟩
  · obtain ⟨memory, rejected, framed⟩ := parseDest_rejected (before ++ (front ++ [0]))
      (junk ++ behind) (before.length + front.length) (by simp [Nat.add_assoc])
      (by rw [← List.append_assoc]; exact guarded_concat (by decide) _) (stripEnd isspace target)
      (strippedTarget_clean clean) (bad.resolve_left second)
    refine ⟨memory, ?_, framed.outer closed⟩
    rw [if_neg second, ← rejected]
    simp

/-- With a word before `>` and a target behind it, both stay in memory, each with a NUL
behind it. -/
theorem parseRedirectDest_accepted (front target : List UInt8)
    (clean : (0 : UInt8) ∉ front ++ 62 :: target) (absent : (62 : UInt8) ∉ front)
    (word : ∃ byte ∈ front, isspace byte = false) (good : ¬ BadTarget (stripEnd isspace target)) :
    ∃ junk, parseRedirectDest (before ++ ((front ++ 62 :: target) ++ 0 :: behind)) before.length =
        ⟨before ++ (front ++ 0 :: (stripEnd isspace target ++ 0 :: (junk ++ behind))), false,
          some (before.length + front.length + 1 +
            ((stripEnd isspace target).takeWhile isspace).length)⟩ ∧
      (stripEnd isspace target).length + junk.length = target.length ∧ junk.getLastD 0 = 0 := by
  obtain ⟨junk, divided, length, closed⟩ :=
    parseRedirectDest_divided before behind front target clean absent word
  simp only [BadTarget, not_or] at good
  obtain ⟨only, nonempty, solid⟩ := good
  obtain ⟨more, accepted, moreLength, _⟩ := parseDest_accepted (before ++ (front ++ [0]))
    (junk ++ behind) (before.length + front.length) (by simp [Nat.add_assoc])
    (by rw [← List.append_assoc]; exact guarded_concat (by decide) _) (stripEnd isspace target)
    (strippedTarget_clean clean) nonempty solid
  -- The target was trimmed with the line, so trimming it again removes nothing.
  rw [stripEnd_stripEnd] at accepted moreLength
  obtain rfl : more = [] := List.length_eq_zero_iff.mp (by omega)
  refine ⟨junk, ?_, length, closed⟩
  rw [divided, if_neg only]
  simpa [Nat.add_assoc] using accepted

end Redirect

end OsLabwork.Shell
