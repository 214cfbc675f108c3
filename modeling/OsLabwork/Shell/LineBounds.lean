import OsLabwork.Shell.BatchFile
import OsLabwork.Shell.Segments

/-!
# Which bytes of the buffer are touched

`main` and `trim` index the buffer that `getline` has filled. Forward they stop at the
NUL behind the line, at the latest. Backward nothing stops them but a byte that is not
white space: `main` looks at the byte before the end of the line even if the line is
empty, and `trim` goes back over white space.

Before every segment but the first there is the NUL that has replaced an `&`, and before
the name of a file the NUL that has replaced the `>`. So the buffer is left exactly for
lines that begin with NUL and for lines whose first segment consists of white space.
-/

namespace OsLabwork.Shell

open CMemory

variable {W : Type}

/-- Where the text begins that `trim` keeps. -/
def trimStart (memory : List UInt8) (str : Nat) : Nat :=
  str + ((memory.drop str).takeWhile isspace).length

/-- Where `trim` finds the end of the string. -/
def trimStop (memory : List UInt8) (str : Nat) : Nat :=
  trimStart memory str + strlen memory (trimStart memory str)

/-- How many bytes of white space `trim` finds before the end of the string. -/
def trimBack (memory : List UInt8) (str : Nat) : Nat :=
  ((memory.take (trimStop memory str)).reverse.takeWhile isspace).length

/-- `trim` in its three parts. -/
theorem trim_eq (memory : List UInt8) (str : Nat) :
    trim memory str =
      (memory.set (trimStop memory str - trimBack memory str) 0, trimStart memory str) := rfl

/-- The places from one to another, both included. -/
def through (first last : Nat) : List Int :=
  (List.range' first (last + 1 - first)).map Int.ofNat

/-- The bytes from one place to another. -/
theorem mem_through {first last : Nat} {index : Int} (member : index ∈ through first last) :
    (first : Int) ≤ index ∧ index ≤ last := by
  obtain ⟨place, inRange, rfl⟩ := List.mem_map.mp member
  rw [List.mem_range'_1] at inRange
  simp only [Int.ofNat_eq_natCast]
  omega

/-- The places that `trim` reads or writes: forward over white space, forward to the NUL,
backward over white space up to a byte that is none, and where it puts its NUL. -/
def trimTouches (memory : List UInt8) (str : Nat) : List Int :=
  through str (trimStart memory str) ++ through (trimStart memory str) (trimStop memory str) ++
    (List.range (trimBack memory str + 1)).map
      (fun steps : Nat => (trimStop memory str : Int) - 1 - steps) ++
    [(trimStop memory str : Int) - trimBack memory str]

/-- The calls of `trim` in `parse_redirect_dest`: the memory they find and their argument. -/
def trimCalls (memory : List UInt8) (cmdLine : Nat) : List (List UInt8 × Nat) :=
  (memory, cmdLine) ::
    match cutRedirect memory cmdLine with
    | (cut, .divided divider) => [(cut, divider + 1)]
    | _ => []

/-- The places that `main` reads or writes before it calls `exec_parallel_cmd`. The length
of an empty line minus one wraps around, and so does the place. -/
def mainTouches (memory : List UInt8) (cmdLine : Nat) : List Int :=
  through cmdLine (cmdLine + strlen memory cmdLine) ++
    [(cmdLine : Int) + strlen memory cmdLine - 1]

/-- The places that `main` and the calls of `trim` touch while a line is handled. -/
def lineTouches (host : Host W) (line : List InputByte) (state : State W) : List Int :=
  let buffer := lineBuffer host state.world line
  mainTouches buffer.1 buffer.2 ++
    (reachedCalls host.kernel (lineCalls host state.world line) state).flatMap fun call =>
      (trimCalls call.memory call.cmdLine).flatMap fun argument =>
        trimTouches argument.1 argument.2

/-- The places lie between two others. -/
def LieWithin (lower upper : Nat) (places : List Int) : Prop :=
  ∀ place ∈ places, (lower : Int) ≤ place ∧ place ≤ upper

section Trim

variable {memory : List UInt8} {str lower upper : Nat}

/-- Reading backward stops at the latest at a byte that is no white space. -/
theorem trimBack_le {guard : Nat} (solid : isspace (charAt memory guard) = false)
    (before : guard < trimStop memory str) (inside : trimStop memory str ≤ memory.length) :
    trimBack memory str + guard < trimStop memory str := by
  have found : (memory.take (trimStop memory str)).reverse[trimStop memory str - 1 - guard]? =
      some (charAt memory guard) := by
    have length : (memory.take (trimStop memory str)).length = trimStop memory str := by
      rw [List.length_take]
      omega
    rw [List.getElem?_reverse (by omega), length, List.getElem?_take_of_lt (by omega),
      ← charAt_eq_getElem? (by omega)]
    congr 1
    omega
  have bound := Splitting.length_takeWhile_le found solid
  rw [trimBack]
  omega

/-- `trim` stays between the lower end and the NUL at the upper end if there is a byte
that is no white space between the lower end and the end of the string. -/
theorem trimTouches_within (terminated : TerminatedAt memory upper) (aboveLower : lower ≤ str)
    (belowUpper : str ≤ upper) {guard : Nat} (aboveGuard : lower ≤ guard)
    (belowStop : guard < trimStop memory str) (solid : isspace (charAt memory guard) = false) :
    LieWithin lower upper (trimTouches memory str) := by
  have inside := terminated.inside
  have aboveStart : str ≤ trimStart memory str := Nat.le_add_right _ _
  have startBelow : trimStart memory str ≤ upper :=
    takeWhile_before inside (by rw [terminated.zero]; decide) belowUpper
  have startStop : trimStart memory str ≤ trimStop memory str := Nat.le_add_right _ _
  have stopBelow : trimStop memory str ≤ upper := terminated.strlen_le startBelow
  have back := trimBack_le solid belowStop (by omega)
  intro place touched
  simp only [trimTouches, List.mem_append, List.mem_singleton] at touched
  rcases touched with ((skipped | measured) | backward) | stored
  · have range := mem_through skipped
    omega
  · have range := mem_through measured
    omega
  · obtain ⟨steps, fewer, rfl⟩ := List.mem_map.mp backward
    rw [List.mem_range] at fewer
    omega
  · omega

/-- For a second call of `trim`, a NUL was put in place of the first `>`. -/
theorem cutRedirect_divided {cut : List UInt8} {divider : Nat}
    (divided : cutRedirect memory str = (cut, .divided divider)) :
    strchr (trim memory str).1 (trim memory str).2 62 = some divider ∧
      cut = (trim memory str).1.set divider 0 := by
  simp only [cutRedirect] at divided
  split at divided
  · simp at divided
  · split at divided
    · simp at divided
    · next found =>
      split at divided
      · simp at divided
      · obtain ⟨isCut, isDivider⟩ := Prod.mk.inj divided
        obtain rfl := Cut.divided.inj isDivider
        exact ⟨found, isCut.symm⟩

/-- `parse_redirect_dest` trims within the bounds if its first call of `trim` does. -/
theorem trimCalls_within (terminated : TerminatedAt memory upper) (aboveLower : lower ≤ str)
    (belowUpper : str ≤ upper) {guard : Nat} (aboveGuard : lower ≤ guard)
    (belowStop : guard < trimStop memory str) (solid : isspace (charAt memory guard) = false) :
    LieWithin lower upper ((trimCalls memory str).flatMap fun argument =>
      trimTouches argument.1 argument.2) := by
  have first := trimTouches_within terminated aboveLower belowUpper aboveGuard belowStop solid
  have trimmed := (erased_trim memory str).terminatedAt terminated
  have aboveStart : str ≤ (trim memory str).2 := Nat.le_add_right _ _
  have startBelow : (trim memory str).2 ≤ upper :=
    takeWhile_before terminated.inside (by rw [terminated.zero]; decide) belowUpper
  simp only [trimCalls, List.flatMap_cons]
  intro place touched
  rcases List.mem_append.mp touched with inFirst | inSecond
  · exact first place inFirst
  · split at inSecond
    · next cut divider divided =>
      obtain ⟨found, rfl⟩ := cutRedirect_divided divided
      have bounds := strchr_within found
      have length := trimmed.strlen_le startBelow
      have cut := (erased_set (trim memory str).1 divider).terminatedAt trimmed
      rw [List.flatMap_singleton] at inSecond
      -- The scan stops at the NUL that has replaced the divider.
      have zero : charAt ((trim memory str).1.set divider 0) divider = 0 := by
        rw [charAt_set_zero, if_pos rfl]
      have behind : divider < trimStop ((trim memory str).1.set divider 0) (divider + 1) := by
        rw [trimStop, trimStart]
        omega
      exact trimTouches_within cut (by omega) (by omega) (by omega) behind
        (by rw [zero]; decide) place inSecond
    · simp at inSecond

end Trim

section FirstSegment

variable (front text behind : List UInt8)

/-- `trim` skips the white space in front. -/
theorem trimStart_placed :
    trimStart (front ++ (text ++ 0 :: behind)) front.length =
      front.length + (text.takeWhile isspace).length := by
  rw [trimStart, List.drop_left, Splitting.takeWhile_append_stop]
  intro byte isFirst
  obtain rfl : 0 = byte := by simpa using isFirst
  decide

/-- In a string that does not consist of white space, the first other byte stops the scan
backward. -/
theorem trim_stops_in_text (clean : (0 : UInt8) ∉ text)
    (solid : ∃ byte ∈ text, isspace byte = false) :
    ∃ guard, front.length ≤ guard ∧
      guard < trimStop (front ++ (text ++ 0 :: behind)) front.length ∧
      isspace (charAt (front ++ (text ++ 0 :: behind)) guard) = false := by
  have start := trimStart_placed front text behind
  obtain ⟨byte, rest, split, isSolid⟩ := Splitting.takeWhile_split isspace text solid
  have nonzero : byte ≠ 0 := by
    rintro rfl
    apply clean
    rw [split]
    simp
  have found : charAt (front ++ (text ++ 0 :: behind))
      (front.length + (text.takeWhile isspace).length) = byte := by
    have placed := charAt_placed front (text.takeWhile isspace) (rest ++ 0 :: behind) byte
    rwa [← List.cons_append, ← List.append_assoc (text.takeWhile isspace), ← split] at placed
  refine ⟨front.length + (text.takeWhile isspace).length, Nat.le_add_right _ _, ?_, ?_⟩
  · have length := strlen_pos (found.symm ▸ nonzero)
    rw [trimStop, start]
    omega
  · rw [found]
    exact isSolid

/-- In a string of white space, the scan goes on to the byte before the string. -/
theorem trim_leaves_blank_text (blank : ∀ byte ∈ text, isspace byte = true) :
    (front.length : Int) - 1 ∈ trimTouches (front ++ (text ++ 0 :: behind)) front.length := by
  have start : trimStart (front ++ (text ++ 0 :: behind)) front.length =
      front.length + text.length := by
    rw [trimStart_placed, List.takeWhile_eq_self_iff.mpr blank]
  have stop : trimStop (front ++ (text ++ 0 :: behind)) front.length =
      front.length + text.length := by
    rw [trimStop, start, strlen_eq_zero (charAt_placed front text behind 0), Nat.add_zero]
  have back : text.length ≤ trimBack (front ++ (text ++ 0 :: behind)) front.length := by
    rw [trimBack, stop, ← List.append_assoc, ← List.length_append, List.take_left,
      List.reverse_append, List.takeWhile_append_of_pos (by simpa using blank),
      List.length_append, List.length_reverse]
    exact Nat.le_add_right _ _
  simp only [trimTouches, List.mem_append]
  refine Or.inl (Or.inr (List.mem_map.mpr ⟨text.length, List.mem_range.mpr (by omega), ?_⟩))
  rw [stop]
  omega

end FirstSegment

/-- A call with a NUL before its argument, in a buffer that still ends with a NUL. -/
structure Sheltered (lower upper : Nat) (call : SegmentCall) : Prop where
  terminated : TerminatedAt call.memory upper
  above : lower < call.cmdLine
  below : call.cmdLine ≤ upper
  zero : charAt call.memory (call.cmdLine - 1) = 0

/-- `trim` does not leave the line at a sheltered segment. -/
theorem Sheltered.within {lower upper : Nat} {call : SegmentCall}
    (sheltered : Sheltered lower upper call) :
    LieWithin lower upper ((trimCalls call.memory call.cmdLine).flatMap fun argument =>
      trimTouches argument.1 argument.2) := by
  have above := sheltered.above
  have behind : call.cmdLine - 1 < trimStop call.memory call.cmdLine := by
    rw [trimStop, trimStart]
    omega
  exact trimCalls_within sheltered.terminated (by omega) sheltered.below (by omega) behind
    (by rw [sheltered.zero]; decide)

section Calls

variable {lower upper : Nat}

/-- What `strsep` and reading the token leave: the rest of the line is sheltered by the NUL
that has replaced the `&`. -/
theorem rest_sheltered {memory : List UInt8} {token rest : Nat}
    (terminated : TerminatedAt memory upper) (below : token ≤ upper)
    (more : (strsep [38] memory token).2 = some rest) :
    token < rest ∧ rest ≤ upper ∧ charAt (strsep [38] memory token).1 (rest - 1) = 0 := by
  have advances := strsep_advances more
  have cut := (strsep_cuts more).1
  refine ⟨advances.1, ?_, cut⟩
  simp only [strsep] at more
  split at more
  · simp at more
  · next delimited =>
    have stop : token + ((memory.drop token).takeWhile
        (fun byte => byte ≠ 0 && !([38] : List UInt8).contains byte)).length ≤ upper :=
      takeWhile_before terminated.inside (by simp [terminated.zero]) below
    have notUpper : token + ((memory.drop token).takeWhile
        (fun byte => byte ≠ 0 && !([38] : List UInt8).contains byte)).length ≠ upper := by
      intro same
      rw [same] at delimited
      exact delimited terminated.zero
    rw [Option.some.injEq] at more
    omega

/-- From a sheltered token on, every call is sheltered. -/
theorem segmentCalls_sheltered (fuel : Nat) (memory : List UInt8) (token : Nat)
    (terminated : TerminatedAt memory upper) (above : lower < token) (below : token ≤ upper)
    (zero : charAt memory (token - 1) = 0) :
    ∀ call ∈ segmentCalls fuel memory token, Sheltered lower upper call := by
  induction fuel generalizing memory token with
  | zero => simp [segmentCalls]
  | succ fuel inductionHypothesis =>
    have erased := erased_strsep [38] memory token
    intro call member
    rcases mem_segmentCalls member with ⟨rfl, _⟩ | ⟨rest, next, more, nextErased, later⟩
    · exact ⟨erased.terminatedAt terminated, above, below, erased.zero zero⟩
    · obtain ⟨advances, restBelow, cut⟩ := rest_sheltered terminated below more
      exact inductionHypothesis next rest ((erased.trans nextErased).terminatedAt terminated)
        (by omega) restBelow (nextErased.zero cut) call later

/-- Every call for a line is the one for its first token, or sheltered. -/
theorem segmentCalls_first_or_sheltered (fuel : Nat) (memory : List UInt8) (token : Nat)
    (terminated : TerminatedAt memory upper) (below : token ≤ upper) :
    ∀ call ∈ segmentCalls fuel memory token,
      (call = ⟨(strsep [38] memory token).1, token⟩ ∧
        charAt (strsep [38] memory token).1 token ≠ 0) ∨ Sheltered token upper call := by
  cases fuel with
  | zero => simp [segmentCalls]
  | succ fuel =>
    intro call member
    rcases mem_segmentCalls member with isFirst | ⟨rest, next, more, nextErased, later⟩
    · exact Or.inl isFirst
    · obtain ⟨advances, restBelow, cut⟩ := rest_sheltered terminated below more
      have erased := (erased_strsep [38] memory token).trans nextErased
      right
      exact segmentCalls_sheltered fuel next rest (erased.terminatedAt terminated) advances
        restBelow (nextErased.zero cut) call later

end Calls

/-- The bytes up to the first `&` or NUL. -/
def firstToken (memory : List UInt8) (token : Nat) : List UInt8 :=
  (memory.drop token).takeWhile (fun byte => byte ≠ 0 && !([38] : List UInt8).contains byte)

/-- The first token has no zero byte. -/
theorem firstToken_clean (memory : List UInt8) (token : Nat) :
    (0 : UInt8) ∉ firstToken memory token := by
  intro member
  simpa using List.mem_takeWhile_imp member

/-- The calls of `trim` stay behind the beginning of the line and before its end unless the
first token consists of white space. -/
theorem calls_within_iff (kernel : Kernel W) (fuel : Nat) (memory : List UInt8)
    (token upper : Nat) (state : State W) (terminated : TerminatedAt memory upper)
    (below : token ≤ upper) :
    LieWithin token upper ((reachedCalls kernel (segmentCalls (fuel + 1) memory token)
        state).flatMap fun call => (trimCalls call.memory call.cmdLine).flatMap fun argument =>
          trimTouches argument.1 argument.2) ↔
      ¬ (firstToken memory token ≠ [] ∧
        ∀ byte ∈ firstToken memory token, isspace byte = true) := by
  obtain ⟨front, behind, atToken, cut⟩ := strsep_token [38] terminated below
  have clean := firstToken_clean memory token
  have empty := charAt_start_eq_zero_iff front (firstToken memory token) behind clean
  rw [atToken] at empty
  constructor
  · rintro within ⟨nonempty, blank⟩
    have leaves := trim_leaves_blank_text front (firstToken memory token) behind blank
    rw [atToken] at leaves
    obtain ⟨later, calls⟩ := segmentCalls_head fuel memory token (by
      rw [cut]
      exact fun zero => nonempty (empty.mp zero))
    have outside := within ((token : Int) - 1) (by
      rw [calls, reachedCalls, List.flatMap_cons, List.mem_append]
      left
      rw [trimCalls, List.flatMap_cons, List.mem_append]
      left
      rw [cut]
      exact leaves)
    omega
  · intro notBlank place touched
    obtain ⟨call, reached, inCall⟩ := List.mem_flatMap.mp touched
    have member := (reachedCalls_initial kernel _ state).subset reached
    rcases segmentCalls_first_or_sheltered (fuel + 1) memory token terminated below call member
      with ⟨rfl, nonzero⟩ | sheltered
    · have nonempty : firstToken memory token ≠ [] := by
        intro isEmpty
        apply nonzero
        rw [cut]
        exact empty.mpr isEmpty
      have solid : ∃ byte ∈ firstToken memory token, isspace byte = false := by
        by_contra none
        apply notBlank
        refine ⟨nonempty, fun byte inToken => ?_⟩
        by_contra notSpace
        exact none ⟨byte, inToken, by simpa using notSpace⟩
      obtain ⟨guard, aboveGuard, belowStop, isSolid⟩ :=
        trim_stops_in_text front (firstToken memory token) behind clean solid
      have cutTerminated := (erased_strsep [38] memory token).terminatedAt terminated
      rw [atToken] at aboveGuard belowStop
      rw [cut] at inCall cutTerminated
      exact trimCalls_within cutTerminated (Nat.le_refl token) below aboveGuard belowStop isSolid
        place inCall
    · exact sheltered.within place inCall

/-- The first segment of a line. -/
def firstSegment (bytes : List UInt8) : List UInt8 :=
  (lineText bytes).bytes.takeWhile (fun byte => byte ≠ 38)

/-- It is the first segment of the line. -/
theorem firstToken_line (host : Host W) (world : W) (line : List InputByte) :
    firstToken (cmdLine host world line).1 (cmdLine host world line).2 =
      firstSegment (line.map Prod.fst) := by
  have passed : stringAt (cmdLine host world line).1 (cmdLine host world line).2 =
      lineText (line.map Prod.fst) := congrArg Passed.text (passLine_text host world line)
  rw [firstSegment, ← passed, stringAt, CString.leading, List.takeWhile_takeWhile, firstToken]
  congr 1
  funext byte
  simp [Bool.and_comm]

/-- Cutting the line at its end erases one byte at most. -/
theorem erased_cutLast (memory : List UInt8) (cmdLine : Nat) :
    Erased memory (cutLast memory cmdLine) := by
  rw [cutLast]
  split
  · exact erased_set memory _
  · exact Erased.refl memory

/-- The line ends with a zero byte. -/
theorem lineBuffer_terminated (host : Host W) (world : W) (line : List InputByte) :
    TerminatedAt (lineBuffer host world line).1 ((lineBuffer host world line).2 + line.length) := by
  have stored := charAt_placed (host.around world (line.map Prod.fst)).1 (line.map Prod.fst)
    (host.around world (line.map Prod.fst)).2 0
  rw [List.length_map] at stored
  constructor
  · simp only [lineBuffer, List.length_append, List.length_map, List.length_cons]
    omega
  · exact stored

/-- `main` stays within the line unless the line is empty or begins with NUL. -/
theorem mainTouches_within_iff (host : Host W) (world : W) (line : List InputByte) :
    LieWithin (lineBuffer host world line).2 ((lineBuffer host world line).2 + line.length)
        (mainTouches (lineBuffer host world line).1 (lineBuffer host world line).2) ↔
      charAt (lineBuffer host world line).1 (lineBuffer host world line).2 ≠ 0 := by
  have length := (lineBuffer_terminated host world line).strlen_le (Nat.le_add_right _ _)
  constructor
  · intro within zero
    have outside := within _ (List.mem_append_right _ (List.mem_singleton.mpr rfl))
    rw [strlen_eq_zero zero] at outside
    omega
  · intro nonzero place touched
    have positive := strlen_pos nonzero
    rcases List.mem_append.mp touched with measured | last
    · have range := mem_through measured
      omega
    · rw [List.mem_singleton.mp last]
      omega

/-- For every line that is read and in every state of the shell, all places of memory that
`main` and the calls of `trim` touch lie between the first byte of the line and the NUL
behind it, exactly when the line does not begin with NUL and its first segment is not made
of white space. -/
theorem line_is_not_left_iff (host : Host W) (line : List InputByte) (state : State W) :
    LieWithin (lineBuffer host state.world line).2
        ((lineBuffer host state.world line).2 + line.length) (lineTouches host line state) ↔
      (∃ first, (line.map Prod.fst).head? = some first ∧ first ≠ 0) ∧
        ¬ (firstSegment (line.map Prod.fst) ≠ [] ∧
          ∀ byte ∈ firstSegment (line.map Prod.fst), isspace byte = true) := by
  have terminated := (erased_cutLast _ (lineBuffer host state.world line).2).terminatedAt
    (lineBuffer_terminated host state.world line)
  have calls := calls_within_iff host.kernel ((cmdLine host state.world line).1.length + 1)
    (cmdLine host state.world line).1 (cmdLine host state.world line).2 _ state terminated
    (Nat.le_add_right _ _)
  have begins : charAt (lineBuffer host state.world line).1 (lineBuffer host state.world line).2
      ≠ 0 ↔ ∃ first, (line.map Prod.fst).head? = some first ∧ first ≠ 0 := by
    rw [lineBuffer]
    cases line.map Prod.fst with
    | nil => simp [charAt_start]
    | cons first rest => simp [charAt_start]
  rw [← firstToken_line host state.world line, ← calls, ← begins, ← mainTouches_within_iff]
  simp only [LieWithin, lineTouches, List.mem_append]
  constructor
  · intro within
    exact ⟨fun place touched => within place (Or.inl touched),
      fun place touched => within place (Or.inr touched)⟩
  · rintro ⟨main, trims⟩ place (touched | touched)
    · exact main place touched
    · exact trims place touched

/-- For a line of two blanks, the byte before the line is read. -/
theorem blank_line_is_left :
    ((lineBuffer obligingHost () (ascii "  \n").zipIdx).2 : Int) - 1 ∈
      lineTouches obligingHost (ascii "  \n").zipIdx (startState obligingHost ()) := by
  decide +kernel

end OsLabwork.Shell
