import OsLabwork.Library.CText
import OsLabwork.Library.Splitting

/-!
# Strings in memory

Memory is a sequence of bytes and a pointer is a position in it. The string at a
pointer extends to the next NUL. `strchr` finds a byte in it; `strsep` overwrites the
first delimiter in it with NUL and returns the position behind, or no position when
it has reached the end of the string. Beyond the modelled bytes there is only NUL.
`strcat` writes into a block that ends where the modelled bytes end.

The laws are stated for a text placed in memory: something before the pointer, the
text, a NUL, and something behind.
-/

namespace OsLabwork.CMemory

/-- `*pointer`. -/
def charAt (memory : List UInt8) (pointer : Nat) : UInt8 := memory.getD pointer 0

/-- The bytes from a pointer up to the next NUL. -/
def textFrom (memory : List UInt8) (pointer : Nat) : List UInt8 :=
  (memory.drop pointer).takeWhile (fun byte => byte ≠ 0)

/-- The string at a pointer. -/
def stringAt (memory : List UInt8) (pointer : Nat) : CString :=
  CString.leading (memory.drop pointer)

/-- `strlen`. -/
def strlen (memory : List UInt8) (pointer : Nat) : Nat := (textFrom memory pointer).length

/-- The first position of a byte in the string at a pointer. -/
def strchr (memory : List UInt8) (pointer : Nat) (byte : UInt8) : Option Nat :=
  if byte ∈ textFrom memory pointer then
    some (pointer + ((textFrom memory pointer).takeWhile (fun other => other ≠ byte)).length)
  else none

/-- The memory afterwards and the new value of the pointer variable, `none` for NULL;
the token starts where the pointer was. -/
def strsep (delimiters : List UInt8) (memory : List UInt8) (pointer : Nat) :
    List UInt8 × Option Nat :=
  let stop := pointer + ((memory.drop pointer).takeWhile
    (fun byte => byte ≠ 0 && !delimiters.contains byte)).length
  if charAt memory stop = 0 then (memory, none) else (memory.set stop 0, some (stop + 1))

/-- `strcat` on a block of its own: the block afterwards, if the string and its NUL fit
behind the string that is there. -/
def strcat (block : List UInt8) (source : CString) : Option (List UInt8) :=
  let stop := strlen block 0
  if stop + source.bytes.length < block.length then
    some (block.take stop ++ (source.bytes ++ 0 :: block.drop (stop + source.bytes.length + 1)))
  else none

section Anywhere

variable {memory : List UInt8} {pointer : Nat}

/-- A byte other than NUL lies in the modelled memory. -/
theorem lt_length_of_charAt (nonzero : charAt memory pointer ≠ 0) : pointer < memory.length := by
  by_contra outside
  apply nonzero
  rw [charAt, List.getD_eq_getElem?_getD, List.getElem?_eq_none (Nat.le_of_not_lt outside),
    Option.getD_none]

/-- `strsep` does not move the memory. -/
theorem strsep_length (delimiters memory : List UInt8) (pointer : Nat) :
    (strsep delimiters memory pointer).1.length = memory.length := by
  simp only [strsep]
  split
  · rfl
  · exact List.length_set

/-- The pointer advances and stays within memory or right behind it. -/
theorem strsep_advances {delimiters : List UInt8} {next : Nat}
    (more : (strsep delimiters memory pointer).2 = some next) :
    pointer < next ∧ next ≤ memory.length := by
  simp only [strsep] at more
  split at more
  · simp at more
  · rename_i delimited
    have inside := lt_length_of_charAt delimited
    simp only [Option.some.injEq] at more
    omega

/-- Inside the memory a character is there. -/
theorem charAt_eq_getElem? (inside : pointer < memory.length) :
    memory[pointer]? = some (charAt memory pointer) := by
  rw [charAt, List.getD_eq_getElem?_getD, List.getElem?_eq_getElem inside, Option.getD_some]

/-- Reading forward stops at the latest where the property is missing. -/
theorem takeWhile_before {keep : UInt8 → Bool} {stop : Nat} (inside : stop < memory.length)
    (stops : keep (charAt memory stop) = false) (before : pointer ≤ stop) :
    pointer + ((memory.drop pointer).takeWhile keep).length ≤ stop := by
  have found : (memory.drop pointer)[stop - pointer]? = some (charAt memory stop) := by
    rw [List.getElem?_drop, Nat.add_sub_cancel' before, charAt_eq_getElem? inside]
  have bound := Splitting.length_takeWhile_le found stops
  omega

/-- The memory from a place on starts with the character there. -/
theorem drop_eq_charAt_cons (inside : pointer < memory.length) :
    memory.drop pointer = charAt memory pointer :: memory.drop (pointer + 1) := by
  have first := charAt_eq_getElem? inside
  rw [List.getElem?_eq_getElem inside, Option.some.injEq] at first
  rw [List.drop_eq_getElem_cons inside, first]

/-- Reading forward does not start where the property is missing. -/
theorem takeWhile_at_stop {keep : UInt8 → Bool} (stops : keep (charAt memory pointer) = false) :
    (memory.drop pointer).takeWhile keep = [] := by
  by_cases inside : pointer < memory.length
  · rw [drop_eq_charAt_cons inside, List.takeWhile_cons_of_neg (by simp [stops])]
  · rw [List.drop_eq_nil_of_le (Nat.le_of_not_lt inside), List.takeWhile_nil]

/-- Reading forward passes a byte that has the property. -/
theorem takeWhile_passes {keep : UInt8 → Bool} (inside : pointer < memory.length)
    (keeps : keep (charAt memory pointer) = true) :
    0 < ((memory.drop pointer).takeWhile keep).length := by
  rw [drop_eq_charAt_cons inside, List.takeWhile_cons_of_pos keeps]
  exact Nat.succ_pos _

/-- A string that starts with a character is not empty. -/
theorem strlen_pos (nonzero : charAt memory pointer ≠ 0) : 0 < strlen memory pointer :=
  takeWhile_passes (lt_length_of_charAt nonzero) (by simpa using nonzero)

/-- A string that starts with its end is empty. -/
theorem strlen_eq_zero (zero : charAt memory pointer = 0) : strlen memory pointer = 0 := by
  rw [strlen, textFrom, takeWhile_at_stop (by simpa using zero), List.length_nil]

/-- A byte that is found lies in the string. -/
theorem strchr_within {byte : UInt8} {place : Nat}
    (found : strchr memory pointer byte = some place) :
    pointer ≤ place ∧ place < pointer + strlen memory pointer := by
  rw [strchr] at found
  split at found
  · next member =>
    obtain ⟨stop, rest, split, _⟩ := Splitting.takeWhile_split (fun other => other ≠ byte)
      (textFrom memory pointer) ⟨byte, member, by simp⟩
    have lengths := congrArg List.length split
    rw [List.length_append, List.length_cons] at lengths
    rw [Option.some.injEq] at found
    rw [strlen]
    omega
  · simp at found

end Anywhere

/-- There is a NUL at this place in memory. -/
structure TerminatedAt (memory : List UInt8) (stop : Nat) : Prop where
  inside : stop < memory.length
  zero : charAt memory stop = 0

/-- A string ends at the first zero byte, if not before. -/
theorem TerminatedAt.strlen_le {memory : List UInt8} {stop pointer : Nat}
    (terminated : TerminatedAt memory stop) (before : pointer ≤ stop) :
    pointer + strlen memory pointer ≤ stop :=
  takeWhile_before terminated.inside (by simp [terminated.zero]) before

/-- Bytes have only been replaced by NUL. -/
structure Erased (memory after : List UInt8) : Prop where
  length : after.length = memory.length
  bytes : ∀ pointer, charAt after pointer = charAt memory pointer ∨ charAt after pointer = 0

section Erased

variable {memory after later : List UInt8}

/-- Nothing is erased. -/
theorem Erased.refl (memory : List UInt8) : Erased memory memory := ⟨rfl, fun _ => Or.inl rfl⟩

/-- What is erased stays erased. -/
theorem Erased.trans (first : Erased memory after) (second : Erased after later) :
    Erased memory later where
  length := second.length.trans first.length
  bytes pointer := by
    rcases second.bytes pointer with same | zero
    · rw [same]
      exact first.bytes pointer
    · exact Or.inr zero

/-- A NUL stays. -/
theorem Erased.zero (erased : Erased memory after) {pointer : Nat}
    (zero : charAt memory pointer = 0) : charAt after pointer = 0 := by
  rcases erased.bytes pointer with same | erasedHere
  · rw [same, zero]
  · exact erasedHere

/-- A zero byte is not lost. -/
theorem Erased.terminatedAt (erased : Erased memory after) {stop : Nat}
    (terminated : TerminatedAt memory stop) : TerminatedAt after stop where
  inside := by
    rw [erased.length]
    exact terminated.inside
  zero := erased.zero terminated.zero

/-- The characters after one was erased. -/
theorem charAt_set_zero (memory : List UInt8) (place pointer : Nat) :
    charAt (memory.set place 0) pointer = if place = pointer then 0 else charAt memory pointer := by
  simp only [charAt, List.getD_eq_getElem?_getD]
  split
  · next here =>
    subst here
    rw [List.getElem?_set]
    split
    · split <;> rfl
    · contradiction
  · next elsewhere => rw [List.getElem?_set_ne elsewhere]

/-- One character is erased. -/
theorem erased_set (memory : List UInt8) (place : Nat) : Erased memory (memory.set place 0) where
  length := List.length_set
  bytes pointer := by
    rw [charAt_set_zero]
    split
    · exact Or.inr rfl
    · exact Or.inl rfl

/-- `strsep` erases a delimiter, or nothing. -/
theorem erased_strsep (delimiters memory : List UInt8) (pointer : Nat) :
    Erased memory (strsep delimiters memory pointer).1 := by
  simp only [strsep]
  split
  · exact Erased.refl memory
  · exact erased_set memory _

/-- A token that is cut off is followed by a NUL, and the bytes before it are as they
were. -/
theorem strsep_cuts {delimiters : List UInt8} {pointer next : Nat}
    (more : (strsep delimiters memory pointer).2 = some next) :
    charAt (strsep delimiters memory pointer).1 (next - 1) = 0 ∧
      ∀ earlier, earlier + 1 < next →
        charAt (strsep delimiters memory pointer).1 earlier = charAt memory earlier := by
  simp only [strsep] at more ⊢
  split at more
  · simp at more
  · rename_i delimited
    rw [if_neg delimited]
    simp only [Option.some.injEq] at more
    rw [← more]
    constructor
    · rw [charAt_set_zero, if_pos (by omega)]
    · intro earlier before
      rw [charAt_set_zero, if_neg (by omega)]

/-- At the end of the string there is nothing to cut. -/
theorem strsep_at_end (delimiters : List UInt8) {pointer : Nat}
    (zero : charAt memory pointer = 0) : strsep delimiters memory pointer = (memory, none) := by
  have stop : (memory.drop pointer).takeWhile
      (fun byte => byte ≠ 0 && !delimiters.contains byte) = [] :=
    takeWhile_at_stop (by simp [zero])
  rw [strsep, stop]
  simp [zero]

/-- A delimiter at the pointer becomes NUL. -/
theorem strsep_at_delimiter {delimiters : List UInt8} {pointer : Nat}
    (delimits : delimiters.contains (charAt memory pointer) = true)
    (nonzero : charAt memory pointer ≠ 0) :
    strsep delimiters memory pointer = (memory.set pointer 0, some (pointer + 1)) := by
  have stop : (memory.drop pointer).takeWhile
      (fun byte => byte ≠ 0 && !delimiters.contains byte) = [] :=
    takeWhile_at_stop (by simp only [delimits, Bool.not_true, Bool.and_false])
  rw [strsep, stop]
  simp [nonzero]

/-- Another byte at the pointer stays. -/
theorem strsep_keeps_first {delimiters : List UInt8} {pointer : Nat}
    (plain : delimiters.contains (charAt memory pointer) = false)
    (nonzero : charAt memory pointer ≠ 0) :
    charAt (strsep delimiters memory pointer).1 pointer = charAt memory pointer := by
  have further : 0 < ((memory.drop pointer).takeWhile
      (fun byte => byte ≠ 0 && !delimiters.contains byte)).length := by
    apply takeWhile_passes (lt_length_of_charAt nonzero)
    simp only [plain, nonzero, ne_eq, not_false_eq_true, decide_true, Bool.not_false,
      Bool.and_self]
  simp only [strsep]
  split
  · rfl
  · rw [charAt_set_zero, if_neg (by omega)]

end Erased

section Placed

variable (before text behind : List UInt8)

/-- The character behind a text. -/
theorem charAt_placed (byte : UInt8) :
    charAt (before ++ (text ++ byte :: behind)) (before.length + text.length) = byte := by
  rw [charAt, List.getD_eq_getElem?_getD, List.getElem?_append_right (by omega)]
  simp

/-- The character at the start of a text. -/
theorem charAt_start (byte : UInt8) : charAt (before ++ byte :: behind) before.length = byte := by
  have first := charAt_placed before [] behind byte
  rwa [List.nil_append, List.length_nil, Nat.add_zero] at first

/-- Replacing the character behind a text. -/
theorem set_placed (old new : UInt8) :
    (before ++ (text ++ old :: behind)).set (before.length + text.length) new =
      before ++ (text ++ new :: behind) := by
  rw [List.set_append_right _ _ (by omega), Nat.add_sub_cancel_left,
    List.set_append_right _ _ (Nat.le_refl _), Nat.sub_self, List.set_cons_zero]

/-- What is kept of a text up to its end. -/
theorem takeWhile_placed (keep : UInt8 → Bool) (kept : ∀ byte ∈ text, keep byte = true)
    (stop : UInt8) (stops : keep stop = false) :
    (text ++ stop :: behind).takeWhile keep = text := by
  rw [List.takeWhile_append_of_pos kept, List.takeWhile_cons_of_neg (by simp [stops]),
    List.append_nil]

/-- A text without zero bytes is found where it is placed. -/
theorem textFrom_placed (clean : (0 : UInt8) ∉ text) :
    textFrom (before ++ (text ++ 0 :: behind)) before.length = text := by
  rw [textFrom, List.drop_left]
  apply takeWhile_placed text behind
  · rintro byte member
    simp only [ne_eq, decide_not, Bool.not_eq_eq_eq_not, Bool.not_true, decide_eq_false_iff_not]
    rintro rfl
    exact clean member
  · decide

/-- A text without NUL is read to its end. -/
theorem takeWhile_clean (clean : (0 : UInt8) ∉ text) :
    text.takeWhile (fun byte => byte ≠ 0) = text :=
  (Splitting.takeWhile_ne_eq_self_iff 0 text).mpr clean

/-- A text without zero bytes is a string. -/
theorem leading_eq_iff {text : List UInt8} (clean : (0 : UInt8) ∉ text) (string : CString) :
    CString.leading text = string ↔ text = string.bytes := by
  have whole : (CString.leading text).bytes = text := takeWhile_clean text clean
  constructor
  · rintro rfl
    exact whole.symm
  · intro same
    exact CString.ext (whole.trans same)

/-- It is the string at its place. -/
theorem stringAt_placed (clean : (0 : UInt8) ∉ text) :
    stringAt (before ++ (text ++ 0 :: behind)) before.length = CString.leading text := by
  have found := textFrom_placed before text behind clean
  apply CString.ext
  exact found.trans (takeWhile_clean text clean).symm

/-- The byte at a placed text tells whether the text is empty. -/
theorem charAt_start_eq_zero_iff (clean : (0 : UInt8) ∉ text) :
    charAt (before ++ (text ++ 0 :: behind)) before.length = 0 ↔ text = [] := by
  cases text with
  | nil => simp [charAt_start]
  | cons byte text =>
    rw [List.cons_append, charAt_start]
    constructor
    · rintro rfl
      exact absurd List.mem_cons_self clean
    · intro empty
      simp at empty

/-- A byte that does not occur in a placed text is not its first. -/
theorem charAt_start_ne {byte : UInt8} (nonzero : byte ≠ 0) (absent : byte ∉ text) :
    charAt (before ++ (text ++ 0 :: behind)) before.length ≠ byte := by
  cases text with
  | nil =>
    rw [List.nil_append, charAt_start]
    exact nonzero.symm
  | cons first text =>
    rw [List.cons_append, charAt_start]
    rintro rfl
    exact absent List.mem_cons_self

/-- `strchr` does not find a byte that is not there. -/
theorem strchr_absent (clean : (0 : UInt8) ∉ text) (byte : UInt8) (absent : byte ∉ text) :
    strchr (before ++ (text ++ 0 :: behind)) before.length byte = none := by
  rw [strchr, textFrom_placed before text behind clean, if_neg absent]

/-- `strchr` finds the first such byte. -/
theorem strchr_first (byte : UInt8) (absent : byte ∉ text) (later : List UInt8)
    (clean : (0 : UInt8) ∉ text ++ byte :: later) :
    strchr (before ++ ((text ++ byte :: later) ++ 0 :: behind)) before.length byte =
      some (before.length + text.length) := by
  rw [strchr, textFrom_placed before _ behind clean, if_pos (by simp)]
  have stops : (text ++ byte :: later).takeWhile (fun other => other ≠ byte) = text := by
    apply takeWhile_placed text later
    · rintro other member
      simp only [ne_eq, decide_not, Bool.not_eq_eq_eq_not, Bool.not_true, decide_eq_false_iff_not]
      rintro rfl
      exact absent member
    · simp
  rw [stops]

/-- A text without delimiters is the last token. -/
theorem strsep_last (delimiters : List UInt8) (clean : (0 : UInt8) ∉ text)
    (plain : ∀ byte ∈ text, delimiters.contains byte = false) :
    strsep delimiters (before ++ (text ++ 0 :: behind)) before.length =
      (before ++ (text ++ 0 :: behind), none) := by
  have stops : (text ++ 0 :: behind).takeWhile
      (fun byte => byte ≠ 0 && !delimiters.contains byte) = text := by
    apply takeWhile_placed text behind
    · intro byte member
      have nonzero : byte ≠ 0 := fun zero => clean (zero ▸ member)
      simpa [nonzero] using plain byte member
    · simp
  simp only [strsep, List.drop_left, stops, charAt_placed, ↓reduceIte]

/-- A token ends at the first delimiter, which becomes NUL. -/
theorem strsep_cut (delimiters : List UInt8) (clean : (0 : UInt8) ∉ text)
    (plain : ∀ byte ∈ text, delimiters.contains byte = false) (delimiter : UInt8)
    (nonzero : delimiter ≠ 0) (delimits : delimiters.contains delimiter = true) :
    strsep delimiters (before ++ (text ++ delimiter :: behind)) before.length =
      (before ++ (text ++ 0 :: behind), some (before.length + text.length + 1)) := by
  have stops : (text ++ delimiter :: behind).takeWhile
      (fun byte => byte ≠ 0 && !delimiters.contains byte) = text := by
    apply takeWhile_placed text behind
    · intro byte member
      have nonzero : byte ≠ 0 := fun zero => clean (zero ▸ member)
      simpa [nonzero] using plain byte member
    · simpa using fun _ => delimits
  simp only [strsep, List.drop_left, stops, charAt_placed, nonzero, ↓reduceIte, set_placed]

/-- `strsep` in a terminated string: the token stands there as a string of its own. -/
theorem strsep_token (delimiters : List UInt8) {memory : List UInt8} {pointer stop : Nat}
    (terminated : TerminatedAt memory stop) (within : pointer ≤ stop) :
    ∃ front behind, front.length = pointer ∧ (strsep delimiters memory pointer).1 =
      front ++ ((memory.drop pointer).takeWhile
        (fun byte => byte ≠ 0 && !delimiters.contains byte) ++ 0 :: behind) := by
  have length := terminated.inside
  have frontLength : (memory.take pointer).length = pointer := by
    rw [List.length_take]
    omega
  have ends : ∃ byte ∈ memory.drop pointer, (byte ≠ 0 && !delimiters.contains byte) = false := by
    refine ⟨charAt memory stop, ?_, by simp [terminated.zero]⟩
    apply List.mem_of_getElem? (i := stop - pointer)
    rw [List.getElem?_drop, Nat.add_sub_cancel' within, charAt_eq_getElem? length]
  obtain ⟨last, rest, split, stops⟩ := Splitting.takeWhile_split _ _ ends
  have kept : ∀ byte ∈ (memory.drop pointer).takeWhile
      (fun byte => byte ≠ 0 && !delimiters.contains byte),
      byte ≠ 0 ∧ delimiters.contains byte = false := by
    intro byte member
    simpa using List.mem_takeWhile_imp member
  generalize (memory.drop pointer).takeWhile
    (fun byte => byte ≠ 0 && !delimiters.contains byte) = token at split kept
  have clean : (0 : UInt8) ∉ token := fun member => (kept 0 member).1 rfl
  have shape : memory = memory.take pointer ++ (token ++ last :: rest) := by
    rw [← split, List.take_append_drop]
  refine ⟨memory.take pointer, rest, frontLength, ?_⟩
  by_cases isNul : last = 0
  · have cut := strsep_last (memory.take pointer) token rest delimiters clean
      (fun byte member => (kept byte member).2)
    rw [frontLength, ← isNul, ← shape] at cut
    rw [cut, ← isNul]
    exact shape
  · have delimits : delimiters.contains last = true := by simpa [isNul] using stops
    have cut := strsep_cut (memory.take pointer) token rest delimiters clean
      (fun byte member => (kept byte member).2) last isNul delimits
    rw [frontLength, ← shape] at cut
    rw [cut]

/-- In a block that is zero behind its string, `strcat` succeeds when there is room for
the string and a NUL, and leaves such a block. -/
theorem strcat_zeroed (clean : (0 : UInt8) ∉ text) (room : Nat) (source : CString) :
    strcat (text ++ List.replicate room 0) source =
      if source.bytes.length < room then
        some ((text ++ source.bytes) ++ List.replicate (room - source.bytes.length) 0)
      else none := by
  have stop : strlen (text ++ List.replicate room 0) 0 = text.length := by
    cases room with
    | zero =>
      rw [List.replicate_zero, List.append_nil, strlen, textFrom, List.drop_zero,
        takeWhile_clean text clean]
    | succ room =>
      rw [List.replicate_succ, strlen]
      exact congrArg List.length (textFrom_placed [] text (List.replicate room 0) clean)
  simp only [strcat, stop, List.length_append, List.length_replicate, Nat.add_lt_add_iff_left]
  split
  · next fits =>
    have behind : room - source.bytes.length = room - (source.bytes.length + 1) + 1 := by omega
    rw [List.take_left, Nat.add_assoc, List.drop_append, List.drop_replicate, behind,
      List.replicate_succ, List.append_assoc, List.drop_eq_nil_of_le (by omega),
      List.nil_append, Nat.add_sub_cancel_left]
  · rfl

end Placed

end OsLabwork.CMemory
