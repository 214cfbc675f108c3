import OsLabwork.Library.BufferedInput
import OsLabwork.Library.CMemory
import OsLabwork.Library.Words
import OsLabwork.MapReduce.MultiMap

/-!
# The tokens of a file

`Map` of the word counter reads its file line by line and cuts every line at each single
delimiter, so that there is an empty token between two delimiters, before the first and
behind the last. All of them are emitted. The tokens that are not empty are the words of
the file: a line ends with a delimiter, so no word extends over two lines.
-/

namespace OsLabwork.MapReduce

open BufferedInput CMemory Words

/-- The delimiters of `Map`. -/
def delimiters : List UInt8 := [32, 9, 10, 13]

/-- Whether `strsep` cuts at a byte. -/
def isDelimiter (byte : UInt8) : Bool := delimiters.contains byte

/-- Whether a byte ends a line. -/
def isNewline (byte : UInt8) : Bool := byte = 10

/-- The inner loop of `Map`: the tokens that are emitted. -/
def tokenLoop : Nat → List UInt8 → Nat → Option (List CString)
  | 0, _, _ => none
  | fuel + 1, memory, dummy =>
      let cut := strsep delimiters memory dummy
      let token := stringAt cut.1 dummy
      match cut.2 with
      | none => some [token]
      | some next => (tokenLoop fuel cut.1 next).map (token :: ·)

/-- The loop over the tokens of a line ends. -/
theorem tokenLoop_isSome (fuel : Nat) (memory : List UInt8) (dummy : Nat)
    (enough : memory.length - dummy < fuel) : (tokenLoop fuel memory dummy).isSome = true := by
  induction fuel generalizing memory dummy with
  | zero => exact absurd enough (Nat.not_lt_zero _)
  | succ fuel inductionHypothesis =>
    have length := strsep_length delimiters memory dummy
    rw [tokenLoop]
    cases more : (strsep delimiters memory dummy).2 with
    | none => rfl
    | some next =>
      have advances := strsep_advances more
      simp only [Option.isSome_map]
      exact inductionHypothesis _ next (by omega)

/-- The tokens of a line that `getline` has stored with a NUL behind it. -/
def lineTokens (line : List UInt8) : List CString :=
  (tokenLoop ((line ++ [0]).length + 1) (line ++ [0]) 0).get (tokenLoop_isSome _ _ _ (by omega))

/-- The value of every emission. -/
def oneString : CString := CString.leading (ascii "1")

section Files

variable {blockSize : Nat} (positive : 0 < blockSize)

/-- The outer loop of `Map`: its emissions. -/
def mapLoop : Nat → Reader UInt8 → Option (List (KvPair CString))
  | 0, _ => none
  | fuel + 1, fp =>
      match fp.getline isNewline positive with
      | (none, _) => some []
      | (some line, next) =>
          (mapLoop fuel next).map ((lineTokens line).map (⟨·, oneString⟩) ++ ·)

/-- The outer loop goes through the lines that are ahead. -/
theorem mapLoop_lines (fuel : Nat) (fp : Reader UInt8)
    (enough : (lines isNewline fp.ahead).length < fuel) :
    mapLoop positive fuel fp =
      some (((lines isNewline fp.ahead).flatMap lineTokens).map (⟨·, oneString⟩)) := by
  induction fuel generalizing fp with
  | zero => exact absurd enough (Nat.not_lt_zero _)
  | succ fuel inductionHypothesis =>
    obtain ⟨delivered, remaining, _⟩ := fp.getline_lines positive isNewline
    rw [mapLoop]
    rcases read : fp.getline isNewline positive with ⟨_ | line, next⟩
    · rw [read, eq_comm, List.head?_eq_none_iff] at delivered
      rw [delivered]
      rfl
    · rw [read] at delivered remaining
      obtain ⟨later, shape⟩ := List.head?_eq_some_iff.mp delivered.symm
      rw [shape, List.tail_cons] at remaining
      rw [shape, List.length_cons] at enough
      have continued := inductionHypothesis next (by rw [remaining]; omega)
      simp only [continued, remaining, shape, Option.map_some, List.flatMap_cons, List.map_append]

/-- The loop over the lines of a file ends. -/
theorem mapLoop_isSome (content : List UInt8) :
    (mapLoop positive (content.length + 1) ⟨content, 0, []⟩).isSome = true := by
  have few := lines_length_le isNewline content
  rw [mapLoop_lines positive _ _ (by simpa [Reader.ahead] using Nat.lt_succ_of_le few)]
  rfl

/-- `Map` on a file that can be opened: its emissions. -/
def mapFile (content : List UInt8) : List (KvPair CString) :=
  (mapLoop positive (content.length + 1) ⟨content, 0, []⟩).get (mapLoop_isSome positive content)

/-- A file is mapped line by line. -/
theorem mapFile_lines (content : List UInt8) :
    mapFile positive content =
      ((lines isNewline content).flatMap lineTokens).map (⟨·, oneString⟩) := by
  have few := lines_length_le isNewline content
  have looped := mapLoop_lines positive (content.length + 1) ⟨content, 0, []⟩
    (by simpa [Reader.ahead] using Nat.lt_succ_of_le few)
  rw [mapFile, Option.get_of_eq_some _ looped]
  simp [Reader.ahead]

end Files

/-- What splitting the lines of a file at single delimiters yields. -/
def fileTokens (content : List UInt8) : List CString :=
  (lines isNewline content).flatMap fun line => (line.splitOnP isDelimiter).map CString.leading

/-- The inner loop splits a text without NUL at every delimiter. -/
theorem tokenLoop_splits (text : List UInt8) (clean : (0 : UInt8) ∉ text) (fuel : Nat)
    (before behind : List UInt8) (enough : text.length < fuel) :
    tokenLoop fuel (before ++ (text ++ 0 :: behind)) before.length =
      some ((text.splitOnP isDelimiter).map CString.leading) := by
  induction text using Splitting.cut_induction isDelimiter generalizing fuel before with
  | plain word plain =>
    obtain ⟨remaining, rfl⟩ : ∃ remaining, fuel = remaining + 1 := ⟨fuel - 1, by omega⟩
    rw [tokenLoop, strsep_last before word behind delimiters clean plain]
    simp only [stringAt_placed before word behind clean, List.splitOnP_eq_singleton plain,
      List.map_singleton]
  | cut word separator rest plain separates inductionHypothesis =>
    obtain ⟨remaining, rfl⟩ : ∃ remaining, fuel = remaining + 1 := ⟨fuel - 1, by omega⟩
    have wordClean : (0 : UInt8) ∉ word := fun member => clean (List.mem_append_left _ member)
    have restClean : (0 : UInt8) ∉ rest := fun member =>
      clean (List.mem_append_right _ (List.mem_cons_of_mem _ member))
    have nonzero : separator ≠ 0 := by
      rintro rfl
      exact clean (by simp)
    have cut := strsep_cut before word (rest ++ 0 :: behind) delimiters wordClean plain separator
      nonzero separates
    have own := stringAt_placed before word (rest ++ 0 :: behind) wordClean
    have later := inductionHypothesis restClean remaining (before ++ (word ++ [0]))
      (by rw [List.length_append, List.length_cons] at enough; omega)
    have place : (before ++ (word ++ [0])).length = before.length + word.length + 1 := by
      simp [Nat.add_assoc]
    rw [place] at later
    simp only [List.append_assoc, List.cons_append, List.nil_append] at later ⊢
    rw [tokenLoop, cut]
    simp only [own, later, Option.map_some,
      List.splitOnP_append_cons_of_forall_mem plain separator separates, List.map_cons]

/-- `Map` emits the tokens of a file without NUL. -/
theorem mapFile_tokens {blockSize : Nat} (positive : 0 < blockSize) {content : List UInt8}
    (clean : (0 : UInt8) ∉ content) :
    mapFile positive content = (fileTokens content).map (⟨·, oneString⟩) := by
  rw [mapFile_lines, fileTokens]
  congr 1
  apply List.flatMap_congr
  intro line member
  have lineClean : (0 : UInt8) ∉ line := fun zero => clean (subset_of_mem_lines member zero)
  have split := tokenLoop_splits line lineClean ((line ++ [0]).length + 1) [] []
    (by rw [List.length_append]; omega)
  exact Option.get_of_eq_some _ split

/-- The words of a text are those of its lines. -/
theorem words_lines (text : List UInt8) :
    words isDelimiter text = (lines isNewline text).flatMap (words isDelimiter) := by
  induction text using Splitting.cut_induction isNewline with
  | plain word plain =>
    cases word with
    | nil => rfl
    | cons byte word => rw [lines_plain plain (by simp), List.flatMap_singleton]
  | cut word newline rest plain ends inductionHypothesis =>
    have separates : isDelimiter newline = true := by
      have isTen : newline = 10 := by simpa [isNewline] using ends
      rw [isTen]
      decide
    have cut := lines_terminated ⟨word, newline, rfl, plain, ends⟩ rest
    rw [List.append_assoc, List.singleton_append] at cut
    rw [cut, List.flatMap_cons, words_append_cons separates, words_concat_blank separates,
      inductionHypothesis]

/-- In a line, a token that is not empty is found as often as the word. -/
theorem count_lineTokens {line : List UInt8} (clean : (0 : UInt8) ∉ line) (token : CString)
    (nonempty : token.bytes ≠ []) :
    ((line.splitOnP isDelimiter).map CString.leading).count token =
      (words isDelimiter line).count token.bytes := by
  have solid : (fun word : List UInt8 => !word.isEmpty) token.bytes = true := by
    simpa using nonempty
  rw [words, List.count_filter (p := fun word : List UInt8 => !word.isEmpty) solid, List.count,
    List.countP_map, List.count]
  apply List.countP_congr
  intro word member
  have wordClean : (0 : UInt8) ∉ word := fun zero => clean (subset_of_mem_splitOnP member zero)
  simpa using leading_eq_iff wordClean token

/-- A token that is not empty is found as often as the word. -/
theorem count_fileTokens {content : List UInt8} (clean : (0 : UInt8) ∉ content) (token : CString)
    (nonempty : token.bytes ≠ []) :
    (fileTokens content).count token = (words isDelimiter content).count token.bytes := by
  rw [fileTokens, words_lines, List.count_flatMap, List.count_flatMap]
  congr 1
  apply List.map_congr_left
  intro line member
  have lineClean : (0 : UInt8) ∉ line := fun zero => clean (subset_of_mem_lines member zero)
  exact count_lineTokens lineClean token nonempty

end OsLabwork.MapReduce
