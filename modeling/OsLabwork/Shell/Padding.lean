import OsLabwork.Shell.Grammar

/-!
# White space around a segment

`parse_redirect_dest` trims a segment by `isspace`, but only what it cuts from the end
lasts: the pointer that it has moved over the white space in front is its own. `parse_cmd`
starts from the first byte again and knows four of the six kinds of white space. So a
vertical tab or a form feed in front of a segment becomes part of its first word, or a word
of its own.

Behind a segment all white space is cut off. There is one more case: the backward scan of a
segment of nothing but white space does not stop at the beginning of the segment, and where
it runs on into white space before the segment, nothing is cut off the segment at all.
-/

namespace OsLabwork.Shell

open CMemory Words

/-- How a segment is read where it stands in memory. -/
def segmentReading (before text behind : List UInt8) : Reading :=
  (readSegment (before ++ (text ++ 0 :: behind)) before.length).2

/-- Words are never malformed. -/
theorem wordsReading_ne_malformed (words : List (List UInt8)) (redirect : Option (List UInt8)) :
    wordsReading words redirect ≠ .malformed := by
  rw [wordsReading]
  split <;> simp

/-- Words without NUL can be told from what is read. -/
theorem wordsReading_inj {first second : List (List UInt8)} {redirect : Option (List UInt8)}
    (firstClean : ∀ word ∈ first, (0 : UInt8) ∉ word)
    (secondClean : ∀ word ∈ second, (0 : UInt8) ∉ word) :
    wordsReading first redirect = wordsReading second redirect ↔ first = second := by
  refine ⟨fun same => ?_, fun same => by rw [same]⟩
  have texts (found : List (List UInt8)) (clean : ∀ word ∈ found, (0 : UInt8) ∉ word) :
      found.map (fun word => (CString.leading word).bytes) = found :=
    calc
      found.map (fun word => (CString.leading word).bytes) = found.map id :=
        List.map_congr_left fun word member => takeWhile_clean word (clean word member)
      _ = found := List.map_id found
  rw [wordsReading, wordsReading] at same
  split at same
  · next none =>
    split at same
    · next noneToo => rw [none, noneToo]
    · simp at same
  · split at same
    · simp at same
    · have argv : first.map (fun word => some (CString.leading word)) =
          second.map (fun word => some (CString.leading word)) := by
        simpa [wordsCommand] using congrArg Command.argv (Reading.command.inj same)
      have bytes := congrArg
        (List.map fun argument : Option CString => (argument.map CString.bytes).getD []) argv
      simp only [List.map_map, Function.comp_def, Option.map_some, Option.getD_some] at bytes
      exact (texts first firstClean).symm.trans (bytes.trans (texts second secondClean))

/-- The words of a text without zero bytes have none. -/
theorem words_clean {text : List UInt8} (clean : (0 : UInt8) ∉ text) :
    ∀ word ∈ words isBlank text, (0 : UInt8) ∉ word := fun _ member zero =>
  clean (subset_of_mem_words member zero)

/-- White space has no zero byte. -/
theorem white_clean {text : List UInt8} (white : ∀ byte ∈ text, isspace byte = true) :
    (0 : UInt8) ∉ text := fun zero => absurd (white 0 zero) (by decide)

section Reading

variable (before behind : List UInt8)

/-- A segment without `>` is read by its words, once white space has been cut from its end. -/
theorem segmentReading_undivided {text : List UInt8} (stops : Stops before text)
    (clean : (0 : UInt8) ∉ text) (absent : (62 : UInt8) ∉ text) :
    segmentReading before text behind =
      wordsReading (words isBlank (stripEnd isspace text)) none := by
  obtain ⟨memory, read, _⟩ := readWithin_undivided before behind text stops clean absent
    (text.length + 1) (Nat.lt_succ_self _)
  exact (congrArg Prod.snd (eq_readSegment_of_readWithin read)).symm

/-- A segment with `>` but no word before it, or no target behind it, is malformed. -/
theorem segmentReading_malformed {front target : List UInt8}
    (clean : (0 : UInt8) ∉ front ++ 62 :: target) (absent : (62 : UInt8) ∉ front)
    (bad : (∀ byte ∈ front, isspace byte = true) ∨ BadTarget (stripEnd isspace target)) :
    segmentReading before (front ++ 62 :: target) behind = .malformed := by
  obtain ⟨memory, read, _⟩ := readWithin_malformed before behind front target clean absent bad 0
  exact (congrArg Prod.snd (eq_readSegment_of_readWithin read)).symm

/-- A segment with a word before `>` and a target behind it is read by the words before it. -/
theorem segmentReading_redirected {front target : List UInt8}
    (clean : (0 : UInt8) ∉ front ++ 62 :: target) (absent : (62 : UInt8) ∉ front)
    (word : ∃ byte ∈ front, isspace byte = false)
    (good : ¬ BadTarget (stripEnd isspace target)) :
    segmentReading before (front ++ 62 :: target) behind =
      wordsReading (words isBlank front) (some (strip isspace target)) := by
  obtain ⟨memory, read, _⟩ := readWithin_redirected before behind front target clean absent word
    good (front.length + 1) (Nat.lt_succ_self _)
  exact (congrArg Prod.snd (eq_readSegment_of_readWithin read)).symm

/-- Where white space stands before a segment of white space, trimming cuts nothing off the
segment: its NUL goes to where the white space begins. -/
theorem parseRedirectDest_exposed {text : List UInt8}
    (white : ∀ byte ∈ text, isspace byte = true) (exposed : ¬ Guarded before) :
    ∃ cut, cut.length = before.length ∧
      parseRedirectDest (before ++ (text ++ 0 :: behind)) before.length =
        ⟨cut ++ (text ++ 0 :: behind), false, none⟩ := by
  let reach := (before.reverse.takeWhile isspace).length
  have inside : 0 < reach ∧ reach ≤ before.length := by
    simp only [Guarded, not_forall, Bool.not_eq_false] at exposed
    obtain ⟨last, isLast, space⟩ := exposed
    obtain ⟨front, rfl⟩ := List.getLast?_eq_some_iff.mp isLast
    have bound := (List.takeWhile_sublist isspace (l := (front ++ [last]).reverse)).length_le
    rw [List.length_reverse] at bound
    exact ⟨by simp [reach, space], bound⟩
  have lead : (text ++ 0 :: behind).takeWhile isspace = text :=
    takeWhile_placed text behind isspace white 0 (by decide)
  have stop : strlen (before ++ (text ++ 0 :: behind)) (before.length + text.length) = 0 := by
    have placed := textFrom_placed (before ++ text) [] behind (by simp)
    rw [List.nil_append, List.append_assoc, List.length_append] at placed
    rw [strlen, placed, List.length_nil]
  have taken : (before ++ (text ++ 0 :: behind)).take (before.length + text.length) =
      before ++ text := by
    rw [← List.append_assoc, ← List.length_append, List.take_left]
  have back : ((before ++ text).reverse.takeWhile isspace).length = text.length + reach := by
    rw [List.reverse_append, List.takeWhile_append_of_pos (by simpa using white),
      List.length_append, List.length_reverse]
  have trimmed : trim (before ++ (text ++ 0 :: behind)) before.length =
      (before.set (before.length - reach) 0 ++ (text ++ 0 :: behind),
        before.length + text.length) := by
    have position : before.length + text.length - (text.length + reach) =
        before.length - reach := by omega
    simp only [trim, List.drop_left, lead, stop, Nat.add_zero, taken, back, position]
    rw [List.set_append_left _ _ (by omega)]
  have memory : before.set (before.length - reach) 0 ++ (text ++ 0 :: behind) =
      (before.set (before.length - reach) 0 ++ text) ++ ([] ++ 0 :: behind) := by simp
  have pointer : before.length + text.length =
      (before.set (before.length - reach) 0 ++ text).length := by simp
  refine ⟨before.set (before.length - reach) 0, by simp, ?_⟩
  rw [parseRedirectDest, cutRedirect, trimmed]
  simp only [memory, pointer]
  rw [strchr_absent _ [] behind (by simp) 62 (by simp), List.nil_append, charAt_start]
  simp

/-- White space behind white space is read as words. -/
theorem segmentReading_exposed {text : List UInt8}
    (white : ∀ byte ∈ text, isspace byte = true) (exposed : ¬ Guarded before) :
    segmentReading before text behind = wordsReading (words isBlank text) none := by
  have clean := white_clean white
  obtain ⟨cut, length, redirect⟩ := parseRedirectDest_exposed before behind white exposed
  obtain ⟨after, parsed, parsing, _, whenBlank, whenWords⟩ := parseCmd_placed cut text behind clean
    (text.length + 1) (Nat.lt_succ_self _)
  rw [length] at parsing
  have read := readWithin_parsed redirect parsing whenBlank fun some => by
    obtain ⟨cmd, isParsed, command⟩ := whenWords some
    exact ⟨cmd, isParsed, command none none rfl⟩
  exact (congrArg Prod.snd (eq_readSegment_of_readWithin read)).symm

end Reading

section Padding

variable {padding : List UInt8}

/-- The two notions of white space differ in the vertical tab and the form feed. -/
theorem blank_padding_iff (white : ∀ byte ∈ padding, isspace byte = true) :
    (∀ byte ∈ padding, isBlank byte = true) ↔ ∀ byte ∈ padding, byte ≠ 11 ∧ byte ≠ 12 := by
  constructor
  · intro blank byte member
    have isBlankByte := blank byte member
    constructor
    · rintro rfl
      simp [isBlank, blanks] at isBlankByte
    · rintro rfl
      simp [isBlank, blanks] at isBlankByte
  · intro known byte member
    obtain ⟨noVt, noFf⟩ := known byte member
    rw [← isspace_eq_isBlank noVt noFf]
    exact white byte member

/-- Padding in front is not noticed in the words that are read exactly when it is blank. -/
theorem wordsReading_padded_iff {text : List UInt8} (clean : (0 : UInt8) ∉ text)
    (cleanPadding : (0 : UInt8) ∉ padding) (redirect : Option (List UInt8)) :
    wordsReading (words isBlank (padding ++ text)) redirect =
        wordsReading (words isBlank text) redirect ↔
      ∀ byte ∈ padding, isBlank byte = true := by
  have cleanBoth : (0 : UInt8) ∉ padding ++ text := by simp [clean, cleanPadding]
  exact (wordsReading_inj (words_clean cleanBoth) (words_clean clean)).trans
    (words_append_eq_iff text)

variable (before behind : List UInt8)

/-- Only a segment with `>` can be malformed. -/
theorem segmentReading_ne_malformed {text : List UInt8} (clean : (0 : UInt8) ∉ text)
    (absent : (62 : UInt8) ∉ text) : segmentReading before text behind ≠ .malformed := by
  by_cases stops : Stops before text
  · rw [segmentReading_undivided before behind stops clean absent]
    exact wordsReading_ne_malformed _ _
  · obtain ⟨exposed, allWhite⟩ := not_or.mp stops
    rw [segmentReading_exposed before behind (by simpa using allWhite) exposed]
    exact wordsReading_ne_malformed _ _

/-- Padding around a segment of white space. -/
theorem padding_white (white : ∀ byte ∈ padding, isspace byte = true) {text : List UInt8}
    (whiteText : ∀ byte ∈ text, isspace byte = true) :
    (segmentReading before (padding ++ text) behind = segmentReading before text behind ∧
      segmentReading before (text ++ padding) behind = segmentReading before text behind) ↔
    (∀ byte ∈ padding, isBlank byte = true) ∨ Guarded before := by
  have front : ∀ byte ∈ padding ++ text, isspace byte = true := by
    simpa [or_imp, forall_and] using And.intro white whiteText
  have rear : ∀ byte ∈ text ++ padding, isspace byte = true := by
    simpa [or_imp, forall_and] using And.intro whiteText white
  by_cases guarded : Guarded before
  · have blank {any : List UInt8} (whiteAny : ∀ byte ∈ any, isspace byte = true) :
        segmentReading before any behind = .blank := by
      have absent : (62 : UInt8) ∉ any := fun sign => absurd (whiteAny 62 sign) (by decide)
      have nothing : stripEnd isspace any = [] := List.rdropWhile_eq_nil_iff.mpr whiteAny
      rw [segmentReading_undivided before behind (Or.inl guarded) (white_clean whiteAny) absent,
        nothing]
      rfl
    simp [blank front, blank rear, blank whiteText, guarded]
  · rw [segmentReading_exposed before behind front guarded,
      segmentReading_exposed before behind rear guarded,
      segmentReading_exposed before behind whiteText guarded,
      wordsReading_padded_iff (white_clean whiteText) (white_clean white)]
    simp only [guarded, or_false, and_iff_left_iff_imp]
    intro blank
    have strips : words isBlank (text ++ padding) = words isBlank text := by
      rw [← words_stripEnd, stripEnd_append_blanks text blank, words_stripEnd]
    rw [strips]

/-- Padding around a segment with a word and without `>`. -/
theorem padding_undivided (white : ∀ byte ∈ padding, isspace byte = true) {text : List UInt8}
    (clean : (0 : UInt8) ∉ text) (absent : (62 : UInt8) ∉ text)
    (solid : ∃ byte ∈ text, isspace byte = false) :
    (segmentReading before (padding ++ text) behind = segmentReading before text behind ∧
      segmentReading before (text ++ padding) behind = segmentReading before text behind) ↔
    ∀ byte ∈ padding, isBlank byte = true := by
  have noSign : (62 : UInt8) ∉ padding := fun sign => absurd (white 62 sign) (by decide)
  have cleanPadding := white_clean white
  obtain ⟨byte, member, isSolid⟩ := solid
  have cleanEnd : (0 : UInt8) ∉ stripEnd isspace text := fun zero =>
    clean ((List.rdropWhile_prefix isspace text).subset zero)
  have stopsLeft : Stops before (padding ++ text) :=
    Or.inr ⟨byte, List.mem_append_right _ member, isSolid⟩
  have stopsRight : Stops before (text ++ padding) :=
    Or.inr ⟨byte, List.mem_append_left _ member, isSolid⟩
  have left := segmentReading_undivided before behind stopsLeft (by simp [clean, cleanPadding])
    (by simp [absent, noSign])
  have right := segmentReading_undivided before behind stopsRight (by simp [clean, cleanPadding])
    (by simp [absent, noSign])
  have alone := segmentReading_undivided before behind (Or.inr ⟨byte, member, isSolid⟩) clean absent
  rw [stripEnd_append padding ⟨byte, member, isSolid⟩] at left
  rw [stripEnd_append_blanks text white] at right
  rw [left, right, alone, wordsReading_padded_iff cleanEnd cleanPadding]
  simp

/-- Padding around a segment with `>`. -/
theorem padding_divided (white : ∀ byte ∈ padding, isspace byte = true)
    {front target : List UInt8} (clean : (0 : UInt8) ∉ front ++ 62 :: target)
    (absent : (62 : UInt8) ∉ front) :
    (segmentReading before (padding ++ (front ++ 62 :: target)) behind =
        segmentReading before (front ++ 62 :: target) behind ∧
      segmentReading before ((front ++ 62 :: target) ++ padding) behind =
        segmentReading before (front ++ 62 :: target) behind) ↔
    (∀ byte ∈ padding, isBlank byte = true) ∨
      segmentReading before (front ++ 62 :: target) behind = .malformed := by
  have noSign : (62 : UInt8) ∉ padding ++ front := by
    simp only [List.mem_append, not_or]
    exact ⟨fun sign => absurd (white 62 sign) (by decide), absent⟩
  have cleanPadding := white_clean white
  have cleanFront : (0 : UInt8) ∉ front := fun zero => clean (List.mem_append_left _ zero)
  have cleanLeft : (0 : UInt8) ∉ (padding ++ front) ++ 62 :: target := by
    rw [List.append_assoc]
    simp only [List.mem_append, not_or] at clean ⊢
    exact ⟨cleanPadding, clean⟩
  have cleanRight : (0 : UInt8) ∉ front ++ 62 :: (target ++ padding) := by
    rw [← List.cons_append, ← List.append_assoc]
    simp only [List.mem_append, not_or] at clean ⊢
    exact ⟨clean, cleanPadding⟩
  have sameEnd := stripEnd_append_blanks target white
  rw [← List.append_assoc, List.append_assoc front, List.cons_append]
  by_cases bad : (∀ byte ∈ front, isspace byte = true) ∨ BadTarget (stripEnd isspace target)
  · have padded : (∀ byte ∈ padding ++ front, isspace byte = true) ∨
        BadTarget (stripEnd isspace target) := by
      refine bad.imp_left fun spaces => ?_
      simpa [or_imp, forall_and] using And.intro white spaces
    rw [segmentReading_malformed before behind cleanLeft noSign padded,
      segmentReading_malformed before behind cleanRight absent (by rwa [sameEnd]),
      segmentReading_malformed before behind clean absent bad]
    simp
  · obtain ⟨notSpaces, good⟩ := not_or.mp bad
    have word : ∃ byte ∈ front, isspace byte = false := by simpa using notSpaces
    have paddedWord : ∃ byte ∈ padding ++ front, isspace byte = false := by
      obtain ⟨byte, member, solid⟩ := word
      exact ⟨byte, List.mem_append_right _ member, solid⟩
    have sameTarget : strip isspace (target ++ padding) = strip isspace target := by
      rw [strip, sameEnd, strip]
    rw [segmentReading_redirected before behind cleanLeft noSign paddedWord good,
      segmentReading_redirected before behind cleanRight absent word (by rwa [sameEnd]),
      segmentReading_redirected before behind clean absent word good, sameTarget,
      wordsReading_padded_iff cleanFront cleanPadding]
    simp [wordsReading_ne_malformed]

end Padding

/-- White space in front of a segment and behind it makes no difference to how the segment
is read, wherever it stands in memory, exactly when the white space has no vertical tab and
no form feed, or the segment is malformed, or the segment is white space itself and the
byte before it is not. -/
theorem padding_is_ignored_iff (before text padding behind : List UInt8)
    (clean : (0 : UInt8) ∉ text) (white : ∀ byte ∈ padding, isspace byte = true) :
    (segmentReading before (padding ++ text) behind = segmentReading before text behind ∧
      segmentReading before (text ++ padding) behind = segmentReading before text behind) ↔
    (∀ byte ∈ padding, byte ≠ 11 ∧ byte ≠ 12) ∨
      segmentReading before text behind = .malformed ∨
      ((∀ byte ∈ text, isspace byte = true) ∧ Guarded before) := by
  rw [← blank_padding_iff white]
  by_cases sign : (62 : UInt8) ∈ text
  · obtain ⟨byte, target, split, isSign⟩ := Splitting.takeWhile_split
      (fun byte => decide (byte ≠ 62)) text ⟨62, sign, by simp⟩
    obtain rfl : byte = 62 := by simpa using isSign
    have absent : (62 : UInt8) ∉ text.takeWhile (fun byte => decide (byte ≠ 62)) := fun member => by
      simpa using List.mem_takeWhile_imp member
    have notWhite : ¬ ∀ byte ∈ text, isspace byte = true := fun allWhite =>
      absurd (allWhite 62 sign) (by decide)
    simp only [notWhite, false_and, or_false]
    generalize List.takeWhile (fun byte => decide (byte ≠ 62)) text = front at split absent
    subst split
    exact padding_divided before behind white clean absent
  · simp only [segmentReading_ne_malformed before behind clean sign, false_or]
    by_cases whiteText : ∀ byte ∈ text, isspace byte = true
    · rw [padding_white before behind white whiteText, and_iff_right whiteText]
    · have solid : ∃ byte ∈ text, isspace byte = false := by simpa using whiteText
      rw [padding_undivided before behind white clean sign solid]
      simp only [whiteText, false_and, or_false]

/-- Blanks around `ls`. -/
theorem padding_is_ignored_iff_ls :
    (segmentReading [0] (ascii " \t" ++ ascii "ls") [] = segmentReading [0] (ascii "ls") [] ∧
      segmentReading [0] (ascii "ls" ++ ascii " \t") [] = segmentReading [0] (ascii "ls") []) ↔
    (∀ byte ∈ ascii " \t", byte ≠ 11 ∧ byte ≠ 12) ∨
      segmentReading [0] (ascii "ls") [] = .malformed ∨
      ((∀ byte ∈ ascii "ls", isspace byte = true) ∧ Guarded [0]) :=
  padding_is_ignored_iff [0] (ascii "ls") (ascii " \t") [] (by decide) (by decide +kernel)

/-- A vertical tab in front of a segment becomes part of the name of its command. -/
theorem vertical_tab_stays_in_the_name :
    segmentReading [0] (11 :: ascii "ls") [] = wordsReading [11 :: ascii "ls"] none ∧
      segmentReading [0] (ascii "ls") [] = wordsReading [ascii "ls"] none ∧
      wordsReading [11 :: ascii "ls"] none ≠ wordsReading [ascii "ls"] none := by
  decide +kernel

end OsLabwork.Shell
