import Mathlib.Data.List.DropRight
import Mathlib.Data.List.Induction
import OsLabwork.Library.Splitting

/-!
# Words between blanks

The words of a text are its maximal runs of items that are not blank. Blanks around
the text do not change them, and a text that is stripped of blanks is one word
exactly when it is not empty and has no blank inside. A word is counted once for each
position at which it stands with a blank or an end of the text on either side.
-/

namespace OsLabwork.Words

universe u
variable {α : Type u} (blank : α → Bool)

/-- The maximal runs of items that are not blank. -/
def words (text : List α) : List (List α) :=
  (text.splitOnP blank).filter (fun word => !word.isEmpty)

/-- The text without the blanks at its end. -/
def stripEnd (text : List α) : List α := text.rdropWhile blank

/-- The text without the blanks around it. -/
def strip (text : List α) : List α := (stripEnd blank text).dropWhile blank

variable {blank}

/-- Stripping adds nothing. -/
theorem strip_subset (text : List α) : strip blank text ⊆ text := fun _ member =>
  (List.rdropWhile_prefix blank text).subset ((List.dropWhile_sublist blank).subset member)

/-- A text without blanks is one word, or none. -/
theorem words_plain {word : List α} (plain : ∀ item ∈ word, blank item = false) :
    words blank word = if word = [] then [] else [word] := by
  rw [words, List.splitOnP_eq_singleton plain]
  cases word <;> simp

/-- Up to its first blank a text has at most one word. -/
theorem words_split {word : List α} (plain : ∀ item ∈ word, blank item = false) {separator : α}
    (isBlank : blank separator = true) (rest : List α) :
    words blank (word ++ separator :: rest) = words blank word ++ words blank rest := by
  rw [words_plain plain, words, List.splitOnP_append_cons_of_forall_mem plain separator isBlank]
  cases word <;> simp [words]

/-- A blank in front makes no difference. -/
theorem words_cons_blank {item : α} (isBlank : blank item = true) (text : List α) :
    words blank (item :: text) = words blank text := by
  simp [words, List.splitOnP_cons_eq_if_modifyHead, isBlank]

/-- The words before and behind a blank. -/
theorem words_append_cons {separator : α} (isBlank : blank separator = true)
    (front rest : List α) :
    words blank (front ++ separator :: rest) = words blank front ++ words blank rest := by
  induction front using Splitting.cut_induction blank with
  | plain word plain => exact words_split plain isBlank rest
  | cut word first middle plain separates inductionHypothesis =>
    rw [List.append_assoc, List.cons_append, words_split plain separates, inductionHypothesis,
      words_split plain separates, List.append_assoc]

/-- A blank behind makes no difference. -/
theorem words_concat_blank {item : α} (isBlank : blank item = true) (text : List α) :
    words blank (text ++ [item]) = words blank text := by
  rw [words_append_cons isBlank]
  simp [words]

/-- Nothing is in a part that is not in the text. -/
theorem subset_of_mem_splitOnP {text part : List α} (member : part ∈ text.splitOnP blank) :
    part ⊆ text := by
  induction text using Splitting.cut_induction blank with
  | plain text plain =>
    rw [List.splitOnP_eq_singleton plain, List.mem_singleton] at member
    rw [member]
    exact List.Subset.refl text
  | cut first separator rest plain separates inductionHypothesis =>
    rw [List.splitOnP_append_cons_of_forall_mem plain separator separates] at member
    intro item inPart
    rcases List.mem_cons.mp member with rfl | later
    · exact List.mem_append_left _ inPart
    · exact List.mem_append_right _ (List.mem_cons_of_mem _ (inductionHypothesis later inPart))

/-- There is no word exactly when everything is blank. -/
theorem words_eq_nil_iff (text : List α) :
    words blank text = [] ↔ ∀ item ∈ text, blank item = true := by
  induction text using Splitting.cut_induction blank with
  | plain word plain =>
    rw [words_plain plain]
    cases word with
    | nil => simp
    | cons item word =>
      have first := plain item List.mem_cons_self
      simp [first]
  | cut word separator rest plain separates inductionHypothesis =>
    rw [words_split plain separates, List.append_eq_nil_iff, inductionHypothesis,
      words_plain plain]
    cases word with
    | nil => simp [separates]
    | cons item word =>
      have first := plain item List.mem_cons_self
      simp [first]

/-- The words stay when blanks are stripped from the end. -/
theorem words_stripEnd (text : List α) : words blank (stripEnd blank text) = words blank text := by
  induction text using List.reverseRecOn with
  | nil => rfl
  | append_singleton text item inductionHypothesis =>
    rw [stripEnd, List.rdropWhile_concat]
    split
    · next isBlank =>
      rw [words_concat_blank isBlank]
      exact inductionHypothesis
    · rfl

/-- The end is stripped once. -/
@[simp] theorem stripEnd_stripEnd (text : List α) :
    stripEnd blank (stripEnd blank text) = stripEnd blank text :=
  List.rdropWhile_idempotent blank text

/-- Stripping both sides strips the end. -/
@[simp] theorem strip_stripEnd (text : List α) :
    strip blank (stripEnd blank text) = strip blank text := by
  rw [strip, stripEnd_stripEnd]
  rfl

/-- What is not blank stays. -/
theorem mem_stripEnd_iff (text : List α) {item : α} (solid : blank item = false) :
    item ∈ stripEnd blank text ↔ item ∈ text := by
  constructor
  · intro member
    exact (List.rdropWhile_prefix blank text).subset member
  · intro member
    have whole : text.rdropWhile blank ++ text.rtakeWhile blank = text :=
      List.rdropWhile_append_rtakeWhile
    rw [← whole, List.mem_append] at member
    rcases member with kept | dropped
    · exact kept
    · have isBlank := List.mem_rtakeWhile_imp dropped
      simp [solid] at isBlank

/-- Stripping the end stops at an item that is not blank. -/
theorem stripEnd_append_cons (front : List α) {item : α} (solid : blank item = false)
    (rest : List α) :
    stripEnd blank (front ++ item :: rest) = front ++ item :: stripEnd blank rest := by
  induction rest using List.reverseRecOn with
  | nil =>
    rw [stripEnd, List.rdropWhile_concat, if_neg (by simp [solid])]
    rfl
  | append_singleton rest last inductionHypothesis =>
    rw [stripEnd, ← List.cons_append, ← List.append_assoc, List.rdropWhile_concat, stripEnd,
      List.rdropWhile_concat]
    split
    · exact inductionHypothesis
    · simp

/-- The words stay when blanks are dropped in front. -/
theorem words_dropWhile (text : List α) :
    words blank (text.dropWhile blank) = words blank text := by
  induction text with
  | nil => rfl
  | cons item text inductionHypothesis =>
    rw [List.dropWhile_cons]
    split
    · next isBlank => rw [inductionHypothesis, words_cons_blank isBlank]
    · rfl

/-- The words stay when blanks are stripped from both sides. -/
theorem words_strip (text : List α) : words blank (strip blank text) = words blank text := by
  rw [strip, words_dropWhile, words_stripEnd]

/-- The words depend only on which items of the text are blank. -/
theorem words_congr {other : α → Bool} (text : List α)
    (agree : ∀ item ∈ text, blank item = other item) : words blank text = words other text := by
  induction text using Splitting.cut_induction blank with
  | plain word plain =>
    have plainToo : ∀ item ∈ word, other item = false := fun item member =>
      (agree item member).symm.trans (plain item member)
    rw [words_plain plain, words_plain plainToo]
  | cut word separator rest plain separates inductionHypothesis =>
    have plainToo : ∀ item ∈ word, other item = false := fun item member =>
      (agree item (List.mem_append_left _ member)).symm.trans (plain item member)
    have separatesToo : other separator = true :=
      (agree separator (by simp)).symm.trans separates
    rw [words_split plain separates, words_split plainToo separatesToo, words_plain plain,
      words_plain plainToo, inductionHypothesis (fun item member => agree item (by simp [member]))]

/-- A nonempty text without blanks at its ends begins with no blank. -/
theorem strip_head {text rest : List α} {first : α} (begins : strip blank text = first :: rest) :
    blank first = false := by
  have stopped := List.dropWhile_get_zero_not blank (stripEnd blank text) (by
    change 0 < (strip blank text).length
    simp [begins])
  have same : (List.dropWhile blank (stripEnd blank text)) = first :: rest := begins
  simpa [same] using stopped

/-- Nothing is left of blanks only. -/
theorem strip_eq_nil_iff (text : List α) :
    strip blank text = [] ↔ ∀ item ∈ text, blank item = true := by
  rw [← words_eq_nil_iff, ← words_strip, words_eq_nil_iff]
  cases stripped : strip blank text with
  | nil => simp
  | cons first rest => simp [strip_head stripped]

/-- A text that is not blank is the blanks before it, what is left when it is stripped,
and the blanks behind it. -/
theorem stripEnd_eq_append {text : List α} (nonempty : strip blank text ≠ []) :
    stripEnd blank text = text.takeWhile blank ++ strip blank text := by
  obtain ⟨first, rest, begins⟩ := List.exists_cons_of_ne_nil nonempty
  have plain := strip_head begins
  have front : stripEnd blank text = (stripEnd blank text).takeWhile blank ++ strip blank text :=
    List.takeWhile_append_dropWhile.symm
  have whole : text = (stripEnd blank text).takeWhile blank ++
      (strip blank text ++ text.rtakeWhile blank) := by
    rw [← List.append_assoc, ← front]
    exact List.rdropWhile_append_rtakeWhile.symm
  have same : text.takeWhile blank = (stripEnd blank text).takeWhile blank := by
    have stopped := Splitting.takeWhile_append_stop blank ((stripEnd blank text).takeWhile blank)
      (strip blank text ++ text.rtakeWhile blank) (by
        intro item isFirst
        rw [begins, List.cons_append, List.head?_cons, Option.some.injEq] at isFirst
        rw [← isFirst, plain])
    rw [← whole] at stopped
    rw [stopped, List.takeWhile_takeWhile]
    simp
  rw [same]
  exact front

/-- What is left ends with something that is not blank. -/
theorem strip_last {text front : List α} {last : α} (ends : strip blank text = front ++ [last]) :
    blank last = false := by
  have suffix : strip blank text <:+ stripEnd blank text := List.dropWhile_suffix blank
  obtain ⟨skipped, whole⟩ := suffix
  have nonempty : stripEnd blank text ≠ [] := by
    rw [← whole, ends]
    simp
  have stopped := List.rdropWhile_last_not blank text nonempty
  have same : List.rdropWhile blank text = (skipped ++ front) ++ [last] := by
    rw [List.append_assoc, ← ends]
    exact whole.symm
  simpa [same] using stopped

/-- A stripped text without blanks inside is the only word. -/
theorem words_eq_single {text : List α} (nonempty : strip blank text ≠ [])
    (plain : ∀ item ∈ strip blank text, blank item = false) :
    words blank text = [strip blank text] := by
  rw [← words_strip, words_plain plain, if_neg nonempty]

/-- A stripped text with a blank inside has several words: one before the first blank
and one that contains its last item. -/
theorem one_lt_words_length {text : List α} (inner : ∃ item ∈ strip blank text, blank item = true) :
    1 < (words blank text).length := by
  obtain ⟨separator, rest, split, separates⟩ := Splitting.takeWhile_split
    (fun item => !blank item) (strip blank text) (by simpa using inner)
  have plain : ∀ item ∈ (strip blank text).takeWhile (fun item => !blank item),
      blank item = false := by
    intro item member
    simpa using List.mem_takeWhile_imp member
  have isBlank : blank separator = true := by simpa using separates
  generalize List.takeWhile (fun item => !blank item) (strip blank text) = word at split plain
  rw [← words_strip, split, words_split plain isBlank, words_plain plain]
  cases word with
  | nil =>
    have first := strip_head split
    simp [isBlank] at first
  | cons item word =>
    rcases List.eq_nil_or_concat rest with rfl | ⟨front, last, rfl⟩
    · have lastPlain := strip_last split
      simp [isBlank] at lastPlain
    · have ends : strip blank text = ((item :: word) ++ separator :: front) ++ [last] := by
        simpa using split
      have lastPlain := strip_last ends
      have further : words blank (front ++ [last]) ≠ [] := by
        intro none
        have allBlank := (words_eq_nil_iff _).mp none last (by simp)
        simp [lastPlain] at allBlank
      have positive := List.length_pos_iff.mpr further
      simp only [List.concat_eq_append, reduceCtorEq, ↓reduceIte, List.length_append,
        List.length_singleton]
      omega

section Padding

variable {padding : List α}

/-- The words hold everything that is not blank. -/
theorem words_flatten (text : List α) :
    (words blank text).flatten = text.filter (fun item => !blank item) := by
  induction text using Splitting.cut_induction blank with
  | plain word plain =>
    have kept : word.filter (fun item => !blank item) = word := by
      rw [List.filter_eq_self]
      simpa using plain
    rw [words_plain plain, kept]
    split
    · next empty => rw [empty, List.flatten_nil]
    · rw [List.flatten_singleton]
  | cut word separator rest plain separates inductionHypothesis =>
    have kept : word.filter (fun item => !blank item) = word := by
      rw [List.filter_eq_self]
      simpa using plain
    rw [words_split plain separates, List.flatten_append, inductionHypothesis, words_plain plain,
      List.filter_append, kept, List.filter_cons_of_neg (by simp [separates])]
    split
    · next empty => rw [empty, List.flatten_nil]
    · rw [List.flatten_singleton]

/-- A word is part of the text. -/
theorem subset_of_mem_words {text word : List α} (member : word ∈ words blank text) :
    word ⊆ text :=
  subset_of_mem_splitOnP (List.mem_filter.mp member).1

/-- Padding in front of a text keeps its words exactly when it is blank. -/
theorem words_append_eq_iff (text : List α) :
    words blank (padding ++ text) = words blank text ↔ ∀ item ∈ padding, blank item = true := by
  constructor
  · intro same
    have kept := congrArg (fun found => found.flatten.length) same
    simp only [words_flatten, List.filter_append, List.length_append] at kept
    have none : padding.filter (fun item => !blank item) = [] :=
      List.length_eq_zero_iff.mp (by omega)
    simpa using none
  · intro allBlank
    induction padding with
    | nil => rfl
    | cons item padding inductionHypothesis =>
      obtain ⟨first, later⟩ := List.forall_mem_cons.mp allBlank
      rw [List.cons_append, words_cons_blank first, inductionHypothesis later]

/-- Blanks behind a text are stripped from its end. -/
theorem stripEnd_append_blanks (text : List α) (allBlank : ∀ item ∈ padding, blank item = true) :
    stripEnd blank (text ++ padding) = stripEnd blank text := by
  induction padding using List.reverseRecOn with
  | nil => rw [List.append_nil]
  | append_singleton padding item inductionHypothesis =>
    have last := allBlank item (by simp)
    rw [stripEnd, ← List.append_assoc, List.rdropWhile_concat_pos _ _ _ last]
    exact inductionHypothesis fun other member => allBlank other (by simp [member])

/-- What is stripped from the end of a text does not depend on what is in front of it, if
the text is not blank. -/
theorem stripEnd_append (front : List α) {text : List α}
    (solid : ∃ item ∈ text, blank item = false) :
    stripEnd blank (front ++ text) = front ++ stripEnd blank text := by
  obtain ⟨item, rest, split, plain⟩ := Splitting.takeWhile_split blank text solid
  rw [split, ← List.append_assoc, stripEnd_append_cons _ plain, stripEnd_append_cons _ plain,
    List.append_assoc]

end Padding

section Occurrences

variable (blank)

/-- A run can begin at the start of a text and behind a blank. -/
def beginsAt (text : List α) (start : Nat) : Bool := (text.take start).getLast?.all blank

/-- The items from a position on, as long as they are not blank. -/
def runAt (text : List α) (start : Nat) : List α :=
  (text.drop start).takeWhile (fun item => !blank item)

/-- The number of positions at which the word stands as a maximal run of items that are
not blank. -/
def occurrences [DecidableEq α] (word text : List α) : Nat :=
  (List.range text.length).countP fun start =>
    beginsAt blank text start && runAt blank text start = word

variable {blank}

/-- Where words begin behind a blank does not depend on what is before it. -/
theorem beginsAt_behind (front : List α) {separator : α} (isBlank : blank separator = true)
    (rest : List α) (start : Nat) :
    beginsAt blank (front ++ separator :: rest) (front.length + (1 + start)) =
      beginsAt blank rest start := by
  have taken : (front ++ separator :: rest).take (front.length + (1 + start)) =
      front ++ separator :: rest.take start := by
    rw [List.take_length_add_append, Nat.add_comm 1, List.take_succ_cons]
  rw [beginsAt, beginsAt, taken, List.getLast?_append]
  rcases List.eq_nil_or_concat (rest.take start) with none | ⟨earlier, last, shape⟩
  · simp [none, isBlank]
  · simp [shape, List.getLast?_cons]

/-- Nothing but the whole of a text without blanks is a maximal run. -/
theorem occurrences_plain [DecidableEq α] {word text : List α} (nonempty : word ≠ [])
    (plain : ∀ item ∈ text, blank item = false) :
    occurrences blank word text = if text = word then 1 else 0 := by
  cases text with
  | nil => simp [occurrences, nonempty.symm]
  | cons first rest =>
    have inner : ∀ start, beginsAt blank (first :: rest) (start + 1) = false := by
      intro start
      have present := List.getLast?_eq_some_getLast (List.cons_ne_nil first (rest.take start))
      have member := List.getLast_mem (List.cons_ne_nil first (rest.take start))
      rw [beginsAt, List.take_succ_cons, present, Option.all_some]
      exact plain _ (List.cons_subset_cons first (List.take_subset start rest) member)
    have outer : beginsAt blank (first :: rest) 0 = true := rfl
    have whole : runAt blank (first :: rest) 0 = first :: rest := by
      rw [runAt, List.drop_zero, List.takeWhile_eq_self_iff]
      intro item member
      simp [plain item member]
    rw [occurrences, List.length_cons, List.range_succ_eq_map, List.countP_cons, List.countP_map]
    simp [Function.comp_def, inner, outer, whole]

/-- A maximal run stands before a blank or behind it. -/
theorem occurrences_cut [DecidableEq α] {word : List α} (nonempty : word ≠ []) (front : List α)
    {separator : α} (isBlank : blank separator = true) (rest : List α) :
    occurrences blank word (front ++ separator :: rest) =
      occurrences blank word front + occurrences blank word rest := by
  have before : (List.range front.length).countP (fun start =>
      beginsAt blank (front ++ separator :: rest) start &&
        runAt blank (front ++ separator :: rest) start = word) =
      occurrences blank word front := by
    apply List.countP_congr
    intro start member
    have inside := Nat.le_of_lt (List.mem_range.mp member)
    have run : runAt blank (front ++ separator :: rest) start = runAt blank front start := by
      rw [runAt, List.drop_append_of_le_length inside, Splitting.takeWhile_append_stop]
      · rfl
      · simp [isBlank]
    rw [run, beginsAt, List.take_append_of_le_length inside]
    rfl
  have between : runAt blank (front ++ separator :: rest) front.length ≠ word := by
    simpa [runAt, isBlank] using nonempty.symm
  have behind : ∀ start, runAt blank (front ++ separator :: rest) (front.length + (1 + start)) =
      runAt blank rest start := by
    intro start
    rw [runAt, List.drop_length_add_append, Nat.add_comm 1, List.drop_succ_cons]
    rfl
  rw [occurrences, List.length_append, List.length_cons, Nat.add_comm rest.length 1, List.range_add,
    List.countP_append, before, List.countP_map, List.range_add, List.countP_append,
    List.countP_map]
  simp [Function.comp_def, between, behind, beginsAt_behind front isBlank, occurrences]

/-- A word is counted once for each position at which it stands as a maximal run. -/
theorem count_words [DecidableEq α] {word : List α} (nonempty : word ≠ []) (text : List α) :
    (words blank text).count word = occurrences blank word text := by
  have single : ∀ part : List α, (∀ item ∈ part, blank item = false) →
      (words blank part).count word = occurrences blank word part := by
    intro part plain
    rw [words_plain plain, occurrences_plain nonempty plain]
    by_cases empty : part = []
    · simp [empty, nonempty.symm]
    · rw [if_neg empty, List.count_singleton]
      simp
  induction text using Splitting.cut_induction blank with
  | plain text plain => exact single text plain
  | cut front separator rest plain separates inductionHypothesis =>
    rw [words_split plain separates, List.count_append, single front plain, inductionHypothesis,
      occurrences_cut nonempty front separates]

end Occurrences

end OsLabwork.Words
