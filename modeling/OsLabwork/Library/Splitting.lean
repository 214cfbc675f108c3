import Mathlib.Data.List.TakeWhile

/-!
# Splitting lists at a property

A list is the longest initial part with a property, followed by nothing or by an
element without it. Pieces that are shown in part make up the whole only if nothing is
missing from any of them.
-/

namespace OsLabwork.Splitting

universe u
variable {α : Type u}

/-- Where some element lacks the property, the first such element ends the initial
part that has it. -/
theorem takeWhile_split (keep : α → Bool) (items : List α)
    (stops : ∃ item ∈ items, keep item = false) :
    ∃ item rest, items = items.takeWhile keep ++ item :: rest ∧ keep item = false := by
  induction items with
  | nil => simp at stops
  | cons head tail inductionHypothesis =>
    cases kept : keep head with
    | false => exact ⟨head, tail, by simp [kept], kept⟩
    | true =>
      obtain ⟨item, member, lacks⟩ := stops
      have later : item ∈ tail := by
        rcases List.mem_cons.mp member with rfl | later
        · simp [kept] at lacks
        · exact later
      obtain ⟨first, rest, split, stopped⟩ := inductionHypothesis ⟨item, later, lacks⟩
      refine ⟨first, rest, ?_, stopped⟩
      rw [List.takeWhile_cons_of_pos kept, List.cons_append, ← split]

/-- An element without the property is not in the initial part that has it. -/
theorem length_takeWhile_le {keep : α → Bool} {items : List α} {index : Nat} {item : α}
    (found : items[index]? = some item) (stops : keep item = false) :
    (items.takeWhile keep).length ≤ index := by
  by_contra further
  have inside : index < (items.takeWhile keep).length := by omega
  have same := List.prefix_iff_getElem?.mp (List.takeWhile_prefix keep) index inside
  obtain rfl : item = (items.takeWhile keep)[index] := Option.some.inj (found.symm.trans same)
  have kept := List.mem_takeWhile_imp (List.getElem_mem inside)
  simp [stops] at kept

/-- Nothing is cut off exactly when the element to cut at is absent. -/
theorem takeWhile_ne_eq_self_iff [DecidableEq α] (stop : α) (items : List α) :
    items.takeWhile (fun item => item ≠ stop) = items ↔ stop ∉ items := by
  rw [List.takeWhile_eq_self_iff]
  simp only [ne_eq, decide_not, Bool.not_eq_eq_eq_not, Bool.not_true, decide_eq_false_iff_not]
  constructor
  · intro kept member
    exact kept stop member rfl
  · rintro absent item member rfl
    exact absent member

/-- What follows an element without the property does not matter. -/
theorem takeWhile_append_stop (keep : α → Bool) (items rest : List α)
    (stops : ∀ item, rest.head? = some item → keep item = false) :
    (items ++ rest).takeWhile keep = items.takeWhile keep := by
  induction items with
  | nil =>
    cases rest with
    | nil => rfl
    | cons item rest => simp [stops item rfl]
  | cons item items inductionHypothesis =>
    rw [List.cons_append, List.takeWhile_cons, List.takeWhile_cons, inductionHypothesis]

/-- Where an element stands in a list that was extended by one: it is the new one, or it
stands in the list before. -/
theorem concat_eq_append_cons {items before between : List α} {last item : α}
    (shape : items ++ [last] = before ++ item :: between) :
    (last = item ∧ items = before) ∨ ∃ earlier, items = before ++ item :: earlier := by
  rcases List.eq_nil_or_concat between with rfl | ⟨earlier, final, rfl⟩
  · obtain ⟨same, isLast⟩ := List.append_inj' shape rfl
    exact Or.inl ⟨List.singleton_inj.mp isLast, same⟩
  · rw [List.concat_eq_append, ← List.cons_append, ← List.append_assoc] at shape
    exact Or.inr ⟨earlier, (List.append_inj' shape rfl).1⟩

/-- Dropping some of what is counted changes the count exactly when there is any. -/
theorem countP_and_not_iff {counted dropped : α → Bool} {items : List α}
    (included : ∀ item ∈ items, dropped item = true → counted item = true) :
    items.countP (fun item => counted item && !dropped item) = items.countP counted ↔
      ∀ item ∈ items, dropped item = false := by
  induction items with
  | nil => simp
  | cons item items inductionHypothesis =>
    obtain ⟨first, later⟩ := List.forall_mem_cons.mp included
    have fewer : items.countP (fun item => counted item && !dropped item) ≤
        items.countP counted := by
      apply List.countP_mono_left
      intro other _ both
      exact (Bool.and_eq_true_iff.mp both).1
    rw [List.countP_cons, List.countP_cons, List.forall_mem_cons, ← inductionHypothesis later]
    cases isDropped : dropped item with
    | false => cases counted item <;> simp
    | true =>
      simp only [first isDropped, Bool.not_true, Bool.and_false, Bool.false_eq_true, ↓reduceIte,
        reduceCtorEq, false_and, iff_false]
      omega

section Pieces

variable {β : Type u} {shown whole : α → List β}

/-- Shorter parts make a shorter whole. -/
theorem length_flatMap_le {items : List α}
    (shorter : ∀ item ∈ items, (shown item).length ≤ (whole item).length) :
    (items.flatMap shown).length ≤ (items.flatMap whole).length := by
  induction items with
  | nil => exact Nat.le_refl _
  | cons item items inductionHypothesis =>
    obtain ⟨first, later⟩ := List.forall_mem_cons.mp shorter
    rw [List.flatMap_cons, List.flatMap_cons, List.length_append, List.length_append]
    exact Nat.add_le_add first (inductionHypothesis later)

/-- Pieces none of which is longer than it should be make up the whole exactly when each
of them is as it should be. -/
theorem flatMap_eq_iff {items : List α}
    (shorter : ∀ item ∈ items, (shown item).length ≤ (whole item).length) :
    items.flatMap shown = items.flatMap whole ↔ ∀ item ∈ items, shown item = whole item := by
  induction items with
  | nil => simp
  | cons item items inductionHypothesis =>
    obtain ⟨first, later⟩ := List.forall_mem_cons.mp shorter
    rw [List.flatMap_cons, List.flatMap_cons, List.forall_mem_cons, ← inductionHypothesis later]
    constructor
    · intro same
      have lengths := congrArg List.length same
      have behind := length_flatMap_le later
      rw [List.length_append, List.length_append] at lengths
      exact List.append_inj same (by omega)
    · rintro ⟨head, tail⟩
      rw [head, tail]

end Pieces

/-- Induct on a text cut at its separators: either it has none, or it is a part
without separators, a separator and the rest. -/
@[elab_as_elim] theorem cut_induction (separates : α → Bool) {motive : List α → Prop}
    (plain : ∀ word, (∀ item ∈ word, separates item = false) → motive word)
    (cut : ∀ word separator rest, (∀ item ∈ word, separates item = false) →
      separates separator = true → motive rest → motive (word ++ separator :: rest))
    (text : List α) : motive text := by
  induction size : text.length using Nat.strong_induction_on generalizing text with
  | _ size inductionHypothesis =>
    by_cases some : ∃ item ∈ text, (!separates item) = false
    · obtain ⟨separator, rest, split, separated⟩ :=
        takeWhile_split (fun item => !separates item) text some
      rw [split]
      apply cut
      · intro item member
        simpa using List.mem_takeWhile_imp member
      · simpa using separated
      · apply inductionHypothesis rest.length _ rest rfl
        have longer := congrArg List.length split
        rw [List.length_append, List.length_cons] at longer
        omega
    · apply plain
      intro item member
      have kept : (!separates item) ≠ false := fun separated => some ⟨item, member, separated⟩
      simpa using kept

end OsLabwork.Splitting
