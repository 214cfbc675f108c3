import Mathlib.Algebra.Order.Ring.Nat
import Mathlib.Data.List.Basic

/-!
# Cutting a list into quota-reaching blocks

A greedy cut walks through weighted items with one cursor. Each of a fixed number
of blocks takes items until its own weight reaches the quota, or until the items
run out; what no block took is the rest. Nothing here depends on an order of the
items, and a zero quota is an ordinary case: every block then stays empty.

The greedy cut leaves as much as any cut can. It leaves something over exactly
when some division of the items into that many consecutive blocks, each reaching
the quota, leaves something over.

With the average weight as the quota, what is left over weighs less than there are
blocks, and no block weighs more than twice the heaviest part of any division.
-/

namespace OsLabwork.QuotaCutting

universe u
variable {α : Type u}

/-- Total weight of a list of items. -/
def load (weight : α → Nat) (items : List α) : Nat := (items.map weight).sum

/-- Nothing weighs nothing. -/
@[simp] theorem load_nil (weight : α → Nat) : load weight [] = 0 := rfl

/-- The first item, and the others. -/
@[simp] theorem load_cons (weight : α → Nat) (item : α) (items : List α) :
    load weight (item :: items) = weight item + load weight items := by
  simp [load]

/-- Items one behind the other. -/
@[simp] theorem load_append (weight : α → Nat) (left right : List α) :
    load weight (left ++ right) = load weight left + load weight right := by
  simp [load]

/-- Take items while the weight gathered so far is below the quota. The second
component is what remains for the next block. -/
def fill (weight : α → Nat) (quota : Nat) : Nat → List α → List α × List α
  | _, [] => ([], [])
  | gathered, item :: rest =>
      if gathered < quota then
        let filled := fill weight quota (gathered + weight item) rest
        (item :: filled.1, filled.2)
      else ([], item :: rest)

/-- Fill the given number of blocks one after the other. -/
def cut (weight : α → Nat) (quota : Nat) : Nat → List α → List (List α) × List α
  | 0, items => ([], items)
  | blocks + 1, items =>
      let filled := fill weight quota 0 items
      let later := cut weight quota blocks filled.2
      (filled.1 :: later.1, later.2)

/-- A division into consecutive blocks, each reaching the quota, after which at
least one item is left over. -/
def LeavesOver (weight : α → Nat) (quota blocks : Nat) (items : List α) : Prop :=
  ∃ (parts : List (List α)) (rest : List α),
    parts.length = blocks ∧ (∀ part ∈ parts, quota ≤ load weight part) ∧
      rest ≠ [] ∧ parts.flatten ++ rest = items

/-- A block and what follows it are the items it was offered, in order. -/
theorem fill_append (weight : α → Nat) (quota gathered : Nat) (items : List α) :
    (fill weight quota gathered items).1 ++ (fill weight quota gathered items).2 = items := by
  induction items generalizing gathered with
  | nil => rfl
  | cons item rest inductionHypothesis =>
    by_cases below : gathered < quota
    · simp [fill, below, inductionHypothesis]
    · simp [fill, below]

/-- A block that leaves anything over has reached its quota. -/
theorem fill_reaches (weight : α → Nat) (quota gathered : Nat) (items : List α)
    (left : (fill weight quota gathered items).2 ≠ []) :
    quota ≤ gathered + load weight (fill weight quota gathered items).1 := by
  induction items generalizing gathered with
  | nil => simp [fill] at left
  | cons item rest inductionHypothesis =>
    by_cases below : gathered < quota
    · simp only [fill, below, ↓reduceIte, load_cons] at left ⊢
      have reached := inductionHypothesis (gathered + weight item) left
      omega
    · simp only [fill, below, ↓reduceIte, load_nil]
      omega

/-- Greed is earliest: a block never extends beyond any initial part of the items
that already reaches the quota. -/
theorem fill_within (weight : α → Nat) (quota gathered : Nat) (first later : List α)
    (reached : quota ≤ gathered + load weight first) :
    ∃ skipped, (fill weight quota gathered (first ++ later)).2 = skipped ++ later := by
  induction first generalizing gathered with
  | nil =>
    have full : ¬ gathered < quota := by simpa using reached
    refine ⟨[], ?_⟩
    cases later with
    | nil => rfl
    | cons item rest => simp [fill, full]
  | cons item rest inductionHypothesis =>
    by_cases below : gathered < quota
    · obtain ⟨skipped, same⟩ := inductionHypothesis (gathered + weight item) (by
        simp only [load_cons] at reached
        omega)
      exact ⟨skipped, by simp [fill, below, same]⟩
    · exact ⟨item :: rest, by simp [fill, below]⟩

/-- The blocks and the rest are the original items, in order. -/
theorem cut_flatten (weight : α → Nat) (quota blocks : Nat) (items : List α) :
    (cut weight quota blocks items).1.flatten ++ (cut weight quota blocks items).2 = items := by
  induction blocks generalizing items with
  | zero => rfl
  | succ blocks inductionHypothesis =>
    simp only [cut, List.flatten_cons, List.append_assoc, inductionHypothesis, fill_append]

/-- There are as many blocks as asked for. -/
theorem cut_length (weight : α → Nat) (quota blocks : Nat) (items : List α) :
    (cut weight quota blocks items).1.length = blocks := by
  induction blocks generalizing items with
  | zero => rfl
  | succ blocks inductionHypothesis => simp [cut, inductionHypothesis]

/-- When the greedy cut leaves something over, each of its blocks reached the
quota: a block that ran out of items leaves nothing for anyone. -/
theorem cut_reaches (weight : α → Nat) (quota blocks : Nat) (items : List α)
    (left : (cut weight quota blocks items).2 ≠ []) :
    ∀ part ∈ (cut weight quota blocks items).1, quota ≤ load weight part := by
  induction blocks generalizing items with
  | zero => simp [cut]
  | succ blocks inductionHypothesis =>
    intro part member
    have later := inductionHypothesis (fill weight quota 0 items).2 left
    rcases List.mem_cons.mp member with rfl | member
    · have offered : (fill weight quota 0 items).2 ≠ [] := by
        intro empty
        have nothing := cut_flatten weight quota blocks (fill weight quota 0 items).2
        rw [empty] at nothing
        exact left (by simpa [cut, empty] using (List.append_eq_nil_iff.mp nothing).2)
      simpa using fill_reaches weight quota 0 items offered
    · exact later part member

/-- Any quota-reaching cut of a later part of the items leaves at most what the
greedy cut of all of them leaves.

Proof: the skipped items only help the first block. It ends within the skipped
items and the competitor's first part, so the remainder again ends with the
competitor's remaining parts, and the induction on the number of blocks applies. -/
theorem cut_leaves_most (weight : α → Nat) (quota blocks : Nat) (skipped : List α)
    (parts : List (List α)) (rest : List α) (count : parts.length = blocks)
    (reached : ∀ part ∈ parts, quota ≤ load weight part) :
    ∃ more, (cut weight quota blocks (skipped ++ (parts.flatten ++ rest))).2 = more ++ rest := by
  induction blocks generalizing skipped parts with
  | zero =>
    have empty : parts = [] := List.length_eq_zero_iff.mp count
    exact ⟨skipped, by simp [cut, empty]⟩
  | succ blocks inductionHypothesis =>
    cases parts with
    | nil => simp at count
    | cons part others =>
      have heavy : quota ≤ 0 + load weight (skipped ++ part) := by
        have enough := reached part List.mem_cons_self
        simp only [load_append]
        omega
      obtain ⟨between, remaining⟩ :=
        fill_within weight quota 0 (skipped ++ part) (others.flatten ++ rest) heavy
      obtain ⟨more, final⟩ := inductionHypothesis between others
        (by simpa using count) (fun other member => reached other (List.mem_cons_of_mem _ member))
      refine ⟨more, ?_⟩
      have regrouped : skipped ++ ((part :: others).flatten ++ rest) =
          (skipped ++ part) ++ (others.flatten ++ rest) := by
        simp
      simp only [cut, regrouped, remaining, final]

/-- The greedy cut leaves something over exactly when some quota-reaching cut does. -/
theorem cut_rest_iff (weight : α → Nat) (quota blocks : Nat) (items : List α) :
    (cut weight quota blocks items).2 ≠ [] ↔ LeavesOver weight quota blocks items := by
  constructor
  · intro left
    exact ⟨_, _, cut_length weight quota blocks items, cut_reaches weight quota blocks items left,
      left, cut_flatten weight quota blocks items⟩
  · rintro ⟨parts, rest, count, reached, left, rfl⟩ nothing
    obtain ⟨more, final⟩ := cut_leaves_most weight quota blocks [] parts rest count reached
    rw [List.nil_append] at final
    rw [final] at nothing
    exact left (List.append_eq_nil_iff.mp nothing).2

section Balance

variable (weight : α → Nat)

/-- Parts that all reach the quota weigh at least as many quotas together. -/
theorem mul_le_load_flatten {quota : Nat} {parts : List (List α)}
    (reached : ∀ part ∈ parts, quota ≤ load weight part) :
    parts.length * quota ≤ load weight parts.flatten := by
  induction parts with
  | nil => simp
  | cons part parts inductionHypothesis =>
    have first := reached part List.mem_cons_self
    have later := inductionHypothesis fun other member =>
      reached other (List.mem_cons_of_mem _ member)
    rw [List.length_cons, List.flatten_cons, load_append, Nat.succ_mul]
    omega

/-- Parts that are all within a bound weigh no more than as many bounds together. -/
theorem load_flatten_le_mul {bound : Nat} {parts : List (List α)}
    (within : ∀ part ∈ parts, load weight part ≤ bound) :
    load weight parts.flatten ≤ parts.length * bound := by
  induction parts with
  | nil => simp
  | cons part parts inductionHypothesis =>
    have first := within part List.mem_cons_self
    have later := inductionHypothesis fun other member =>
      within other (List.mem_cons_of_mem _ member)
    rw [List.length_cons, List.flatten_cons, load_append, Nat.succ_mul]
    omega

/-- With the average as its quota, the greedy cut leaves no more than the division does. -/
theorem load_cut_rest_le (blocks : Nat) (items : List α) :
    load weight (cut weight (load weight items / blocks) blocks items).2 ≤
      load weight items % blocks := by
  let quota := load weight items / blocks
  by_cases empty : (cut weight quota blocks items).2 = []
  · rw [empty]
    exact Nat.zero_le _
  · have heavy := mul_le_load_flatten weight (cut_reaches weight quota blocks items empty)
    have parts := congrArg (load weight) (cut_flatten weight quota blocks items)
    have division := Nat.div_add_mod (load weight items) blocks
    rw [cut_length] at heavy
    rw [load_append] at parts
    simp only [quota] at heavy parts ⊢
    omega

/-- Before its last item was taken, a block was below the quota. -/
theorem fill_before_last {quota gathered : Nat} {items front : List α} {last : α}
    (ends : (fill weight quota gathered items).1 = front ++ [last]) :
    gathered + load weight front < quota := by
  induction items generalizing gathered front with
  | nil => simp [fill] at ends
  | cons item rest inductionHypothesis =>
    by_cases below : gathered < quota
    · simp only [fill, below, ↓reduceIte] at ends
      cases front with
      | nil => simpa using below
      | cons first front =>
        obtain ⟨rfl, later⟩ := List.cons.inj ends
        have onward := inductionHypothesis later
        rw [load_cons]
        omega
    · simp [fill, below] at ends

/-- Without its last item a block does not reach the quota. -/
theorem cut_before_last {quota blocks : Nat} {items front : List α} {last : α}
    (member : front ++ [last] ∈ (cut weight quota blocks items).1) :
    load weight front < quota := by
  induction blocks generalizing items with
  | zero => simp [cut] at member
  | succ blocks inductionHypothesis =>
    rcases List.mem_cons.mp member with first | later
    · simpa using fill_before_last weight first.symm
    · exact inductionHypothesis later

/-- An item weighs no more than a list it is in. -/
theorem weight_le_load {item : α} {items : List α} (member : item ∈ items) :
    weight item ≤ load weight items := by
  obtain ⟨front, rest, rfl⟩ := List.append_of_mem member
  rw [load_append, load_cons]
  omega

/-- Of ascending items nothing is left out if what is left out is lighter than some item. -/
theorem rest_nil_of_ascending {taken rest : List α}
    (ascending : (taken ++ rest).Pairwise (fun first second => weight first ≤ weight second))
    {item : α} (member : item ∈ taken ++ rest) (light : load weight rest < weight item) :
    rest = [] := by
  by_contra nonempty
  obtain ⟨behind, isBehind⟩ := List.exists_mem_of_ne_nil _ nonempty
  have lighter := weight_le_load weight isBehind
  rcases List.mem_append.mp member with inTaken | inRest
  · have heavier := (List.pairwise_append.mp ascending).2.2 item inTaken behind isBehind
    omega
  · have within := weight_le_load weight inRest
    omega

/-- Some part of any division is at least the average. -/
theorem exists_average_part {parts : List (List α)} (nonempty : parts ≠ []) :
    ∃ part ∈ parts, load weight parts.flatten / parts.length ≤ load weight part := by
  by_contra none
  have light : ∀ part ∈ parts,
      load weight part ≤ load weight parts.flatten / parts.length - 1 := by
    intro part member
    by_contra heavy
    exact none ⟨part, member, by omega⟩
  obtain ⟨first, present⟩ := List.exists_mem_of_ne_nil parts nonempty
  have positive : 0 < load weight parts.flatten / parts.length := by
    by_contra zero
    exact none ⟨first, present, by omega⟩
  have total := load_flatten_le_mul weight light
  have average := Nat.mul_div_le (load weight parts.flatten) parts.length
  have count : 0 < parts.length := List.length_pos_iff.mpr nonempty
  rw [Nat.mul_sub, Nat.mul_one] at total
  have room : parts.length ≤ parts.length * (load weight parts.flatten / parts.length) :=
    Nat.le_mul_of_pos_right _ positive
  omega

/-- The order does not matter. -/
theorem load_perm {items others : List α} (same : items.Perm others) :
    load weight items = load weight others :=
  (same.map weight).sum_nat

/-- With the average as its quota, no block of the greedy cut weighs more than twice the
heaviest part of any division of the same items into as many parts.

Proof: before its last item the block was below the average, and some part reaches that;
some part holds the last item. The heavier of the two is at least half the block. -/
theorem cut_balanced {blocks : Nat} (positive : 0 < blocks) {items block : List α}
    (member : block ∈ (cut weight (load weight items / blocks) blocks items).1)
    {parts : List (List α)} (count : parts.length = blocks) (same : parts.flatten.Perm items) :
    ∃ part ∈ parts, load weight block ≤ 2 * load weight part := by
  have nonempty : parts ≠ [] := by
    rintro rfl
    simp at count
    omega
  obtain ⟨average, isPart, reaches⟩ := exists_average_part weight nonempty
  rw [load_perm weight same, count] at reaches
  rcases List.eq_nil_or_concat block with rfl | ⟨front, last, rfl⟩
  · exact ⟨average, isPart, by simp⟩
  · rw [List.concat_eq_append] at member ⊢
    have below := cut_before_last weight member
    have present : last ∈ parts.flatten := by
      rw [same.mem_iff, ← cut_flatten weight (load weight items / blocks) blocks items]
      exact List.mem_append_left _ (List.mem_flatten.mpr ⟨_, member, by simp⟩)
    obtain ⟨holder, isHolder, inside⟩ := List.mem_flatten.mp present
    have fits := weight_le_load weight inside
    have sum : load weight (front ++ [last]) = load weight front + weight last := by simp
    rcases Nat.le_total (load weight average) (load weight holder) with less | more
    · exact ⟨holder, isHolder, by omega⟩
    · exact ⟨average, isPart, by omega⟩

end Balance

end OsLabwork.QuotaCutting
