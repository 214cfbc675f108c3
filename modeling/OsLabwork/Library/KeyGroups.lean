import Mathlib.Data.List.Basic

/-!
# Groups of equal keys

A group is a nonempty run of items that share one key. A list whose keys are in
ascending order is a sequence of groups with strictly ascending keys: each key has
one group, and the group contains all items of that key, in list order.
-/

namespace OsLabwork.KeyGroups

universe u v
variable {α : Type u} {κ : Type v} {key : α → κ}

/-- A nonempty run of items with the key of the first. -/
structure Group (key : α → κ) where
  first : α
  more : List α
  uniform : ∀ item ∈ more, key item = key first

namespace Group

/-- The items of a group. -/
def items (group : Group key) : List α := group.first :: group.more

/-- Their common key. -/
def shared (group : Group key) : κ := key group.first

/-- Every item has it. -/
theorem shared_of_mem (group : Group key) {item : α} (member : item ∈ group.items) :
    key item = group.shared := by
  rcases List.mem_cons.mp member with rfl | later
  · rfl
  · exact group.uniform item later

end Group

/-- The items of a sequence of groups. -/
def expand (groups : List (Group key)) : List α := groups.flatMap Group.items

/-- No groups are nothing. -/
@[simp] theorem expand_nil : expand ([] : List (Group key)) = [] := rfl

/-- The first group, and then the others. -/
@[simp] theorem expand_cons (group : Group key) (groups : List (Group key)) :
    expand (group :: groups) = group.items ++ expand groups := rfl

/-- Every key of the items is the key of some group. -/
theorem mem_expand_key {groups : List (Group key)} {item : α} (member : item ∈ expand groups) :
    key item ∈ groups.map Group.shared := by
  obtain ⟨group, present, inGroup⟩ := List.mem_flatMap.mp member
  exact List.mem_map.mpr ⟨group, present, (group.shared_of_mem inGroup).symm⟩

section Ascending

variable (le : κ → κ → Prop) [DecidableEq κ]

/-- An ascending list is a sequence of groups with strictly ascending keys.

Proof: prepend the items from the last to the first. A new item joins the first
group when it has its key, and otherwise starts a group of its own, which lies
strictly below all others because the first of them separates it from the rest. -/
theorem exists_groups (antisymmetric : ∀ a b, le a b → le b a → a = b) (items : List α)
    (ascending : items.Pairwise (fun left right => le (key left) (key right))) :
    ∃ groups : List (Group key), expand groups = items ∧
      (groups.map Group.shared).Pairwise (fun left right => le left right ∧ left ≠ right) := by
  induction items with
  | nil => exact ⟨[], rfl, List.Pairwise.nil⟩
  | cons item rest inductionHypothesis =>
    obtain ⟨below, ascendingRest⟩ := List.pairwise_cons.mp ascending
    obtain ⟨groups, same, strict⟩ := inductionHypothesis ascendingRest
    cases groups with
    | nil =>
      refine ⟨[⟨item, [], by simp⟩], ?_, by simp⟩
      rw [← same]
      rfl
    | cons group others =>
      rw [List.map_cons] at strict
      obtain ⟨lowest, strictOthers⟩ := List.pairwise_cons.mp strict
      by_cases joins : key item = group.shared
      · have uniform : ∀ other ∈ group.items, key other = key item := by
          intro other member
          rw [group.shared_of_mem member, joins]
        refine ⟨⟨item, group.items, uniform⟩ :: others, ?_, ?_⟩
        · rw [← same]
          rfl
        · simp only [List.map_cons, List.pairwise_cons]
          refine ⟨?_, strictOthers⟩
          intro other member
          have lower := lowest other member
          rwa [← joins] at lower
      · refine ⟨⟨item, [], by simp⟩ :: group :: others, ?_, ?_⟩
        · rw [← same]
          rfl
        · have toGroup : le (key item) group.shared := by
            refine below group.first ?_
            rw [← same]
            simp [Group.items]
          rw [List.map_cons]
          refine List.pairwise_cons.mpr ⟨?_, strict⟩
          intro other member
          obtain ⟨owner, present, rfl⟩ := List.mem_map.mp member
          have toOwner : le (key item) owner.shared := by
            refine below owner.first ?_
            rw [← same]
            exact List.mem_flatMap.mpr ⟨owner, present, List.mem_cons_self⟩
          refine ⟨toOwner, ?_⟩
          rintro equal
          rcases List.mem_cons.mp present with rfl | later
          · exact joins equal
          · have above := lowest owner.shared (List.mem_map_of_mem later)
            have back : le owner.shared group.shared := equal ▸ toGroup
            exact above.2 (antisymmetric _ _ above.1 back)

/-- With distinct group keys, one group contains all the items of its key. -/
theorem filter_expand (groups : List (Group key)) (distinct : (groups.map Group.shared).Nodup)
    (group : Group key) (present : group ∈ groups) :
    (expand groups).filter (fun item => key item = group.shared) = group.items := by
  induction groups with
  | nil => simp at present
  | cons head others inductionHypothesis =>
    rw [List.map_cons, List.nodup_cons] at distinct
    rw [expand_cons, List.filter_append]
    rcases List.mem_cons.mp present with rfl | later
    · have own : group.items.filter (fun item => key item = group.shared) = group.items := by
        rw [List.filter_eq_self]
        intro item member
        simpa using group.shared_of_mem member
      have foreign : (expand others).filter (fun item => key item = group.shared) = [] := by
        rw [List.filter_eq_nil_iff]
        intro item member
        have listed := mem_expand_key member
        simp only [decide_eq_true_eq]
        rintro equal
        exact distinct.1 (equal ▸ listed)
      rw [own, foreign, List.append_nil]
    · have foreign : head.items.filter (fun item => key item = group.shared) = [] := by
        rw [List.filter_eq_nil_iff]
        intro item member
        simp only [decide_eq_true_eq]
        rintro equal
        rw [head.shared_of_mem member] at equal
        exact distinct.1 (equal ▸ List.mem_map_of_mem later)
      rw [foreign, List.nil_append]
      exact inductionHypothesis distinct.2 later

end Ascending

end OsLabwork.KeyGroups
