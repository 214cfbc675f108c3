import Mathlib.Data.List.Sort

/-!
# The contract of the C library's sort

`qsort` receives a three-way comparison. It always returns the same elements, and
it leaves them in order when the comparison is consistent: antisymmetric and
transitive in sign. Nothing is promised about elements that compare as equal, nor
about the order under an inconsistent comparison. A comparison that is consistent on
the sorted elements only is the subject of a contract of its own.
-/

namespace OsLabwork.Sorting

universe u
variable {α : Type u}

/-- The signs of a three-way comparison describe one total preorder. -/
structure Consistent (compare : α → α → Int) : Prop where
  antisymmetric : ∀ left right, compare left right ≤ 0 ↔ 0 ≤ compare right left
  transitive : ∀ first second third,
    compare first second ≤ 0 → compare second third ≤ 0 → compare first third ≤ 0

/-- What a caller may rely on. -/
structure Contract (qsort : (α → α → Int) → List α → List α) : Prop where
  permutes : ∀ compare items, (qsort compare items).Perm items
  ordered : ∀ compare, Consistent compare → ∀ items,
    (qsort compare items).Pairwise (fun left right => compare left right ≤ 0)

/-- The signs describe one total preorder as far as the given items are concerned. -/
structure ConsistentOn (compare : α → α → Int) (items : List α) : Prop where
  antisymmetric : ∀ left ∈ items, ∀ right ∈ items,
    (compare left right ≤ 0 ↔ 0 ≤ compare right left)
  transitive : ∀ first ∈ items, ∀ second ∈ items, ∀ third ∈ items,
    compare first second ≤ 0 → compare second third ≤ 0 → compare first third ≤ 0

/-- What a caller may rely on whose comparison is consistent on the sorted items, but
perhaps not on others. -/
structure Sorts (qsort : (α → α → Int) → List α → List α) : Prop where
  permutes : ∀ compare items, (qsort compare items).Perm items
  ordered : ∀ compare items, ConsistentOn compare items →
    (qsort compare items).Pairwise (fun left right => compare left right ≤ 0)

/-- What sorts keeps the contract. -/
theorem Sorts.contract {qsort : (α → α → Int) → List α → List α} (sorts : Sorts qsort) :
    Contract qsort where
  permutes := sorts.permutes
  ordered compare consistent items := sorts.ordered compare items {
    antisymmetric := fun left _ right _ => consistent.antisymmetric left right
    transitive := fun first _ second _ third _ => consistent.transitive first second third }

/-- Insertion by the comparison's sign, a reference implementation. -/
def insertionQsort (compare : α → α → Int) (items : List α) : List α :=
  items.insertionSort (fun left right => compare left right ≤ 0)

/-- Both contracts can be met. The items are sorted as members of their own list, where
the comparison is consistent. -/
theorem insertionQsort_sorts : Sorts (insertionQsort : (α → α → Int) → List α → List α) where
  permutes compare items := List.perm_insertionSort _ items
  ordered compare items consistent := by
    let below := fun left right : {item // item ∈ items} => compare left.val right.val ≤ 0
    have total : Std.Total below := ⟨by
      intro left right
      have exchanged := consistent.antisymmetric left.val left.property right.val right.property
      simp only [below]
      omega⟩
    have transitive : IsTrans {item // item ∈ items} below := ⟨by
      intro first second third
      exact consistent.transitive first.val first.property second.val second.property third.val
        third.property⟩
    have sorted := List.pairwise_insertionSort below items.attach
    have same : (items.attach.insertionSort below).map Subtype.val =
        insertionQsort compare items := by
      rw [List.map_insertionSort below (fun left right => compare left right ≤ 0) Subtype.val
        items.attach (fun _ _ _ _ => Iff.rfl), List.attach_map_subtype_val]
      rfl
    rw [← same, List.pairwise_map]
    exact sorted

/-- Insertion sort keeps the contract. -/
theorem insertionQsort_contract : Contract (insertionQsort : (α → α → Int) → List α → List α) :=
  insertionQsort_sorts.contract

end OsLabwork.Sorting
