import Mathlib.Data.List.Basic

/-!
# Overwriting a part of a list

Items are written over a list from some place on, which may make the list longer. For a list
that is given by a function of the index, this changes the function on a range.
-/

namespace OsLabwork.Overwriting

universe u
variable {α : Type u}

/-- Write items over a list from a place on. -/
def overwrite (content : List α) (place : Nat) (items : List α) : List α :=
  content.take place ++ items ++ content.drop (place + items.length)

/-- A function is read over two ranges, one behind the other. -/
theorem map_range_add (f : Nat → α) (first second : Nat) :
    (List.range (first + second)).map f =
      (List.range first).map f ++ (List.range second).map (fun k => f (first + k)) := by
  rw [List.range_add, List.map_append, List.map_map]
  rfl

/-- The first values of a function, of those that are listed. -/
theorem take_map_range (f : Nat → α) (count size : Nat) :
    ((List.range size).map f).take count = (List.range (min count size)).map f := by
  rw [← List.map_take, List.take_range]

/-- The listed values of a function from some place on. -/
theorem drop_map_range (f : Nat → α) (count size : Nat) :
    ((List.range size).map f).drop count =
      (List.range (size - count)).map (fun k => f (count + k)) := by
  by_cases short : size ≤ count
  · rw [Nat.sub_eq_zero_of_le short, List.range_zero, List.map_nil]
    exact List.drop_eq_nil_of_le (by rw [List.length_map, List.length_range]; exact short)
  · obtain ⟨rest, rfl⟩ := Nat.exists_eq_add_of_le (Nat.le_of_not_le short)
    rw [map_range_add, List.drop_left' (by rw [List.length_map, List.length_range]),
      Nat.add_sub_cancel_left]

/-- A function that is changed on a range, and defined up to the end of the range. -/
theorem map_range_overwrite (f g source : Nat → α) {size place count : Nat} (inside : place ≤ size)
    (old : ∀ k, k < size → k < place ∨ place + count ≤ k → g k = f k)
    (new : ∀ k, k < count → g (place + k) = source k) :
    (List.range (max size (place + count))).map g =
      overwrite ((List.range size).map f) place ((List.range count).map source) := by
  have split : max size (place + count) = place + (count + (size - (place + count))) := by omega
  rw [split, map_range_add, map_range_add, overwrite, take_map_range, drop_map_range,
    List.length_map, List.length_range, Nat.min_eq_left inside, List.append_assoc]
  refine congrArg₂ _ (List.map_congr_left (fun k member => ?_))
    (congrArg₂ _ (List.map_congr_left (fun k member => ?_))
      (List.map_congr_left (fun k member => ?_)))
  · have small := List.mem_range.mp member
    exact old k (by omega) (Or.inl small)
  · exact new k (List.mem_range.mp member)
  · have small := List.mem_range.mp member
    rw [← Nat.add_assoc]
    exact old _ (by omega) (Or.inr (Nat.le_add_right ..))

/-- Writing nothing changes nothing. -/
@[simp] theorem overwrite_nil (content : List α) (place : Nat) :
    overwrite content place [] = content := by
  rw [overwrite, List.append_nil, List.length_nil, Nat.add_zero, List.take_append_drop]

/-- Two pieces written one behind the other are one piece. -/
theorem overwrite_overwrite (content first second : List α) {place : Nat}
    (inside : place ≤ content.length) :
    overwrite (overwrite content place first) (place + first.length) second =
      overwrite content place (first ++ second) := by
  have front : (content.take place ++ first).length = place + first.length := by
    rw [List.length_append, List.length_take_of_le inside]
  simp only [overwrite]
  rw [List.take_left' front, ← List.drop_drop, List.drop_left' front, List.drop_drop,
    List.length_append, ← Nat.add_assoc, ← List.append_assoc]

/-- The list gets longer where the items reach beyond its end. -/
theorem length_overwrite (content items : List α) {place : Nat}
    (inside : place ≤ content.length) :
    (overwrite content place items).length = max content.length (place + items.length) := by
  rw [overwrite, List.length_append, List.length_append, List.length_take_of_le inside,
    List.length_drop]
  omega

/-- At the end of a list, writing is appending. -/
theorem overwrite_end (content items : List α) :
    overwrite content content.length items = content ++ items := by
  rw [overwrite, List.take_length, List.drop_eq_nil_of_le (Nat.le_add_right ..), List.append_nil]

end OsLabwork.Overwriting
