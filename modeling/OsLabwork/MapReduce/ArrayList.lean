import Mathlib.Algebra.Order.Ring.Int
import OsLabwork.Library.Traversals

/-!
# The growing pointer array

`array_list` keeps a block of cells, the number of cells in use, the number of
cells allocated and a read position for the value iterator. A cell that has been
allocated but never written is `none`; reading it, or storing outside the block,
has no result. Sizes are element counts of blocks that exist in one address
space, so the `size_t` arithmetic on them is exact.

The four phases of growth (double, allocate, copy, swap), the store and the count
are separate definitions. `pushItem` runs them in order; the concurrent model
runs the same definitions one at a time.
-/

namespace OsLabwork.MapReduce

universe u
variable {α : Type u}

/-- `array_list`: the allocated block, the cells in use, the cells allocated and
the position of the value iterator. -/
structure ArrayList (α : Type u) where
  array : List (Option α)
  length : Nat
  volume : Nat
  iterPos : Nat
deriving DecidableEq, Repr

namespace ArrayList

/-- The volume of a new list. -/
def defaultVolume : Nat := 8

/-- `malloc` of a block: the cells have no value yet. -/
def mallocArray (volume : Nat) : List (Option α) := List.replicate volume none

/-- `init_list`. -/
def initList : ArrayList α where
  array := mallocArray defaultVolume
  length := 0
  volume := defaultVolume
  iterPos := 0

/-- `while (target < required_volume) target *= 2`. The fuel bounds the number of
doublings; running out of it stands for a loop that does not end. -/
def doubleTo (required : Nat) : Nat → Nat → Option Nat
  | 0, target => if target < required then none else some target
  | fuel + 1, target =>
      if target < required then doubleTo required fuel (target * 2) else some target

/-- `memcpy` of the old block over the beginning of the new one. -/
def copyArray (fresh old : List (Option α)) (volume : Nat) : List (Option α) :=
  old.take volume ++ fresh.drop volume

/-- The list takes over the new block; the old one is freed. -/
def swapArray (list : ArrayList α) (fresh : List (Option α)) (target : Nat) : ArrayList α :=
  { list with array := fresh, volume := target }

/-- `__ensure_volume`. -/
def ensureVolume (list : ArrayList α) (required : Nat) : Option (ArrayList α) :=
  if required ≤ list.volume then some list
  else (doubleTo required required list.volume).map fun target =>
    swapArray list (copyArray (mallocArray target) list.array list.volume) target

/-- `list->array[list->length] = item`, which exists only inside the block. -/
def storeItem (list : ArrayList α) (item : α) : Option (ArrayList α) :=
  if list.length < list.array.length then
    some { list with array := list.array.set list.length (some item) }
  else none

/-- The length after an item was stored. -/
def countItem (list : ArrayList α) : ArrayList α := { list with length := list.length + 1 }

/-- `push_item`. -/
def pushItem (list : ArrayList α) (item : α) : Option (ArrayList α) := do
  let roomy ← ensureVolume list (list.length + 1)
  let stored ← storeItem roomy item
  return countItem stored

/-- `list->array[index]`, absent when the cell is outside the block or unwritten. -/
def readItem (list : ArrayList α) (index : Nat) : Option α := list.array[index]?.join

/-- The cells in use, read from first to last. -/
def readItems (list : ArrayList α) : Option (List α) := (List.range list.length).mapM list.readItem

/-- The list stores exactly the given items: they fill the cells in use, and the
block has the recorded size, which is the default doubled some number of times. -/
structure Represents (list : ArrayList α) (items : List α) : Prop where
  stored : list.array.take list.length = items.map some
  counted : list.length = items.length
  block : list.array.length = list.volume
  fits : list.length ≤ list.volume
  doubled : ∃ doublings, list.volume = defaultVolume * 2 ^ doublings

/-- A new list is empty. -/
theorem initList_represents : Represents (initList : ArrayList α) [] where
  stored := rfl
  counted := rfl
  block := by simp [initList, mallocArray]
  fits := Nat.zero_le _
  doubled := ⟨0, rfl⟩

/-- The doubling loop ends at the first doubling that reaches the requirement. A
positive volume gains at least one with each doubling, which pays for the fuel. -/
theorem doubleTo_reaches (required fuel target : Nat) (positive : 0 < target)
    (enough : required ≤ target + fuel) :
    ∃ doublings, doubleTo required fuel target = some (target * 2 ^ doublings) ∧
      required ≤ target * 2 ^ doublings := by
  induction fuel generalizing target with
  | zero =>
    have reached : ¬ target < required := by omega
    exact ⟨0, by simp [doubleTo, reached], by simpa using Nat.le_of_not_lt reached⟩
  | succ fuel inductionHypothesis =>
    by_cases below : target < required
    · obtain ⟨doublings, result, reached⟩ :=
        inductionHypothesis (target * 2) (by omega) (by omega)
      have regrouped : target * 2 * 2 ^ doublings = target * 2 ^ (doublings + 1) := by
        rw [Nat.pow_succ, Nat.mul_assoc, Nat.mul_comm 2]
      exact ⟨doublings + 1, by simp [doubleTo, below, result, regrouped], regrouped ▸ reached⟩
    · exact ⟨0, by simp [doubleTo, below], by simpa using Nat.le_of_not_lt below⟩

namespace Represents

variable {list : ArrayList α} {items : List α}

/-- A list has room for something. -/
theorem positive (represents : Represents list items) : 0 < list.volume := by
  obtain ⟨doublings, volume⟩ := represents.doubled
  rw [volume]
  exact Nat.mul_pos (by decide) (Nat.two_pow_pos doublings)

/-- Taking over a copied, larger block changes neither the items nor the count. -/
theorem swapArray (represents : Represents list items) (target : Nat)
    (larger : list.volume ≤ target)
    (doubled : ∃ doublings, target = defaultVolume * 2 ^ doublings) :
    Represents (list.swapArray (copyArray (mallocArray target) list.array list.volume) target)
      items where
  stored := by
    have whole : list.array.take list.volume = list.array := by
      rw [← represents.block, List.take_length]
    simp only [ArrayList.swapArray, copyArray, whole]
    rw [List.take_append_of_le_length (represents.block ▸ represents.fits)]
    exact represents.stored
  counted := represents.counted
  block := by
    simp only [ArrayList.swapArray, copyArray, mallocArray, List.length_append, List.length_take,
      List.length_drop, List.length_replicate, represents.block]
    omega
  fits := Nat.le_trans represents.fits larger
  doubled := doubled

/-- Growth succeeds, keeps the items, the count and the read position, and leaves
room for the requirement. -/
theorem ensureVolume (represents : Represents list items) (required : Nat) :
    ∃ roomy, list.ensureVolume required = some roomy ∧ Represents roomy items ∧
      required ≤ roomy.volume ∧ roomy.length = list.length ∧ roomy.iterPos = list.iterPos := by
  by_cases room : required ≤ list.volume
  · exact ⟨list, by simp [ArrayList.ensureVolume, room], represents, room, rfl, rfl⟩
  · obtain ⟨doublings, result, reached⟩ :=
      doubleTo_reaches required required list.volume represents.positive (by omega)
    obtain ⟨earlier, volume⟩ := represents.doubled
    have doubled : ∃ total, list.volume * 2 ^ doublings = defaultVolume * 2 ^ total :=
      ⟨earlier + doublings, by rw [volume, Nat.mul_assoc, Nat.pow_add]⟩
    refine ⟨_, by simp [ArrayList.ensureVolume, room, result],
      represents.swapArray _ (by omega) doubled, reached, rfl, rfl⟩

/-- A store at the first free cell is inside the block and changes no item. -/
theorem storeItem (represents : Represents list items) (item : α)
    (room : list.length < list.volume) :
    ∃ stored, list.storeItem item = some stored ∧ Represents stored items ∧
      stored.array[list.length]? = some (some item) ∧ stored.length = list.length ∧
      stored.volume = list.volume ∧ stored.iterPos = list.iterPos := by
  have inside : list.length < list.array.length := represents.block ▸ room
  refine ⟨{ list with array := list.array.set list.length (some item) },
    by simp [ArrayList.storeItem, inside], ?_, ?_, rfl, rfl, rfl⟩
  · exact {
      stored := by simpa [List.take_set_of_le] using represents.stored
      counted := represents.counted
      block := by simpa using represents.block
      fits := represents.fits
      doubled := represents.doubled }
  · simp [inside]

/-- Counting the stored cell appends it to the items. -/
theorem countItem (represents : Represents list items) (item : α)
    (room : list.length < list.volume) (written : list.array[list.length]? = some (some item)) :
    Represents list.countItem (items ++ [item]) where
  stored := by
    simp only [ArrayList.countItem, List.map_append, List.map_cons, List.map_nil]
    rw [List.take_add_one, represents.stored, written]
    rfl
  counted := by simp [ArrayList.countItem, represents.counted]
  block := represents.block
  fits := room
  doubled := represents.doubled

/-- `push_item` appends one item and leaves the read position alone. -/
theorem pushItem (represents : Represents list items) (item : α) :
    ∃ pushed, list.pushItem item = some pushed ∧ Represents pushed (items ++ [item]) ∧
      pushed.iterPos = list.iterPos := by
  obtain ⟨roomy, grown, kept, room, length, position⟩ :=
    represents.ensureVolume (list.length + 1)
  have free : roomy.length < roomy.volume := by omega
  obtain ⟨stored, storing, same, written, storedLength, storedVolume, storedPosition⟩ :=
    kept.storeItem item free
  refine ⟨stored.countItem, by simp [ArrayList.pushItem, grown, storing], ?_, ?_⟩
  · exact same.countItem item (by omega) (storedLength ▸ written)
  · exact storedPosition.trans position

/-- A cell in use reads back the item stored there. -/
theorem readItem (represents : Represents list items) (index : Nat) (used : index < items.length) :
    list.readItem index = some (items.get ⟨index, used⟩) := by
  have cell : (list.array.take list.length)[index]? = (items.map some)[index]? := by
    rw [represents.stored]
  rw [List.getElem?_take_of_lt (represents.counted ▸ used)] at cell
  simp [ArrayList.readItem, cell, used]

/-- Reading the cells in use gives the items. -/
theorem readItems (represents : Represents list items) : list.readItems = some items := by
  rw [ArrayList.readItems, represents.counted]
  exact Traversals.mapM_range items list.readItem represents.readItem

end Represents

end ArrayList

end OsLabwork.MapReduce
