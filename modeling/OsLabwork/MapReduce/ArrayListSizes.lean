import OsLabwork.MapReduce.ArrayList

/-!
# The growing pointer array in machine arithmetic

Lengths, volumes and byte counts of `arraylist.c` are of type `size_t`: sums, doublings
and products with the size of a pointer wrap around at `2 ^ 64`. Blocks are requested and
copied in bytes. As long as fewer than `2 ^ 60` items have been pushed nothing wraps, so
the list with exact sizes describes what the code does.
-/

namespace OsLabwork.MapReduce.ArrayList.Sized

universe u
variable {α : Type u}

/-- The number of values of `size_t`. -/
def sizeRange : Nat := 2 ^ 64

/-- `sizeof(void*)`. -/
def pointerSize : Nat := 8

/-- `malloc` of a number of bytes: as many pointers without a value as fit. -/
def mallocBytes (bytes : Nat) : List (Option α) := mallocArray (bytes / pointerSize)

/-- `memcpy` of a number of bytes, which both blocks must have. -/
def memcpyBytes (fresh old : List (Option α)) (bytes : Nat) : Option (List (Option α)) :=
  if bytes ≤ fresh.length * pointerSize ∧ bytes ≤ old.length * pointerSize then
    some (copyArray fresh old (bytes / pointerSize))
  else none

/-- `init_list`, with its size in bytes. -/
def initList : ArrayList α where
  array := mallocBytes (defaultVolume * pointerSize % sizeRange)
  length := 0
  volume := defaultVolume
  iterPos := 0

/-- `while (target < required_volume) target *= 2` in `size_t`. The fuel bounds the number
of doublings; a loop that does not end runs out of any fuel. -/
def doubleTo (required : Nat) : Nat → Nat → Option Nat
  | 0, target => if target < required then none else some target
  | fuel + 1, target =>
      if target < required then doubleTo required fuel (target * 2 % sizeRange)
      else some target

/-- `__ensure_volume`, with sizes in bytes. -/
def ensureVolume (fuel : Nat) (list : ArrayList α) (required : Nat) : Option (ArrayList α) :=
  if required ≤ list.volume then some list
  else (doubleTo required fuel list.volume).bind fun target =>
    (memcpyBytes (mallocBytes (target * pointerSize % sizeRange)) list.array
      (list.volume * pointerSize % sizeRange)).map fun copied => swapArray list copied target

/-- The length, which wraps around. -/
def countItem (list : ArrayList α) : ArrayList α :=
  { list with length := (list.length + 1) % sizeRange }

/-- `push_item`, with sizes that wrap around. -/
def pushItem (fuel : Nat) (list : ArrayList α) (item : α) : Option (ArrayList α) := do
  let roomy ← ensureVolume fuel list ((list.length + 1) % sizeRange)
  let stored ← storeItem roomy item
  return countItem stored

/-- Items pushed one after the other. -/
def pushItems (fuel : Nat) (list : ArrayList α) (items : List α) : Option (ArrayList α) :=
  items.foldlM (pushItem fuel) list

/-- A new list is the one without sizes. -/
theorem initList_eq : (initList : ArrayList α) = ArrayList.initList := rfl

/-- The block request does not wrap, and the copy stays inside both blocks. -/
theorem memcpyBytes_grow (array : List (Option α)) (small : array.length < 2 ^ 60) :
    memcpyBytes (mallocBytes (array.length * 2 * pointerSize % sizeRange)) array
        (array.length * pointerSize % sizeRange) =
      some (copyArray (mallocArray (array.length * 2)) array array.length) := by
  have fresh : array.length * 2 * pointerSize % sizeRange = array.length * 2 * pointerSize :=
    Nat.mod_eq_of_lt (by simp only [pointerSize, sizeRange]; omega)
  have old : array.length * pointerSize % sizeRange = array.length * pointerSize :=
    Nat.mod_eq_of_lt (by simp only [pointerSize, sizeRange]; omega)
  have cells (count : Nat) : count * pointerSize / pointerSize = count :=
    Nat.mul_div_cancel count (by decide)
  rw [fresh, old, memcpyBytes, if_pos]
  · rw [mallocBytes, cells, cells]
  · simp only [mallocBytes, mallocArray, List.length_replicate, cells]
    exact ⟨Nat.mul_le_mul_right _ (by omega), Nat.le_refl _⟩

section Exact

variable {list : ArrayList α} {items : List α} {fuel : Nat}

/-- Growth for one more item is the growth of the list with exact sizes. Room is missing
only when the block is full, and then a single doubling is enough. -/
theorem ensureVolume_eq (represents : list.Represents items) (small : list.length < 2 ^ 60)
    (loop : 1 ≤ fuel) :
    ensureVolume fuel list ((list.length + 1) % sizeRange) =
      list.ensureVolume (list.length + 1) := by
  have required : (list.length + 1) % sizeRange = list.length + 1 :=
    Nat.mod_eq_of_lt (by simp only [sizeRange]; omega)
  rw [required]
  by_cases room : list.length + 1 ≤ list.volume
  · rw [ensureVolume, ArrayList.ensureVolume, if_pos room, if_pos room]
  · have full : list.volume = list.length := by
      have fits := represents.fits
      omega
    have positive := represents.positive
    have reached : ¬ list.volume * 2 < list.length + 1 := by omega
    have below : list.volume < list.length + 1 := by omega
    have doubled : list.volume * 2 % sizeRange = list.volume * 2 :=
      Nat.mod_eq_of_lt (by simp only [sizeRange]; omega)
    have machine : doubleTo (list.length + 1) fuel list.volume = some (list.volume * 2) := by
      obtain ⟨more, rfl⟩ := Nat.exists_eq_add_of_le' loop
      cases more <;> simp [doubleTo, below, doubled, reached]
    have exact (more : Nat) : ArrayList.doubleTo (list.length + 1) (more + 1) list.volume =
        some (list.volume * 2) := by
      cases more <;> simp [ArrayList.doubleTo, below, reached]
    have copied := memcpyBytes_grow list.array (by rw [represents.block]; omega)
    rw [represents.block] at copied
    simp [ensureVolume, ArrayList.ensureVolume, room, machine, exact, copied]

/-- A push is the push of the list with exact sizes. -/
theorem pushItem_eq (represents : list.Represents items) (small : list.length < 2 ^ 60)
    (loop : 1 ≤ fuel) (item : α) : pushItem fuel list item = list.pushItem item := by
  obtain ⟨roomy, grown, kept, room, length, _⟩ := represents.ensureVolume (list.length + 1)
  obtain ⟨stored, storing, _, _, storedLength, _⟩ :=
    kept.storeItem item (by omega)
  have counted : countItem stored = stored.countItem := by
    have exact : (stored.length + 1) % sizeRange = stored.length + 1 :=
      Nat.mod_eq_of_lt (by simp only [sizeRange]; omega)
    rw [countItem, ArrayList.countItem, exact]
  simp [pushItem, ArrayList.pushItem, ensureVolume_eq represents small loop, grown, storing,
    counted]

end Exact

/-- One more item. -/
theorem pushItems_concat (fuel : Nat) (list : ArrayList α) (items : List α) (item : α) :
    pushItems fuel list (items ++ [item]) =
      (pushItems fuel list items).bind fun reached => pushItem fuel reached item := by
  simp [pushItems, List.foldlM_append]

/-- Fewer than `2 ^ 60` pushes store the items in order. -/
theorem pushItems_represents (items : List α) (few : items.length < 2 ^ 60) :
    ∃ list, (∀ fuel, 1 ≤ fuel → pushItems fuel initList items = some list) ∧
      list.Represents items := by
  induction items using List.reverseRecOn with
  | nil => exact ⟨initList, fun _ _ => rfl, initList_eq ▸ initList_represents⟩
  | append_singleton items item inductionHypothesis =>
    rw [List.length_append, List.length_singleton] at few
    obtain ⟨list, reached, represents⟩ := inductionHypothesis (by omega)
    obtain ⟨pushed, pushing, grown, _⟩ := represents.pushItem item
    refine ⟨pushed, fun fuel loop => ?_, grown⟩
    have small : list.length < 2 ^ 60 := by
      rw [represents.counted]
      omega
    rw [pushItems_concat, reached fuel loop]
    exact (pushItem_eq represents small loop item).trans pushing

/-- The list refines an append-only list: one more push, after any sequence of pushes that
keeps the total below `2 ^ 60`, finds the items pushed so far in the cells in use, ends its
doubling loop, keeps the items, the length and the read position when it grows, stores
below the volume, and leaves a list that represents the longer sequence. -/
theorem pushItems_refines (items : List α) (item : α) (few : (items ++ [item]).length < 2 ^ 60) :
    ∃ list roomy pushed : ArrayList α, ∀ fuel, 1 ≤ fuel →
      pushItems fuel initList items = some list ∧ list.Represents items ∧
      ensureVolume fuel list ((list.length + 1) % sizeRange) = some roomy ∧
      roomy.array.take roomy.length = items.map some ∧ roomy.length = list.length ∧
      roomy.iterPos = list.iterPos ∧
      roomy.length < roomy.volume ∧ roomy.array.length = roomy.volume ∧
      pushItem fuel list item = some pushed ∧
      pushItems fuel initList (items ++ [item]) = some pushed ∧
      pushed.Represents (items ++ [item]) := by
  have fewer : items.length + 1 < 2 ^ 60 := by simpa using few
  obtain ⟨list, reached, represents⟩ := pushItems_represents items (by omega)
  have small : list.length < 2 ^ 60 := by
    rw [represents.counted]
    omega
  obtain ⟨roomy, grown, kept, room, length, position⟩ :=
    represents.ensureVolume (list.length + 1)
  obtain ⟨pushed, pushing, longer, _⟩ := represents.pushItem item
  refine ⟨list, roomy, pushed, fun fuel loop => ?_⟩
  have last := (pushItem_eq represents small loop item).trans pushing
  refine ⟨reached fuel loop, represents,
    (ensureVolume_eq represents small loop).trans grown, kept.stored, length, position,
    by omega, kept.block, last, ?_, longer⟩
  rw [pushItems_concat, reached fuel loop]
  exact last

/-- The ninth push is the first that grows the block. -/
theorem pushItems_refines_growth :
    ([1, 2, 3, 4, 5, 6, 7, 8] ++ [9]).length < 2 ^ 60 ∧
    ∃ list roomy pushed : ArrayList Nat, ∀ fuel, 1 ≤ fuel →
      pushItems fuel initList [1, 2, 3, 4, 5, 6, 7, 8] = some list ∧
      list.Represents [1, 2, 3, 4, 5, 6, 7, 8] ∧
      ensureVolume fuel list ((list.length + 1) % sizeRange) = some roomy ∧
      roomy.array.take roomy.length = [1, 2, 3, 4, 5, 6, 7, 8].map some ∧
      roomy.length = list.length ∧ roomy.iterPos = list.iterPos ∧
      roomy.length < roomy.volume ∧ roomy.array.length = roomy.volume ∧
      pushItem fuel list 9 = some pushed ∧
      pushItems fuel initList ([1, 2, 3, 4, 5, 6, 7, 8] ++ [9]) = some pushed ∧
      pushed.Represents ([1, 2, 3, 4, 5, 6, 7, 8] ++ [9]) :=
  ⟨by decide, pushItems_refines [1, 2, 3, 4, 5, 6, 7, 8] 9 (by decide)⟩

end OsLabwork.MapReduce.ArrayList.Sized
