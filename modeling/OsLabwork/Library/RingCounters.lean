import Mathlib.Algebra.Order.Ring.Nat
import Mathlib.Data.List.Range
import Mathlib.Logic.Function.Basic

/-!
# Rings addressed by counters that wrap around

A buffer of some size is used as a ring. Two machine counters only ever go up, one as
elements are put in and one as they are taken out, and an element's cell is its counter
modulo the size. The counters wrap around at a power of two. As long as the size divides
that power, cells follow each other across the wrap, and as long as no more elements are
in the ring than it has cells, each keeps a cell of its own.
-/

namespace OsLabwork.RingCounters

universe u
variable {w : Nat} {α : Type u}

/-- The elements of the ring between two counters. -/
def window (size : Nat) (cells : Nat → α) (first last : BitVec w) : List α :=
  (List.range (last - first).toNat).map
    (fun offset => cells ((first + BitVec.ofNat w offset).toNat % size))

variable {size : Nat} {cells : Nat → α} {first last : BitVec w}

/-- The distance of the counters is the length. -/
@[simp] theorem window_length : (window size cells first last).length = (last - first).toNat := by
  simp [window]

/-- Equal counters leave nothing. -/
@[simp] theorem window_self : window size cells first first = [] := by
  simp [window]

/-- The distance is zero between equal counters only. -/
theorem toNat_sub_eq_zero_iff : (last - first).toNat = 0 ↔ first = last := by
  constructor
  · intro zero
    have same : last - first = 0#w := BitVec.eq_of_toNat_eq (by simpa using zero)
    grind
  · rintro rfl
    simp

/-- Nothing is left between equal counters only. -/
theorem window_eq_nil_iff : window size cells first last = [] ↔ first = last := by
  rw [← List.length_eq_zero_iff, window_length, toNat_sub_eq_zero_iff]

/-- Offsets are added modulo the size, across the wrap of the counters too. -/
theorem cell_eq (divides : size ∣ 2 ^ w) (counter : BitVec w) (offset : Nat) :
    (counter + BitVec.ofNat w offset).toNat % size = (counter.toNat + offset) % size := by
  rw [BitVec.toNat_add, BitVec.toNat_ofNat, Nat.add_mod_mod, Nat.mod_mod_of_dvd _ divides]

/-- One counter is as far from the other as their distance. -/
theorem add_ofNat_sub (first last : BitVec w) :
    first + BitVec.ofNat w (last - first).toNat = last := by
  rw [BitVec.ofNat_toNat, BitVec.setWidth_eq]
  grind

/-- The distance grows with the last counter. -/
theorem toNat_succ_sub (room : (last - first).toNat + 1 < 2 ^ w) :
    (last + 1#w - first).toNat = (last - first).toNat + 1 := by
  have shifted : last + 1#w - first = (last - first) + 1#w := by grind
  have one : 1 < 2 ^ w := by omega
  rw [shifted, BitVec.toNat_add, BitVec.toNat_ofNat, Nat.mod_eq_of_lt one, Nat.mod_eq_of_lt room]

/-- The distance shrinks with the first counter. -/
theorem toNat_sub_succ (different : first ≠ last) :
    (last - first).toNat = (last - (first + 1#w)).toNat + 1 := by
  have shifted : last - first = last - (first + 1#w) + 1#w := by grind
  have bound := (last - (first + 1#w)).isLt
  have distance : (last - first).toNat = ((last - (first + 1#w)).toNat + 1) % 2 ^ w := by
    rw [shifted, BitVec.toNat_add, BitVec.toNat_ofNat, Nat.add_mod_mod]
  have positive : (last - first).toNat ≠ 0 := fun zero =>
    different (toNat_sub_eq_zero_iff.mp zero)
  obtain small | large := Nat.lt_or_ge ((last - (first + 1#w)).toNat + 1) (2 ^ w)
  · rwa [Nat.mod_eq_of_lt small] at distance
  · have wraps : (last - (first + 1#w)).toNat + 1 = 2 ^ w := by omega
    rw [wraps, Nat.mod_self] at distance
    exact absurd distance positive

/-- Cells of elements in the ring differ from the cell after them while there is room. -/
theorem cell_ne (divides : size ∣ 2 ^ w) (room : (last - first).toNat < size) {offset : Nat}
    (inside : offset < (last - first).toNat) :
    (first + BitVec.ofNat w offset).toNat % size ≠ last.toNat % size := by
  intro same
  rw [← add_ofNat_sub first last, cell_eq divides, cell_eq divides] at same
  have divided : size ∣ (last - first).toNat - offset := by
    have := Nat.sub_mod_eq_zero_of_mod_eq same.symm
    rw [Nat.add_sub_add_left] at this
    exact Nat.dvd_of_mod_eq_zero this
  exact absurd (Nat.le_of_dvd (by omega) divided) (by omega)

/-- Putting an element into a ring with room adds it at the end. -/
theorem window_put (divides : size ∣ 2 ^ w) (small : size < 2 ^ w)
    (room : (last - first).toNat < size) (value : α) :
    window size (Function.update cells (last.toNat % size) value) first (last + 1#w) =
      window size cells first last ++ [value] := by
  rw [window, toNat_succ_sub (by omega), List.range_succ, List.map_append, window]
  congr 1
  · refine List.map_congr_left (fun offset inside => ?_)
    exact Function.update_of_ne (cell_ne divides room (List.mem_range.mp inside)) ..
  · rw [List.map_singleton, add_ofNat_sub, Function.update_self]

/-- Taking an element from a ring that is not empty takes the first. -/
theorem window_take (different : first ≠ last) :
    window size cells first last =
      cells (first.toNat % size) :: window size cells (first + 1#w) last := by
  rw [window, toNat_sub_succ different, List.range_succ_eq_map, List.map_cons, List.map_map, window]
  congr 1
  · simp
  · refine List.map_congr_left (fun offset _ => ?_)
    have shifted : first + BitVec.ofNat w (offset + 1) = first + 1#w + BitVec.ofNat w offset := by
      rw [BitVec.ofNat_add]
      grind
    simp only [Function.comp_apply, Nat.succ_eq_add_one, shifted]

/-- A ring is full when the counters are as far apart as the ring is long. -/
theorem length_eq_size_iff (small : size < 2 ^ w) :
    (window size cells first last).length = size ↔ last = first + BitVec.ofNat w size := by
  rw [window_length]
  constructor
  · intro full
    rw [← full, add_ofNat_sub]
  · rintro rfl
    have distance : first + BitVec.ofNat w size - first = BitVec.ofNat w size := by grind
    rw [distance, BitVec.toNat_ofNat, Nat.mod_eq_of_lt small]

end OsLabwork.RingCounters
