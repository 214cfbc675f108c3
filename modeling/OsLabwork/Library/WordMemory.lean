import Mathlib.Data.BitVec
import Mathlib.Logic.Function.Basic

/-!
# Bytes and bits of a memory of words

A memory is an array of words of 32 bits. Its bytes are those of the words, the lowest first,
and its bits are those of the bytes. Each byte and each bit can be set by itself, and a copy
of some bytes changes these and no others.
-/

namespace OsLabwork.WordMemory

/-- The byte at an address. -/
def byteAt (words : Nat → BitVec 32) (address : Nat) : BitVec 8 :=
  (words (address / 4)).extractLsb' (8 * (address % 4)) 8

/-- Replace the byte at an address. -/
def setByte (words : Nat → BitVec 32) (address : Nat) (byte : BitVec 8) : Nat → BitVec 32 :=
  Function.update words (address / 4)
    ((words (address / 4) &&& ~~~(255#32 <<< (8 * (address % 4)))) |||
      (byte.setWidth 32 <<< (8 * (address % 4))))

/-- The bit with a number, counted from the lowest bit of the first byte. -/
def bitAt (words : Nat → BitVec 32) (number : Nat) : Bool :=
  (byteAt words (number / 8)).getLsbD (number % 8)

/-- Set or clear a bit by way of its byte. -/
def setBit (words : Nat → BitVec 32) (number : Nat) (value : Bool) : Nat → BitVec 32 :=
  let byte := byteAt words (number / 8)
  let mask := 1#8 <<< (number % 8)
  setByte words (number / 8) (if value then byte ||| mask else byte &&& ~~~mask)

/-- Copy some bytes to an address. -/
def writeBytes (words : Nat → BitVec 32) (address : Nat) (source : Nat → BitVec 8) :
    Nat → Nat → BitVec 32
  | 0 => words
  | count + 1 => setByte (writeBytes words address source count) (address + count) (source count)

variable (words : Nat → BitVec 32)

/-- The bits of the mask of a byte. -/
theorem getLsbD_byteMask (bit : Nat) : (255#32).getLsbD bit = decide (bit < 8) := by
  by_cases inWord : bit < 32
  · revert bit
    decide
  · rw [BitVec.getLsbD_of_ge _ _ (Nat.not_lt.mp inWord)]
    simp only [Bool.false_eq, decide_eq_false_iff_not]
    omega

/-- A byte of a word of which one byte was replaced. -/
theorem getLsbD_replaced (word : BitVec 32) (byte : BitVec 8) {place other bit : Nat}
    (small : bit < 8) (inWord : other < 4) :
    (((word &&& ~~~(255#32 <<< (8 * place))) ||| (byte.setWidth 32 <<< (8 * place))).extractLsb'
        (8 * other) 8).getLsbD bit =
      if other = place then byte.getLsbD bit else (word.extractLsb' (8 * other) 8).getLsbD bit := by
  have near : 8 * other + bit < 32 := by omega
  have nearer : 8 * other + bit - 8 * place < 32 := by omega
  simp only [BitVec.getLsbD_extractLsb', BitVec.getLsbD_or, BitVec.getLsbD_and, BitVec.getLsbD_not,
    BitVec.getLsbD_shiftLeft, BitVec.getLsbD_setWidth, getLsbD_byteMask, small, near, nearer,
    decide_true, Bool.true_and]
  by_cases same : other = place
  · have behind : ¬ 8 * place + bit < 8 * place := by omega
    simp [same, behind, small]
  · rw [if_neg same]
    by_cases below : other < place
    · have before : 8 * other + bit < 8 * place := by omega
      simp [before]
    · have beyond : 8 ≤ 8 * other + bit - 8 * place := by omega
      have behind : ¬ 8 * other + bit < 8 * place := by omega
      simp [behind, Nat.not_lt.mpr beyond, BitVec.getLsbD_of_ge _ _ beyond]

/-- Replacing a byte changes that byte only. -/
theorem byteAt_setByte (address other : Nat) (byte : BitVec 8) :
    byteAt (setByte words address byte) other =
      if other = address then byte else byteAt words other := by
  by_cases sameWord : other / 4 = address / 4
  · apply BitVec.eq_of_getLsbD_eq
    intro bit small
    have samePlace : other % 4 = address % 4 ↔ other = address := by omega
    rw [byteAt, setByte, sameWord, Function.update_self,
      getLsbD_replaced _ _ small (Nat.mod_lt _ (by decide))]
    simp only [samePlace, byteAt, sameWord]
    split <;> rfl
  · have different : other ≠ address := fun same => sameWord (by rw [same])
    rw [if_neg different, byteAt, setByte, Function.update_of_ne sameWord, byteAt]

/-- Setting a bit changes that bit only. -/
theorem bitAt_setBit (number other : Nat) (value : Bool) :
    bitAt (setBit words number value) other =
      if other = number then value else bitAt words other := by
  have small : other % 8 < 8 := Nat.mod_lt _ (by decide)
  rw [bitAt, setBit, byteAt_setByte]
  by_cases sameByte : other / 8 = number / 8
  · rw [if_pos sameByte]
    by_cases same : other = number
    · rw [if_pos same, same]
      cases value <;> simp [Nat.mod_lt number (show 0 < 8 by decide)]
    · have different : ¬ other % 8 = number % 8 := by omega
      rw [if_neg same, bitAt, sameByte]
      cases value <;> simp [small] <;> omega
  · have different : other ≠ number := fun same => sameByte (by rw [same])
    rw [if_neg sameByte, if_neg different, bitAt]

/-- Copying bytes changes the range only. -/
theorem byteAt_writeBytes (address : Nat) (source : Nat → BitVec 8) (count other : Nat) :
    byteAt (writeBytes words address source count) other =
      if address ≤ other ∧ other < address + count then source (other - address)
      else byteAt words other := by
  induction count with
  | zero =>
    rw [if_neg (by omega), writeBytes]
  | succ count inductionHypothesis =>
    rw [writeBytes, byteAt_setByte, inductionHypothesis]
    by_cases last : other = address + count
    · rw [if_pos last, if_pos (by omega), last, Nat.add_sub_cancel_left]
    · rw [if_neg last]
      by_cases inside : address ≤ other ∧ other < address + count
      · rw [if_pos inside, if_pos (by omega)]
      · rw [if_neg inside, if_neg (by omega)]

end OsLabwork.WordMemory
