import Mathlib.Data.List.TakeWhile

/-!
# Text as C programs hold it

A C string is a sequence of bytes none of which is NUL; the terminator is implied.
The `char` type is a signed byte and `strcmp` compares as unsigned bytes, the
platform's and the standard's choices. Only the sign of a comparison is used by
callers, and that sign is a strict total order on strings.
-/

namespace OsLabwork

/-- The bytes of an ASCII literal. -/
def ascii (text : String) : List UInt8 := text.toList.map (fun char => UInt8.ofNat char.toNat)

/-- `isspace` in the C locale: space, and tab, LF, VT, FF, CR. -/
def isspace (byte : UInt8) : Bool := byte == 32 || (9 ≤ byte && byte ≤ 13)

/-- The value of a byte read through the signed `char` type. -/
def charValue (byte : UInt8) : Int :=
  if byte.toNat < 128 then byte.toNat else (byte.toNat : Int) - 256

/-- A NUL-terminated string, without its terminator. -/
structure CString where
  bytes : List UInt8
  noNul : (0 : UInt8) ∉ bytes
deriving DecidableEq, Repr

/-- Strings with the same bytes are equal. -/
@[ext] theorem CString.ext {left right : CString} (same : left.bytes = right.bytes) :
    left = right := by
  cases left
  cases right
  simpa using same

/-- The C string at the beginning of a byte sequence. -/
def CString.leading (bytes : List UInt8) : CString where
  bytes := bytes.takeWhile (fun byte => byte ≠ 0)
  noNul member := by simpa using List.mem_takeWhile_imp member

/-- Compare byte by byte; the end of a string compares as the NUL it stands for. -/
def strcmpBytes : List UInt8 → List UInt8 → Int
  | [], [] => 0
  | [], byte :: _ => -(byte.toNat : Int)
  | byte :: _, [] => byte.toNat
  | byte :: rest, other :: others =>
      if byte = other then strcmpBytes rest others else (byte.toNat : Int) - other.toNat

/-- `strcmp`. -/
def strcmp (left right : CString) : Int := strcmpBytes left.bytes right.bytes

/-- Where a sequence of bytes first occurs in another. -/
def strstrBytes (needle : List UInt8) : List UInt8 → Option Nat
  | [] => if needle = [] then some 0 else none
  | byte :: rest =>
      if needle <+: byte :: rest then some 0 else (strstrBytes needle rest).map (· + 1)

/-- `strstr`: the position of the first occurrence of the needle. -/
def strstr (haystack needle : CString) : Option Nat := strstrBytes needle.bytes haystack.bytes

/-- `strstr` finds a part exactly if it is one. -/
theorem strstrBytes_isSome_iff (needle haystack : List UInt8) :
    (strstrBytes needle haystack).isSome = true ↔ needle <:+: haystack := by
  induction haystack with
  | nil =>
    rw [strstrBytes, List.infix_nil]
    split <;> simp_all
  | cons byte rest inductionHypothesis =>
    rw [strstrBytes, List.infix_cons_iff, ← inductionHypothesis]
    split
    · next here => simp [here]
    · next elsewhere => simp [elsewhere]

/-- The bytes of a string are not zero. -/
theorem toNat_pos_of_mem {bytes : List UInt8} (noNul : (0 : UInt8) ∉ bytes) {byte : UInt8}
    (member : byte ∈ bytes) : 0 < byte.toNat := by
  rcases Nat.eq_zero_or_pos byte.toNat with zero | positive
  · have nul : byte = 0 := UInt8.toNat_inj.mp zero
    exact absurd (nul ▸ member) noNul
  · exact positive

/-- Exchanging the strings exchanges the sign. -/
theorem strcmpBytes_swap (left right : List UInt8) :
    strcmpBytes right left = -strcmpBytes left right := by
  induction left generalizing right with
  | nil => cases right <;> simp [strcmpBytes]
  | cons byte rest inductionHypothesis =>
    cases right with
    | nil => simp [strcmpBytes]
    | cons other others =>
      by_cases same : byte = other
      · simp [strcmpBytes, same, inductionHypothesis]
      · simp only [strcmpBytes, same, Ne.symm same, ↓reduceIte]
        omega

/-- Comparing the other way round changes the sign. -/
theorem strcmp_swap (left right : CString) : strcmp right left = -strcmp left right :=
  strcmpBytes_swap left.bytes right.bytes

/-- Strings compare as equal exactly when they are the same string. -/
theorem strcmp_eq_zero_iff (left right : CString) : strcmp left right = 0 ↔ left = right := by
  suffices equal : ∀ first second : List UInt8, (0 : UInt8) ∉ first → (0 : UInt8) ∉ second →
      (strcmpBytes first second = 0 ↔ first = second) by
    rw [strcmp, equal left.bytes right.bytes left.noNul right.noNul]
    exact ⟨CString.ext, congrArg CString.bytes⟩
  intro first
  induction first with
  | nil =>
    intro second _ clean
    cases second with
    | nil => simp [strcmpBytes]
    | cons other others =>
      have positive := toNat_pos_of_mem clean List.mem_cons_self
      simp only [strcmpBytes, List.nil_eq, reduceCtorEq, iff_false]
      omega
  | cons byte rest inductionHypothesis =>
    intro second clean otherClean
    cases second with
    | nil =>
      have positive := toNat_pos_of_mem clean List.mem_cons_self
      simp only [strcmpBytes, reduceCtorEq, iff_false]
      omega
    | cons other others =>
      by_cases same : byte = other
      · simp only [strcmpBytes, same, ↓reduceIte, List.cons.injEq, true_and]
        exact inductionHypothesis others (fun member => clean (List.mem_cons_of_mem _ member))
          (fun member => otherClean (List.mem_cons_of_mem _ member))
      · have differ : byte.toNat ≠ other.toNat := fun equal => same (UInt8.toNat_inj.mp equal)
        simp only [strcmpBytes, same, ↓reduceIte, List.cons.injEq, false_and, iff_false]
        omega

/-- A string is equal to itself. -/
@[simp] theorem strcmp_self (string : CString) : strcmp string string = 0 :=
  (strcmp_eq_zero_iff string string).mpr rfl

/-- Strings in strictly ascending order are different. -/
theorem nodup_of_ascending {strings : List CString}
    (ascending : strings.Pairwise (fun left right => strcmp left right < 0)) : strings.Nodup := by
  refine ascending.imp ?_
  rintro left right below rfl
  simp at below

/-- Order is transitive, whether or not the strings are allowed to be equal. The
first difference decides; the end of a string lies below every byte. -/
theorem strcmp_le_trans {first second third : CString} (low : strcmp first second ≤ 0)
    (high : strcmp second third ≤ 0) : strcmp first third ≤ 0 := by
  suffices chain : ∀ a b c : List UInt8, (0 : UInt8) ∉ a → (0 : UInt8) ∉ b → (0 : UInt8) ∉ c →
      strcmpBytes a b ≤ 0 → strcmpBytes b c ≤ 0 → strcmpBytes a c ≤ 0 from
    chain _ _ _ first.noNul second.noNul third.noNul low high
  intro a
  induction a with
  | nil =>
    intro b c _ _ _ _ _
    cases c <;> simp [strcmpBytes]
  | cons x xs inductionHypothesis =>
    intro b c cleanA cleanB cleanC below above
    have positiveX := toNat_pos_of_mem cleanA List.mem_cons_self
    cases b with
    | nil =>
      simp only [strcmpBytes] at below
      omega
    | cons y ys =>
      have positiveY := toNat_pos_of_mem cleanB List.mem_cons_self
      cases c with
      | nil =>
        simp only [strcmpBytes] at above
        omega
      | cons z zs =>
        simp only [strcmpBytes] at below above ⊢
        simp only [List.mem_cons, not_or] at cleanA cleanB cleanC
        have tails := inductionHypothesis ys zs cleanA.2 cleanB.2 cleanC.2
        by_cases xy : x = y <;> by_cases yz : y = z
        · subst xy yz
          simp only [↓reduceIte] at below above ⊢
          exact tails below above
        · subst xy
          simp only [yz, ↓reduceIte] at above ⊢
          exact above
        · subst yz
          simp only [xy, ↓reduceIte] at below ⊢
          exact below
        · have differXY : x.toNat ≠ y.toNat := fun equal => xy (UInt8.toNat_inj.mp equal)
          have differYZ : y.toNat ≠ z.toNat := fun equal => yz (UInt8.toNat_inj.mp equal)
          simp only [xy, yz, ↓reduceIte] at below above
          have differXZ : x ≠ z := by
            rintro rfl
            omega
          simp only [differXZ, ↓reduceIte]
          omega

/-- The order of strings is transitive. -/
theorem strcmp_lt_of_lt_of_le {first second third : CString} (low : strcmp first second < 0)
    (high : strcmp second third ≤ 0) : strcmp first third < 0 := by
  have below : strcmp first third ≤ 0 := strcmp_le_trans (by omega) high
  rcases Int.lt_or_eq_of_le below with strict | equal
  · exact strict
  · -- Equal ends would put the middle string on both sides of the same string.
    have same : first = third := (strcmp_eq_zero_iff first third).mp equal
    subst same
    have swapped := strcmp_swap first second
    omega

end OsLabwork
