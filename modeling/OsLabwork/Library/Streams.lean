import Mathlib.Algebra.Order.Ring.Int
import OsLabwork.Library.CText

/-!
# Standard streams and stored integers

An input stream is the bytes that are still to come, and the way in which reading
ends: at the end of a file, or with a read error. A read that finds too few bytes
raises the corresponding indicator. `fread` stores the bytes it got and leaves the
rest of its target as it was.

An `unsigned int` is stored in four bytes, the lowest first.
-/

namespace OsLabwork

/-- `EOF`. -/
def eofValue : Int := -1

/-- How a stream ends. -/
inductive Ending where
  | endOfFile
  | readError
deriving DecidableEq, Repr

/-- An open input stream with its two indicators. -/
structure Stream where
  rest : List UInt8
  ending : Ending
  eof : Bool
  error : Bool
deriving DecidableEq, Repr

/-- What a program leaves when it ends. -/
structure Outcome where
  stdout : List UInt8
  status : Nat
deriving DecidableEq, Repr

/-- A freshly opened file with the given content. -/
def Stream.file (content : List UInt8) : Stream := ⟨content, .endOfFile, false, false⟩

/-- Raise the indicator of the stream's ending. -/
def Stream.finish (stream : Stream) : Stream :=
  match stream.ending with
  | .endOfFile => { stream with eof := true }
  | .readError => { stream with error := true }

/-- `fgetc`: the next byte as an `int`, or `EOF`. -/
def Stream.fgetc (stream : Stream) : Int × Stream :=
  match stream.rest with
  | [] => (eofValue, stream.finish)
  | byte :: rest => (byte.toNat, { stream with rest := rest })

/-- `fread` of one item into the given bytes of memory. -/
def Stream.fread (memory : List UInt8) (stream : Stream) : List UInt8 × Stream :=
  let got := stream.rest.take memory.length
  let after := { stream with rest := stream.rest.drop memory.length }
  (got ++ memory.drop got.length, if got.length < memory.length then after.finish else after)

/-- Conversion of an `int` to `char`. -/
def toChar (value : Int) : UInt8 := UInt8.ofNat (value % 256).toNat

/-- A byte is stored as it is. -/
@[simp] theorem toChar_toNat (byte : UInt8) : toChar byte.toNat = byte := by
  have small : byte.toNat < 256 := byte.toNat_lt
  have same : (((byte.toNat : Int) % 256).toNat) = byte.toNat := by omega
  rw [toChar, same, UInt8.ofNat_toNat]

/-- The value for the end of a file is stored as byte 255. -/
@[simp] theorem toChar_eofValue : toChar eofValue = 255 := rfl

/-- Read through `char`, a byte looks like the end of the input exactly when all its
bits are set. -/
theorem charValue_eq_eofValue_iff (byte : UInt8) : charValue byte = eofValue ↔ byte = 255 := by
  have small : byte.toNat < 256 := byte.toNat_lt
  rw [← UInt8.toNat_inj, charValue, eofValue]
  change _ ↔ byte.toNat = 255
  split <;> omega

/-- A read that finds as many bytes as it wants returns them. -/
theorem Stream.fread_full (memory got rest : List UInt8) (stream : Stream)
    (holds : stream.rest = got ++ rest) (fits : got.length = memory.length) :
    stream.fread memory = (got, { stream with rest := rest }) := by
  simp [Stream.fread, holds, ← fits]

/-- A read that finds too few bytes uses them up and raises an indicator. -/
theorem Stream.fread_short (memory : List UInt8) (stream : Stream)
    (short : stream.rest.length < memory.length) :
    (stream.fread memory).2 = { stream with rest := [] }.finish := by
  have few : (stream.rest.take memory.length).length < memory.length := by
    rw [List.length_take]
    omega
  have none : stream.rest.drop memory.length = [] := List.drop_eq_nil_of_le (by omega)
  simp only [Stream.fread, few, ↓reduceIte, none]

/-- On a stream that ends in a read error, a read does not raise the indicator of the
end of the file. -/
theorem Stream.fread_readError (memory : List UInt8) (stream : Stream)
    (ending : stream.ending = .readError) (clear : stream.eof = false) :
    (stream.fread memory).2.ending = .readError ∧ (stream.fread memory).2.eof = false := by
  simp only [Stream.fread]
  split
  · simp [Stream.finish, ending, clear]
  · exact ⟨ending, clear⟩

/-- `UINT_MAX`. -/
def uintMax : Nat := 2 ^ 32 - 1

/-- `INT_MAX`. -/
def intMax : Nat := 2 ^ 31 - 1

/-- The four bytes of an `unsigned int`. -/
def unsignedBytes (value : Nat) : List UInt8 :=
  [UInt8.ofNat value, UInt8.ofNat (value / 2 ^ 8), UInt8.ofNat (value / 2 ^ 16),
    UInt8.ofNat (value / 2 ^ 24)]

/-- The number that stored bytes stand for. -/
def unsignedValue (bytes : List UInt8) : Nat :=
  bytes.foldr (fun byte higher => byte.toNat + 2 ^ 8 * higher) 0

/-- An `unsigned int` has four bytes. -/
@[simp] theorem unsignedBytes_length (value : Nat) : (unsignedBytes value).length = 4 := rfl

/-- It is read back as it was written. -/
theorem unsignedValue_unsignedBytes (value : Nat) (small : value ≤ uintMax) :
    unsignedValue (unsignedBytes value) = value := by
  rw [uintMax] at small
  simp only [unsignedValue, unsignedBytes, List.foldr_cons, List.foldr_nil, UInt8.toNat_ofNat']
  omega

end OsLabwork
