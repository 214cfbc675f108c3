import OsLabwork.Library.LineReading
import OsLabwork.Library.Splitting

/-!
# The file printer

`printFile` reads pieces of at most 254 bytes with `fgets` and prints each of them as a
C string. However a file is cut into pieces, all of its bytes are printed exactly when
none of them is a NUL: a piece with a NUL loses the NUL and what follows it in the piece.

The loop is given a fuel, and there is no result when it does not suffice.
-/

namespace OsLabwork.Utilities

/-- The size of `buffer`. -/
def bufferSize : Nat := 255

/-- `while (fgets(buffer, 255, pFile) != NULL) printf("%s", buffer)`. -/
def printLoop : Nat → Stream → List UInt8 → Option (List UInt8)
  | 0, _, _ => none
  | fuel + 1, stream, stdout =>
      match stream.fgets bufferSize with
      | (none, _) => some stdout
      | (some buffer, next) => printLoop fuel next (stdout ++ (CString.leading buffer).bytes)

/-- A stopped program, or what has been printed so far. -/
def printFile (fuel : Nat) (fopen : CString → Option Stream) (path : CString)
    (stdout : List UInt8) : Option (Except Outcome (List UInt8)) :=
  match fopen path with
  | none => some (.error ⟨stdout ++ ascii "cannot open file\n", 1⟩)
  | some stream => (printLoop fuel stream stdout).map .ok

/-- The loop of `main` over the files. -/
def printFiles (fuel : Nat) (fopen : CString → Option Stream) :
    List CString → List UInt8 → Option Outcome
  | [], stdout => some ⟨stdout, 0⟩
  | path :: paths, stdout =>
      (printFile fuel fopen path stdout).bind fun
        | .error outcome => some outcome
        | .ok printed => printFiles fuel fopen paths printed

/-- The program on its arguments, the name of the program left out. -/
def seucat (fuel : Nat) (fopen : CString → Option Stream) (paths : List CString) :
    Option Outcome :=
  printFiles fuel fopen paths []

/-- What is printed of one piece. -/
def shownPiece (piece : List UInt8) : List UInt8 := (CString.leading piece).bytes

/-- Nothing is added to a piece. -/
theorem shownPiece_length_le (piece : List UInt8) : (shownPiece piece).length ≤ piece.length :=
  (List.takeWhile_sublist _).length_le

/-- A piece is shown as a whole exactly if it has no zero byte. -/
theorem shownPiece_eq_self_iff (piece : List UInt8) :
    shownPiece piece = piece ↔ (0 : UInt8) ∉ piece :=
  Splitting.takeWhile_ne_eq_self_iff 0 piece

/-- The loop prints the content piece by piece. Proof: every piece has a byte at least, so
induct on the number of bytes left. -/
theorem printLoop_pieces (stream : Stream) (sound : stream.Sound) :
    ∃ pieces : List (List UInt8), pieces.flatten = stream.rest ∧
      ∀ fuel, stream.rest.length < fuel → ∀ stdout,
        printLoop fuel stream stdout = some (stdout ++ pieces.flatMap shownPiece) := by
  induction left : stream.rest.length using Nat.strong_induction_on generalizing stream with
  | _ left inductionHypothesis =>
    have room : 2 ≤ bufferSize := by decide
    rcases Stream.fgets_piece room sound with
      ⟨exhausted, next, read⟩ | ⟨piece, next, nonempty, read, later, split⟩
    · refine ⟨[], exhausted.symm, fun fuel enough stdout => ?_⟩
      obtain ⟨remaining, rfl⟩ : ∃ remaining, fuel = remaining + 1 := ⟨fuel - 1, by omega⟩
      simp [printLoop, read]
    · have some : 0 < piece.length := List.length_pos_iff.mpr nonempty
      have lengths := congrArg List.length split
      rw [List.length_append] at lengths
      obtain ⟨pieces, whole, printing⟩ :=
        inductionHypothesis next.rest.length (by omega) next later rfl
      refine ⟨piece :: pieces, by rw [List.flatten_cons, whole, split], ?_⟩
      intro fuel enough stdout
      obtain ⟨remaining, rfl⟩ : ∃ remaining, fuel = remaining + 1 := ⟨fuel - 1, by omega⟩
      simp only [printLoop, read]
      rw [printing remaining (by omega), List.flatMap_cons, ← List.append_assoc]
      rfl

/-- Ordinary files are printed piece by piece, one file after the other. -/
theorem printFiles_pieces (fopen : CString → Option Stream) (contents : CString → List UInt8)
    (paths : List CString)
    (openable : ∀ path ∈ paths, fopen path = some (Stream.file (contents path))) :
    ∃ pieces : List (List UInt8), pieces.flatten = paths.flatMap contents ∧
      ∀ fuel, (paths.flatMap contents).length < fuel → ∀ stdout,
        printFiles fuel fopen paths stdout = some ⟨stdout ++ pieces.flatMap shownPiece, 0⟩ := by
  induction paths with
  | nil => exact ⟨[], rfl, fun _ _ stdout => by simp [printFiles]⟩
  | cons path paths inductionHypothesis =>
    obtain ⟨opened, others⟩ := List.forall_mem_cons.mp openable
    obtain ⟨first, firstWhole, firstPrinted⟩ :=
      printLoop_pieces (Stream.file (contents path)) (Stream.file_sound _)
    obtain ⟨later, laterWhole, laterPrinted⟩ := inductionHypothesis others
    refine ⟨first ++ later, ?_, ?_⟩
    · rw [List.flatten_append, firstWhole, laterWhole, List.flatMap_cons]
      rfl
    · intro fuel enough stdout
      rw [List.flatMap_cons, List.length_append] at enough
      have file := firstPrinted fuel (by simp only [Stream.file]; omega) stdout
      simp [printFiles, printFile, opened, file, laterPrinted fuel (by omega)]

/-- The program goes through its files in order, so files in front are printed first. -/
theorem printFiles_append (fuel : Nat) (fopen : CString → Option Stream)
    (front rest : List CString) (stdout printed : List UInt8)
    (prints : printFiles fuel fopen front stdout = some ⟨printed, 0⟩) :
    printFiles fuel fopen (front ++ rest) stdout = printFiles fuel fopen rest printed := by
  induction front generalizing stdout with
  | nil =>
    obtain rfl : stdout = printed := by simpa [printFiles] using prints
    rfl
  | cons path front inductionHypothesis =>
    cases opened : fopen path with
    | none => simp [printFiles, printFile, opened] at prints
    | some stream =>
      cases looped : printLoop fuel stream stdout with
      | none => simp [printFiles, printFile, opened, looped] at prints
      | some onward =>
        simp only [printFiles, printFile, opened, looped, Option.map_some, Option.bind_some,
          List.cons_append] at prints ⊢
        exact inductionHypothesis onward prints

/-- Files that can all be opened are reproduced exactly when none of them has a NUL. When
a file cannot be opened, the program prints what it prints for the files before it,
followed by the message, and fails.

Proof of the first part: no piece is printed longer than it is, so nothing is missing
exactly when no piece, and hence no file, has a NUL. -/
theorem seucat_reproduces_iff (fopen : CString → Option Stream)
    (contents : CString → List UInt8) (paths : List CString) :
    ((∀ path ∈ paths, fopen path = some (Stream.file (contents path))) →
      ∃ enough output, ∀ fuel, enough < fuel →
        seucat fuel fopen paths = some ⟨output, 0⟩ ∧
        (output = paths.flatMap contents ↔ ∀ path ∈ paths, (0 : UInt8) ∉ contents path)) ∧
    ∀ front path rest, paths = front ++ path :: rest →
      (∀ earlier ∈ front, fopen earlier = some (Stream.file (contents earlier))) →
      fopen path = none →
      ∃ enough output, ∀ fuel, enough < fuel →
        seucat fuel fopen front = some ⟨output, 0⟩ ∧
        seucat fuel fopen paths = some ⟨output ++ ascii "cannot open file\n", 1⟩ := by
  constructor
  · intro openable
    obtain ⟨pieces, whole, printing⟩ := printFiles_pieces fopen contents paths openable
    refine ⟨(paths.flatMap contents).length, pieces.flatMap shownPiece, fun fuel enough =>
      ⟨by simpa [seucat] using printing fuel enough [], ?_⟩⟩
    have shorter : ∀ piece ∈ pieces, (shownPiece piece).length ≤ (id piece).length :=
      fun piece _ => shownPiece_length_le piece
    have complete := Splitting.flatMap_eq_iff shorter
    simp only [List.flatMap_id, whole, id_eq, shownPiece_eq_self_iff] at complete
    rw [complete]
    have absent := congrArg ((0 : UInt8) ∈ ·) whole
    simp only [List.mem_flatten, List.mem_flatMap, eq_iff_iff] at absent
    simpa using not_congr absent
  · rintro front path rest rfl openable missing
    obtain ⟨pieces, _, printing⟩ := printFiles_pieces fopen contents front openable
    refine ⟨(front.flatMap contents).length, pieces.flatMap shownPiece, fun fuel enough => ?_⟩
    have printed := printing fuel enough []
    rw [List.nil_append] at printed
    refine ⟨printed, ?_⟩
    rw [seucat, printFiles_append fuel fopen front _ [] _ printed]
    simp [printFiles, printFile, missing]

/-- A file with a NUL in the middle, and one that does not exist. -/
def nulFile (path : CString) : Option Stream :=
  if path.bytes = ascii "f" then some (Stream.file [97, 0, 98]) else none

/-- A file with a zero byte. -/
theorem seucat_reproduces_iff_nul_file :
    (∃ enough output, ∀ fuel, enough < fuel →
      seucat fuel nulFile [CString.leading (ascii "f")] = some ⟨output, 0⟩ ∧
      (output = [CString.leading (ascii "f")].flatMap (fun _ => [97, 0, 98]) ↔
        ∀ path ∈ [CString.leading (ascii "f")], (0 : UInt8) ∉ [97, 0, 98])) ∧
    ∃ enough output, ∀ fuel, enough < fuel →
      seucat fuel nulFile [CString.leading (ascii "f")] = some ⟨output, 0⟩ ∧
      seucat fuel nulFile [CString.leading (ascii "f"), CString.leading (ascii "g")] =
        some ⟨output ++ ascii "cannot open file\n", 1⟩ := by
  have opened : ∀ path ∈ [CString.leading (ascii "f")],
      nulFile path = some (Stream.file [97, 0, 98]) := by decide
  exact ⟨(seucat_reproduces_iff nulFile (fun _ => [97, 0, 98])
      [CString.leading (ascii "f")]).1 opened,
    (seucat_reproduces_iff nulFile (fun _ => [97, 0, 98])
      [CString.leading (ascii "f"), CString.leading (ascii "g")]).2
      [CString.leading (ascii "f")] (CString.leading (ascii "g")) [] rfl opened (by decide)⟩

end OsLabwork.Utilities
