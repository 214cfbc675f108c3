import OsLabwork.Library.RunLength
import OsLabwork.Library.Streams

/-!
# The decompressor

`printDecompressed` reads a count and a byte, stops when the stream is at its end by
then, and otherwise prints the byte so many times. Both variables keep their old
contents where a read finds too few bytes.

The loop index is a signed `int` that is compared as unsigned. It is taken to wrap;
whether an increment ever leaves the range of `int` is recorded. The loops are given
a fuel, and there is no result when it does not suffice.

Every byte string is decoded by its complete entries. The program notices the end of a
stream only by the indicator for the end of the file, so on a stream that ends in a read
error it does not stop.
-/

namespace OsLabwork.Utilities

open RunLength

/-- What has been printed, and whether an index was incremented at `INT_MAX`. -/
structure Printed where
  stdout : List UInt8
  overflowed : Bool
deriving DecidableEq, Repr

/-- `for (int i = 0; i < count; i++) printf("%c", ch)`, from the index `i` on. -/
def printRun (count : Nat) (ch : UInt8) : Nat → Nat → Printed → Option Printed
  | 0, _, _ => none
  | fuel + 1, i, printed =>
      if i < count then
        printRun count ch fuel ((i + 1) % 2 ^ 32)
          ⟨printed.stdout ++ [ch], printed.overflowed || i == intMax⟩
      else some printed

/-- The `while` loop; `count` is the memory of the variable. -/
def decompressLoop : Nat → List UInt8 → UInt8 → Printed → Stream → Option Printed
  | 0, _, _, _, _ => none
  | fuel + 1, count, ch, printed, stream =>
      let first := stream.fread count
      let second := first.2.fread [ch]
      if second.2.eof then some printed
      else (printRun (unsignedValue first.1) (second.1.headD ch) fuel 0 printed).bind fun next =>
        decompressLoop fuel first.1 (second.1.headD ch) next second.2

/-- A stopped program, or what has been printed so far. -/
def printDecompressed (fuel : Nat) (fopen : CString → Option Stream) (filePath : CString)
    (printed : Printed) : Option (Except Outcome Printed) :=
  match fopen filePath with
  | none => some (.error ⟨printed.stdout ++ ascii "cannot open file", 1⟩)
  | some stream => (decompressLoop fuel [0, 0, 0, 0] 0 printed stream).map .ok

/-- The loop of `main` over the files. -/
def unzipFiles (fuel : Nat) (fopen : CString → Option Stream) :
    List CString → Printed → Option Outcome
  | [], printed => some ⟨printed.stdout, 0⟩
  | path :: paths, printed =>
      (printDecompressed fuel fopen path printed).bind fun
        | .error outcome => some outcome
        | .ok next => unzipFiles fuel fopen paths next

/-- The program on its arguments, the name of the program left out. -/
def seuunzip (fuel : Nat) (fopen : CString → Option Stream) (paths : List CString) :
    Option Outcome :=
  if paths = [] then some ⟨ascii "seuunzip: file1 [file2 ...]\n", 1⟩
  else unzipFiles fuel fopen paths ⟨[], false⟩

/-- The complete entries of a byte string; an incomplete last one is left out. -/
def entries : List UInt8 → List (Run UInt8)
  | a :: b :: c :: d :: ch :: rest => ⟨unsignedValue [a, b, c, d], ch⟩ :: entries rest
  | _ => []

/-- Without five bytes there is no complete entry. -/
theorem entries_short {content : List UInt8}
    (short : ∀ a b c d byte rest, content = a :: b :: c :: d :: byte :: rest → False) :
    content.length < 5 ∧ entries content = [] := by
  constructor
  · rcases content with _ | ⟨a, _ | ⟨b, _ | ⟨c, _ | ⟨d, _ | ⟨byte, rest⟩⟩⟩⟩⟩
    all_goals simp
    exact (short a b c d byte rest rfl).elim
  · rw [entries]
    exact short

/-- The loop prints the byte as often as the count says, from the index on. It passes
`INT_MAX` only if the count is larger. -/
theorem printRun_exact (count : Nat) (ch : UInt8) (small : count ≤ uintMax) (fuel i : Nat)
    (inside : i ≤ count) (printed : Printed) (enough : count - i < fuel) :
    printRun count ch fuel i printed = some ⟨printed.stdout ++ List.replicate (count - i) ch,
      printed.overflowed || (decide (i ≤ intMax) && decide (intMax < count))⟩ := by
  induction fuel generalizing i printed with
  | zero => omega
  | succ fuel inductionHypothesis =>
    rw [printRun]
    by_cases more : i < count
    · have next : (i + 1) % 2 ^ 32 = i + 1 := by
        rw [uintMax] at small
        exact Nat.mod_eq_of_lt (by omega)
      have left : count - i = count - (i + 1) + 1 := by omega
      rw [if_pos more, next, inductionHypothesis (i + 1) more _ (by omega), left,
        List.replicate_succ]
      have passes : (i == intMax || (decide (i + 1 ≤ intMax) && decide (intMax < count))) =
          (decide (i ≤ intMax) && decide (intMax < count)) := by
        rw [Bool.eq_iff_iff]
        simp only [Bool.or_eq_true, beq_iff_eq, Bool.and_eq_true, decide_eq_true_eq]
        omega
      simp only [List.append_assoc, List.cons_append, List.nil_append, Bool.or_assoc, passes]
    · have done : count = i := by omega
      have none : (decide (i ≤ intMax) && decide (intMax < i)) = false := by
        simp only [Bool.and_eq_false_iff, decide_eq_false_iff_not]
        omega
      simp [done, none]

/-- Four bytes hold a 32-bit number. -/
theorem unsignedValue_four_le (a b c d : UInt8) : unsignedValue [a, b, c, d] ≤ uintMax := by
  have smallA := a.toNat_lt
  have smallB := b.toNat_lt
  have smallC := c.toNat_lt
  have smallD := d.toNat_lt
  simp only [unsignedValue, List.foldr_cons, List.foldr_nil, uintMax]
  omega

/-- A complete entry is read without touching an indicator and then printed. -/
theorem decompressLoop_entry (fuel : Nat) (count : List UInt8) (four : count.length = 4)
    (ch : UInt8) (printed : Printed) (stream : Stream) (a b c d byte : UInt8) (rest : List UInt8)
    (stored : stream.rest = a :: b :: c :: d :: byte :: rest) (clear : stream.eof = false) :
    decompressLoop (fuel + 1) count ch printed stream =
      (printRun (unsignedValue [a, b, c, d]) byte fuel 0 printed).bind fun next =>
        decompressLoop fuel [a, b, c, d] byte next { stream with rest := rest } := by
  have first : stream.fread count = ([a, b, c, d], { stream with rest := byte :: rest }) :=
    Stream.fread_full count [a, b, c, d] (byte :: rest) stream stored four.symm
  have second : Stream.fread [ch] { stream with rest := byte :: rest } =
      ([byte], { stream with rest := rest }) :=
    Stream.fread_full [ch] [byte] rest _ rfl rfl
  rw [decompressLoop]
  simp only [first]
  simp only [second]
  rw [if_neg (by simp [clear]), List.headD_cons]

/-- With fewer than five bytes left, one of the two reads reaches the end of the file
and the loop stops before printing. -/
theorem decompressLoop_short (fuel : Nat) (count : List UInt8) (four : count.length = 4)
    (ch : UInt8) (printed : Printed) (stream : Stream) (few : stream.rest.length < 5)
    (ending : stream.ending = .endOfFile) :
    decompressLoop (fuel + 1) count ch printed stream = some printed := by
  have ended : ((stream.fread count).2.fread [ch]).2.eof = true := by
    by_cases short : stream.rest.length < 4
    · have shortRead := Stream.fread_short count stream (by omega)
      rw [shortRead, Stream.fread_short]
      · simp [Stream.finish, ending]
      · simp [Stream.finish, ending]
    · have whole := Stream.fread_full count stream.rest [] stream (by simp) (by omega)
      rw [whole, Stream.fread_short]
      · simp [Stream.finish, ending]
      · simp
  simp only [decompressLoop, ended, ↓reduceIte]

/-- On a stream that ends as a file does, the loop prints what its complete entries
stand for and stops. Proof: induct on the bytes in steps of five. -/
theorem decompressLoop_exact (content count : List UInt8) (four : count.length = 4) (ch : UInt8)
    (printed : Printed) (stream : Stream) (stored : stream.rest = content)
    (ending : stream.ending = .endOfFile) (clear : stream.eof = false) (fuel : Nat)
    (enough : uintMax + content.length < fuel) :
    ∃ final, decompressLoop (fuel + 1) count ch printed stream = some final ∧
      final.stdout = printed.stdout ++ expand (entries content) := by
  induction content using entries.induct generalizing count ch printed stream fuel with
  | case1 a b c d byte rest inductionHypothesis =>
    have small := unsignedValue_four_le a b c d
    have run := printRun_exact (unsignedValue [a, b, c, d]) byte small fuel 0 (Nat.zero_le _)
      printed (by omega)
    simp only [List.length_cons] at enough
    obtain ⟨fewer, rfl⟩ : ∃ fewer, fuel = fewer + 1 := ⟨fuel - 1, by omega⟩
    rw [decompressLoop_entry _ count four ch printed stream a b c d byte rest stored clear, run,
      Option.bind_some]
    obtain ⟨final, onward, output⟩ := inductionHypothesis [a, b, c, d] rfl byte _
      { stream with rest := rest } rfl ending clear fewer (by omega)
    refine ⟨final, onward, ?_⟩
    rw [output]
    simp [entries, Run.items]
  | case2 content short =>
    obtain ⟨few, none⟩ := entries_short short
    refine ⟨printed, ?_, by simp [none]⟩
    exact decompressLoop_short fuel count four ch printed stream (by rwa [stored]) ending

/-- What a byte string stands for: for each complete group of five bytes, the last of them
as often as the number in the first four says. -/
def decoded (content : List UInt8) : List UInt8 :=
  (List.range (content.length / 5)).flatMap fun entry =>
    List.replicate (unsignedValue ((content.drop (5 * entry)).take 4))
      (content.getD (5 * entry + 4) 0)

/-- The entries of a file are decoded as runs. -/
theorem expand_entries (content : List UInt8) : expand (entries content) = decoded content := by
  induction content using entries.induct with
  | case1 a b c d byte rest inductionHypothesis =>
    have count : (a :: b :: c :: d :: byte :: rest).length / 5 = rest.length / 5 + 1 := by
      simp only [List.length_cons]
      omega
    rw [entries, expand_cons, inductionHypothesis, decoded, decoded, count,
      List.range_succ_eq_map, List.flatMap_cons, List.flatMap_map]
    congr 1
  | case2 content short =>
    obtain ⟨few, none⟩ := entries_short short
    rw [none, decoded, Nat.div_eq_of_lt few]
    rfl

/-- On an ordinary file, `printDecompressed` ends and prints what the content stands
for. -/
theorem printDecompressed_decodes (fopen : CString → Option Stream) (path : CString)
    (content : List UInt8) (opened : fopen path = some (Stream.file content)) (printed : Printed)
    (fuel : Nat) (enough : uintMax + content.length + 1 < fuel) :
    ∃ final, printDecompressed fuel fopen path printed = some (.ok final) ∧
      final.stdout = printed.stdout ++ decoded content := by
  obtain ⟨remaining, rfl⟩ : ∃ remaining, fuel = remaining + 1 := ⟨fuel - 1, by omega⟩
  obtain ⟨final, looping, output⟩ := decompressLoop_exact content [0, 0, 0, 0] rfl 0 printed
    (Stream.file content) rfl rfl rfl remaining (by omega)
  refine ⟨final, ?_, by rw [output, expand_entries]⟩
  simp [printDecompressed, opened, looping]

/-- The files are decoded in order. -/
theorem unzipFiles_decodes (fopen : CString → Option Stream) (contents : CString → List UInt8)
    (paths : List CString)
    (openable : ∀ path ∈ paths, fopen path = some (Stream.file (contents path)))
    (printed : Printed) (fuel : Nat)
    (enough : ∀ path ∈ paths, uintMax + (contents path).length + 1 < fuel) :
    unzipFiles fuel fopen paths printed =
      some ⟨printed.stdout ++ paths.flatMap fun path => decoded (contents path), 0⟩ := by
  induction paths generalizing printed with
  | nil => simp [unzipFiles]
  | cons path paths inductionHypothesis =>
    obtain ⟨next, first, output⟩ := printDecompressed_decodes fopen path (contents path)
      (openable path List.mem_cons_self) printed fuel (enough path List.mem_cons_self)
    have onward := inductionHypothesis
      (fun other member => openable other (List.mem_cons_of_mem _ member)) next
      (fun other member => enough other (List.mem_cons_of_mem _ member))
    rw [unzipFiles, first, Option.bind_some, List.flatMap_cons, ← List.append_assoc, ← output]
    exact onward

/-- For every list of ordinary files, `printDecompressed` ends on each and prints what its
complete entries stand for, behind what was printed before; an incomplete last entry
contributes nothing. The program on all of them prints these one after the other. -/
theorem seuunzip_decodes_entries (fopen : CString → Option Stream)
    (contents : CString → List UInt8) (paths : List CString)
    (openable : ∀ path ∈ paths, fopen path = some (Stream.file (contents path))) :
    ∃ enough, ∀ fuel, enough < fuel →
      (∀ path ∈ paths, ∀ printed, ∃ final,
        printDecompressed fuel fopen path printed = some (.ok final) ∧
        final.stdout = printed.stdout ++ decoded (contents path)) ∧
      (paths ≠ [] → seuunzip fuel fopen paths =
        some ⟨paths.flatMap fun path => decoded (contents path), 0⟩) := by
  refine ⟨uintMax + (paths.flatMap contents).length + 1, ?_⟩
  intro fuel enough
  have each : ∀ path ∈ paths, uintMax + (contents path).length + 1 < fuel := by
    intro path member
    have part : (contents path).length ≤ (paths.flatMap contents).length :=
      (List.sublist_flatten_of_mem (List.mem_map_of_mem member)).length_le
    omega
  constructor
  · intro path member printed
    exact printDecompressed_decodes fopen path (contents path) (openable path member) printed fuel
      (each path member)
  · intro nonempty
    rw [seuunzip, if_neg nonempty, unzipFiles_decodes fopen contents paths openable _ fuel each,
      List.nil_append]

/-- An entry, an entry with count zero, and three bytes of a third. -/
def threeBytesMore : List UInt8 := [2, 0, 0, 0, 97, 0, 0, 0, 0, 98, 1, 0, 0]

/-- An entry, and three bytes that are none. -/
theorem seuunzip_decodes_entries_three_bytes_more :
    ∃ enough, ∀ fuel, enough < fuel →
      seuunzip fuel (fun _ => some (Stream.file threeBytesMore)) [CString.leading (ascii "f")] =
        some ⟨[97, 97], 0⟩ := by
  obtain ⟨enough, decodes⟩ := seuunzip_decodes_entries
    (fun _ => some (Stream.file threeBytesMore)) (fun _ => threeBytesMore)
    [CString.leading (ascii "f")] (fun _ _ => rfl)
  exact ⟨enough, fun fuel more => (decodes fuel more).2 (by simp)⟩

/-- On a stream that ends in a read error the loop does not end: the indicator it looks at
is never raised. -/
theorem decompressLoop_readError (fuel : Nat) (count : List UInt8) (ch : UInt8)
    (printed : Printed) (stream : Stream) (ending : stream.ending = .readError)
    (clear : stream.eof = false) : decompressLoop fuel count ch printed stream = none := by
  induction fuel generalizing count ch printed stream with
  | zero => rfl
  | succ fuel inductionHypothesis =>
    have first := Stream.fread_readError count stream ending clear
    have second := Stream.fread_readError [ch] (stream.fread count).2 first.1 first.2
    rw [decompressLoop]
    simp only [second.2, Bool.false_eq_true, ↓reduceIte]
    cases printRun (unsignedValue (stream.fread count).1)
      (((stream.fread count).2.fread [ch]).1.headD ch) fuel 0 printed with
    | none => rfl
    | some next => exact inductionHypothesis _ _ next _ second.1 second.2

/-- Whatever a stream holds, the loop on it ends, having printed no more than the complete
entries stand for, exactly when the stream ends as a file does. -/
theorem printDecompressed_ends_iff (fopen : CString → Option Stream) (path : CString)
    (content : List UInt8) (ending : Ending)
    (opened : fopen path = some ⟨content, ending, false, false⟩) (printed : Printed) :
    (∃ enough, ∀ fuel, enough < fuel → ∃ final,
        printDecompressed fuel fopen path printed = some (.ok final) ∧
        final.stdout <+: printed.stdout ++ decoded content) ↔
      ending = .endOfFile := by
  cases ending with
  | endOfFile =>
    simp only [iff_true]
    refine ⟨uintMax + content.length + 1, ?_⟩
    intro fuel enough
    obtain ⟨final, ends, output⟩ :=
      printDecompressed_decodes fopen path content opened printed fuel enough
    exact ⟨final, ends, output ▸ List.prefix_refl _⟩
  | readError =>
    simp only [reduceCtorEq, iff_false]
    rintro ⟨enough, ends⟩
    obtain ⟨final, running, _⟩ := ends (enough + 1) (Nat.lt_succ_self enough)
    have never := decompressLoop_readError (enough + 1) [0, 0, 0, 0] 0 printed
      ⟨content, .readError, false, false⟩ rfl rfl
    simp [printDecompressed, opened, never] at running

/-- A file with one entry. -/
theorem printDecompressed_ends_iff_one_entry :
    (∃ enough, ∀ fuel, enough < fuel → ∃ final,
        printDecompressed fuel (fun _ => some ⟨[1, 0, 0, 0, 97], .endOfFile, false, false⟩)
          (CString.leading (ascii "f")) ⟨[], false⟩ = some (.ok final) ∧
        final.stdout <+: [] ++ decoded [1, 0, 0, 0, 97]) :=
  (printDecompressed_ends_iff (fun _ => some ⟨[1, 0, 0, 0, 97], .endOfFile, false, false⟩)
    (CString.leading (ascii "f")) [1, 0, 0, 0, 97] .endOfFile rfl ⟨[], false⟩).mpr rfl

/-- On a directory, of which not a single byte can be read, the loop goes on for ever. -/
theorem directory_is_read_for_ever :
    ¬ ∃ fuel result, printDecompressed fuel (fun _ => some ⟨[], .readError, false, false⟩)
      (CString.leading (ascii "d")) ⟨[], false⟩ = some result := by
  rintro ⟨fuel, result, ends⟩
  have never := decompressLoop_readError fuel [0, 0, 0, 0] 0 ⟨[], false⟩
    ⟨[], .readError, false, false⟩ rfl rfl
  simp [printDecompressed, never] at ends

end OsLabwork.Utilities
