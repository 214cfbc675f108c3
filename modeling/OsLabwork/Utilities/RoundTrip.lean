import OsLabwork.Library.Splitting
import OsLabwork.Utilities.SeuUnzip
import OsLabwork.Utilities.SeuZip

/-!
# Compressing and decompressing

The decompressor reads back the runs that the compressor wrote, so it prints what
the compressor read. That is the content of the files exactly when no file has a
byte with all bits set, since the compressor takes such a byte for the end of its
file and reads no further.
-/

namespace OsLabwork.Utilities

open RunLength

/-- The entries of written runs are the runs. -/
theorem entries_entryBytes (runs : List (Run UInt8)) (bounded : Bounded uintMax runs) :
    entries (runs.flatMap entryBytes) = runs := by
  induction runs with
  | nil => rfl
  | cons run runs inductionHypothesis =>
    have value := unsignedValue_unsignedBytes run.count (bounded run List.mem_cons_self).2
    have later := inductionHypothesis (fun other member =>
      bounded other (List.mem_cons_of_mem _ member))
    simp only [unsignedBytes] at value
    simp only [List.flatMap_cons, entryBytes, unsignedBytes, List.cons_append, List.nil_append,
      entries, value, later]

/-- Nothing is lost from the files exactly when no byte is taken for an end. -/
theorem readable_all_iff (contents : List (List UInt8)) :
    contents.flatMap readable = contents.flatten ↔ ∀ content ∈ contents, (255 : UInt8) ∉ content := by
  have shorter : ∀ content ∈ contents, (readable content).length ≤ (id content).length :=
    fun content _ => (List.takeWhile_sublist _).length_le
  have pieces := Splitting.flatMap_eq_iff shorter
  rw [List.flatMap_id] at pieces
  simpa only [id_eq, readable_eq_self_iff] using pieces

/-- For every nonempty list of files, the compressor ends normally, and so does the
decompressor on what it wrote. What is printed in the end is the content of all
files together exactly when none of them has a byte with all bits set.

Proof: the compressor writes the runs of what it reads, the decompressor reads the
same runs and expands them, and expanding gives back what was read. -/
theorem unzip_zip_iff (fopen : CString → Option Stream) (contents : CString → List UInt8)
    (paths : List CString) (nonempty : paths ≠ [])
    (openable : ∀ path ∈ paths, fopen path = some (Stream.file (contents path)))
    (archive : CString) :
    ∃ enough output, ∀ fuel, enough < fuel →
      seuzip fuel fopen paths = some ⟨output, 0⟩ ∧
      ∃ printed, seuunzip fuel (fun _ => some (Stream.file output)) [archive] =
          some ⟨printed, 0⟩ ∧
        (printed = paths.flatMap contents ↔ ∀ path ∈ paths, (255 : UInt8) ∉ contents path) := by
  let read := paths.flatMap fun path => readable (contents path)
  let output := (code read).flatMap entryBytes
  refine ⟨uintMax + (paths.flatMap contents).length + output.length + 1, output, ?_⟩
  intro fuel enough
  constructor
  · exact seuzip_writes fopen contents paths nonempty
      (fun path member => ⟨_, openable path member, rfl⟩) fuel (by omega)
  · obtain ⟨remaining, rfl⟩ : ∃ remaining, fuel = remaining + 1 := ⟨fuel - 1, by omega⟩
    obtain ⟨final, decoding, printed⟩ := decompressLoop_exact output [0, 0, 0, 0] rfl 0 ⟨[], false⟩
      (Stream.file output) rfl rfl rfl remaining (by omega)
    refine ⟨final.stdout, ?_, ?_⟩
    · simp [seuunzip, unzipFiles, printDecompressed, decoding]
    · rw [printed, entries_entryBytes (code read) (code_canonical read).bounded, expand_code,
        List.nil_append]
      have law := readable_all_iff (paths.map contents)
      simpa [List.flatMap_map, ← List.flatMap_def, read] using law

/-- A file with one byte of each kind. -/
def mixedFile : CString → List UInt8 := fun _ => [97, 255, 98]

/-- A file with runs of different lengths. -/
theorem unzip_zip_iff_mixed_file :
    ∃ enough output, ∀ fuel, enough < fuel →
      seuzip fuel (fun path => some (Stream.file (mixedFile path))) [⟨ascii "f", by decide⟩] =
        some ⟨output, 0⟩ ∧
      ∃ printed, seuunzip fuel (fun _ => some (Stream.file output)) [⟨ascii "f.z", by decide⟩] =
          some ⟨printed, 0⟩ ∧
        (printed = [(⟨ascii "f", by decide⟩ : CString)].flatMap mixedFile ↔
          ∀ path ∈ [(⟨ascii "f", by decide⟩ : CString)], (255 : UInt8) ∉ mixedFile path) :=
  unzip_zip_iff (fun path => some (Stream.file (mixedFile path))) mixedFile
    [⟨ascii "f", by decide⟩] (by decide) (fun _ _ => rfl) ⟨ascii "f.z", by decide⟩

/-- The bytes behind the one with all bits set do not come back, nor does it itself. -/
theorem bytes_behind_255_are_lost :
    seuzip 9 (fun path => some (Stream.file (mixedFile path))) [⟨ascii "f", by decide⟩] =
        some ⟨[1, 0, 0, 0, 97], 0⟩ ∧
      seuunzip 9 (fun _ => some (Stream.file [1, 0, 0, 0, 97])) [⟨ascii "f.z", by decide⟩] =
        some ⟨[97], 0⟩ ∧
      [97] ≠ mixedFile ⟨ascii "f", by decide⟩ := by
  decide

end OsLabwork.Utilities
