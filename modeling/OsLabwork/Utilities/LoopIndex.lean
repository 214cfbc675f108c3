import OsLabwork.Utilities.RoundTrip

/-!
# The index of the decompressor's inner loop

The compressor closes a run only at `UINT_MAX`, whereas the decompressor counts with an
`int`. Every count from one to `UINT_MAX` is written for some input, with every byte but
the one that is taken for the end of a file. The index stays in range for the lower half
of these counts.
-/

namespace OsLabwork.Utilities

open RunLength

/-- The compressor writes the entry for some input, on which it ends normally. -/
def Emits (run : Run UInt8) : Prop :=
  ∃ fopen paths output, Writes fopen paths output ∧ run ∈ entries output

/-- When the compressor ends normally, it has opened all of its files. -/
theorem zipFiles_opened {fuel : Nat} {fopen : CString → Option Stream} {paths : List CString}
    {state : ZipState} {output : List UInt8}
    (ends : zipFiles fuel fopen paths state = some ⟨output, 0⟩) :
    ∀ path ∈ paths, (fopen path).isSome := by
  induction paths generalizing state with
  | nil => simp
  | cons path paths inductionHypothesis =>
    rw [zipFiles] at ends
    split at ends
    · simp at ends
    · next stream opened =>
      obtain ⟨next, _, onward⟩ := Option.bind_eq_some_iff.mp ends
      rw [List.forall_mem_cons]
      exact ⟨by rw [opened]; rfl, inductionHypothesis onward⟩

/-- What is written on a normal end is the code of a text without the byte that is taken
for an end. -/
theorem Writes.eq_code {fopen : CString → Option Stream} {paths : List CString}
    {output : List UInt8} (writes : Writes fopen paths output) :
    ∃ text, (255 : UInt8) ∉ text ∧ output = (code text).flatMap entryBytes := by
  obtain ⟨enough, ends⟩ := writes
  let contents : CString → List UInt8 := fun path => ((fopen path).map Stream.rest).getD []
  have nonempty : paths ≠ [] := by
    rintro rfl
    have usage := ends (enough + 1) (Nat.lt_succ_self enough)
    simp [seuzip] at usage
  have opened : ∀ path ∈ paths, ∃ stream, fopen path = some stream ∧
      stream.rest = contents path := by
    intro path member
    have run := ends (enough + 1) (Nat.lt_succ_self enough)
    rw [seuzip, if_neg nonempty] at run
    obtain ⟨stream, found⟩ := Option.isSome_iff_exists.mp (zipFiles_opened run path member)
    exact ⟨stream, found, by simp [contents, found]⟩
  let fuel := enough + (paths.flatMap contents).length + 1
  have written := seuzip_writes fopen contents paths nonempty opened fuel (by omega)
  rw [ends fuel (by omega)] at written
  refine ⟨paths.flatMap fun path => readable (contents path), ?_, ?_⟩
  · simp only [List.mem_flatMap, not_exists, not_and]
    intro path _ inside
    simpa using List.mem_takeWhile_imp inside
  · simpa using written

/-- The compressor can write exactly the entries with a count from one to `UINT_MAX` and
a byte other than the one that is taken for the end of a file. -/
theorem emits_iff (run : Run UInt8) :
    Emits run ↔ 1 ≤ run.count ∧ run.count ≤ uintMax ∧ run.value ≠ 255 := by
  constructor
  · rintro ⟨fopen, paths, output, writes, member⟩
    obtain ⟨text, clean, rfl⟩ := writes.eq_code
    have canonical := code_canonical text
    rw [entries_entryBytes _ canonical.bounded] at member
    obtain ⟨started, within⟩ := canonical.bounded run member
    refine ⟨started, within, fun taken => clean ?_⟩
    rw [← expand_code text, ← taken]
    exact List.mem_flatMap.mpr ⟨run, member, List.mem_replicate.mpr ⟨by omega, rfl⟩⟩
  · rintro ⟨started, within, clean⟩
    let text := List.replicate run.count run.value
    have absent : (255 : UInt8) ∉ text := fun member =>
      clean (List.eq_of_mem_replicate member).symm
    have coded : code text = [run] := by
      rw [code, pushAll_replicate started within [] run.value (by simp)]
      rfl
    have written := writes_code (fun _ => some (Stream.file text)) (fun _ => text)
      [CString.leading (ascii "f")] (by simp) (fun _ _ => ⟨_, rfl, rfl⟩) (fun _ _ => absent)
    refine ⟨_, _, _, written, ?_⟩
    rw [entries_entryBytes _ (code_canonical _).bounded, List.flatMap_singleton, coded]
    exact List.mem_singleton_self run

/-- The loop of one entry: its output, and whether its index leaves the range. -/
theorem printRun_entry {count : Nat} (within : count ≤ uintMax) (ch : UInt8) (fuel : Nat)
    (enough : count < fuel) (stdout : List UInt8) :
    printRun count ch fuel 0 ⟨stdout, false⟩ =
      some ⟨stdout ++ List.replicate count ch, decide (intMax < count)⟩ := by
  simpa using printRun_exact count ch within fuel 0 (Nat.zero_le _) ⟨stdout, false⟩ enough

/-- For every entry that the compressor can write, the loop prints the byte exactly as
often as the count says without incrementing its index at `INT_MAX` precisely when the
count is at most `INT_MAX`. -/
theorem printRun_in_range_iff (run : Run UInt8) (written : Emits run) :
    (∃ enough, ∀ fuel, enough < fuel → ∀ stdout,
      printRun run.count run.value fuel 0 ⟨stdout, false⟩ =
        some ⟨stdout ++ List.replicate run.count run.value, false⟩) ↔ run.count ≤ intMax := by
  obtain ⟨_, within, _⟩ := (emits_iff run).mp written
  constructor
  · rintro ⟨enough, ends⟩
    have result := ends (enough + run.count + 1) (by omega) []
    rw [printRun_entry within _ _ (by omega)] at result
    simpa using result
  · intro small
    refine ⟨run.count, fun fuel more stdout => ?_⟩
    rw [printRun_entry within _ fuel more, decide_eq_false (by omega)]

/-- A run of two bytes. -/
theorem printRun_in_range_iff_two_bytes :
    Emits ⟨2, 97⟩ ∧ ((∃ enough, ∀ fuel, enough < fuel → ∀ stdout,
      printRun 2 97 fuel 0 ⟨stdout, false⟩ =
        some ⟨stdout ++ List.replicate 2 97, false⟩) ↔ 2 ≤ intMax) := by
  have written : Emits ⟨2, 97⟩ := (emits_iff ⟨2, 97⟩).mpr ⟨by decide, by decide, by decide⟩
  exact ⟨written, printRun_in_range_iff ⟨2, 97⟩ written⟩

/-- A file of two gibibytes of one letter. -/
theorem two_gibibytes_overflow_the_index :
    Emits ⟨2 ^ 31, 97⟩ ∧ ∀ fuel, 2 ^ 31 < fuel →
      ∃ stdout, printRun (2 ^ 31) 97 fuel 0 ⟨[], false⟩ = some ⟨stdout, true⟩ := by
  refine ⟨(emits_iff ⟨2 ^ 31, 97⟩).mpr ⟨by decide, by decide, by decide⟩, fun fuel enough => ?_⟩
  have long : decide (intMax < 2 ^ 31) = true := by decide
  exact ⟨_, (printRun_entry (by decide) 97 fuel enough []).trans (by rw [long])⟩

end OsLabwork.Utilities
