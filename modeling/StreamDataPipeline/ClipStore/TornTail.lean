/- Appending behind an unfinished last line. -/

import StreamDataPipeline.ClipStore.Query

set_option autoImplicit false
set_option relaxedAutoImplicit false

namespace StreamDataPipeline.ClipStore.TornTail

open Foundations.ByteString Foundations.Lines Foundations.LastWrite Foundations.Decimal Format Query

/-- What a scan still reads of the old file once a row was printed behind it: its finished
lines, and its unfinished line only if that is cut before the new row. -/
def stillRead (file : Bytes) : Bytes :=
  if nul ∈ openTail lf file ∨ cr ∈ openTail lf file then file else closedPart lf file

private theorem cutLine_append_of_cut {front : Bytes} (cut : nul ∈ front ∨ cr ∈ front)
    (more : Bytes) : cutLine (front ++ more) = cutLine front := by
  have stops : ¬ ∀ b ∈ front, (b ≠ nul && b ≠ cr && b ≠ lf) = true := by
    intro all
    rcases cut with mem | mem
    · exact absurd (all nul mem) (by decide)
    · exact absurd (all cr mem) (by decide)
  rw [cutLine, List.takeWhile_append, if_neg fun whole => stops ?_]
  · rfl
  · exact List.takeWhile_eq_self_iff.mp (List.Sublist.eq_of_length (List.takeWhile_sublist _) whole)

private theorem cutLine_append_line {front : Bytes} (clean : nul ∉ front ∧ cr ∉ front ∧ lf ∉ front)
    (text : Bytes) : cutLine (front ++ text) = front ++ cutLine text := by
  apply List.takeWhile_append_of_pos
  intro b hb
  have hnul : b ≠ nul := fun h => clean.1 (h ▸ hb)
  have hcr : b ≠ cr := fun h => clean.2.1 (h ▸ hb)
  have hlf : b ≠ lf := fun h => clean.2.2 (h ▸ hb)
  simp [hnul, hcr, hlf]

/-- A row printed behind an unfinished line is never read back under its own key: with no
TAB in that line the key grows, with one the new row ends up in the expiry field. -/
private theorem merged_key_ne {z : Zlib} {torn key stored : Bytes} {expireAt : Int}
    (unfinished : torn ≠ []) (keyClean : ∀ b ∈ key, FieldByte b) (marked : 90 ∈ stored)
    {row : Row} (parsed : parseDbRow z (torn ++ rowText key stored expireAt) = some row) :
    row.key ≠ key := by
  obtain ⟨rest, value, last, first, second, number, _⟩ := parseDbRow_fields parsed
  cases tornTab : strchr tab torn with
  | none =>
      have noTab : tab ∉ torn ++ key := by
        intro mem
        rcases List.mem_append.mp mem with here | there
        · obtain ⟨front, back, rfl, absent⟩ := List.eq_append_cons_of_mem here
          rw [strchr_append absent] at tornTab
          cases tornTab
        · exact (keyClean tab there).2.1 rfl
      rw [rowText, ← List.append_assoc, strchr_append noTab] at first
      have grown : torn ++ key = row.key := by simpa using congrArg (Option.map Prod.fst) first
      intro same
      rw [same] at grown
      exact unfinished (List.append_left_eq_self.mp grown)
  | some parts =>
      rw [strchr_append_left tornTab] at first
      have after : parts.2 ++ rowText key stored expireAt = rest := by
        simpa using congrArg (Option.map Prod.snd) first
      rw [← after, rowText, ← List.append_assoc] at second
      have inLast : 90 ∈ last := (strchr_suffix second).subset (List.mem_append_left _ marked)
      exact absurd (strtolWhole_chars number 90 inLast) (by decide)

private theorem dbRows_oneLine (z : Zlib) {line : Bytes} (oneLine : pieces lf line = [line]) :
    dbRows z line = (parseDbRow z (cutLine line)).toList := by
  rw [dbRows, oneLine]
  cases h : parseDbRow z (cutLine line) <;> simp [h]

private theorem latestRow_behind_torn {z : Zlib} {before stored : Bytes} {row : Row}
    (storable : Storable row) (nonempty : row.value ≠ [])
    (written : storedValue z row.value = some stored) (unfinished : openTail lf before ≠ []) :
    latestRow z (before ++ (rowText row.key stored row.expireAt ++ [lf])) row.key =
      latestRow z (stillRead before) row.key := by
  have noLf : lf ∉ openTail lf before := sep_not_mem_openTail before
  have whole : closedPart lf before ++ openTail lf before = before :=
    closedPart_append_openTail before
  have storedClean := storedValue_clean written
  have textNoLf := lf_not_mem_rowText (fun h => (storable.key_clean lf h).2.2.1 rfl) storedClean
    row.expireAt
  have marked : 90 ∈ stored := by
    rw [storedValue, if_neg nonempty] at written
    obtain ⟨comp, _, rfl⟩ := Option.map_eq_some_iff.mp written
    exact List.mem_cons_self
  have merged : dbRows z (before ++ (rowText row.key stored row.expireAt ++ [lf])) =
      dbRows z (closedPart lf before) ++ (parseDbRow z (cutLine (openTail lf before ++
        (rowText row.key stored row.expireAt ++ [lf])))).toList := by
    have joined : lf ∉ openTail lf before ++ rowText row.key stored row.expireAt := by
      simp [noLf, textNoLf]
    have oneLine := pieces_line joined
    rw [List.append_assoc] at oneLine
    conv_lhs => rw [← whole, List.append_assoc,
      dbRows_append z (closedPart_closed before)]
    rw [dbRows_oneLine z oneLine]
  by_cases cut : nul ∈ openTail lf before ∨ cr ∈ openTail lf before
  · have kept : dbRows z before = dbRows z (closedPart lf before) ++
        (parseDbRow z (cutLine (openTail lf before))).toList := by
      conv_lhs => rw [← whole, dbRows_append z (closedPart_closed before)]
      rw [dbRows_oneLine z (pieces_tail noLf unfinished)]
    rw [latestRow, merged, cutLine_append_of_cut cut, ← kept, stillRead, if_pos cut]
    rfl
  · obtain ⟨noNul, noCr⟩ := not_or.mp cut
    have merges : cutLine (openTail lf before ++ (rowText row.key stored row.expireAt ++ [lf])) =
        openTail lf before ++ rowText row.key stored row.expireAt := by
      rw [cutLine_append_line ⟨noNul, noCr, noLf⟩,
        cutLine_rowText storable.key_clean storedClean row.expireAt]
    rw [latestRow, merged, merges, stillRead, if_neg cut, lastWrite_append]
    cases parsed : parseDbRow z (openTail lf before ++ rowText row.key stored row.expireAt) with
    | none => simp [latestRow]
    | some other =>
        have different := merged_key_ne unfinished storable.key_clean marked parsed
        simp [lastWrite_singleton, different, latestRow]

/-- The row is found under its key exactly when the file was empty or ended with a finished
line, or what is still read of it gave that very row already. -/
theorem append_survives_iff (z : Zlib) {before after : Bytes} {row : Row}
    (storable : Storable row) (nonempty : row.value ≠ [])
    (appended : appendDbRow z before row.key row.value row.expireAt = some after) :
    loadLatestRow z after row.key = some (some row) ↔
      Closed lf before ∨ latestRow z (stillRead before) row.key = some row := by
  rw [loadLatestRow_eq, Option.some.injEq]
  by_cases finished : openTail lf before = []
  · have closed := openTail_eq_nil_iff.mp finished
    have found : latestRow z after row.key = some row := by
      rw [latestRow, (dbRows_appendDbRow closed storable appended).1, lastWrite_concat, if_pos rfl]
    exact iff_of_true found (.inl closed)
  · have torn : ¬ Closed lf before := fun closed => finished (openTail_eq_nil_iff.mpr closed)
    rw [appendDbRow_eq] at appended
    obtain ⟨stored, written, rfl⟩ := Option.map_eq_some_iff.mp appended
    rw [latestRow_behind_torn storable nonempty written finished]
    simp [torn]

/-- The row `a` behind a finished row and a line that is cut at its CR, which holds the row
already. -/
theorem append_survives_behind_cut_line :
    ∃ after, appendDbRow storedZlib (ascii "b\tv\t0\na\tw\t0\r") (ascii "a") (ascii "w") 0 =
        some after ∧
      (loadLatestRow storedZlib after (ascii "a") = some (some ⟨ascii "a", ascii "w", 0⟩) ↔
        Closed lf (ascii "b\tv\t0\na\tw\t0\r") ∨
          latestRow storedZlib (stillRead (ascii "b\tv\t0\na\tw\t0\r")) (ascii "a") =
            some ⟨ascii "a", ascii "w", 0⟩) :=
  ⟨(appendDbRow storedZlib (ascii "b\tv\t0\na\tw\t0\r") (ascii "a") (ascii "w") 0).getD [],
    by decide, append_survives_iff storedZlib
      (show Storable ⟨ascii "a", ascii "w", 0⟩ from ⟨by decide, by decide, by decide⟩)
      (by decide) (by decide)⟩

/-- A crash left the first bytes of a row. The next row is appended without an error and
is not found. -/
theorem append_behind_torn_row_not_found :
    ∃ after, appendDbRow storedZlib (ascii "b\tZ:eJ") (ascii "a") (ascii "w") 0 = some after ∧
      loadLatestRow storedZlib after (ascii "a") ≠ some (some ⟨ascii "a", ascii "w", 0⟩) := by
  refine ⟨(appendDbRow storedZlib (ascii "b\tZ:eJ") (ascii "a") (ascii "w") 0).getD [],
    by decide, ?_⟩
  rw [loadLatestRow_eq]
  decide

end StreamDataPipeline.ClipStore.TornTail
