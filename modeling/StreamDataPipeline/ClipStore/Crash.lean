/- What is read of a file whose last row was only partly written. -/

import StreamDataPipeline.ClipStore.WriteFailures

/-!
A process that is killed leaves the first bytes of what it had to write. All rows but the
last one are whole then, and the last one is read only if the cut is inside its expiry time.
-/

set_option autoImplicit false
set_option relaxedAutoImplicit false

namespace StreamDataPipeline.ClipStore.Crash

open Foundations.ByteString Foundations.Lines Foundations.Decimal Format Query WriteFailures

/-- A row that is read from the first bytes of another one: the last digits of its expiry time
are missing. -/
structure TornOf (row torn : Row) : Prop where
  key : torn.key = row.key
  value : torn.value = row.value
  digits : ∃ j : Nat, torn.expireAt = row.expireAt.tdiv (10 ^ j)
  forever : torn.expireAt = 0 ↔ row.expireAt = 0

theorem TornOf.live {row torn : Row} (tornOf : TornOf row torn) {now : Int} (era : 0 ≤ now)
    (live : rowIsLive torn now = true) : rowIsLive row now = true := by
  obtain ⟨j, digits⟩ := tornOf.digits
  simp only [rowIsLive, clipRowIsTombstone, clipRowIsExpired, Bool.and_eq_true, Bool.not_eq_true',
    Bool.and_eq_false_iff, decide_eq_false_iff_not, not_not, not_le, tornOf.value,
    tornOf.forever] at live ⊢
  refine ⟨live.1, live.2.imp_right fun later => ?_⟩
  have smaller : (row.expireAt.tdiv (10 ^ j)).natAbs ≤ row.expireAt.natAbs :=
    Int.natAbs_tdiv_le_natAbs _ _
  have positive : 0 ≤ row.expireAt := by
    by_contra negative
    have stays : 0 ≤ (-row.expireAt).tdiv (10 ^ j) := Int.tdiv_nonneg (by omega) (by positivity)
    rw [Int.neg_tdiv] at stays
    omega
  omega

private theorem count_tab {s : Bytes} (clean : ∀ b ∈ s, FieldByte b) : s.count tab = 0 :=
  List.count_eq_zero.mpr fun mem => (clean tab mem).2.1 rfl

/-- The first bytes of a printed row are no row, or that row with a torn expiry time. -/
theorem parseDbRow_cut {z : Zlib} {row torn : Row} (storable : Storable row) {stored : Bytes}
    (written : storedValue z row.value = some stored) {n : Nat}
    (parsed : parseDbRow z ((rowText row.key stored row.expireAt).take n) = some torn) :
    TornOf row torn := by
  have split : rowText row.key stored row.expireAt =
      (row.key ++ tab :: stored) ++ (tab :: decimal row.expireAt) := by simp [rowText]
  by_cases short : n ≤ (row.key ++ tab :: stored).length
  · -- a row has two TABs, and here is one at most
    obtain ⟨rest, value, last, first, second, -⟩ := parseDbRow_fields parsed
    rw [split, List.take_append_of_le_length short] at first
    have whole := (strchr_eq_some first).1
    rw [(strchr_eq_some second).1] at whole
    have many : 2 ≤ ((row.key ++ tab :: stored).take n).count tab := by
      rw [whole]
      simp only [List.count_append, List.count_cons_self]
      omega
    have few := (List.take_sublist n (row.key ++ tab :: stored)).count_le tab
    rw [List.count_append, List.count_cons_self, count_tab storable.key_clean,
      count_tab (storedValue_clean written)] at few
    omega
  · obtain ⟨m, size⟩ : ∃ m, n = (row.key ++ tab :: stored).length + (m + 1) :=
      ⟨n - (row.key ++ tab :: stored).length - 1, by omega⟩
    rw [split, size, List.take_length_add_append, List.take_succ_cons, List.append_assoc,
      List.cons_append, parseDbRow_fieldsText storable written] at parsed
    obtain ⟨expireAt, number, rfl⟩ := Option.map_eq_some_iff.mp parsed
    obtain ⟨j, digits, forever⟩ := strtolWhole_decimal_take storable.expireAt_long m number
    exact ⟨rfl, rfl, ⟨j, digits⟩, forever⟩

theorem cutLine_of_clean {line : Bytes} (clean : ∀ b ∈ line, b ≠ nul ∧ b ≠ cr ∧ b ≠ lf) :
    cutLine line = line := by
  apply List.takeWhile_eq_self_iff.mpr
  intro b mem
  simpa [and_assoc] using clean b mem

/-- The bytes of rows up to some point: whole rows, and the beginning of the next one. -/
theorem rowsText_take (z : Zlib) {rows : List Row} (storable : ∀ row ∈ rows, Storable row)
    (printable : ∀ row ∈ rows, (rowLine z row).isSome) (n : Nat) :
    ∃ k cut, (rowsText z rows).take n = rowsText z (rows.take k) ++ cut ∧ lf ∉ cut ∧
      dbRows z (rowsText z (rows.take k) ++ cut) = rows.take k ++ dbRows z cut ∧
      (dbRows z cut).length ≤ 1 ∧ ∀ torn ∈ dbRows z cut, ∃ row, rows[k]? = some row ∧
        TornOf row torn := by
  induction rows generalizing n with
  | nil => exact ⟨0, [], by simp [rowsText, dbRows, pieces]⟩
  | cons row rest ih =>
      rw [List.forall_mem_cons] at storable printable
      obtain ⟨line, printed⟩ := Option.isSome_iff_exists.mp printable.1
      obtain ⟨stored, written, shape⟩ := Option.map_eq_some_iff.mp printed
      have text : rowsText z (row :: rest) = line ++ rowsText z rest := by
        simp [rowsText, printed]
      have closed : Closed lf line := shape ▸ closed_line _
      have read : dbRows z line = [row] := by
        rw [dbRows_eq_rowLines, ← shape, rowLines_rowText storable.1 written]
        rfl
      by_cases whole : line.length ≤ n
      · obtain ⟨k, cut, bytes, single, rows, few, torn⟩ :=
          ih storable.2 printable.2 (n - line.length)
        have front :
            rowsText z ((row :: rest).take (k + 1)) = line ++ rowsText z (rest.take k) := by
          simp [rowsText, printed]
        refine ⟨k + 1, cut, ?_, single, ?_, few, torn⟩
        · rw [text, List.take_append, List.take_of_length_le whole, bytes, front, List.append_assoc]
        · rw [front, List.append_assoc, dbRows_append z closed, read, rows]
          rfl
      · have inside : n ≤ (rowText row.key stored row.expireAt).length := by
          rw [← shape, List.length_append, List.length_singleton] at whole
          omega
        have cut : (rowsText z (row :: rest)).take n =
            (rowText row.key stored row.expireAt).take n := by
          rw [text, List.take_append_of_le_length (Nat.le_of_not_le whole), ← shape,
            List.take_append_of_le_length inside]
        have clean : ∀ b ∈ rowText row.key stored row.expireAt, b ≠ nul ∧ b ≠ cr ∧ b ≠ lf := by
          have kept := cutLine_clean (rowText row.key stored row.expireAt ++ [lf])
          rw [cutLine_rowText storable.1.key_clean (storedValue_clean written)] at kept
          exact fun b mem => ⟨(kept b mem).1, (kept b mem).2.2, (kept b mem).2.1⟩
        have cutClean : ∀ b ∈ (rowText row.key stored row.expireAt).take n,
            b ≠ nul ∧ b ≠ cr ∧ b ≠ lf := fun b mem => clean b (List.mem_of_mem_take mem)
        have single : lf ∉ (rowText row.key stored row.expireAt).take n :=
          fun mem => (cutClean lf mem).2.2 rfl
        have tornRow : dbRows z ((rowText row.key stored row.expireAt).take n) =
            (parseDbRow z ((rowText row.key stored row.expireAt).take n)).toList := by
          by_cases empty : (rowText row.key stored row.expireAt).take n = []
          · rw [empty]
            rfl
          · rw [dbRows, pieces_tail single empty]
            simp only [List.filterMap_cons, cutLine_of_clean cutClean, List.filterMap_nil]
            cases parseDbRow z ((rowText row.key stored row.expireAt).take n) <;> rfl
        refine ⟨0, _, cut, single, rfl, ?_, ?_⟩
        · rw [tornRow]
          exact Option.length_toList_le
        · intro torn mem
          rw [tornRow, Option.mem_toList] at mem
          exact ⟨row, rfl, parseDbRow_cut storable.1 written mem⟩

end StreamDataPipeline.ClipStore.Crash
