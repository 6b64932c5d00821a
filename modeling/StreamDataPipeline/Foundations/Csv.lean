/- Comma-separated values: a reader of records with quoted fields, and the writer it undoes. -/

import StreamDataPipeline.Foundations.Schedule

/-!
The reader takes one character at a time. A field is quoted if it begins with the quote; inside,
the quote stands for itself only when it is doubled. Outside quotes a field holds the characters
that the dialect allows there and no others.
-/

set_option autoImplicit false
set_option relaxedAutoImplicit false

namespace StreamDataPipeline.Foundations.Csv

universe u

variable {α : Type u} [DecidableEq α]

/-- The characters of a format; `bare` are those that may stand outside quotes. -/
structure Dialect (α : Type u) where
  separator : α
  quote : α
  terminator : α
  bare : α → Bool
  bare_separator : bare separator = false
  bare_quote : bare quote = false
  bare_terminator : bare terminator = false
  separator_ne_quote : separator ≠ quote
  terminator_ne_quote : terminator ≠ quote
  terminator_ne_separator : terminator ≠ separator

/-- Where the reader stands: in front of a field, in one without quotes, between quotes, or behind
a quote that ends the field unless a second one follows. -/
inductive Place where
  | start | plain | quoted | closed
  deriving DecidableEq

/-- The finished records, the finished fields of the next one, and the field being read. -/
structure Reader (α : Type u) where
  records : List (List (List α))
  fields : List (List α)
  field : List α
  place : Place

namespace Reader

def empty : Reader α := ⟨[], [], [], .start⟩

def endField (r : Reader α) : Reader α :=
  { r with fields := r.fields ++ [r.field], field := [], place := .start }

def endRecord (r : Reader α) : Reader α :=
  ⟨r.records ++ [r.fields ++ [r.field]], [], [], .start⟩

def extend (r : Reader α) (c : α) (place : Place) : Reader α :=
  { r with field := r.field ++ [c], place := place }

end Reader

variable (d : Dialect α)

/-- One character of the text; `none` where the text is malformed. -/
def step (r : Reader α) (c : α) : Option (Reader α) :=
  if r.place = .quoted then
    if c = d.quote then some { r with place := .closed } else some (r.extend c .quoted)
  else if c = d.separator then some r.endField
  else if c = d.terminator then some r.endRecord
  else if c = d.quote then
    match r.place with
    | .start => some { r with place := .quoted }
    | .closed => some (r.extend c .quoted)
    | _ => none
  else if d.bare c ∧ r.place ≠ .closed then some (r.extend c .plain)
  else none

/-- The records of a text. The last one may lack its terminator. -/
def read (text : List α) : Option (List (List (List α))) :=
  match Schedule.run (step d) Reader.empty text with
  | none => none
  | some r =>
      if r.place = .quoted then none
      else if r.place = .start ∧ r.fields = [] then some r.records
      else some r.endRecord.records

def quotedField (s : List α) : List α :=
  d.quote :: s.flatMap (fun c => if c = d.quote then [d.quote, d.quote] else [c]) ++ [d.quote]

/-- A field is quoted where it holds a character that may not stand outside quotes. -/
def encodeField (s : List α) : List α := if s.all d.bare then s else quotedField d s

def encodeRecord (fields : List (List α)) : List α :=
  List.intercalate [d.separator] (fields.map (encodeField d)) ++ [d.terminator]

section RoundTrip

variable {d}

theorem mem_encodeField {s : List α} {c : α} (mem : c ∈ encodeField d s) :
    c ∈ s ∨ c = d.quote := by
  rw [encodeField] at mem
  split_ifs at mem with bare
  · exact .inl mem
  · rw [quotedField, List.mem_append, List.mem_cons, List.mem_flatMap, List.mem_singleton] at mem
    rcases mem with (opening | ⟨held, inside, doubled⟩) | closing
    · exact .inr opening
    · split_ifs at doubled
      · exact .inr (by simpa using doubled)
      · exact .inl (List.mem_singleton.mp doubled ▸ inside)
    · exact .inr closing

theorem run_bare {s : List α} (bare : ∀ c ∈ s, d.bare c = true) {r : Reader α}
    (place : r.place = .start ∨ r.place = .plain) :
    ∃ place', (place' = .start ∨ place' = .plain) ∧
      Schedule.run (step d) r s = some { r with field := r.field ++ s, place := place' } := by
  induction s generalizing r with
  | nil => exact ⟨r.place, place, by simp [Schedule.run]⟩
  | cons c rest ih =>
      obtain ⟨here, later⟩ := List.forall_mem_cons.mp bare
      have ordinary : c ≠ d.separator ∧ c ≠ d.terminator ∧ c ≠ d.quote := by
        refine ⟨?_, ?_, ?_⟩
        · rintro rfl
          rw [d.bare_separator] at here
          cases here
        · rintro rfl
          rw [d.bare_terminator] at here
          cases here
        · rintro rfl
          rw [d.bare_quote] at here
          cases here
      have moved : step d r c = some (r.extend c .plain) := by
        rcases place with place | place <;>
          simp [step, place, ordinary.1, ordinary.2.1, ordinary.2.2, here]
      obtain ⟨place', known, reached⟩ := ih later (r := r.extend c .plain) (.inr rfl)
      refine ⟨place', known, ?_⟩
      rw [Schedule.run_cons (step d) moved, reached]
      simp [Reader.extend]

theorem run_doubled (s : List α) {r : Reader α} (place : r.place = .quoted) :
    Schedule.run (step d) r
        (s.flatMap fun c => if c = d.quote then [d.quote, d.quote] else [c]) =
      some { r with field := r.field ++ s } := by
  induction s generalizing r with
  | nil => simp [Schedule.run]
  | cons c rest ih =>
      have moved : Schedule.run (step d) r (if c = d.quote then [d.quote, d.quote] else [c]) =
          some (r.extend c .quoted) := by
        split_ifs with doubled
        · simp [Schedule.run, step, place, doubled, d.separator_ne_quote.symm,
            d.terminator_ne_quote.symm, Reader.extend]
        · simp [Schedule.run, step, place, doubled]
      have later := ih (r := r.extend c .quoted) rfl
      rw [List.flatMap_cons, Schedule.run_append, moved, Option.bind_some, later]
      simp [Reader.extend, place]

theorem run_encodeField (s : List α) {r : Reader α} (field : r.field = [])
    (place : r.place = .start) :
    ∃ place', place' ≠ .quoted ∧
      Schedule.run (step d) r (encodeField d s) =
        some { r with field := s, place := place' } := by
  rw [encodeField]
  split_ifs with bare
  · obtain ⟨place', known, reached⟩ := run_bare (List.all_eq_true.mp bare) (.inl place)
    refine ⟨place', ?_, by simpa [field] using reached⟩
    rcases known with rfl | rfl <;> decide
  · refine ⟨.closed, by decide, ?_⟩
    have opened : step d r d.quote = some { r with place := .quoted } := by
      simp [step, place, d.separator_ne_quote.symm, d.terminator_ne_quote.symm]
    have inner := run_doubled (d := d) s (r := { r with place := .quoted }) rfl
    rw [quotedField, List.cons_append, Schedule.run_cons (step d) opened, Schedule.run_append,
      inner]
    simp [Schedule.run, step, field]

theorem step_separator {r : Reader α} (outside : r.place ≠ .quoted) :
    step d r d.separator = some r.endField := by
  rw [step, if_neg outside, if_pos rfl]

theorem step_terminator {r : Reader α} (outside : r.place ≠ .quoted) :
    step d r d.terminator = some r.endRecord := by
  rw [step, if_neg outside, if_neg d.terminator_ne_separator, if_pos rfl]

theorem run_encodeRecord {fields : List (List α)} (some_field : fields ≠ []) {r : Reader α}
    (field : r.field = []) (place : r.place = .start) :
    Schedule.run (step d) r (encodeRecord d fields) =
      some ⟨r.records ++ [r.fields ++ fields], [], [], .start⟩ := by
  induction fields generalizing r with
  | nil => exact absurd rfl some_field
  | cons s rest ih =>
      obtain ⟨place', outside, reached⟩ := run_encodeField (d := d) s field place
      cases rest with
      | nil =>
          rw [encodeRecord, List.map_singleton, List.intercalate_singleton, Schedule.run_append,
            reached, Option.bind_some, Schedule.run_cons (step d) (step_terminator outside)]
          rfl
      | cons next more =>
          have shape : encodeRecord d (s :: next :: more) =
              encodeField d s ++ d.separator :: encodeRecord d (next :: more) := by
            simp [encodeRecord, List.intercalate_cons_cons]
          have later := @ih (by simp) { r with field := s, place := place' }.endField rfl rfl
          rw [shape, Schedule.run_append, reached, Option.bind_some,
            Schedule.run_cons (step d) (step_separator outside), later]
          simp [Reader.endField]

/-- What is written is read back, record by record. -/
theorem read_encodeRecords {records : List (List (List α))}
    (some_field : ∀ fields ∈ records, fields ≠ []) :
    read d (records.flatMap (encodeRecord d)) = some records := by
  have ran : ∀ before : List (List (List α)),
      Schedule.run (step d) ⟨before, [], [], .start⟩ (records.flatMap (encodeRecord d)) =
        some ⟨before ++ records, [], [], .start⟩ := by
    induction records with
    | nil => simp [Schedule.run]
    | cons fields rest ih =>
        intro before
        obtain ⟨here, later⟩ := List.forall_mem_cons.mp some_field
        rw [List.flatMap_cons, Schedule.run_append, run_encodeRecord here rfl rfl,
          Option.bind_some, ih later]
        simp
  rw [read, Reader.empty, ran]
  simp

end RoundTrip

end StreamDataPipeline.Foundations.Csv
