/- What a parser that rounds numbers reads, beside one that keeps them exact. -/

import StreamDataPipeline.Foundations.Json

set_option autoImplicit false
set_option relaxedAutoImplicit false

namespace StreamDataPipeline.Foundations.Json

open ByteString Decimal

mutual

/-- The value with its numbers replaced, at every depth. -/
def JsonValue.mapNumbers (f : ℚ → ℚ) : JsonValue → JsonValue
  | .null => .null
  | .bool b => .bool b
  | .number value => .number (f value)
  | .string bytes => .string bytes
  | .array items => .array (mapItems f items)
  | .object members => .object (mapMembers f members)

def mapItems (f : ℚ → ℚ) : List JsonValue → List JsonValue
  | [] => []
  | item :: items => item.mapNumbers f :: mapItems f items

def mapMembers (f : ℚ → ℚ) : List (Bytes × JsonValue) → List (Bytes × JsonValue)
  | [] => []
  | (key, value) :: members => (key, value.mapNumbers f) :: mapMembers f members

end

theorem find?_mapMembers (f : ℚ → ℚ) (test : Bytes → Bool) (members : List (Bytes × JsonValue)) :
    ((mapMembers f members).find? fun member => test member.1) =
      (members.find? fun member => test member.1).map fun member =>
        (member.1, member.2.mapNumbers f) := by
  induction members with
  | nil => simp [mapMembers]
  | cons member members ih =>
      rw [mapMembers, List.find?_cons, List.find?_cons]
      cases test member.1
      · exact ih
      · rfl

variable (d : Dialect)

theorem stringBody_unrounded (fuel : Nat) (s : Bytes) :
    stringBody d.unrounded fuel s = stringBody d fuel s := by
  induction fuel generalizing s with
  | zero => rw [stringBody, stringBody]
  | succ fuel ih =>
      cases s with
      | nil => rw [stringBody, stringBody]
      | cons x rest =>
          simp only [stringBody, ih]
          rfl

theorem word_mapNumbers (f : ℚ → ℚ) (s : Bytes) :
    (word s).map (fun p => (p.1.mapNumbers f, p.2)) = word s := by
  rw [word]
  split_ifs <;> simp [JsonValue.mapNumbers]

section Step

variable {d} {fuel : Nat}
  (values : ∀ s, parseValue d fuel s =
    (parseValue d.unrounded fuel s).map fun p => (p.1.mapNumbers d.round, p.2))
  (members : ∀ s, parseMembers d fuel s =
    (parseMembers d.unrounded fuel s).map fun p => (mapMembers d.round p.1, p.2))
  (items : ∀ s, parseItems d fuel s =
    (parseItems d.unrounded fuel s).map fun p => (mapItems d.round p.1, p.2))

include members items in
private theorem parseValue_step (s : Bytes) :
    parseValue d (fuel + 1) s =
      (parseValue d.unrounded (fuel + 1) s).map fun p => (p.1.mapNumbers d.round, p.2) := by
  rw [parseValue, parseValue]
  rcases s.dropWhile isJsonSpace with _ | ⟨x, rest⟩
  · rfl
  simp only
  split_ifs
  · rw [stringBody_unrounded, Option.map_map]
    simp only [Function.comp_def, JsonValue.mapNumbers]
  · rcases expect 125 rest with _ | behind
    · simp only [members rest, Option.map_map, Function.comp_def, JsonValue.mapNumbers]
    · simp only [Option.map_some, JsonValue.mapNumbers, mapMembers]
  · rcases expect 93 rest with _ | behind
    · simp only [items rest, Option.map_map, Function.comp_def, JsonValue.mapNumbers]
    · simp only [Option.map_some, JsonValue.mapNumbers, mapItems]
  · -- the only place where the two parsers differ
    simp only [Option.map_map, Function.comp_def, JsonValue.mapNumbers]
    rfl
  · rw [word_mapNumbers]

include values members in
private theorem parseMembers_step (s : Bytes) :
    parseMembers d (fuel + 1) s =
      (parseMembers d.unrounded (fuel + 1) s).map fun p => (mapMembers d.round p.1, p.2) := by
  rw [parseMembers, parseMembers]
  rcases expect quote s with _ | name
  · rfl
  simp only [Option.bind_eq_bind, Option.bind_some, stringBody_unrounded]
  rcases stringBody d (name.length + 1) name with _ | ⟨key, rest⟩
  · rfl
  simp only [Option.bind_some]
  rcases expect 58 rest with _ | rest
  · rfl
  simp only [Option.bind_some, values rest]
  rcases parseValue d.unrounded fuel rest with _ | ⟨value, rest⟩
  · rfl
  simp only [Option.map_some, Option.bind_some]
  rcases expect 44 rest with _ | rest
  · simp only [Option.map_map, Function.comp_def, mapMembers]
  · simp only [members rest, Option.map_map, Function.comp_def, mapMembers]

include values items in
private theorem parseItems_step (s : Bytes) :
    parseItems d (fuel + 1) s =
      (parseItems d.unrounded (fuel + 1) s).map fun p => (mapItems d.round p.1, p.2) := by
  rw [parseItems, parseItems, values s]
  rcases parseValue d.unrounded fuel s with _ | ⟨value, rest⟩
  · rfl
  simp only [Option.bind_eq_bind, Option.map_some, Option.bind_some]
  rcases expect 44 rest with _ | rest
  · simp only [Option.map_map, Function.comp_def, mapItems]
  · simp only [items rest, Option.map_map, Function.comp_def, mapItems]

end Step

/-- Rounding changes numbers and nothing else that is read. -/
theorem parse_unrounded (fuel : Nat) :
    (∀ s, parseValue d fuel s =
      (parseValue d.unrounded fuel s).map fun p => (p.1.mapNumbers d.round, p.2)) ∧
    (∀ s, parseMembers d fuel s =
      (parseMembers d.unrounded fuel s).map fun p => (mapMembers d.round p.1, p.2)) ∧
    ∀ s, parseItems d fuel s =
      (parseItems d.unrounded fuel s).map fun p => (mapItems d.round p.1, p.2) := by
  induction fuel with
  | zero => exact ⟨fun _ => by simp [parseValue], fun _ => by simp [parseMembers],
      fun _ => by simp [parseItems]⟩
  | succ fuel ih =>
      obtain ⟨values, members, items⟩ := ih
      exact ⟨parseValue_step members items, parseMembers_step values members,
        parseItems_step values items⟩

theorem parseText_unrounded (s : Bytes) :
    parseText d s =
      (parseText d.unrounded s).map fun p => (p.1.mapNumbers d.round, p.2) :=
  (parse_unrounded d (s.length + 1)).1 s

end StreamDataPipeline.Foundations.Json
