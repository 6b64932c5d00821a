/- Open-addressing tables with linear probing, over any entries, keys and hash. -/

import Mathlib.Data.List.Basic
import Mathlib.Data.Nat.ModEq
import Mathlib.Tactic.Common

/-!
A table is a list of buckets. The probe sequence of a key starts at its home
bucket and visits the buckets cyclically. A sound table keeps every entry on the
probe sequence of its key, with no hole in front of it; then a scan that stops at
a hole has proved its key absent.
-/

set_option autoImplicit false
set_option relaxedAutoImplicit false

namespace StreamDataPipeline.Foundations.LinearProbing

universe u v

variable {E : Type u} {K : Type v} (key : E → K) (home : K → Nat)

/-- The bucket at distance `d` on the probe sequence of `k`, in a table of `n` buckets. -/
def visit (n : Nat) (k : K) (d : Nat) : Nat := (home k + d) % n

/-- The bucket `i` holds the entry `e`. -/
def At (table : List (Option E)) (i : Nat) (e : E) : Prop := table[i]? = some (some e)

def Hole (table : List (Option E)) (i : Nat) : Prop := table[i]? = some none

/-- The first `d` buckets on the probe sequence of `k` hold entries with other keys. -/
def Passed (table : List (Option E)) (k : K) (d : Nat) : Prop :=
  ∀ d' < d, ∃ e, At table (visit home table.length k d') e ∧ key e ≠ k

/-- The first `d` buckets on the probe sequence of `k` are occupied. -/
def Occupied (table : List (Option E)) (k : K) (d : Nat) : Prop :=
  ∀ d' < d, ∃ e, At table (visit home table.length k d') e

structure Sound (table : List (Option E)) : Prop where
  distinct : ∀ {i j e f}, At table i e → At table j f → key e = key f → i = j
  reached : ∀ {i e}, At table i e →
    ∃ d, visit home table.length (key e) d = i ∧ Occupied home table (key e) d

variable {key home}

theorem At.lt {table : List (Option E)} {i : Nat} {e : E} (h : At table i e) :
    i < table.length := (List.getElem?_eq_some_iff.mp h).1

theorem Hole.lt {table : List (Option E)} {i : Nat} (h : Hole table i) :
    i < table.length := (List.getElem?_eq_some_iff.mp h).1

theorem At.unique {table : List (Option E)} {i : Nat} {e f : E} (he : At table i e)
    (hf : At table i f) : e = f := by
  have := he.symm.trans hf
  simpa using this

theorem Hole.not_at {table : List (Option E)} {i : Nat} {e : E} (hole : Hole table i)
    (h : At table i e) : False := by
  have := hole.symm.trans h
  simp at this

theorem visit_lt {n : Nat} (positive : 0 < n) (k : K) (d : Nat) : visit home n k d < n :=
  Nat.mod_lt _ positive

theorem visit_succ (n : Nat) (k : K) (d : Nat) :
    (visit home n k d + 1) % n = visit home n k (d + 1) := by
  simp [visit, Nat.add_assoc]

/-- Every bucket lies on every probe sequence, within one cycle. -/
theorem exists_visit {n i : Nat} (h : i < n) (k : K) : ∃ d < n, visit home n k d = i := by
  refine ⟨(i + (n - home k % n)) % n, Nat.mod_lt _ (by omega), ?_⟩
  have start : home k % n < n := Nat.mod_lt _ (by omega)
  rw [visit, Nat.add_mod, Nat.mod_mod, ← Nat.add_mod, Nat.add_mod (home k), Nat.add_mod_mod,
    show home k % n + (i + (n - home k % n)) = i + n by omega, Nat.add_mod_right]
  exact Nat.mod_eq_of_lt h

theorem Passed.occupied {table : List (Option E)} {k : K} {d : Nat}
    (h : Passed key home table k d) : Occupied home table k d :=
  fun d' hd => let ⟨e, he, _⟩ := h d' hd; ⟨e, he⟩

theorem Sound.absent {table : List (Option E)} (sound : Sound key home table) {k : K} {d : Nat}
    (passed : Passed key home table k d) (hole : Hole table (visit home table.length k d)) :
    ∀ {i e}, At table i e → key e ≠ k := by
  rintro i e here rfl
  obtain ⟨d₀, arrives, occupied⟩ := sound.reached here
  rcases Nat.lt_trichotomy d₀ d with before | same | after
  · obtain ⟨f, hf, other⟩ := passed d₀ before
    rw [arrives] at hf
    exact other (by rw [here.unique hf])
  · rw [← same, arrives] at hole
    exact hole.not_at here
  · obtain ⟨f, hf⟩ := occupied d after
    exact hole.not_at hf

theorem at_set {table : List (Option E)} {i j : Nat} {e f : E} (h : i < table.length) :
    At (table.set i (some e)) j f ↔ (j = i ∧ f = e) ∨ (j ≠ i ∧ At table j f) := by
  unfold At
  by_cases same : j = i
  · subst same
    rw [List.getElem?_set_self h]
    simp [eq_comm]
  · rw [List.getElem?_set_ne (Ne.symm same)]
    simp [same]

theorem Occupied.set {table : List (Option E)} {k : K} {d i : Nat}
    (occupied : Occupied home table k d) (h : i < table.length) (e : E) :
    Occupied home (table.set i (some e)) k d := by
  intro d' hd
  obtain ⟨f, hf⟩ := occupied d' hd
  rw [List.length_set]
  by_cases same : visit home table.length k d' = i
  · exact ⟨e, (at_set h).mpr (.inl ⟨same, rfl⟩)⟩
  · exact ⟨f, (at_set h).mpr (.inr ⟨same, hf⟩)⟩

/-- Filling the hole at which the scan for a key stopped keeps the table sound. -/
theorem Sound.insert {table : List (Option E)} (sound : Sound key home table) {e : E} {d : Nat}
    (passed : Passed key home table (key e) d)
    (hole : Hole table (visit home table.length (key e) d)) :
    Sound key home (table.set (visit home table.length (key e) d) (some e)) where
  distinct := by
    intro i j f g hf hg same
    rcases (at_set hole.lt).mp hf with ⟨hi, rfl⟩ | ⟨_, oldF⟩ <;>
      rcases (at_set hole.lt).mp hg with ⟨hj, rfl⟩ | ⟨_, oldG⟩
    · rw [hi, hj]
    · exact absurd same.symm (sound.absent passed hole oldG)
    · exact absurd same (sound.absent passed hole oldF)
    · exact sound.distinct oldF oldG same
  reached := by
    intro i f hf
    rw [List.length_set]
    rcases (at_set hole.lt).mp hf with ⟨hi, rfl⟩ | ⟨_, old⟩
    · exact ⟨d, hi.symm, passed.occupied.set hole.lt f⟩
    · obtain ⟨d', arrives, occupied⟩ := sound.reached old
      exact ⟨d', arrives, occupied.set hole.lt e⟩

theorem Sound.replace {table : List (Option E)} (sound : Sound key home table) {i : Nat}
    {e e' : E} (here : At table i e) (same : key e' = key e) :
    Sound key home (table.set i (some e')) where
  distinct := by
    intro a b f g hf hg equal
    rcases (at_set here.lt).mp hf with ⟨ha, rfl⟩ | ⟨_, oldF⟩ <;>
      rcases (at_set here.lt).mp hg with ⟨hb, rfl⟩ | ⟨_, oldG⟩
    · rw [ha, hb]
    · rw [ha]
      exact sound.distinct here oldG (same ▸ equal)
    · rw [hb]
      exact sound.distinct oldF here (same ▸ equal)
    · exact sound.distinct oldF oldG equal
  reached := by
    intro a f hf
    rw [List.length_set]
    rcases (at_set here.lt).mp hf with ⟨ha, rfl⟩ | ⟨_, old⟩
    · obtain ⟨d, arrives, occupied⟩ := sound.reached here
      rw [← same] at arrives occupied
      exact ⟨d, arrives.trans ha.symm, occupied.set here.lt f⟩
    · obtain ⟨d, arrives, occupied⟩ := sound.reached old
      exact ⟨d, arrives, occupied.set here.lt e'⟩

theorem sound_empty (n : Nat) : Sound key home (List.replicate n (none : Option E)) where
  distinct := by
    intro i j e f he
    have := List.mem_of_getElem? he
    simp at this
  reached := by
    intro i e he
    have := List.mem_of_getElem? he
    simp at this

/-- The entries in bucket order. -/
def entries (table : List (Option E)) : List E := table.filterMap id

theorem mem_entries {table : List (Option E)} {e : E} :
    e ∈ entries table ↔ ∃ i, At table i e := by
  simp only [entries, List.mem_filterMap, id_eq, exists_eq_right]
  exact List.mem_iff_getElem?

theorem entries_empty (n : Nat) : entries (List.replicate n (none : Option E)) = [] := by
  simp [entries]

private theorem entries_set (table : List (Option E)) (i : Nat) (h : i < table.length) (e : E) :
    entries (table.set i (some e)) =
      entries (table.take i) ++ e :: entries (table.drop (i + 1)) := by
  simp [List.set_eq_take_append_cons_drop, h, entries]

private theorem entries_split (table : List (Option E)) (i : Nat) (h : i < table.length) :
    entries table =
      entries (table.take i) ++ (table[i].toList ++ entries (table.drop (i + 1))) := by
  conv_lhs => rw [← List.take_append_drop i table, List.drop_eq_getElem_cons h]
  cases table[i] <;> simp [entries]

theorem Hole.length_entries_set {table : List (Option E)} {i : Nat} (hole : Hole table i) (e : E) :
    (entries (table.set i (some e))).length = (entries table).length + 1 := by
  have lt : i < table.length := hole.lt
  have bucket : table[i] = none := (List.getElem?_eq_some_iff.mp hole).2
  rw [entries_set table i lt, entries_split table i lt, bucket]
  simp
  omega

theorem At.length_entries_set {table : List (Option E)} {i : Nat} {e : E} (h : At table i e)
    (e' : E) : (entries (table.set i (some e'))).length = (entries table).length := by
  have lt : i < table.length := h.lt
  have bucket : table[i] = some e := (List.getElem?_eq_some_iff.mp h).2
  rw [entries_set table i lt, entries_split table i lt, bucket]
  simp

theorem exists_hole {table : List (Option E)} (room : (entries table).length < table.length) :
    ∃ i, Hole table i := by
  by_contra none
  have full : ∀ b ∈ table, (id b).isSome := by
    intro b hb
    obtain ⟨i, hi⟩ := List.mem_iff_getElem?.mp hb
    cases b with
    | none => exact absurd ⟨i, hi⟩ none
    | some e => rfl
  have all : (entries table).length = table.length := List.filterMap_length_eq_length.mpr full
  omega

theorem Sound.entries_nodup {table : List (Option E)} (sound : Sound key home table) :
    ((entries table).map key).Nodup := by
  rw [entries, List.map_filterMap, List.nodup_iff_pairwise_ne, List.pairwise_filterMap,
    List.pairwise_iff_getElem]
  intro i j hi hj before k hk k' hk' equal
  obtain ⟨e, he, rfl⟩ := Option.map_eq_some_iff.mp hk
  obtain ⟨f, hf, rfl⟩ := Option.map_eq_some_iff.mp hk'
  have atI : At table i e := List.getElem?_eq_some_iff.mpr ⟨hi, he⟩
  have atJ : At table j f := List.getElem?_eq_some_iff.mpr ⟨hj, hf⟩
  exact absurd (sound.distinct atI atJ equal) (by omega)

end StreamDataPipeline.Foundations.LinearProbing
