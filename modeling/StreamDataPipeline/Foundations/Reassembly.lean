/- Messages that arrive in numbered parts. -/

import Mathlib.Data.List.AList
import Mathlib.Data.List.Induction
import StreamDataPipeline.Foundations.Mealy

/-!
The parts of a message are kept until there are as many as the message has; then the message
is given out and forgotten. Parts may be lost, repeated and reordered on the way.
-/

set_option autoImplicit false
set_option relaxedAutoImplicit false

namespace StreamDataPipeline.Foundations.Reassembly

universe u v

variable {κ : Type u} {α : Type v}

structure Fragment (κ : Type u) (α : Type v) where
  key : κ
  index : Nat
  count : Nat
  part : List α
  deriving DecidableEq

/-- The parts of one message that have arrived, by their numbers. -/
structure Entry (α : Type v) where
  count : Nat
  parts : AList fun _ : Nat => List α

abbrev Table (κ : Type u) (α : Type v) := AList fun _ : κ => Entry α

/-- The parts from number 0 on, one behind another. -/
def Entry.joined (entry : Entry α) : List α :=
  (List.range entry.count).flatMap fun i => (entry.parts.lookup i).getD []

variable [DecidableEq κ]

/-- Keep a part. The answer is the message that it completes. -/
def collect (table : Table κ α) (f : Fragment κ α) : Table κ α × Option (κ × List α) :=
  if f.count ≤ f.index then (table, none)
  else
    let entry := (table.lookup f.key).getD ⟨f.count, ∅⟩
    if entry.count ≠ f.count then (table.erase f.key, none)
    else
      let grown : Entry α := { entry with parts := entry.parts.insert f.index f.part }
      if grown.parts.keys.length = f.count then
        (table.erase f.key, some (f.key, grown.joined))
      else (table.insert f.key grown, none)

theorem collect_key (table : Table κ α) (f : Fragment κ α) :
    ∀ message ∈ (collect table f).2, message.1 = f.key := by
  intro message given
  unfold collect at given
  dsimp only at given
  split_ifs at given
  all_goals cases given
  rfl

/-- The parts that were sent of every message. -/
abbrev Sent (κ : Type u) (α : Type v) := κ → Option (List (List α))

/-- The fragment is a copy of a part that was sent. -/
def Genuine (sent : Sent κ α) (f : Fragment κ α) : Prop :=
  ∃ parts, sent f.key = some parts ∧ f.count = parts.length ∧ parts[f.index]? = some f.part

def times (key : κ) (answers : List (Option (κ × List α))) : Nat :=
  answers.countP fun answer => answer.any fun message => message.1 = key

def arrivals (key : κ) (i : Nat) (fragments : List (Fragment κ α)) : Nat :=
  fragments.countP fun f => f.key = key ∧ f.index = i

/-- The part is kept for a message that is not complete. -/
def Kept (table : Table κ α) (key : κ) (i : Nat) : Prop :=
  ∃ entry, table.lookup key = some entry ∧ i ∈ entry.parts

/-- The entry holds some parts of the message, and not all of them. -/
structure Entry.Partial (entry : Entry α) (parts : List (List α)) : Prop where
  count : entry.count = parts.length
  genuine : ∀ i part, entry.parts.lookup i = some part → parts[i]? = some part
  missing : entry.parts.keys.length < parts.length

/-- The table holds parts of messages that were sent. -/
def Sound (sent : Sent κ α) (table : Table κ α) : Prop :=
  ∀ key entry, table.lookup key = some entry → ∃ parts, sent key = some parts ∧
    entry.Partial parts

omit [DecidableEq κ] in
private theorem flatMap_range_getD (parts : List (List α)) :
    (List.range parts.length).flatMap (fun i => (parts[i]?).getD []) = parts.flatten := by
  have same : (List.range parts.length).map (fun i => (parts[i]?).getD []) = parts := by
    apply List.ext_getElem
    · simp
    · intro i _ inside
      simp [List.getElem?_eq_getElem inside]
  rw [List.flatMap_def, same]

theorem mem_of_complete {entry : Entry α} {parts : List (List α)}
    (genuine : ∀ i part, entry.parts.lookup i = some part → parts[i]? = some part)
    (complete : entry.parts.keys.length = parts.length) {i : Nat} (inside : i < parts.length) :
    i ∈ entry.parts := by
  have numbers : entry.parts.keys ⊆ List.range parts.length := by
    intro j mem
    obtain ⟨part, found⟩ := Option.isSome_iff_exists.mp
      (AList.lookup_isSome.mpr (AList.mem_keys.mpr mem))
    exact List.mem_range.mpr (List.getElem?_eq_some_iff.mp (genuine j part found)).1
  have all := (List.subperm_of_subset entry.parts.keys_nodup numbers).perm_of_length_le
    (by rw [List.length_range, complete])
  exact AList.mem_keys.mpr (all.mem_iff.mpr (List.mem_range.mpr inside))

theorem joined_of_complete {entry : Entry α} {parts : List (List α)}
    (count : entry.count = parts.length)
    (genuine : ∀ i part, entry.parts.lookup i = some part → parts[i]? = some part)
    (complete : entry.parts.keys.length = parts.length) : entry.joined = parts.flatten := by
  rw [← flatMap_range_getD, Entry.joined, count]
  apply List.flatMap_congr
  intro i mem
  obtain ⟨part, found⟩ := Option.isSome_iff_exists.mp (AList.lookup_isSome.mpr
    (mem_of_complete genuine complete (List.mem_range.mp mem)))
  rw [found, genuine i part found]

/-- What a genuine fragment does: its part is kept, or it completes its message. -/
inductive Collected (table : Table κ α) (f : Fragment κ α) (parts : List (List α)) :
    Table κ α × Option (κ × List α) → Prop
  | kept (grown : Entry α) (partially : grown.Partial parts)
      (members : ∀ i, i ∈ grown.parts ↔ i = f.index ∨ Kept table f.key i) :
      Collected table f parts (table.insert f.key grown, none)
  | complete (members : ∀ i < parts.length, i = f.index ∨ Kept table f.key i) :
      Collected table f parts (table.erase f.key, some (f.key, parts.flatten))

theorem collect_spec {sent : Sent κ α} {table : Table κ α} (sound : Sound sent table)
    {f : Fragment κ α} {parts : List (List α)} (message : sent f.key = some parts)
    (count : f.count = parts.length) (part : parts[f.index]? = some f.part) :
    Collected table f parts (collect table f) := by
  have inside : f.index < parts.length := (List.getElem?_eq_some_iff.mp part).1
  obtain ⟨entry, opened, size, genuine, holds, few⟩ :
      ∃ entry : Entry α, (table.lookup f.key).getD ⟨f.count, ∅⟩ = entry ∧
        entry.count = parts.length ∧
        (∀ i p, entry.parts.lookup i = some p → parts[i]? = some p) ∧
        (∀ i, i ∈ entry.parts ↔ Kept table f.key i) ∧
        entry.parts.keys.length < parts.length := by
    cases found : table.lookup f.key with
    | none =>
        refine ⟨_, rfl, count, by simp, ?_, ?_⟩
        · intro i
          simp [Kept, found]
        · simpa using Nat.zero_lt_of_lt inside
    | some entry =>
        obtain ⟨parts', same, partially⟩ := sound f.key entry found
        obtain rfl : parts = parts' := Option.some.inj (message.symm.trans same)
        refine ⟨entry, rfl, partially.count, partially.genuine, ?_, partially.missing⟩
        intro i
        simp [Kept, found]
  obtain ⟨grown, shape⟩ : ∃ grown : Entry α,
      grown = { entry with parts := entry.parts.insert f.index f.part } := ⟨_, rfl⟩
  have grownParts : entry.parts.insert f.index f.part = grown.parts := by rw [shape]
  have grownCount : grown.count = parts.length := by rw [shape, size]
  have grownGenuine : ∀ i p, grown.parts.lookup i = some p → parts[i]? = some p := by
    intro i p found
    rw [shape] at found
    by_cases here : i = f.index
    · rw [here, AList.lookup_insert] at found
      rw [here, part, found]
    · rw [AList.lookup_insert_ne here] at found
      exact genuine i p found
  have grownMembers : ∀ i, i ∈ grown.parts ↔ i = f.index ∨ Kept table f.key i := by
    intro i
    rw [shape, AList.mem_insert, holds]
  have grownFew : grown.parts.keys.length ≤ parts.length := by
    rw [shape, AList.keys_insert, List.length_cons]
    have shorter := (List.erase_sublist (a := f.index) (l := entry.parts.keys)).length_le
    omega
  unfold collect
  rw [if_neg (by omega)]
  simp only [opened]
  rw [if_neg (by rw [size, count]; simp), count, ← shape, grownParts]
  split_ifs with complete
  · rw [joined_of_complete grownCount grownGenuine complete]
    exact .complete fun i less =>
      (grownMembers i).mp (mem_of_complete grownGenuine complete less)
  · exact .kept grown ⟨grownCount, grownGenuine, lt_of_le_of_ne grownFew complete⟩ grownMembers

/-- What has been given out and what is kept, against what has arrived. -/
structure Gathered (sent : Sent κ α) (arrived : List (Fragment κ α))
    (answers : List (Option (κ × List α))) (table : Table κ α) : Prop where
  sound : Sound sent table
  genuine : ∀ message ∈ answers.filterMap id, ∃ parts, sent message.1 = some parts ∧
    message.2 = parts.flatten
  once : ∀ key parts, sent key = some parts → ∀ i < parts.length,
    times key answers ≤ arrivals key i arrived
  ahead : ∀ key i, Kept table key i → times key answers < arrivals key i arrived
  first : ∀ key i, times key answers = 0 → 0 < arrivals key i arrived → Kept table key i

theorem gathered_nil (sent : Sent κ α) : Gathered sent [] [] (∅ : Table κ α) where
  sound := by simp [Sound]
  genuine := by simp
  once := by simp [times]
  ahead := by simp [Kept]
  first := by simp [arrivals]

private theorem arrivals_concat (key : κ) (i : Nat) (arrived : List (Fragment κ α))
    (f : Fragment κ α) :
    arrivals key i (arrived ++ [f]) =
      arrivals key i arrived + if f.key = key ∧ f.index = i then 1 else 0 := by
  simp [arrivals, List.countP_append, List.countP_singleton]

private theorem times_none (key : κ) (answers : List (Option (κ × List α))) :
    times key (answers ++ [none]) = times key answers := by
  simp [times, List.countP_append]

private theorem times_some (key : κ) (answers : List (Option (κ × List α)))
    (message : κ × List α) :
    times key (answers ++ [some message]) =
      times key answers + if message.1 = key then 1 else 0 := by
  simp [times, List.countP_append, List.countP_singleton]

private theorem kept_insert {table : Table κ α} {f : Fragment κ α} {grown : Entry α}
    (members : ∀ i, i ∈ grown.parts ↔ i = f.index ∨ Kept table f.key i) (key : κ) (i : Nat) :
    Kept (table.insert f.key grown) key i ↔
      (f.key = key ∧ f.index = i) ∨ Kept table key i := by
  by_cases same : key = f.key
  · subst same
    simp [Kept, AList.lookup_insert, members i, eq_comm]
  · have other : f.key ≠ key := fun equal => same equal.symm
    simp [Kept, AList.lookup_insert_ne same, other]

private theorem kept_erase (table : Table κ α) (erased key : κ) (i : Nat) :
    Kept (table.erase erased) key i ↔ key ≠ erased ∧ Kept table key i := by
  by_cases same : key = erased
  · subst same
    simp [Kept]
  · simp [Kept, AList.lookup_erase_ne same, same]

theorem Sound.insert {sent : Sent κ α} {table : Table κ α} (sound : Sound sent table) {key : κ}
    {entry : Entry α} {parts : List (List α)} (message : sent key = some parts)
    (partially : entry.Partial parts) : Sound sent (table.insert key entry) := by
  intro other found there
  by_cases same : other = key
  · rw [same, AList.lookup_insert] at there
    cases there
    exact ⟨parts, same ▸ message, partially⟩
  · rw [AList.lookup_insert_ne same] at there
    exact sound other found there

theorem Sound.erase {sent : Sent κ α} {table : Table κ α} (sound : Sound sent table) (key : κ) :
    Sound sent (table.erase key) := by
  intro other found there
  by_cases same : other = key
  · rw [same, AList.lookup_erase] at there
    cases there
  · rw [AList.lookup_erase_ne same] at there
    exact sound other found there

section Concat

variable {sent : Sent κ α} {arrived : List (Fragment κ α)}
  {answers : List (Option (κ × List α))} {table : Table κ α} {f : Fragment κ α}
  {parts : List (List α)}

theorem Gathered.keep (gathered : Gathered sent arrived answers table)
    (message : sent f.key = some parts) (part : parts[f.index]? = some f.part) {grown : Entry α}
    (partially : grown.Partial parts)
    (members : ∀ i, i ∈ grown.parts ↔ i = f.index ∨ Kept table f.key i) :
    Gathered sent (arrived ++ [f]) (answers ++ [none]) (table.insert f.key grown) where
  sound := gathered.sound.insert message partially
  genuine := by simpa using gathered.genuine
  once := by
    intro key parts' there i less
    have before := gathered.once key parts' there i less
    rw [times_none, arrivals_concat]
    omega
  ahead := by
    intro key i here
    rw [times_none, arrivals_concat]
    rcases (kept_insert members key i).mp here with ⟨rfl, rfl⟩ | before
    · have before := gathered.once f.key parts message f.index
        (List.getElem?_eq_some_iff.mp part).1
      simp only [and_self, if_true]
      omega
    · have earlier := gathered.ahead key i before
      omega
  first := by
    intro key i never came
    rw [times_none] at never
    rw [arrivals_concat] at came
    rw [kept_insert members]
    by_cases here : f.key = key ∧ f.index = i
    · exact .inl here
    · rw [if_neg here] at came
      exact .inr (gathered.first key i never came)

/-- The part that completes its message is counted against the answer; what was kept of the
message pays for its other parts. -/
theorem Gathered.give (gathered : Gathered sent arrived answers table)
    (message : sent f.key = some parts)
    (members : ∀ i < parts.length, i = f.index ∨ Kept table f.key i) :
    Gathered sent (arrived ++ [f]) (answers ++ [some (f.key, parts.flatten)])
      (table.erase f.key) where
  sound := gathered.sound.erase f.key
  genuine := by
    intro answer mem
    rw [List.filterMap_append, List.mem_append] at mem
    rcases mem with before | here
    · exact gathered.genuine answer before
    · obtain rfl : answer = (f.key, parts.flatten) := by simpa using here
      exact ⟨parts, message, rfl⟩
  once := by
    intro key parts' there i less
    have before := gathered.once key parts' there i less
    rw [times_some, arrivals_concat]
    by_cases same : f.key = key
    · subst same
      obtain rfl : parts = parts' := Option.some.inj (message.symm.trans there)
      simp only [if_true, true_and]
      rcases members i less with rfl | kept
      · simp only [if_true]
        omega
      · have earlier := gathered.ahead f.key i kept
        omega
    · simp [same, before]
  ahead := by
    intro key i here
    obtain ⟨other, before⟩ := (kept_erase table f.key key i).mp here
    have earlier := gathered.ahead key i before
    rw [times_some, arrivals_concat, if_neg other.symm]
    omega
  first := by
    intro key i never came
    rw [times_some] at never
    rw [arrivals_concat] at came
    have other : f.key ≠ key := by
      intro same
      simp [same] at never
    rw [if_neg fun both => other both.1] at came
    exact (kept_erase table f.key key i).mpr
      ⟨other.symm, gathered.first key i (by omega) came⟩

theorem gathered_concat (gathered : Gathered sent arrived answers table)
    (genuine : Genuine sent f) :
    Gathered sent (arrived ++ [f]) (answers ++ [(collect table f).2]) (collect table f).1 := by
  obtain ⟨parts, message, count, part⟩ := genuine
  have step := collect_spec gathered.sound message count part
  generalize collect table f = next at step ⊢
  cases step with
  | kept grown partially members => exact gathered.keep message part partially members
  | complete members => exact gathered.give message members

end Concat

/-- Whatever is lost, repeated or reordered: only messages that were sent are given out, each at
most as often as any of its parts has arrived, and at least once if all of them have. -/
theorem collect_run (sent : Sent κ α) (arrived : List (Fragment κ α))
    (genuine : ∀ f ∈ arrived, Genuine sent f) :
    Gathered sent arrived (Mealy.run collect ∅ arrived).2 (Mealy.run collect ∅ arrived).1 := by
  induction arrived using List.reverseRecOn with
  | nil => exact gathered_nil sent
  | append_singleton arrived f ih =>
      have before := ih fun g mem => genuine g (List.mem_append_left _ mem)
      rw [Mealy.run_append]
      exact gathered_concat before (genuine f (by simp))

/-- A message is given out exactly when all of its parts have arrived. -/
theorem Gathered.given_iff {sent : Sent κ α} {arrived : List (Fragment κ α)}
    {answers : List (Option (κ × List α))} {table : Table κ α}
    (gathered : Gathered sent arrived answers table) {key : κ} {parts : List (List α)}
    (message : sent key = some parts) (nonempty : parts ≠ []) :
    0 < times key answers ↔ ∀ i < parts.length, 0 < arrivals key i arrived := by
  constructor
  · intro given i less
    exact given.trans_le (gathered.once key parts message i less)
  · intro all
    by_contra never
    have zero : times key answers = 0 := by omega
    have kept : ∀ i < parts.length, Kept table key i := fun i less =>
      gathered.first key i zero (all i less)
    obtain ⟨entry, found, -⟩ := kept 0 (List.length_pos_iff.mpr nonempty)
    obtain ⟨parts', there, partially⟩ := gathered.sound key entry found
    obtain rfl : parts = parts' := Option.some.inj (message.symm.trans there)
    -- all numbers are among the keys, of which there are too few
    have numbers : List.range parts.length ⊆ entry.parts.keys := by
      intro i mem
      obtain ⟨entry', found', member⟩ := kept i (List.mem_range.mp mem)
      rw [found] at found'
      cases found'
      exact AList.mem_keys.mp member
    have enough := (List.subperm_of_subset List.nodup_range numbers).length_le
    rw [List.length_range] at enough
    have missing := partially.missing
    omega

end StreamDataPipeline.Foundations.Reassembly
