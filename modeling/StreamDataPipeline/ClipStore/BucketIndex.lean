/- The in-memory hash index of the latest rows (the row_index functions of db_query). -/

import Mathlib.Data.List.GetD
import StreamDataPipeline.Foundations.LastWrite
import StreamDataPipeline.Foundations.LinearProbing
import StreamDataPipeline.ClipStore.Format

/-!
`rows` and `used` are one list of optional rows. Every loop of the source runs on
fuel, and `none` says that it ran out; no allocation fails. The hash is a parameter: the
program passes `hashKey`, and nothing here depends on its values.
-/

set_option autoImplicit false
set_option relaxedAutoImplicit false

namespace StreamDataPipeline.ClipStore.BucketIndex

open Foundations Foundations.ByteString Foundations.LinearProbing Foundations.LastWrite Format

structure RowIndex where
  buckets : List (Option Row)
  len : Nat
  deriving DecidableEq

def RowIndex.cap (index : RowIndex) : Nat := index.buckets.length

def rowIndexEmpty : RowIndex := ⟨[], 0⟩

def initialBuckets : Nat := 64
def fnv1a64OffsetBasis : UInt64 := 14695981039346656037
def fnv1a64Prime : UInt64 := 1099511628211

def hashKey (key : Bytes) : UInt64 :=
  key.foldl (fun h p => (h ^^^ p.toUInt64) * fnv1a64Prime) fnv1a64OffsetBasis

section Operations

variable (hash : Bytes → UInt64)

/-- The probing loop of `find_slot`. -/
def findFrom (buckets : List (Option Row)) (key : Bytes) : Nat → Nat → Option (Nat × Bool)
  | 0, _ => none
  | fuel + 1, idx => match buckets.getD idx none with
    | some row =>
        if row.key = key then some (idx, true)
        else findFrom buckets key fuel ((idx + 1) &&& (buckets.length - 1))
    | none => some (idx, false)

/-- The bucket of a key, and whether the key is already there. -/
def findSlot (index : RowIndex) (key : Bytes) : Option (Nat × Bool) :=
  findFrom index.buckets key index.cap ((hash key).toNat &&& (index.cap - 1))

/-- The doubling loop of `row_index_grow`. -/
def growCap (nextLen : Nat) : Nat → Nat → Nat
  | 0, cap => cap
  | fuel + 1, cap => if cap * 3 ≤ nextLen * 4 then growCap nextLen fuel (cap * 2) else cap

def rehashBucket (grown : RowIndex) : Option Row → Option RowIndex
  | none => some grown
  | some row => do
      let (slot, _) ← findSlot hash grown row.key
      pure ⟨grown.buckets.set slot (some row), grown.len + 1⟩

def startCap (index : RowIndex) : Nat := if index.cap = 0 then initialBuckets else index.cap

def rowIndexGrow (index : RowIndex) (nextLen : Nat) : Option RowIndex :=
  let nextCap := growCap nextLen (nextLen * 4) (startCap index)
  if nextCap = index.cap then some index
  else index.buckets.foldlM (rehashBucket hash) ⟨List.replicate nextCap none, 0⟩

def rowIndexPut (index : RowIndex) (row : Row) : Option RowIndex := do
  let index ← rowIndexGrow hash index (index.len + 1)
  let (slot, found) ← findSlot hash index row.key
  if found then pure ⟨index.buckets.set slot (some row), index.len⟩
  else pure ⟨index.buckets.set slot (some row), index.len + 1⟩

/-- The outer `none` is fuel that ran out, the inner one a key that is not there. -/
def rowIndexGet (index : RowIndex) (key : Bytes) : Option (Option Row) :=
  if index.cap = 0 then some none
  else do
    let (slot, found) ← findSlot hash index key
    pure (if found then index.buckets.getD slot none else none)

def homeBucket (key : Bytes) : Nat := (hash key).toNat

/-- A power of two, from the initial capacity on. -/
def Capacity (cap : Nat) : Prop := ∃ n, 6 ≤ n ∧ cap = 2 ^ n

/-- The buckets hold `len` rows, each on the probe sequence of its key, and probing
meets a hole. -/
structure Probing (index : RowIndex) : Prop where
  power : Capacity index.cap
  counted : (entries index.buckets).length = index.len
  sound : Sound Row.key (homeBucket hash) index.buckets

/-- The zeroed index, or one whose load is below three quarters. -/
def WellFormed (index : RowIndex) : Prop :=
  index = rowIndexEmpty ∨ (Probing hash index ∧ index.len * 4 < index.cap * 3)

/-- The index holds the last row of every key of a log. -/
structure Holds (index : RowIndex) (log : List Row) : Prop where
  wellFormed : WellFormed hash index
  latest : ∀ e, e ∈ entries index.buckets ↔ lastWrite Row.key log e.key = some e

end Operations

variable {hash : Bytes → UInt64}

private theorem mask_eq_mod {index : RowIndex} (power : Capacity index.cap) (i : Nat) :
    i &&& (index.cap - 1) = i % index.cap := by
  obtain ⟨n, -, hn⟩ := power
  rw [hn]
  exact Nat.and_two_pow_sub_one_eq_mod i n

theorem Capacity.pos {cap : Nat} (power : Capacity cap) : 0 < cap := by
  obtain ⟨n, -, rfl⟩ := power
  exact Nat.two_pow_pos n

theorem Probing.cap_pos {index : RowIndex} (probing : Probing hash index) : 0 < index.cap :=
  probing.power.pos

/-- Where the probing loop stops: at the row of the key, or at the hole that ends its
probe sequence. -/
inductive Slot (hash : Bytes → UInt64) (index : RowIndex) (key : Bytes) : Nat × Bool → Prop
  | found {i : Nat} {e : Row} (here : At index.buckets i e) (same : e.key = key) :
      Slot hash index key (i, true)
  | free {d : Nat} (passed : Passed Row.key (homeBucket hash) index.buckets key d)
      (hole : Hole index.buckets (visit (homeBucket hash) index.cap key d)) :
      Slot hash index key (visit (homeBucket hash) index.cap key d, false)

private theorem findFrom_slot {index : RowIndex} (power : Capacity index.cap) (key : Bytes)
    {stop : Nat} (hole : Hole index.buckets (visit (homeBucket hash) index.cap key stop))
    (fuel d : Nat) (enough : stop < d + fuel)
    (passed : Passed Row.key (homeBucket hash) index.buckets key d) :
    ∃ slot, findFrom index.buckets key fuel (visit (homeBucket hash) index.cap key d) = some slot ∧
      Slot hash index key slot := by
  have before : d ≤ stop := by
    by_contra past
    obtain ⟨e, he, _⟩ := passed stop (by omega)
    exact hole.not_at he
  have positive : 0 < index.cap := Nat.lt_of_le_of_lt (Nat.zero_le _) hole.lt
  induction fuel generalizing d with
  | zero => omega
  | succ fuel ih =>
      have inside : visit (homeBucket hash) index.cap key d < index.buckets.length :=
        visit_lt positive key d
      rw [findFrom, List.getD_eq_getElem _ _ inside]
      cases bucket : index.buckets[visit (homeBucket hash) index.cap key d] with
      | none => exact ⟨_, rfl, .free passed (List.getElem?_eq_some_iff.mpr ⟨inside, bucket⟩)⟩
      | some row =>
          have here : At index.buckets (visit (homeBucket hash) index.cap key d) row :=
            List.getElem?_eq_some_iff.mpr ⟨inside, bucket⟩
          dsimp only
          split_ifs with same
          · exact ⟨_, rfl, .found here same⟩
          · have further : Passed Row.key (homeBucket hash) index.buckets key (d + 1) := by
              intro d' hd
              rcases Nat.lt_succ_iff_lt_or_eq.mp hd with earlier | rfl
              · exact passed d' earlier
              · exact ⟨row, here, same⟩
            have next := mask_eq_mod power (visit (homeBucket hash) index.cap key d + 1)
            rw [visit_succ] at next
            have unfinished : d + 1 ≤ stop := by
              by_contra past
              have equal : d = stop := by omega
              exact hole.not_at (equal ▸ here)
            rw [show index.buckets.length = index.cap from rfl, next]
            exact ih (d + 1) (by omega) further unfinished

theorem findSlot_slot {index : RowIndex} (probing : Probing hash index)
    (room : index.len < index.cap) (key : Bytes) :
    ∃ slot, findSlot hash index key = some slot ∧ Slot hash index key slot := by
  obtain ⟨i, hole⟩ := exists_hole (probing.counted.trans_lt room)
  obtain ⟨stop, near, arrives⟩ : ∃ d < index.cap, visit (homeBucket hash) index.cap key d = i :=
    exists_visit hole.lt key
  have start : (hash key).toNat &&& (index.cap - 1) = visit (homeBucket hash) index.cap key 0 :=
    mask_eq_mod probing.power _
  rw [findSlot, start]
  have stops : Hole index.buckets (visit (homeBucket hash) index.cap key stop) := arrives ▸ hole
  refine findFrom_slot probing.power key stops index.cap 0 ?_ ?_
  · exact near.trans_le (Nat.le_add_left _ _)
  · intro d hd
    omega

theorem write_slot {index : RowIndex} (probing : Probing hash index) {row : Row} {i : Nat}
    {found : Bool} (slot : Slot hash index row.key (i, found)) :
    Probing hash ⟨index.buckets.set i (some row), if found then index.len else index.len + 1⟩ ∧
      ∀ e, e ∈ entries (index.buckets.set i (some row)) ↔
        e = row ∨ (e.key ≠ row.key ∧ e ∈ entries index.buckets) := by
  obtain ⟨power, counted, sound⟩ := probing
  have samePower : Capacity (index.buckets.set i (some row)).length := by
    rw [List.length_set]
    exact power
  cases slot with
  | @found _ old here same =>
      refine ⟨⟨samePower, ?_, sound.replace here same.symm⟩, ?_⟩
      · simpa [here.length_entries_set row] using counted
      · intro e
        simp only [mem_entries, at_set here.lt]
        constructor
        · rintro ⟨j, ⟨-, new⟩ | ⟨other, old⟩⟩
          · exact .inl new
          · have apart : e.key ≠ row.key := fun equal =>
              other (sound.distinct old here (equal.trans same.symm))
            exact .inr ⟨apart, j, old⟩
        · rintro (new | ⟨other, j, old⟩)
          · exact ⟨i, .inl ⟨rfl, new⟩⟩
          · refine ⟨j, .inr ⟨?_, old⟩⟩
            rintro rfl
            exact other (old.unique here ▸ same)
  | @free d passed hole =>
      refine ⟨⟨samePower, ?_, sound.insert passed hole⟩, ?_⟩
      · simpa [hole.length_entries_set row] using counted
      · intro e
        simp only [mem_entries, at_set hole.lt]
        constructor
        · rintro ⟨j, ⟨-, new⟩ | ⟨other, old⟩⟩
          · exact .inl new
          · exact .inr ⟨sound.absent passed hole old, j, old⟩
        · rintro (new | ⟨other, j, old⟩)
          · exact ⟨_, .inl ⟨rfl, new⟩⟩
          · refine ⟨j, .inr ⟨?_, old⟩⟩
            rintro rfl
            exact hole.not_at old

theorem growCap_spec (nextLen fuel cap : Nat) (power : Capacity cap)
    (enough : nextLen * 4 < cap * 3 + fuel) :
    Capacity (growCap nextLen fuel cap) ∧ nextLen * 4 < growCap nextLen fuel cap * 3 := by
  induction fuel generalizing cap with
  | zero => exact ⟨power, enough⟩
  | succ fuel ih =>
      rw [growCap]
      split_ifs with tight
      · have positive := power.pos
        have doubled : Capacity (cap * 2) := by
          obtain ⟨n, large, rfl⟩ := power
          exact ⟨n + 1, by omega, (pow_succ 2 n).symm⟩
        exact ih (cap * 2) doubled (by omega)
      · exact ⟨power, by omega⟩

private theorem rehash_spec (buckets : List (Option Row)) (grown : RowIndex)
    (probing : Probing hash grown) (room : grown.len + (entries buckets).length < grown.cap)
    (nodup : ((entries buckets).map Row.key).Nodup)
    (fresh : ∀ e ∈ entries buckets, ∀ f ∈ entries grown.buckets, f.key ≠ e.key) :
    ∃ next, buckets.foldlM (rehashBucket hash) grown = some next ∧ Probing hash next ∧
      next.cap = grown.cap ∧ next.len = grown.len + (entries buckets).length ∧
      ∀ e, e ∈ entries next.buckets ↔ e ∈ entries grown.buckets ∨ e ∈ entries buckets := by
  induction buckets generalizing grown with
  | nil => exact ⟨grown, rfl, probing, rfl, rfl, by simp [entries]⟩
  | cons bucket rest ih =>
      cases bucket with
      | none => exact ih grown probing room nodup fresh
      | some row =>
          have split : entries (some row :: rest) = row :: entries rest := rfl
          simp only [split, List.map_cons, List.nodup_cons, List.length_cons,
            List.forall_mem_cons] at nodup room fresh
          obtain ⟨⟨i, found⟩, located, slot⟩ := findSlot_slot probing (by omega) row.key
          have missing : found = false := by
            cases slot with
            | found here same => exact absurd same (fresh.1 _ (mem_entries.mpr ⟨_, here⟩))
            | free passed hole => rfl
          subst missing
          obtain ⟨written, members⟩ := write_slot probing slot
          have cap : (RowIndex.mk (grown.buckets.set i (some row)) (grown.len + 1)).cap =
              grown.cap := List.length_set
          obtain ⟨next, run, nextProbing, nextCap, nextLen, nextMembers⟩ :=
            ih ⟨grown.buckets.set i (some row), grown.len + 1⟩ written
              (by rw [cap]; dsimp only; omega)
              nodup.2 (by
                intro e he f hf
                rcases (members f).mp hf with rfl | ⟨_, old⟩
                · exact fun equal => nodup.1 (equal ▸ List.mem_map_of_mem he)
                · exact fresh.2 e he f old)
          refine ⟨next, ?_, nextProbing, nextCap.trans cap, ?_, ?_⟩
          · simp only [List.foldlM_cons, rehashBucket, located, Option.bind_eq_bind,
              Option.bind_some, Option.pure_def]
            exact run
          · rw [nextLen, split, List.length_cons]
            dsimp only
            omega
          · intro e
            rw [nextMembers e, members e, split, List.mem_cons]
            constructor
            · rintro ((new | ⟨_, old⟩) | later)
              · exact .inr (.inl new)
              · exact .inl old
              · exact .inr (.inr later)
            · rintro (old | new | later)
              · exact .inl (.inr ⟨fresh.1 e old, old⟩)
              · exact .inl (.inl new)
              · exact .inr later

theorem probing_replicate {cap : Nat} (power : Capacity cap) :
    Probing hash ⟨List.replicate cap none, 0⟩ where
  power := by simpa [RowIndex.cap] using power
  counted := by simp [entries_empty]
  sound := sound_empty cap

theorem WellFormed.nodup {index : RowIndex} (wellFormed : WellFormed hash index) :
    ((entries index.buckets).map Row.key).Nodup := by
  rcases wellFormed with rfl | ⟨probing, _⟩
  · exact List.nodup_nil
  · exact probing.sound.entries_nodup

theorem rowIndexGrow_spec {index : RowIndex} (wellFormed : WellFormed hash index) :
    ∃ grown, rowIndexGrow hash index (index.len + 1) = some grown ∧ Probing hash grown ∧
      grown.len = index.len ∧ (index.len + 1) * 4 < grown.cap * 3 ∧
      ∀ e, e ∈ entries grown.buckets ↔ e ∈ entries index.buckets := by
  have start : Capacity (startCap index) := by
    rcases wellFormed with rfl | ⟨probing, _⟩
    · exact ⟨6, le_refl _, rfl⟩
    · rw [startCap, if_neg (Nat.ne_of_gt probing.cap_pos)]
      exact probing.power
  obtain ⟨power, room⟩ := growCap_spec (index.len + 1) ((index.len + 1) * 4) _ start (by
    have positive := start.pos
    omega)
  unfold rowIndexGrow
  dsimp only
  generalize growCap (index.len + 1) ((index.len + 1) * 4) (startCap index) = nextCap at power room
  split_ifs with same
  · rcases wellFormed with rfl | ⟨probing, _⟩
    · rw [same] at room
      exact absurd room (by decide)
    · exact ⟨index, rfl, probing, rfl, same ▸ room, fun e => Iff.rfl⟩
  · have counted : (entries index.buckets).length = index.len := by
      rcases wellFormed with rfl | ⟨probing, _⟩
      · rfl
      · exact probing.counted
    have cap : (RowIndex.mk (List.replicate nextCap none) 0).cap = nextCap := List.length_replicate
    obtain ⟨grown, run, probing, grownCap, grownLen, members⟩ :=
      rehash_spec index.buckets _ (probing_replicate power) (by rw [cap]; dsimp only; omega)
        wellFormed.nodup (by simp [entries_empty])
    rw [cap] at grownCap
    have sameLen : grown.len = index.len := by
      dsimp only at grownLen
      omega
    refine ⟨grown, run, probing, sameLen, by omega, ?_⟩
    intro e
    simp [members e, entries_empty]

theorem holds_empty : Holds hash rowIndexEmpty [] :=
  ⟨.inl rfl, fun e => by simp [rowIndexEmpty, entries]⟩

/-- Putting a row into the index is appending it to the log. -/
theorem rowIndexPut_spec {index : RowIndex} {log : List Row} (holds : Holds hash index log)
    (row : Row) :
    ∃ next, rowIndexPut hash index row = some next ∧ Holds hash next (log ++ [row]) := by
  obtain ⟨grown, run, probing, len, room, members⟩ := rowIndexGrow_spec holds.wellFormed
  obtain ⟨⟨i, found⟩, located, slot⟩ := findSlot_slot probing (by omega) row.key
  obtain ⟨written, writtenMembers⟩ := write_slot probing slot
  refine ⟨⟨grown.buckets.set i (some row), if found then grown.len else grown.len + 1⟩, ?_, ?_, ?_⟩
  · simp only [rowIndexPut, run, located, Option.bind_eq_bind, Option.bind_some, Option.pure_def]
    cases found <;> rfl
  · refine .inr ⟨written, ?_⟩
    simp only [RowIndex.cap, List.length_set] at room ⊢
    split_ifs <;> omega
  · intro e
    rw [writtenMembers e, members e, holds.latest e, lastWrite_concat]
    split_ifs with same
    · constructor
      · rintro (rfl | ⟨other, _⟩)
        · rfl
        · exact absurd same.symm other
      · exact fun equal => .inl (Option.some.inj equal).symm
    · constructor
      · rintro (rfl | ⟨_, old⟩)
        · exact absurd rfl same
        · exact old
      · exact fun old => .inr ⟨fun equal => same equal.symm, old⟩

theorem Holds.nodup {index : RowIndex} {log : List Row} (holds : Holds hash index log) :
    ((entries index.buckets).map Row.key).Nodup := holds.wellFormed.nodup

/-- A lookup ends, and finds the last row of its key. -/
theorem rowIndexGet_spec {index : RowIndex} {log : List Row} (holds : Holds hash index log)
    (key : Bytes) : rowIndexGet hash index key = some (lastWrite Row.key log key) := by
  have found_iff : ∀ e, lastWrite Row.key log key = some e ↔
      e ∈ entries index.buckets ∧ e.key = key := by
    intro e
    constructor
    · intro last
      have same := lastWrite_key last
      exact ⟨(holds.latest e).mpr (same ▸ last), same⟩
    · rintro ⟨mem, rfl⟩
      exact (holds.latest e).mp mem
  have absent : (∀ e ∈ entries index.buckets, e.key ≠ key) → lastWrite Row.key log key = none :=
    fun none => Option.eq_none_iff_forall_ne_some.mpr fun e last =>
      none e ((found_iff e).mp last).1 ((found_iff e).mp last).2
  rcases holds.wellFormed with rfl | ⟨probing, room⟩
  · rw [absent (by simp [rowIndexEmpty, entries])]
    rfl
  · obtain ⟨slot, located, here⟩ := findSlot_slot probing (by omega) key
    rw [rowIndexGet, if_neg (Nat.ne_of_gt probing.cap_pos), located]
    cases here with
    | @found i e here same =>
        rw [(found_iff e).mpr ⟨mem_entries.mpr ⟨i, here⟩, same⟩]
        simp [List.getD_eq_getElem?_getD, show index.buckets[i]? = some (some e) from here]
    | free passed hole =>
        rw [absent fun e mem => by
          obtain ⟨j, old⟩ := mem_entries.mp mem
          exact probing.sound.absent passed hole old]
        rfl

/-- The index after puts of the rows, in order. -/
def putRows (hash : Bytes → UInt64) (rows : List Row) : Option RowIndex :=
  rows.foldlM (rowIndexPut hash) rowIndexEmpty

theorem putRows_holds (hash : Bytes → UInt64) (rows : List Row) :
    ∃ index, putRows hash rows = some index ∧ Holds hash index rows := by
  induction rows using List.reverseRecOn with
  | nil => exact ⟨rowIndexEmpty, rfl, holds_empty⟩
  | append_singleton rows row ih =>
      obtain ⟨index, run, holds⟩ := ih
      obtain ⟨next, put, nextHolds⟩ := rowIndexPut_spec holds row
      refine ⟨next, ?_, nextHolds⟩
      rw [putRows, List.foldlM_append]
      simpa [show rows.foldlM (rowIndexPut hash) rowIndexEmpty = some index from run] using put

/-- Over any puts and under any hash, the table is empty or a power of two with a load below
three quarters, probing ends, and a lookup finds the last row that was put under its key. -/
theorem row_index_is_map (hash : Bytes → UInt64) (rows : List Row) :
    ∃ index, putRows hash rows = some index ∧
      (index = rowIndexEmpty ∨
        Capacity index.cap ∧ index.len = (entries index.buckets).length ∧
          4 * index.len < 3 * index.cap ∧ ∀ key, (findSlot hash index key).isSome = true) ∧
      Sound Row.key (homeBucket hash) index.buckets ∧
      ∀ key, rowIndexGet hash index key = some (lastWrite Row.key rows key) := by
  obtain ⟨index, run, holds⟩ := putRows_holds hash rows
  refine ⟨index, run, ?_, ?_, rowIndexGet_spec holds⟩
  · refine holds.wellFormed.imp id fun ⟨probing, room⟩ => ?_
    refine ⟨probing.power, probing.counted.symm, by omega, fun key => ?_⟩
    obtain ⟨slot, located, -⟩ := findSlot_slot probing (by omega) key
    rw [located]
    rfl
  · rcases holds.wellFormed with rfl | ⟨probing, -⟩
    · exact sound_empty 0
    · exact probing.sound

end StreamDataPipeline.ClipStore.BucketIndex
