/- Who frees the rows of the hash index (db_query.c). -/

import Mathlib.Tactic.Abel
import StreamDataPipeline.Foundations.OwnedBlocks
import StreamDataPipeline.ClipStore.Query

/-!
The index with the blocks behind its pointers. Without them it is the index of the model, and
every operation does to it what the model says.
-/

set_option autoImplicit false
set_option relaxedAutoImplicit false

namespace StreamDataPipeline.ClipStore.OwnedBuckets

open Foundations Foundations.ByteString Foundations.LinearProbing Foundations.OwnedBlocks
open Format BucketIndex

/-- A row of the index with the blocks of its key and its value. -/
structure OwnedRow where
  key : Nat
  value : Nat
  row : Row

def OwnedRow.blocks (owned : OwnedRow) : Multiset Nat := {owned.key} + {owned.value}

/-- The pointers of an unused bucket are NULL. -/
abbrev Bucket := Option OwnedRow

structure OwnedIndex where
  rows : Pointer
  used : Pointer
  buckets : List Bucket
  len : Nat

def ownedEmpty : OwnedIndex := ⟨none, none, [], 0⟩

def OwnedIndex.blocks (index : OwnedIndex) : Multiset Nat :=
  OwnedBlocks.blocks index.rows + OwnedBlocks.blocks index.used + held OwnedRow.blocks index.buckets

/-- The rows of buckets. -/
def plainBuckets (buckets : List Bucket) : List (Option Row) :=
  buckets.map (Option.map OwnedRow.row)

/-- The index of the model. -/
def OwnedIndex.plain (index : OwnedIndex) : RowIndex := ⟨plainBuckets index.buckets, index.len⟩

section Operations

variable (hash : Bytes → UInt64)

/-- The probing loop of `find_slot`. One that does not end is an error. -/
def findFrom (index : OwnedIndex) (key : Bytes) : Nat → Nat → HeapM (Nat × Bool)
  | 0, _ => .error
  | fuel + 1, idx => do
      touch index.used
      match index.buckets.getD idx none with
      | none => pure (idx, false)
      | some owned => do
          touch index.rows
          touch (some owned.key)
          if owned.row.key = key then pure (idx, true)
          else findFrom index key fuel ((idx + 1) &&& (index.buckets.length - 1))

def findSlot (index : OwnedIndex) (key : Bytes) : HeapM (Nat × Bool) :=
  findFrom index key index.buckets.length ((hash key).toNat &&& (index.buckets.length - 1))

/-- The loop of `row_index_grow` over the old buckets. -/
def rehash (rows used : Pointer) : List Bucket → OwnedIndex → HeapM OwnedIndex
  | [], grown => pure grown
  | none :: rest, grown => do
      touch used
      rehash rows used rest grown
  | some owned :: rest, grown => do
      touch used
      touch rows
      touch (some owned.key)
      let slot ← findSlot hash grown owned.row.key
      touch grown.rows
      touch grown.used
      rehash rows used rest
        { grown with buckets := grown.buckets.set slot.1 (some owned), len := grown.len + 1 }

/-- The index, and whether the return value is 0. -/
def rowIndexGrow (index : OwnedIndex) (nextLen : Nat) : HeapM (OwnedIndex × Bool) := do
  let nextCap := growCap nextLen (nextLen * 4) (startCap index.plain)
  if nextCap = index.buckets.length then pure (index, true)
  else
    let rows ← malloc
    let used ← malloc
    if rows = none ∨ used = none then
      free rows
      free used
      pure (index, false)
    else
      let grown ← rehash hash index.rows index.used index.buckets
        ⟨rows, used, List.replicate nextCap none, 0⟩
      free index.rows
      free index.used
      pure (grown, true)

/-- The copy of a row whose key and value are read through these pointers; `none` is the return
value -1, and `dst` stays as it is. -/
def replaceRow (dst : Bucket) (row : Row) (keyAt valueAt : Pointer) : HeapM Bucket := do
  touch keyAt
  let key ← malloc
  touch valueAt
  let value ← malloc
  match key, value with
  | some key, some value => do
      free (dst.map OwnedRow.key)
      free (dst.map OwnedRow.value)
      pure (some ⟨key, value, row⟩)
  | key, value => do
      free key
      free value
      pure none

def rowIndexPut (index : OwnedIndex) (row : Row) (keyAt valueAt : Pointer) :
    HeapM (OwnedIndex × Bool) := do
  let grown ← rowIndexGrow hash index (index.len + 1)
  if grown.2 then
    let index := grown.1
    touch keyAt
    let slot ← findSlot hash index row.key
    touch index.rows
    match ← replaceRow (index.buckets.getD slot.1 none) row keyAt valueAt with
    | none => pure (index, false)
    | some owned => do
        touch index.used
        pure ({ index with
          buckets := index.buckets.set slot.1 (some owned)
          len := if slot.2 then index.len else index.len + 1 }, true)
  else pure (grown.1, false)

def rowIndexGet (index : OwnedIndex) (key : Bytes) : HeapM Bucket := do
  if index.buckets.length = 0 then pure none
  else
    let slot ← findSlot hash index key
    pure (if slot.2 then index.buckets.getD slot.1 none else none)

/-- The loop of `row_index_free`. -/
def freeBuckets (rows used : Pointer) : List Bucket → HeapM Unit
  | [] => pure ()
  | none :: rest => do
      touch used
      freeBuckets rows used rest
  | some owned :: rest => do
      touch used
      touch rows
      free (some owned.key)
      free (some owned.value)
      freeBuckets rows used rest

def rowIndexFree (index : OwnedIndex) : HeapM Unit := do
  freeBuckets index.rows index.used index.buckets
  free index.rows
  free index.used

end Operations

/-- Where there are buckets, both arrays are there. -/
def OwnedIndex.Sound (index : OwnedIndex) : Prop :=
  index.buckets ≠ [] → index.rows.isSome ∧ index.used.isSome

theorem ownedEmpty_sound : ownedEmpty.Sound := fun some => absurd rfl some

@[simp] theorem ownedEmpty_blocks : ownedEmpty.blocks = 0 := rfl

@[simp] theorem ownedEmpty_plain : ownedEmpty.plain = rowIndexEmpty := rfl

theorem plainBuckets_getD (buckets : List Bucket) (i : Nat) :
    (plainBuckets buckets).getD i none = (buckets.getD i none).map OwnedRow.row := by
  simp [plainBuckets, List.getD_eq_getElem?_getD]
  cases buckets[i]? <;> rfl

theorem plainBuckets_set (buckets : List Bucket) (i : Nat) (bucket : Bucket) :
    plainBuckets (buckets.set i bucket) = (plainBuckets buckets).set i (bucket.map OwnedRow.row) :=
  List.map_set

theorem plainBuckets_length (buckets : List Bucket) :
    (plainBuckets buckets).length = buckets.length := List.length_map _

theorem OwnedIndex.Sound.arrays {index : OwnedIndex} (sound : index.Sound)
    (some : index.buckets ≠ []) : (∃ b ∈ index.blocks, index.rows = Option.some b) ∧
      ∃ b ∈ index.blocks, index.used = Option.some b := by
  obtain ⟨rows, used⟩ := sound some
  obtain ⟨r, rowsAt⟩ := Option.isSome_iff_exists.mp rows
  obtain ⟨u, usedAt⟩ := Option.isSome_iff_exists.mp used
  exact ⟨⟨r, by simp [OwnedIndex.blocks, rowsAt], rowsAt⟩,
    u, by simp [OwnedIndex.blocks, usedAt], usedAt⟩

variable {world : World}

theorem access_runs {before : Multiset Nat} {p : Pointer} (owned : ∃ b ∈ before, p = some b) :
    Runs world before (touch p) (fun _ => before) fun _ => True := by
  obtain ⟨b, mem, rfl⟩ := owned
  exact touch_runs mem

theorem bucket_owned {index : OwnedIndex} {owned : OwnedRow} (mem : some owned ∈ index.buckets) :
    owned.key ∈ index.blocks ∧ owned.value ∈ index.blocks := by
  have inside : ∀ b ∈ owned.blocks, b ∈ index.blocks := fun b here =>
    Multiset.mem_add.mpr (.inr (mem_held OwnedRow.blocks mem here))
  exact ⟨inside _ (by simp [OwnedRow.blocks]), inside _ (by simp [OwnedRow.blocks])⟩

theorem mem_of_getD {buckets : List Bucket} {i : Nat} {owned : OwnedRow}
    (bucket : buckets.getD i none = some owned) : some owned ∈ buckets := by
  rw [List.getD_eq_getElem?_getD] at bucket
  cases here : buckets[i]? with
  | none => simp [here] at bucket
  | some entry =>
      rw [here, Option.getD_some] at bucket
      exact bucket ▸ List.mem_of_getElem? here

theorem findFrom_runs {index : OwnedIndex} (sound : index.Sound) (some : index.buckets ≠ [])
    (key : Bytes) {slot : Nat × Bool} (fuel idx : Nat)
    (found : BucketIndex.findFrom (plainBuckets index.buckets) key fuel idx = Option.some slot) :
    Runs world index.blocks (findFrom index key fuel idx) (fun _ => index.blocks) (· = slot) := by
  obtain ⟨rows, used⟩ := sound.arrays some
  induction fuel generalizing idx with
  | zero => cases found
  | succ fuel ih =>
      rw [BucketIndex.findFrom, plainBuckets_getD, plainBuckets_length] at found
      rw [findFrom]
      refine (access_runs used).bind fun _ _ => ?_
      rcases bucket : index.buckets.getD idx none with _ | owned
      · rw [bucket] at found
        exact .pure rfl (Option.some.inj found)
      · rw [bucket] at found
        refine (access_runs rows).bind fun _ _ => ?_
        refine (touch_runs (bucket_owned (mem_of_getD bucket)).1).bind fun _ _ => ?_
        dsimp only [Option.map_some] at found
        refine .ite (fun same => ?_) fun other => ?_
        · rw [if_pos same] at found
          exact .pure rfl (Option.some.inj found)
        · rw [if_neg other] at found
          exact ih _ found

variable {hash : Bytes → UInt64}

theorem findSlot_runs {index : OwnedIndex} (sound : index.Sound) (some : index.buckets ≠ [])
    {key : Bytes} {slot : Nat × Bool}
    (found : BucketIndex.findSlot hash index.plain key = Option.some slot) :
    Runs world index.blocks (findSlot hash index key) (fun _ => index.blocks) (· = slot) := by
  refine findFrom_runs sound some key _ _ ?_
  rw [BucketIndex.findSlot, RowIndex.cap, OwnedIndex.plain, plainBuckets_length] at found
  exact found

theorem freeBuckets_runs {rows used : Nat} (buckets : List Bucket) :
    Runs world ({rows} + {used} + held OwnedRow.blocks buckets)
      (freeBuckets (some rows) (some used) buckets) (fun _ => {rows} + {used}) fun _ => True := by
  induction buckets with
  | nil => exact .pure (by simp) trivial
  | cons bucket rest ih =>
      cases bucket with
      | none =>
          rw [freeBuckets, held_cons, Option.elim_none, zero_add]
          exact (touch_runs (by simp)).bind fun _ _ => ih
      | some owned =>
          have split : {rows} + {used} + held OwnedRow.blocks (some owned :: rest) =
              {owned.key} + ({owned.value} + ({rows} + {used} + held OwnedRow.blocks rest)) := by
            rw [held_cons, Option.elim_some, OwnedRow.blocks]
            abel
          rw [freeBuckets]
          refine (touch_runs (by simp)).bind fun _ _ => ?_
          refine (touch_runs (by simp)).bind fun _ _ => ?_
          refine (free_runs (some owned.key)).then split fun _ _ => ?_
          refine (free_runs (some owned.value)).then (zero_add _) fun _ _ => ?_
          rw [zero_add]
          exact ih

theorem rowIndexFree_runs {index : OwnedIndex} (sound : index.Sound) :
    Runs world index.blocks (rowIndexFree index) (fun _ => 0) fun _ => True := by
  obtain ⟨rows, used, buckets, len⟩ := index
  have free_arrays : Runs world (blocks rows + blocks used) (do
      free rows
      free used) (fun _ => 0) fun _ => True := by
    refine (free_runs rows).then rfl fun _ _ => ?_
    rw [zero_add]
    exact free_runs used
  cases buckets with
  | nil => exact free_arrays.weaken (by simp [OwnedIndex.blocks]) fun _ _ => ⟨rfl, trivial⟩
  | cons bucket rest =>
      obtain ⟨there, also⟩ := sound (List.cons_ne_nil _ _)
      obtain ⟨r, rfl⟩ := Option.isSome_iff_exists.mp there
      obtain ⟨u, rfl⟩ := Option.isSome_iff_exists.mp also
      exact (freeBuckets_runs (bucket :: rest)).bind fun _ _ => free_arrays

theorem plainBuckets_hole {buckets : List Bucket} {i : Nat} (hole : Hole (plainBuckets buckets) i) :
    buckets[i]? = some none := by
  rw [Hole, plainBuckets, List.getElem?_map] at hole
  obtain ⟨bucket, here, unused⟩ := Option.map_eq_some_iff.mp hole
  rw [here, Option.map_eq_none_iff.mp unused]

/-- The index after a row went into a slot. -/
def OwnedIndex.stored (index : OwnedIndex) (i : Nat) (owned : OwnedRow) (len : Nat) : OwnedIndex :=
  { index with buckets := index.buckets.set i (some owned), len := len }

theorem OwnedIndex.stored_plain (index : OwnedIndex) (i : Nat) (owned : OwnedRow) (len : Nat) :
    (index.stored i owned len).plain = ⟨index.plain.buckets.set i (some owned.row), len⟩ := by
  rw [OwnedIndex.plain, OwnedIndex.stored, plainBuckets_set]
  rfl

theorem OwnedIndex.stored_sound {index : OwnedIndex} (sound : index.Sound) (i : Nat)
    (owned : OwnedRow) (len : Nat) : (index.stored i owned len).Sound := by
  intro some
  exact sound fun none => some (by simp [OwnedIndex.stored, none])

theorem OwnedIndex.stored_blocks {index : OwnedIndex} {i : Nat} (here : i < index.buckets.length) :
    ∃ others, index.blocks = (index.buckets.getD i none).elim 0 OwnedRow.blocks + others ∧
      ∀ owned len, (index.stored i owned len).blocks = owned.blocks + others := by
  refine ⟨OwnedBlocks.blocks index.rows + OwnedBlocks.blocks index.used +
    held OwnedRow.blocks (index.buckets.set i none), ?_, fun owned len => ?_⟩
  · have emptied := held_set OwnedRow.blocks (List.getElem?_eq_getElem here) none
    rw [Option.elim_none, add_zero] at emptied
    rw [List.getD_eq_getElem _ _ here, OwnedIndex.blocks, ← emptied]
    abel
  · have hole : (index.buckets.set i none)[i]? = some none := by
      rw [List.getElem?_set_self here]
    have stored := held_set_empty OwnedRow.blocks hole owned
    rw [List.set_set] at stored
    rw [OwnedIndex.blocks, OwnedIndex.stored, stored]
    abel

theorem OwnedIndex.stored_empty_blocks {index : OwnedIndex} {i : Nat}
    (empty : index.buckets[i]? = some none) (owned : OwnedRow) (len : Nat) :
    (index.stored i owned len).blocks = index.blocks + owned.blocks := by
  obtain ⟨here, _⟩ := List.getElem?_eq_some_iff.mp empty
  obtain ⟨others, before, after⟩ := OwnedIndex.stored_blocks here
  rw [List.getD_eq_getElem?_getD, empty, Option.getD_some, Option.elim_none, zero_add] at before
  rw [after, before, add_comm]

theorem rehash_runs {r u : Nat} (todo : List Bucket) (grown : OwnedIndex) (sound : grown.Sound)
    (probing : Probing hash grown.plain)
    (room : grown.len + (entries (plainBuckets todo)).length < grown.buckets.length)
    (nodup : ((entries (plainBuckets todo)).map Row.key).Nodup)
    (fresh : ∀ e ∈ entries (plainBuckets todo), ∀ f ∈ entries (plainBuckets grown.buckets),
      f.key ≠ e.key) :
    Runs world ({r} + {u} + held OwnedRow.blocks todo + grown.blocks)
      (rehash hash (some r) (some u) todo grown) (fun next => {r} + {u} + next.blocks)
      fun next => (plainBuckets todo).foldlM (rehashBucket hash) grown.plain = some next.plain ∧
        next.Sound := by
  induction todo generalizing grown with
  | nil => exact .pure (by simp) ⟨rfl, sound⟩
  | cons bucket rest ih =>
      cases bucket with
      | none =>
          rw [rehash, held_cons, Option.elim_none, zero_add]
          exact (touch_runs (by simp)).bind fun _ _ => ih grown sound probing room nodup fresh
      | some owned =>
          have split : entries (plainBuckets (some owned :: rest)) =
              owned.row :: entries (plainBuckets rest) := rfl
          rw [split] at room nodup fresh
          simp only [List.map_cons, List.nodup_cons, List.length_cons,
            List.forall_mem_cons] at nodup room fresh
          have enough : grown.plain.len < grown.plain.cap := by
            rw [RowIndex.cap, OwnedIndex.plain, plainBuckets_length]
            dsimp only
            omega
          have some_bucket : grown.buckets ≠ [] := by
            rw [← List.length_pos_iff]
            omega
          obtain ⟨rows, used⟩ := sound.arrays some_bucket
          obtain ⟨⟨i, found⟩, located, slot⟩ := findSlot_slot probing enough owned.row.key
          have hole : Hole (plainBuckets grown.buckets) i ∧ found = false := by
            cases slot with
            | found here same => exact absurd same (fresh.1 _ (mem_entries.mpr ⟨_, here⟩))
            | free passed hole => exact ⟨hole, rfl⟩
          obtain ⟨hole, rfl⟩ := hole
          obtain ⟨written, members⟩ := write_slot probing slot
          rw [rehash]
          refine (touch_runs (by simp)).bind fun _ _ => ?_
          refine (touch_runs (by simp)).bind fun _ _ => ?_
          refine (touch_runs (by simp [OwnedRow.blocks])).bind fun _ _ => ?_
          refine (findSlot_runs sound some_bucket located).then (add_comm _ _) fun slot eq => ?_
          subst eq
          have inside : ∀ {p : Pointer} (others : Multiset Nat),
              (∃ b ∈ grown.blocks, p = some b) → ∃ b ∈ grown.blocks + others, p = some b :=
            fun _ there => there.imp fun _ at_b => ⟨Multiset.mem_add.mpr (.inl at_b.1), at_b.2⟩
          refine (access_runs (inside _ rows)).bind fun _ _ => ?_
          refine (access_runs (inside _ used)).bind fun _ _ => ?_
          have later := ih (grown.stored i owned (grown.len + 1))
            (grown.stored_sound sound i owned _)
            (by rw [OwnedIndex.stored_plain]; exact written)
            (by simp only [OwnedIndex.stored, List.length_set]; omega) nodup.2 (by
              intro e mem f there
              rw [OwnedIndex.stored, plainBuckets_set] at there
              rcases (members f).mp there with rfl | ⟨_, old⟩
              · exact fun equal => nodup.1 (equal ▸ List.mem_map_of_mem mem)
              · exact fresh.2 e mem f old)
          refine later.weaken ?_ fun next done => ⟨rfl, ?_, done.2⟩
          · rw [OwnedIndex.stored_empty_blocks (plainBuckets_hole hole), held_cons,
              Option.elim_some]
            abel
          · have run := done.1
            rw [OwnedIndex.stored_plain] at run
            simp only [plainBuckets, List.map_cons, Option.map_some, List.foldlM_cons,
              rehashBucket, located, Option.bind_eq_bind, Option.bind_some, Option.pure_def]
            exact run

theorem wellFormed_counted {index : RowIndex} (wellFormed : WellFormed hash index) :
    (entries index.buckets).length = index.len := by
  rcases wellFormed with rfl | ⟨probing, _⟩
  · rfl
  · exact probing.counted

theorem startCap_power {index : RowIndex} (wellFormed : WellFormed hash index) :
    Capacity (startCap index) := by
  rcases wellFormed with rfl | ⟨probing, _⟩
  · exact ⟨6, le_refl _, rfl⟩
  · rw [startCap, if_neg (Nat.ne_of_gt probing.cap_pos)]
    exact probing.power

theorem moveBuckets_runs {index : OwnedIndex} (sound : index.Sound)
    (wellFormed : WellFormed hash index.plain) {rows used nextCap : Nat} (power : Capacity nextCap)
    (room : (index.len + 1) * 4 < nextCap * 3) :
    Runs world (index.blocks + ({rows} + {used}))
      (rehash hash index.rows index.used index.buckets
        ⟨some rows, some used, List.replicate nextCap none, 0⟩)
      (fun next => blocks index.rows + (blocks index.used + next.blocks))
      fun next => index.plain.buckets.foldlM (rehashBucket hash)
          ⟨List.replicate nextCap none, 0⟩ = some next.plain ∧ next.Sound := by
  let grown : OwnedIndex := ⟨some rows, some used, List.replicate nextCap none, 0⟩
  have grown_plain : grown.plain = ⟨List.replicate nextCap none, 0⟩ := by
    simp [grown, OwnedIndex.plain, plainBuckets]
  have grown_blocks : grown.blocks = {rows} + {used} := by simp [grown, OwnedIndex.blocks]
  have grown_sound : grown.Sound := fun _ => ⟨rfl, rfl⟩
  have counted : (entries (plainBuckets index.buckets)).length = index.len :=
    wellFormed_counted wellFormed
  rcases empty : index.buckets with _ | ⟨bucket, rest⟩
  · refine .pure ?_ ⟨?_, grown_sound⟩
    · change index.blocks + ({rows} + {used}) =
        blocks index.rows + (blocks index.used + grown.blocks)
      rw [OwnedIndex.blocks, empty, held_nil, add_zero, add_assoc, grown_blocks]
    · change (plainBuckets index.buckets).foldlM _ _ = some grown.plain
      rw [empty, grown_plain]
      rfl
  · obtain ⟨there, also⟩ := sound (by simp [empty])
    obtain ⟨r, rowsAt⟩ := Option.isSome_iff_exists.mp there
    obtain ⟨u, usedAt⟩ := Option.isSome_iff_exists.mp also
    have probing : Probing hash grown.plain := grown_plain ▸ probing_replicate power
    have moved := @rehash_runs world hash r u index.buckets grown grown_sound probing
      (by rw [counted]; simp [grown]; omega)
      wellFormed.nodup (by
        intro e _ f mem
        have plain : plainBuckets grown.buckets = List.replicate nextCap none :=
          congrArg RowIndex.buckets grown_plain
        rw [plain, entries_empty] at mem
        cases mem)
    rw [← empty, rowsAt, usedAt]
    refine moved.weaken ?_ fun next ⟨run, rest⟩ => ⟨by simp only [blocks_some]; abel, ?_, rest⟩
    · rw [grown_blocks, OwnedIndex.blocks, rowsAt, usedAt, blocks_some, blocks_some]
    · rw [← grown_plain]
      exact run

theorem rowIndexGrow_runs {index : OwnedIndex} (sound : index.Sound)
    (wellFormed : WellFormed hash index.plain) :
    Runs world index.blocks (rowIndexGrow hash index (index.len + 1))
      (fun result => result.1.blocks)
      fun result => result.1.Sound ∧
        (result.2 = true →
          BucketIndex.rowIndexGrow hash index.plain (index.len + 1) = some result.1.plain) ∧
        (result.2 = false → Refused world) := by
  have start := startCap_power wellFormed
  obtain ⟨power, room⟩ := growCap_spec (index.len + 1) ((index.len + 1) * 4) _ start (by
    have positive := start.pos
    omega)
  have cap : index.plain.cap = index.buckets.length := plainBuckets_length _
  rw [rowIndexGrow, BucketIndex.rowIndexGrow, cap]
  refine .ite (fun same => ?_) fun differ => ?_
  · rw [if_pos same]
    exact .pure rfl ⟨sound, fun _ => rfl, nofun⟩
  rw [if_neg differ]
  refine malloc_runs.then (zero_add _).symm fun rows norows => ?_
  refine malloc_runs.then (zero_add _).symm fun used noused => ?_
  refine .ite (fun missing => ?_) fun there => ?_
  · refine (free_runs rows).then (add_left_comm _ _ _) fun _ _ => ?_
    refine (free_runs used).then (zero_add _) fun _ _ => ?_
    rw [zero_add]
    exact .pure rfl ⟨sound, nofun, fun _ => missing.elim norows noused⟩
  · obtain ⟨hasRows, hasUsed⟩ := not_or.mp there
    obtain ⟨r, rfl⟩ := Option.ne_none_iff_exists'.mp hasRows
    obtain ⟨u, rfl⟩ := Option.ne_none_iff_exists'.mp hasUsed
    refine (moveBuckets_runs sound wellFormed power room).weaken
      (by simp only [blocks_some]; abel) (fun _ post => ⟨rfl, post⟩) |>.bind
      fun next ⟨run, nextSound⟩ => ?_
    refine (free_runs index.rows).then rfl fun _ _ => ?_
    refine (free_runs index.used).then (zero_add _) fun _ _ => ?_
    rw [zero_add]
    exact .pure rfl ⟨nextSound, fun _ => run, nofun⟩

theorem inside_left {source others : Multiset Nat} {p : Pointer}
    (owned : ∃ b ∈ source, p = some b) : ∃ b ∈ others + source, p = some b := by
  obtain ⟨b, mem, eq⟩ := owned
  exact ⟨b, Multiset.mem_add.mpr (.inr mem), eq⟩

theorem replaceRow_runs (dst : Bucket) (row : Row) {keyAt valueAt : Pointer}
    {source : Multiset Nat} (keyOwned : ∃ b ∈ source, keyAt = some b)
    (valueOwned : ∃ b ∈ source, valueAt = some b) :
    Runs world (dst.elim 0 OwnedRow.blocks + source) (replaceRow dst row keyAt valueAt)
      (fun copy => (copy.or dst).elim 0 OwnedRow.blocks + source)
      fun copy => (∀ owned, copy = some owned → owned.row = row) ∧
        (copy = none → Refused world) := by
  rw [replaceRow]
  refine (access_runs (inside_left keyOwned)).bind fun _ _ => ?_
  refine malloc_runs.then (zero_add _).symm fun key nokey => ?_
  refine (access_runs (inside_left (inside_left valueOwned))).bind fun _ _ => ?_
  refine malloc_runs.then (zero_add _).symm fun value novalue => ?_
  have giveUp : key = none ∨ value = none → Runs world
      (blocks value + (blocks key + (dst.elim 0 OwnedRow.blocks + source))) (do
        free key
        free value
        pure none : HeapM Bucket)
      (fun copy => (copy.or dst).elim 0 OwnedRow.blocks + source)
      fun copy => (∀ owned, copy = some owned → owned.row = row) ∧
        (copy = none → Refused world) := by
    intro missing
    refine (free_runs key).then (add_left_comm _ _ _) fun _ _ => ?_
    refine (free_runs value).then (zero_add _) fun _ _ => ?_
    rw [zero_add]
    exact .pure rfl ⟨nofun, fun _ => missing.elim nokey novalue⟩
  cases key with
  | none => exact giveUp (.inl rfl)
  | some k =>
      cases value with
      | none => exact giveUp (.inr rfl)
      | some v =>
          have split : blocks (some v) + (blocks (some k) +
              (dst.elim 0 OwnedRow.blocks + source)) =
                blocks (dst.map OwnedRow.key) + (blocks (dst.map OwnedRow.value) +
                  ({k} + {v} + source)) := by
            cases dst <;> simp only [Option.elim_none, Option.elim_some, Option.map_none,
              Option.map_some, blocks_none, blocks_some, OwnedRow.blocks] <;> abel
          refine (free_runs (dst.map OwnedRow.key)).then split fun _ _ => ?_
          refine (free_runs (dst.map OwnedRow.value)).then (zero_add _) fun _ _ => ?_
          rw [zero_add]
          exact .pure rfl ⟨fun owned eq => by rw [← Option.some.inj eq], nofun⟩

/-- A put does what it does in the model, or it was refused something. -/
theorem rowIndexPut_runs {index : OwnedIndex} {log : List Row} (sound : index.Sound)
    (holds : Holds hash index.plain log) (row : Row) {keyAt valueAt : Pointer}
    {source : Multiset Nat} (keyOwned : ∃ b ∈ source, keyAt = some b)
    (valueOwned : ∃ b ∈ source, valueAt = some b) :
    Runs world (index.blocks + source) (rowIndexPut hash index row keyAt valueAt)
      (fun result => result.1.blocks + source)
      fun result => result.1.Sound ∧
        (result.2 = true → BucketIndex.rowIndexPut hash index.plain row = some result.1.plain) ∧
        (result.2 = false → Refused world) := by
  rw [rowIndexPut, BucketIndex.rowIndexPut]
  refine (rowIndexGrow_runs sound holds.wellFormed).then rfl
    fun grown what => ?_
  obtain ⟨grownSound, run, refused⟩ := what
  refine .ite (fun yes => ?_) fun no => ?_
  · obtain ⟨same, plainRun, probing, len, room, -⟩ := rowIndexGrow_spec holds.wellFormed
    obtain rfl := Option.some.inj ((run yes).symm.trans plainRun)
    have some_bucket : grown.1.buckets ≠ [] := by
      intro none
      simp [OwnedIndex.plain, RowIndex.cap, none, plainBuckets] at room
    obtain ⟨⟨i, found⟩, located, slot⟩ := findSlot_slot probing (by omega) row.key
    have here : i < grown.1.buckets.length := by
      rw [← plainBuckets_length]
      cases slot with
      | found here _ => exact here.lt
      | free _ hole => exact hole.lt
    refine (access_runs (inside_left keyOwned)).bind fun _ _ => ?_
    refine (findSlot_runs grownSound some_bucket located).then rfl fun slot eq => ?_
    subst eq
    obtain ⟨others, before, after⟩ := OwnedIndex.stored_blocks here
    obtain ⟨rows, used⟩ := grownSound.arrays some_bucket
    refine (access_runs (add_comm source _ ▸ inside_left rows)).bind fun _ _ => ?_
    refine (replaceRow_runs (grown.1.buckets.getD i none) row keyOwned valueOwned).then
      (by rw [before]; abel : _ = _ + others) fun copy copied => ?_
    obtain ⟨same, nocopy⟩ := copied
    cases copy with
    | none =>
        refine .pure ?_ ⟨grownSound, by simp, fun _ => nocopy rfl⟩
        rw [before, Option.none_or]
        abel
    | some owned =>
        have stored := after owned (if found then grown.1.len else grown.1.len + 1)
        have storedSound := grown.1.stored_sound grownSound i owned
          (if found then grown.1.len else grown.1.len + 1)
        have usedOwned : ∃ b ∈ owned.blocks + source + others, grown.1.used = some b := by
          obtain ⟨b, mem, eq⟩ :=
            (storedSound.arrays (by simpa [OwnedIndex.stored] using some_bucket)).2
          rw [stored, Multiset.mem_add] at mem
          refine ⟨b, ?_, eq⟩
          rw [add_right_comm, Multiset.mem_add, Multiset.mem_add]
          exact .inl mem
        refine (access_runs usedOwned).bind fun _ _ => .pure ?_ ⟨storedSound, fun _ => ?_, by simp⟩
        · change owned.blocks + source + others = (grown.1.stored i owned _).blocks + source
          rw [stored]
          abel
        · change _ = some (grown.1.stored i owned _).plain
          rw [OwnedIndex.stored_plain, same owned rfl]
          simp only [plainRun, located, Option.bind_eq_bind, Option.bind_some, Option.pure_def]
          cases found <;> rfl
  · exact .pure rfl ⟨grownSound, by simp, fun _ => refused (Bool.not_eq_true _ ▸ no)⟩

theorem rowIndexGet_runs {index : OwnedIndex} {log : List Row} (sound : index.Sound)
    (holds : Holds hash index.plain log) (key : Bytes) :
    Runs world index.blocks (rowIndexGet hash index key) (fun _ => index.blocks)
      fun bucket => BucketIndex.rowIndexGet hash index.plain key =
          some (bucket.map OwnedRow.row) ∧
        ∀ owned, bucket = some owned → some owned ∈ index.buckets := by
  have cap : index.plain.cap = index.buckets.length := plainBuckets_length _
  rw [rowIndexGet, BucketIndex.rowIndexGet, cap]
  refine .ite (fun empty => ?_) fun some_bucket => ?_
  · rw [if_pos empty]
    exact .pure rfl ⟨rfl, by simp⟩
  rw [if_neg some_bucket]
  have some_bucket : index.buckets ≠ [] := fun none => some_bucket (by rw [none]; rfl)
  rcases holds.wellFormed with empty | ⟨probing, room⟩
  · have none : index.plain.buckets.length = 0 := by rw [empty]; rfl
    exact absurd (List.length_eq_zero_iff.mp (cap ▸ none)) some_bucket
  obtain ⟨⟨i, found⟩, located, -⟩ := findSlot_slot probing (by omega) key
  refine (findSlot_runs sound some_bucket located).bind fun slot eq => .pure rfl ?_
  rw [located, eq]
  simp only [Option.bind_eq_bind, Option.bind_some, Option.pure_def]
  cases found with
  | false => exact ⟨rfl, by simp⟩
  | true => exact ⟨congrArg some (plainBuckets_getD _ _), fun owned bucket => mem_of_getD bucket⟩

end StreamDataPipeline.ClipStore.OwnedBuckets
