/- The small tag set that aggregates chunk events into a clip (sm_events). -/

import StreamDataPipeline.Foundations.ByteString
import StreamDataPipeline.Foundations.FirstDistinct

set_option autoImplicit false
set_option relaxedAutoImplicit false

namespace StreamDataPipeline.StreamMerge.Events

open Foundations.ByteString Foundations.FirstDistinct

def smEventMaxItems : Nat := 16
def smEventMaxLen : Nat := 64

/-- A tag that fits one slot of the set: a non-empty C string of at most 63 bytes. -/
def TagFits (tag : Bytes) : Prop := tag ≠ [] ∧ tag.length < smEventMaxLen

instance (tag : Bytes) : Decidable (TagFits tag) := instDecidableAnd

/-- The used slots, in arrival order. `count` is the length of the list; the three
fields hold of the zeroed set and are kept by every operation on it. -/
@[ext] structure SmEventSet where
  items : List Bytes
  bounded : items.length ≤ smEventMaxItems
  distinct : items.Nodup
  fits : ∀ tag ∈ items, TagFits tag

instance : DecidableEq SmEventSet := fun a b =>
  decidable_of_iff (a.items = b.items) SmEventSet.ext_iff.symm

def smEventSetReset : SmEventSet := ⟨[], by decide, List.nodup_nil, by simp⟩

def SmEventSet.count (set : SmEventSet) : Nat := set.items.length

/-- `none` is the return value -1, which leaves the set as it was. -/
def smEventSetAddTag (set : SmEventSet) (tag : Bytes) : Option SmEventSet :=
  if fit : TagFits tag then
    if present : tag ∈ set.items then some set
    else if room : set.count < smEventMaxItems then
      some {
        items := set.items ++ [tag]
        bounded := by simpa [SmEventSet.count] using Nat.succ_le_of_lt room
        distinct := by
          refine List.nodup_append.mpr ⟨set.distinct, by simp, ?_⟩
          intro a ha b hb equal
          exact present (List.mem_singleton.mp hb ▸ equal ▸ ha)
        fits := by
          intro t ht
          rcases List.mem_append.mp ht with old | new
          · exact set.fits t old
          · exact List.mem_singleton.mp new ▸ fit }
    else none
  else none

/-- The loop of `sm_event_set_add_all`: it stops at the first tag that fails and
leaves the tags added before it in the destination. -/
def addTags (dst : SmEventSet) : List Bytes → SmEventSet × Bool
  | [] => (dst, true)
  | tag :: tags => match smEventSetAddTag dst tag with
    | some dst' => addTags dst' tags
    | none => (dst, false)

def smEventSetAddAll (dst src : SmEventSet) : SmEventSet × Bool := addTags dst src.items

@[simp] theorem smEventSetReset_items : smEventSetReset.items = [] := rfl

theorem smEventSetAddTag_of_not_fits (set : SmEventSet) {tag : Bytes} (unfit : ¬ TagFits tag) :
    smEventSetAddTag set tag = none := dif_neg unfit

theorem smEventSetAddTag_cases (set : SmEventSet) {tag : Bytes} (fit : TagFits tag) :
    (∃ grown, smEventSetAddTag set tag = some grown ∧
      grown.items = arrive smEventMaxItems set.items tag ∧ tag ∈ grown.items) ∨
    (smEventSetAddTag set tag = none ∧ smEventMaxItems ≤ set.items.length ∧ tag ∉ set.items) := by
  rw [smEventSetAddTag, dif_pos fit]
  by_cases present : tag ∈ set.items
  · rw [dif_pos present, arrive_held present]
    exact .inl ⟨set, rfl, rfl, present⟩
  · rw [dif_neg present]
    by_cases room : set.count < smEventMaxItems
    · rw [dif_pos room, arrive_new present room]
      exact .inl ⟨_, rfl, rfl, List.mem_append_right set.items List.mem_cons_self⟩
    · rw [dif_neg room]
      exact .inr ⟨rfl, Nat.le_of_not_lt room, present⟩

theorem addTags_items (dst : SmEventSet) {tags : List Bytes} (fit : ∀ tag ∈ tags, TagFits tag) :
    (addTags dst tags).1.items = tags.foldl (arrive smEventMaxItems) dst.items := by
  induction tags generalizing dst with
  | nil => rfl
  | cons tag tags ih =>
      have rest := fun t ht => fit t (List.mem_cons_of_mem tag ht)
      rcases smEventSetAddTag_cases dst (fit tag List.mem_cons_self) with
        ⟨grown, added, items, -⟩ | ⟨failed, full, -⟩
      · rw [addTags, added, ih grown rest, items, List.foldl_cons]
      · rw [addTags, failed, foldl_arrive_full full]

theorem addTags_succeeds (dst : SmEventSet) {tags : List Bytes} (fit : ∀ tag ∈ tags, TagFits tag) :
    (addTags dst tags).2 = true ↔ ∀ tag ∈ tags, tag ∈ (addTags dst tags).1.items := by
  induction tags generalizing dst with
  | nil => simp [addTags]
  | cons tag tags ih =>
      have rest := fun t ht => fit t (List.mem_cons_of_mem tag ht)
      rcases smEventSetAddTag_cases dst (fit tag List.mem_cons_self) with
        ⟨grown, added, -, mem⟩ | ⟨failed, -, absent⟩
      · have kept : tag ∈ (addTags grown tags).1.items := by
          rw [addTags_items grown rest]
          exact mem_foldl_arrive_of_mem mem tags
        rw [addTags, added, ih grown rest, List.forall_mem_cons]
        exact ⟨fun all => ⟨kept, all⟩, And.right⟩
      · rw [addTags, failed]
        constructor
        · rintro ⟨⟩
        · intro all
          exact absurd (all tag List.mem_cons_self) absent

end StreamDataPipeline.StreamMerge.Events
