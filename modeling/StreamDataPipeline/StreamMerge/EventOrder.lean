/- An event set over a whole run of calls (sm_events.c), and in the state machine. -/

import StreamDataPipeline.StreamMerge.Fsm

/-!
What the set holds is determined by the tags offered to it in turn: the first of them that
differ and fit. Results of calls that failed do not matter to it.
-/

set_option autoImplicit false
set_option relaxedAutoImplicit false

namespace StreamDataPipeline.StreamMerge.EventOrder

open Foundations.ByteString Foundations.FirstDistinct Events Fsm

inductive EventCall
  | addTag (tag : Bytes)
  | addAll (src : SmEventSet)

/-- The set after a call whose result is ignored. -/
def applyCall (set : SmEventSet) : EventCall → SmEventSet
  | .addTag tag => (smEventSetAddTag set tag).getD set
  | .addAll src => (smEventSetAddAll set src).1

/-- The set after the calls, from the empty one. -/
def runCalls (calls : List EventCall) : SmEventSet := calls.foldl applyCall smEventSetReset

def offeredBy : EventCall → List Bytes
  | .addTag tag => [tag]
  | .addAll src => src.items

/-- All tags that the calls offer, in order, with those that do not fit. -/
def offered (calls : List EventCall) : List Bytes := calls.flatMap offeredBy

def admissible (tags : List Bytes) : List Bytes := tags.filter fun tag => TagFits tag

@[simp] theorem admissible_append (xs ys : List Bytes) :
    admissible (xs ++ ys) = admissible xs ++ admissible ys := List.filter_append xs ys

theorem admissible_items (set : SmEventSet) : admissible set.items = set.items :=
  List.filter_eq_self.mpr fun tag mem => decide_eq_true (set.fits tag mem)

theorem runCalls_concat (calls : List EventCall) (call : EventCall) :
    runCalls (calls ++ [call]) = applyCall (runCalls calls) call := by
  rw [runCalls, List.foldl_append]
  rfl

theorem offered_concat (calls : List EventCall) (call : EventCall) :
    offered (calls ++ [call]) = offered calls ++ offeredBy call := by
  simp [offered]

theorem applyCall_items (set : SmEventSet) (call : EventCall) :
    (applyCall set call).items =
      (admissible (offeredBy call)).foldl (arrive smEventMaxItems) set.items := by
  cases call with
  | addTag tag =>
      by_cases fit : TagFits tag
      · have offer : admissible (offeredBy (.addTag tag)) = [tag] :=
          List.filter_cons_of_pos (decide_eq_true fit)
        rw [offer, List.foldl_cons, List.foldl_nil]
        rcases smEventSetAddTag_cases set fit with ⟨grown, added, items, -⟩ | ⟨failed, full, -⟩
        · rw [applyCall, added, Option.getD_some, items]
        · rw [applyCall, failed, Option.getD_none, arrive_full full]
      · have offer : admissible (offeredBy (.addTag tag)) = [] :=
          List.filter_cons_of_neg (by simpa using fit)
        rw [offer, List.foldl_nil, applyCall, smEventSetAddTag_of_not_fits set fit,
          Option.getD_none]
  | addAll src =>
      rw [offeredBy, admissible_items]
      exact addTags_items set src.fits

/-- The set holds the first distinct admissible tags, in the order they were offered. -/
theorem runCalls_items (calls : List EventCall) :
    (runCalls calls).items = firstDistinct smEventMaxItems (admissible (offered calls)) := by
  induction calls using List.reverseRecOn with
  | nil => simp [runCalls, offered, admissible, firstDistinct]
  | append_singleton calls call ih =>
      rw [runCalls_concat, offered_concat, admissible_append, firstDistinct_append, ← ih,
        applyCall_items]

theorem exists_runCalls (set : SmEventSet) : ∃ calls, runCalls calls = set := by
  refine ⟨[.addAll set], SmEventSet.ext ?_⟩
  rw [runCalls_items, offered, List.flatMap_singleton, offeredBy, admissible_items,
    firstDistinct_of_nodup set.distinct set.bounded]

/-- Over every run of calls the set is the first sixteen distinct admissible tags, and
`sm_event_set_add_all` reports whether all tags of the source are in it. Every source is the set
of such a run. -/
theorem event_set_first_tags (calls : List EventCall) :
    let set := runCalls calls
    (set.count ≤ 16 ∧ set.items.Nodup ∧ ∀ tag ∈ set.items, tag ≠ [] ∧ tag.length < 64) ∧
    set.items = firstDistinct 16 (admissible (offered calls)) ∧
    (∀ src : SmEventSet, (smEventSetAddAll set src).2 = true ↔
      ∀ tag ∈ src.items, tag ∈ (smEventSetAddAll set src).1.items) ∧
    (∀ (fsm : SmFsm) (rec : SmMetaRecord) (nowMs : Int),
      (appendRecord { fsm with events := set } rec nowMs).events.items =
        firstDistinct 16 (admissible (offered calls ++ rec.events.items))) ∧
    ∀ src : SmEventSet, ∃ calls, runCalls calls = src := by
  intro set
  refine ⟨⟨set.bounded, set.distinct, set.fits⟩, runCalls_items calls,
    fun src => addTags_succeeds set src.fits, ?_, exists_runCalls⟩
  intro fsm rec nowMs
  have merged := runCalls_items (calls ++ [.addAll rec.events])
  rw [runCalls_concat, offered_concat] at merged
  exact merged

end StreamDataPipeline.StreamMerge.EventOrder
