/- The events of a record and the clips that hold its bytes. -/

import Mathlib.Data.Finset.Card
import StreamDataPipeline.StreamMerge.Branches

/-!
The records that were merged into the pending window are kept beside the state
machine as ghost state. A clip takes the events of all of them, but a cut takes
only the bytes at the front of the window.
-/

set_option autoImplicit false
set_option relaxedAutoImplicit false

namespace StreamDataPipeline.StreamMerge.EventAttribution

open Foundations Foundations.Word Foundations.ByteString Foundations.FirstDistinct
open Events Fsm FsmRun ByteConservation Branches

/-- The state machine with the records whose events are in the pending window. -/
structure Traced where
  fsm : SmFsm
  folded : List SmMetaRecord

/-- What stays folded, and what went into the clip, after a cut was attempted. -/
def windowFolded (clipMs : Int) (fsm : SmFsm) (folded : List SmMetaRecord) :
    List SmMetaRecord × List (List SmMetaRecord) :=
  if Full clipMs fsm then ([], [folded]) else (folded, [])

def foldRecord (clipMs nowMs : Int) (t : Traced) (rec : SmMetaRecord) :
    RecordBranch → List SmMetaRecord × List (List SmMetaRecord)
  | .ignore | .late => (t.folded, [])
  | .restart => windowFolded clipMs (startClip rec nowMs) [rec]
  | .gap | .boundary => ([rec], [t.folded])
  | .extend => windowFolded clipMs (appendRecord t.fsm rec nowMs) (t.folded ++ [rec])
  | .append => (t.folded ++ [rec], [])

def foldCall (clipMs : Int) (t : Traced) (call : FsmCall) :
    List SmMetaRecord × List (List SmMetaRecord) :=
  match call with
  | .record rec nowMs => foldRecord clipMs nowMs t rec (recordBranch clipMs t.fsm rec)
  | .idle _ _ | .flush =>
      if (callStep clipMs t.fsm call).2 = .none then (t.folded, []) else ([], [t.folded])

/-- The step of the state machine, answered with the records folded into each clip. -/
def tracedStep (clipMs : Int) (t : Traced) (call : FsmCall) :
    Traced × List (List SmMetaRecord) :=
  (⟨(callStep clipMs t.fsm call).1, (foldCall clipMs t call).1⟩, (foldCall clipMs t call).2)

/-- The records folded into each clip of a run, clip by clip. -/
def foldedGroups (clipMs : Int) (t : Traced) (calls : List FsmCall) : List (List SmMetaRecord) :=
  (Mealy.run (tracedStep clipMs) t calls).2.flatten

def tagsOf (records : List SmMetaRecord) : List Bytes :=
  records.flatMap fun rec => rec.events.items

/-- No more distinct tags than an event set holds. -/
def FewTags (records : List SmMetaRecord) : Prop :=
  (tagsOf records).dedup.length ≤ smEventMaxItems

instance : DecidablePred FewTags := fun _ => Nat.decLe _ _

/-- Clip and record share a byte. -/
def Overlaps (clip : SmClipRecord) (rec : SmMetaRecord) : Prop :=
  ∃ position ∈ clipBytes clip, position ∈ recordBytes rec

instance (clip : SmClipRecord) (rec : SmMetaRecord) : Decidable (Overlaps clip rec) :=
  inferInstanceAs (Decidable (∃ position ∈ clipBytes clip, position ∈ recordBytes rec))

/-- Every tag of the record is in a clip that holds bytes of the record. -/
def Attributed (clips : List SmClipRecord) (rec : SmMetaRecord) : Prop :=
  ∀ tag ∈ rec.events.items, ∃ clip ∈ clips, tag ∈ clip.events.items ∧ Overlaps clip rec

instance (clips : List SmClipRecord) (rec : SmMetaRecord) : Decidable (Attributed clips rec) :=
  inferInstanceAs (Decidable (∀ tag ∈ rec.events.items, ∃ clip ∈ clips, _))

/-- Whenever a record completes a window, every record with tags that was folded into it, this
one included, begins in front of the cut. -/
def CutBehindTagged (clipMs : Int) (t : Traced) : FsmCall → Prop
  | .record rec _ =>
      recordBranch clipMs t.fsm rec = .extend → 0 < windowBytes clipMs t.fsm →
        windowBytes clipMs t.fsm ≤ u64Add t.fsm.totalLength rec.length →
        ∀ r ∈ t.folded ++ [rec], r.events.items ≠ [] →
          r.offset < t.fsm.startOffset + windowBytes clipMs t.fsm
  | .idle _ _ | .flush => True

instance (clipMs : Int) (t : Traced) : (call : FsmCall) → Decidable (CutBehindTagged clipMs t call)
  | .record rec _ => inferInstanceAs (Decidable (_ → _ → _ → ∀ r ∈ t.folded ++ [rec], _))
  | .idle _ _ | .flush => isTrue trivial

theorem mem_addTags (dst : SmEventSet) {tags : List Bytes} (fit : ∀ tag ∈ tags, TagFits tag)
    (few : (dst.items ++ tags).toFinset.card ≤ smEventMaxItems) (tag : Bytes) :
    tag ∈ (addTags dst tags).1.items ↔ tag ∈ dst.items ∨ tag ∈ tags := by
  have merged : (addTags dst tags).1.items = firstDistinct smEventMaxItems (dst.items ++ tags) := by
    rw [addTags_items dst fit, firstDistinct_append,
      firstDistinct_of_nodup dst.distinct dst.bounded]
  rw [merged, mem_firstDistinct few, List.mem_append]

/-- The events of the state are the tags of the folded records. -/
def TagsKept (t : Traced) : Prop := ∀ tag, tag ∈ t.fsm.events.items ↔ tag ∈ tagsOf t.folded

/-- Every folded record has its bytes in the pending window or in front of it, not all of them
in front. -/
structure Located (t : Traced) : Prop where
  tiled : Tiled t.fsm
  inactive : t.fsm.active = false → t.folded = []
  ends : ∀ r ∈ t.folded, 0 < r.length ∧ t.fsm.startOffset < r.offset + r.length ∧
    r.offset + r.length ≤ t.fsm.startOffset + t.fsm.totalLength

theorem overlaps_of {clip : SmClipRecord} {rec : SmMetaRecord} (payload : 0 < rec.length)
    (holds : 0 < clip.totalLength) (front : rec.offset < clip.startOffset + clip.totalLength)
    (back : clip.startOffset < rec.offset + rec.length) : Overlaps clip rec := by
  refine ⟨max clip.startOffset rec.offset, ?_, ?_⟩
  · rw [clipBytes, byteRange, List.mem_range'_1]
    omega
  · rw [recordBytes, byteRange, List.mem_range'_1]
    omega

private theorem tags_of_mem {records : List SmMetaRecord} {rec : SmMetaRecord} {tag : Bytes}
    (mem : rec ∈ records) (tagged : tag ∈ rec.events.items) : tag ∈ tagsOf records :=
  List.mem_flatMap.mpr ⟨rec, mem, tagged⟩

private theorem FewTags.of_subset {few many : List SmMetaRecord} (h : FewTags many)
    (subset : ∀ r ∈ few, r ∈ many) : FewTags few := by
  have inside : (tagsOf few).toFinset ⊆ (tagsOf many).toFinset := by
    intro tag mem
    rw [List.mem_toFinset] at mem ⊢
    obtain ⟨r, folded, tagged⟩ := List.mem_flatMap.mp mem
    exact tags_of_mem (subset r folded) tagged
  have counted := Finset.card_le_card inside
  rw [List.card_toFinset, List.card_toFinset] at counted
  exact le_trans counted h

theorem appendRecord_tags {t : Traced} {rec : SmMetaRecord} (tags : TagsKept t)
    (few : FewTags (t.folded ++ [rec])) (nowMs : Int) :
    TagsKept ⟨appendRecord t.fsm rec nowMs, t.folded ++ [rec]⟩ := by
  have union : (t.fsm.events.items ++ rec.events.items).toFinset =
      (tagsOf (t.folded ++ [rec])).toFinset := by
    ext tag
    simp only [List.toFinset_append, Finset.mem_union, List.mem_toFinset, tags tag, tagsOf,
      List.flatMap_append, List.flatMap_cons, List.flatMap_nil, List.append_nil]
  intro tag
  have merged := mem_addTags t.fsm.events rec.events.fits
    (by rw [union, List.card_toFinset]; exact few) tag
  apply merged.trans
  simp only [tags tag, tagsOf, List.flatMap_append, List.flatMap_cons, List.flatMap_nil,
    List.append_nil, List.mem_append]

private theorem startClip_tags (rec : SmMetaRecord) (nowMs : Int) :
    TagsKept ⟨startClip rec nowMs, [rec]⟩ := by
  intro tag
  simp [startClip, tagsOf]

theorem startClip_located {rec : SmMetaRecord} (payload : Payload rec) (nowMs : Int) :
    Located ⟨startClip rec nowMs, [rec]⟩ where
  tiled := startClip_tiled payload.1.2 nowMs
  inactive := fun h => by simp [startClip] at h
  ends := by
    intro r mem
    rw [List.mem_singleton.mp mem]
    have := payload.2
    simp only [startClip]
    omega

theorem appendRecord_located {t : Traced} {rec : SmMetaRecord} (located : Located t)
    (payload : Payload rec) (active : t.fsm.active = true)
    (offset : rec.offset = t.fsm.expectedOffset) (nowMs : Int) :
    Located ⟨appendRecord t.fsm rec nowMs, t.folded ++ [rec]⟩ := by
  have length := appendRecord_length located.tiled active payload.1.2 offset nowMs
  obtain ⟨ends, _⟩ := located.tiled active
  refine ⟨appendRecord_tiled located.tiled active payload.1.2 offset nowMs, ?_, ?_⟩
  · intro idle
    have still : t.fsm.active = false := idle
    simp [active] at still
  · intro r mem
    have start : (appendRecord t.fsm rec nowMs).startOffset = t.fsm.startOffset := rfl
    simp only [start, length]
    have := payload.2
    rcases List.mem_append.mp mem with old | new
    · have := located.ends r old
      omega
    · rw [List.mem_singleton.mp new]
      omega

section Window

variable {clipMs : Int} {t : Traced}

theorem window_located (located : Located t) :
    Located ⟨(maybeEmitContinuousWindow t.fsm clipMs).1,
      (windowFolded clipMs t.fsm t.folded).1⟩ := by
  by_cases full : Full clipMs t.fsm
  · have tiled : Tiled (maybeEmitContinuousWindow t.fsm clipMs).1 := by
      by_cases active : t.fsm.active = true
      · exact (window_conserves located.tiled active (maybeEmit_step t.fsm clipMs)).1
      · intro still
        rw [maybeEmit_full full] at still
        exact absurd still active
    rw [windowFolded, if_pos full]
    exact ⟨tiled, fun _ => rfl, by simp⟩
  · rw [windowFolded, if_neg full, maybeEmit_short full]
    exact located

theorem window_tags (tags : TagsKept t) :
    TagsKept ⟨(maybeEmitContinuousWindow t.fsm clipMs).1,
      (windowFolded clipMs t.fsm t.folded).1⟩ := by
  by_cases full : Full clipMs t.fsm
  · rw [windowFolded, if_pos full, maybeEmit_full full]
    intro tag
    simp [cutContinuousWindow, tagsOf]
  · rw [windowFolded, if_neg full, maybeEmit_short full]
    exact tags

theorem window_serves (located : Located t) (tags : TagsKept t)
    (front : Full clipMs t.fsm → ∀ r ∈ t.folded, r.events.items ≠ [] →
      r.offset < t.fsm.startOffset + windowBytes clipMs t.fsm) :
    ∀ r ∈ t.folded, Attributed (clipsOf (maybeEmitContinuousWindow t.fsm clipMs).2) r ∨
      r ∈ (windowFolded clipMs t.fsm t.folded).1 := by
  intro r folded
  by_cases full : Full clipMs t.fsm
  · left
    intro tag tagged
    obtain ⟨payload, back, _⟩ := located.ends r folded
    have before := front full r folded (List.ne_nil_of_mem tagged)
    refine ⟨snapshotContinuousClip t.fsm clipMs (windowBytes clipMs t.fsm), ?_, ?_, ?_⟩
    · simp [maybeEmit_full full, clipsOf]
    · exact (tags tag).mpr (tags_of_mem folded tagged)
    · exact overlaps_of payload full.2.1 before back
  · right
    rw [windowFolded, if_neg full]
    exact folded

theorem snapshot_serves (located : Located t) (tags : TagsKept t) :
    ∀ r ∈ t.folded, Attributed [snapshotClip t.fsm] r := by
  intro r folded tag tagged
  obtain ⟨payload, back, front⟩ := located.ends r folded
  refine ⟨snapshotClip t.fsm, List.mem_singleton_self _, ?_, ?_⟩
  · exact (tags tag).mpr (tags_of_mem folded tagged)
  · apply overlaps_of payload
    · simp only [snapshotClip]
      omega
    · simp only [snapshotClip]
      omega
    · exact back

theorem folded_of_empty (located : Located t)
    (empty : t.fsm.active = true → t.fsm.totalLength = 0) : t.folded = [] := by
  by_cases active : t.fsm.active = true
  · rw [List.eq_nil_iff_forall_not_mem]
    intro r folded
    have ends := located.ends r folded
    have none := empty active
    omega
  · exact located.inactive (by simpa using active)

end Window

theorem drain_folds (clipMs : Int) (t : Traced) (call : FsmCall)
    (drain : ∀ rec nowMs, call ≠ .record rec nowMs) :
    tracedStep clipMs t call = (t, []) ∧ (callStep clipMs t.fsm call).2 = .none ∨
      (tracedStep clipMs t call = (⟨smFsmReset, []⟩, [t.folded]) ∧
        clipsOf (callStep clipMs t.fsm call).2 = [snapshotClip t.fsm]) := by
  have folds : foldCall clipMs t call =
      if (callStep clipMs t.fsm call).2 = .none then (t.folded, []) else ([], [t.folded]) := by
    rcases FsmCall.idle_or_flush drain with ⟨_, _, rfl⟩ | rfl <;> rfl
  rcases drain_answers clipMs t.fsm call drain with kept | ⟨emitted, reset, clips⟩
  · left
    simp [tracedStep, folds, kept]
  · right
    refine ⟨?_, clips⟩
    simp [tracedStep, folds, emitted, reset]

private theorem reset_located : Located ⟨smFsmReset, []⟩ where
  tiled := fun active => by simp [smFsmReset] at active
  inactive := fun _ => rfl
  ends := by simp

private theorem reset_tags : TagsKept ⟨smFsmReset, []⟩ := by
  intro tag
  simp [smFsmReset, tagsOf]

private theorem tracedStep_record (clipMs nowMs : Int) (t : Traced) (rec : SmMetaRecord) :
    tracedStep clipMs t (.record rec nowMs) =
      (⟨(branchStep clipMs nowMs t.fsm rec (recordBranch clipMs t.fsm rec)).1,
        (foldRecord clipMs nowMs t rec (recordBranch clipMs t.fsm rec)).1⟩,
        (foldRecord clipMs nowMs t rec (recordBranch clipMs t.fsm rec)).2) := by
  rw [tracedStep, callStep, processRecord_branch, foldCall]

private theorem drain_located (clipMs : Int) {t : Traced} {call : FsmCall} (located : Located t)
    (drain : ∀ rec nowMs, call ≠ .record rec nowMs) : Located (tracedStep clipMs t call).1 := by
  rcases drain_folds clipMs t call drain with kept | drained
  · rw [kept.1]
    exact located
  · rw [drained.1]
    exact reset_located

theorem step_located (clipMs : Int) {t : Traced} {call : FsmCall} (located : Located t)
    (payload : call.Satisfies Payload) : Located (tracedStep clipMs t call).1 := by
  cases call with
  | record rec nowMs =>
      have taken := recordBranch_takes clipMs t.fsm rec
      rw [tracedStep_record]
      generalize recordBranch clipMs t.fsm rec = branch at taken ⊢
      cases taken with
      | ignore invalid => exact located
      | restart empty => exact window_located (startClip_located payload nowMs)
      | late => exact located
      | gap active pending => exact startClip_located payload nowMs
      | extend active offset compatible =>
          exact window_located (appendRecord_located located payload active offset nowMs)
      | boundary active offset => exact startClip_located payload nowMs
      | append active offset => exact appendRecord_located located payload active offset nowMs
  | idle idleMs nowMs => exact drain_located clipMs located (by simp)
  | flush => exact drain_located clipMs located (by simp)

private theorem window_moves {clipMs : Int} {fsm : SmFsm} {old folded : List SmMetaRecord}
    (grown : ∀ r ∈ old, r ∈ folded) :
    (∀ r ∈ old, r ∈ (windowFolded clipMs fsm folded).1) ∨
      ∃ group ∈ (windowFolded clipMs fsm folded).2, ∀ r ∈ old, r ∈ group := by
  by_cases full : Full clipMs fsm
  · right
    rw [windowFolded, if_pos full]
    exact ⟨folded, List.mem_singleton_self _, grown⟩
  · left
    rw [windowFolded, if_neg full]
    exact grown

private theorem drain_moves (clipMs : Int) (t : Traced) {call : FsmCall}
    (drain : ∀ rec nowMs, call ≠ .record rec nowMs) :
    (∀ r ∈ t.folded, r ∈ (tracedStep clipMs t call).1.folded) ∨
      ∃ group ∈ (tracedStep clipMs t call).2, ∀ r ∈ t.folded, r ∈ group := by
  rcases drain_folds clipMs t call drain with kept | drained
  · rw [kept.1]
    exact .inl fun _ folded => folded
  · rw [drained.1]
    exact .inr ⟨t.folded, List.mem_singleton_self _, fun _ folded => folded⟩

theorem step_moves (clipMs : Int) {t : Traced} (call : FsmCall) (located : Located t) :
    (∀ r ∈ t.folded, r ∈ (tracedStep clipMs t call).1.folded) ∨
      ∃ group ∈ (tracedStep clipMs t call).2, ∀ r ∈ t.folded, r ∈ group := by
  cases call with
  | record rec nowMs =>
      have taken := recordBranch_takes clipMs t.fsm rec
      rw [tracedStep_record]
      generalize recordBranch clipMs t.fsm rec = branch at taken ⊢
      cases taken with
      | ignore invalid => exact .inl fun _ folded => folded
      | restart empty =>
          left
          simp [folded_of_empty located empty]
      | late => exact .inl fun _ folded => folded
      | gap active pending =>
          exact .inr ⟨t.folded, List.mem_singleton_self _, fun _ folded => folded⟩
      | extend active offset compatible =>
          exact window_moves fun r folded => List.mem_append_left [rec] folded
      | boundary active offset =>
          exact .inr ⟨t.folded, List.mem_singleton_self _, fun _ folded => folded⟩
      | append active offset => exact .inl fun r folded => List.mem_append_left [rec] folded
  | idle idleMs nowMs => exact drain_moves clipMs t (by simp)
  | flush => exact drain_moves clipMs t (by simp)

private theorem foldedGroups_cons (clipMs : Int) (t : Traced) (call : FsmCall)
    (calls : List FsmCall) :
    foldedGroups clipMs t (call :: calls) =
      (tracedStep clipMs t call).2 ++ foldedGroups clipMs (tracedStep clipMs t call).1 calls := by
  simp only [foldedGroups, Mealy.run_cons, List.flatten_cons]

theorem folded_reaches_group {clipMs : Int} {t : Traced} (calls : List FsmCall)
    (payload : ∀ call ∈ calls, call.Satisfies Payload) (located : Located t)
    (pending : t.folded ≠ []) :
    ∃ group ∈ foldedGroups clipMs t (calls ++ [.flush]), ∀ r ∈ t.folded, r ∈ group := by
  induction calls generalizing t with
  | nil =>
      obtain ⟨r, folded⟩ := List.exists_mem_of_ne_nil _ pending
      have ends := located.ends r folded
      have active : t.fsm.active = true := by
        by_contra idle
        exact pending (located.inactive (by simpa using idle))
      have emits : (callStep clipMs t.fsm .flush).2 ≠ .none := by
        rw [callStep, smFsmFlushFinal, if_neg (by simp [active]; omega)]
        simp
      rcases drain_folds clipMs t .flush (by simp) with kept | drained
      · exact absurd kept.2 emits
      · rw [List.nil_append, foldedGroups_cons, drained.1]
        exact ⟨t.folded, List.mem_append_left _ (List.mem_singleton_self _), fun _ h => h⟩
  | cons call calls ih =>
      rw [List.cons_append, foldedGroups_cons]
      rcases step_moves clipMs call located with stays | ⟨group, here, all⟩
      · have next := step_located clipMs located (payload call List.mem_cons_self)
        obtain ⟨r, folded⟩ := List.exists_mem_of_ne_nil _ pending
        obtain ⟨group, later, all⟩ := ih (fun c hc => payload c (List.mem_cons_of_mem call hc))
          next (List.ne_nil_of_mem (stays r folded))
        exact ⟨group, List.mem_append_right _ later, fun r' h => all r' (stays r' h)⟩
      · exact ⟨group, List.mem_append_left _ here, all⟩

private theorem merged_few {clipMs nowMs : Int} {t : Traced} {rec : SmMetaRecord}
    (calls : List FsmCall) (located : Located t)
    (payload : ∀ call ∈ FsmCall.record rec nowMs :: calls, call.Satisfies Payload)
    (few : ∀ group ∈ foldedGroups clipMs t (.record rec nowMs :: (calls ++ [.flush])),
      FewTags group)
    (merges : recordBranch clipMs t.fsm rec = .extend ∨ recordBranch clipMs t.fsm rec = .append) :
    FewTags (t.folded ++ [rec]) := by
  have next := step_located clipMs located (payload _ List.mem_cons_self)
  have later := fun c hc => payload c (List.mem_cons_of_mem _ hc)
  have stays : (tracedStep clipMs t (.record rec nowMs)).1.folded = t.folded ++ [rec] →
      FewTags (t.folded ++ [rec]) := by
    intro same
    have pending : (tracedStep clipMs t (.record rec nowMs)).1.folded ≠ [] := by
      rw [same]
      simp
    obtain ⟨group, mem, all⟩ := folded_reaches_group calls later next pending
    rw [same] at all
    rw [foldedGroups_cons] at few
    exact (few group (List.mem_append_right _ mem)).of_subset all
  rcases merges with extend | append
  · by_cases full : Full clipMs (appendRecord t.fsm rec nowMs)
    · apply few
      rw [foldedGroups_cons, tracedStep_record, extend]
      simp [foldRecord, windowFolded, full]
    · apply stays
      rw [tracedStep_record, extend]
      simp [foldRecord, windowFolded, full]
  · apply stays
    rw [tracedStep_record, append]
    rfl

private theorem acceptedBy_eq {rec r : SmMetaRecord} {nowMs : Int} {action : SmFsmAction}
    (mem : r ∈ acceptedBy (.record rec nowMs, action)) : r = rec ∧ action ≠ .rejectLate := by
  rw [acceptedBy] at mem
  split_ifs at mem with taken
  · exact ⟨List.mem_singleton.mp mem, taken.2⟩
  · simp at mem

/-- One call serves what was folded and what it accepts, or keeps it folded. -/
theorem record_serves {clipMs nowMs : Int} {t : Traced} {rec : SmMetaRecord} (located : Located t)
    (tags : TagsKept t) (payload : Payload rec)
    (few : recordBranch clipMs t.fsm rec = .extend ∨ recordBranch clipMs t.fsm rec = .append →
      FewTags (t.folded ++ [rec]))
    (front : CutBehindTagged clipMs t (.record rec nowMs)) :
    TagsKept (tracedStep clipMs t (.record rec nowMs)).1 ∧
      ∀ r, r ∈ t.folded ∨ r ∈ acceptedBy (.record rec nowMs,
          (callStep clipMs t.fsm (.record rec nowMs)).2) →
        Attributed (clipsOf (callStep clipMs t.fsm (.record rec nowMs)).2) r ∨
          r ∈ (tracedStep clipMs t (.record rec nowMs)).1.folded := by
  have taken := recordBranch_takes clipMs t.fsm rec
  rw [CutBehindTagged] at front
  rw [tracedStep_record, callStep, processRecord_branch]
  generalize recordBranch clipMs t.fsm rec = branch at taken few front ⊢
  cases taken with
  | ignore invalid => exact absurd payload.1.1 (by simp [invalid])
  | restart empty =>
      have opened := startClip_located payload nowMs
      have kept := startClip_tags rec nowMs
      refine ⟨window_tags kept, fun r mem => ?_⟩
      -- the cut lies behind the start of the record itself
      apply window_serves opened kept
      · intro full r' folded _
        rw [List.mem_singleton.mp folded]
        exact Nat.lt_add_of_pos_right full.2.1
      · rcases mem with folded | fresh
        · simp [folded_of_empty located empty] at folded
        · rw [(acceptedBy_eq fresh).1]
          exact List.mem_singleton_self rec
  | late =>
      refine ⟨tags, fun r mem => ?_⟩
      rcases mem with folded | fresh
      · exact .inr folded
      · exact absurd rfl (acceptedBy_eq fresh).2
  | gap active pending =>
      refine ⟨startClip_tags rec nowMs, fun r mem => ?_⟩
      rcases mem with folded | fresh
      · exact .inl (snapshot_serves located tags r folded)
      · exact .inr (List.mem_singleton.mpr (acceptedBy_eq fresh).1)
  | extend active offset compatible =>
      have grown := appendRecord_located located payload active offset nowMs
      have kept := appendRecord_tags tags (few (.inl rfl)) nowMs
      refine ⟨window_tags kept, fun r mem => ?_⟩
      apply window_serves grown kept
      · intro full
        exact front rfl full.2.1 full.2.2
      · rcases mem with folded | fresh
        · exact List.mem_append_left [rec] folded
        · rw [(acceptedBy_eq fresh).1]
          exact List.mem_append_right t.folded (List.mem_singleton_self rec)
  | boundary active offset =>
      refine ⟨startClip_tags rec nowMs, fun r mem => ?_⟩
      rcases mem with folded | fresh
      · exact .inl (snapshot_serves located tags r folded)
      · exact .inr (List.mem_singleton.mpr (acceptedBy_eq fresh).1)
  | append active offset =>
      refine ⟨appendRecord_tags tags (few (.inr rfl)) nowMs, fun r mem => ?_⟩
      right
      rcases mem with folded | fresh
      · exact List.mem_append_left [rec] folded
      · rw [(acceptedBy_eq fresh).1]
        exact List.mem_append_right t.folded (List.mem_singleton_self rec)

private theorem drain_serves (clipMs : Int) {t : Traced} {call : FsmCall} (located : Located t)
    (tags : TagsKept t) (drain : ∀ rec nowMs, call ≠ .record rec nowMs) :
    TagsKept (tracedStep clipMs t call).1 ∧
      ∀ r, r ∈ t.folded ∨ r ∈ acceptedBy (call, (callStep clipMs t.fsm call).2) →
        Attributed (clipsOf (callStep clipMs t.fsm call).2) r ∨
          r ∈ (tracedStep clipMs t call).1.folded := by
  have nothing : acceptedBy (call, (callStep clipMs t.fsm call).2) = [] := by
    rcases FsmCall.idle_or_flush drain with ⟨_, _, rfl⟩ | rfl <;> rfl
  rcases drain_folds clipMs t call drain with kept | ⟨stepped, clips⟩
  · rw [kept.1, nothing]
    refine ⟨tags, fun r mem => .inr ?_⟩
    simpa using mem
  · rw [stepped, clips, nothing]
    refine ⟨reset_tags, fun r mem => .inl ?_⟩
    exact snapshot_serves located tags r (by simpa using mem)

private theorem clipsOfRun_cons (clipMs : Int) (fsm : SmFsm) (call : FsmCall)
    (calls : List FsmCall) :
    clipsOfRun clipMs fsm (call :: calls) =
      clipsOf (callStep clipMs fsm call).2 ++
        clipsOfRun clipMs (callStep clipMs fsm call).1 calls := by
  simp only [clipsOfRun, callRun, Mealy.run_cons, emittedClips, List.flatMap_cons]

private theorem flush_empties (clipMs : Int) {t : Traced} (located : Located t) :
    (tracedStep clipMs t .flush).1.folded = [] := by
  have drained := (flushFinal_step t.fsm).2
  rcases drain_folds clipMs t .flush (by simp) with kept | handed
  · have same : (smFsmFlushFinal t.fsm).1 = t.fsm :=
      congrArg (fun step => step.1.fsm) kept.1
    rw [same] at drained
    rw [kept.1]
    apply folded_of_empty located
    intro active
    exact drained.resolve_left (by simp [active])
  · rw [handed.1]

private theorem acceptedInRun_cons (clipMs : Int) (fsm : SmFsm) (call : FsmCall)
    (calls : List FsmCall) :
    acceptedInRun clipMs fsm (call :: calls) =
      acceptedBy (call, (callStep clipMs fsm call).2) ++
        acceptedInRun clipMs (callStep clipMs fsm call).1 calls := by
  simp only [acceptedInRun, callRun, Mealy.run_cons, List.zip_cons_cons, List.flatMap_cons]

private theorem Attributed.mono {clips all : List SmClipRecord} {rec : SmMetaRecord}
    (served : Attributed clips rec) (subset : ∀ clip ∈ clips, clip ∈ all) :
    Attributed all rec := by
  intro tag tagged
  obtain ⟨clip, emitted, holds, overlaps⟩ := served tag tagged
  exact ⟨clip, subset clip emitted, holds, overlaps⟩

/-- From any state, what is folded and what is accepted later is served by the clips to come.
The induction is on the calls. -/
theorem run_attributes {clipMs : Int} {t : Traced} (calls : List FsmCall)
    (payload : ∀ call ∈ calls, call.Satisfies Payload)
    (few : ∀ group ∈ foldedGroups clipMs t (calls ++ [.flush]), FewTags group)
    (front : Mealy.Along (tracedStep clipMs) (CutBehindTagged clipMs) t calls)
    (located : Located t) (tags : TagsKept t) :
    ∀ r, r ∈ t.folded ∨ r ∈ acceptedInRun clipMs t.fsm calls →
      Attributed (clipsOfRun clipMs t.fsm (calls ++ [.flush])) r := by
  induction calls generalizing t with
  | nil =>
      intro r mem
      have folded : r ∈ t.folded := by simpa [acceptedInRun, callRun] using mem
      have emptied := flush_empties clipMs located
      have flush : ∀ rec nowMs, FsmCall.flush ≠ .record rec nowMs := by simp
      have served := (drain_serves clipMs located tags flush).2 r (.inl folded)
      rw [emptied] at served
      rw [List.nil_append, clipsOfRun_cons]
      exact (served.resolve_right (by simp)).mono fun clip emitted =>
        List.mem_append_left _ emitted
  | cons call calls ih =>
      intro r mem
      have here := payload call List.mem_cons_self
      have later := fun c hc => payload c (List.mem_cons_of_mem call hc)
      have served : TagsKept (tracedStep clipMs t call).1 ∧
          ∀ r, r ∈ t.folded ∨ r ∈ acceptedBy (call, (callStep clipMs t.fsm call).2) →
            Attributed (clipsOf (callStep clipMs t.fsm call).2) r ∨
              r ∈ (tracedStep clipMs t call).1.folded := by
        cases call with
        | record rec nowMs =>
            exact record_serves located tags here (merged_few calls located payload few) front.1
        | idle idleMs nowMs => exact drain_serves clipMs located tags (by simp)
        | flush => exact drain_serves clipMs located tags (by simp)
      have fewLater : ∀ group ∈ foldedGroups clipMs (tracedStep clipMs t call).1
          (calls ++ [.flush]), FewTags group := by
        intro group mem
        apply few
        rw [List.cons_append, foldedGroups_cons]
        exact List.mem_append_right _ mem
      have rest := ih later fewLater front.2 (step_located clipMs located here) served.1
      rw [acceptedInRun_cons, List.mem_append] at mem
      rw [List.cons_append, clipsOfRun_cons]
      have fromLater := fun r' (held : r' ∈ (tracedStep clipMs t call).1.folded ∨
          r' ∈ acceptedInRun clipMs (callStep clipMs t.fsm call).1 calls) =>
        (rest r' held).mono fun clip emitted => List.mem_append_right
          (clipsOf (callStep clipMs t.fsm call).2) emitted
      have settle : r ∈ t.folded ∨ r ∈ acceptedBy (call, (callStep clipMs t.fsm call).2) →
          Attributed (clipsOf (callStep clipMs t.fsm call).2 ++
            clipsOfRun clipMs (callStep clipMs t.fsm call).1 (calls ++ [.flush])) r := by
        intro now
        rcases served.2 r now with done | folded
        · exact done.mono fun clip emitted => List.mem_append_left _ emitted
        · exact fromLater r (.inl folded)
      rcases mem with folded | now | afterwards
      · exact settle (.inl folded)
      · exact settle (.inr now)
      · exact fromLater r (.inr afterwards)

/-- If every cut lies behind the start of all tagged records that were folded into the window,
every tag of an accepted record is in a clip that holds bytes of the record. -/
theorem events_attributed (clipMs : Int) (calls : List FsmCall)
    (payload : ∀ call ∈ calls, call.Satisfies Payload)
    (few : ∀ group ∈ foldedGroups clipMs ⟨smFsmReset, []⟩ (calls ++ [.flush]), FewTags group)
    (front : Mealy.Along (tracedStep clipMs) (CutBehindTagged clipMs) ⟨smFsmReset, []⟩ calls) :
    ∀ rec ∈ acceptedInRun clipMs smFsmReset calls,
      Attributed (clipsOfRun clipMs smFsmReset (calls ++ [.flush])) rec :=
  fun rec accepted =>
    run_attributes calls payload few front reset_located reset_tags rec (.inr accepted)

def taggedRecord (rec : SmMetaRecord) (tag : Bytes) : SmMetaRecord :=
  { rec with events := (smEventSetAddTag smEventSetReset tag).getD smEventSetReset }

/-- The second record begins in front of the cut and ends behind it. -/
theorem events_attributed_over_cut :
    (acceptedInRun 1000 smFsmReset
        [.record (taggedRecord (continuousRecord 1 0 3 0 4) (ascii "motion")) 10,
          .record (taggedRecord (continuousRecord 2 3 3 750 4) (ascii "person")) 20,
          .idle 50 100]).map SmMetaRecord.seq = [1, 2] ∧
      ∀ rec ∈ acceptedInRun 1000 smFsmReset
        [.record (taggedRecord (continuousRecord 1 0 3 0 4) (ascii "motion")) 10,
          .record (taggedRecord (continuousRecord 2 3 3 750 4) (ascii "person")) 20, .idle 50 100],
        Attributed (clipsOfRun 1000 smFsmReset
          [.record (taggedRecord (continuousRecord 1 0 3 0 4) (ascii "motion")) 10,
            .record (taggedRecord (continuousRecord 2 3 3 750 4) (ascii "person")) 20,
            .idle 50 100, .flush]) rec :=
  ⟨by decide, events_attributed 1000
    [.record (taggedRecord (continuousRecord 1 0 3 0 4) (ascii "motion")) 10,
      .record (taggedRecord (continuousRecord 2 3 3 750 4) (ascii "person")) 20, .idle 50 100]
    (by decide) (by decide) (by decide)⟩

/-- A record of two windows and a half leaves a backlog of one and a half. The tag of the next
record goes into the clip that is cut from the backlog and is cleared with it. -/
theorem tag_behind_backlog_lost :
    (∀ call ∈ [FsmCall.record (continuousRecord 1 0 10 0 4) 10,
        .record (taggedRecord (continuousRecord 2 10 2 2500 4) (ascii "motion")) 20],
        call.Satisfies Payload) ∧
      (∀ group ∈ foldedGroups 1000 ⟨smFsmReset, []⟩ [.record (continuousRecord 1 0 10 0 4) 10,
        .record (taggedRecord (continuousRecord 2 10 2 2500 4) (ascii "motion")) 20, .flush],
        FewTags group) ∧
      ¬ ∀ rec ∈ acceptedInRun 1000 smFsmReset [.record (continuousRecord 1 0 10 0 4) 10,
          .record (taggedRecord (continuousRecord 2 10 2 2500 4) (ascii "motion")) 20],
        Attributed (clipsOfRun 1000 smFsmReset [.record (continuousRecord 1 0 10 0 4) 10,
          .record (taggedRecord (continuousRecord 2 10 2 2500 4) (ascii "motion")) 20, .flush])
          rec := by
  decide

end StreamDataPipeline.StreamMerge.EventAttribution
