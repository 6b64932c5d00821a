/- What the clips that are cut by byte rate cover, and where they are cut. -/

import StreamDataPipeline.StreamMerge.WindowMembers

set_option autoImplicit false
set_option relaxedAutoImplicit false

namespace StreamDataPipeline.StreamMerge.ContinuousClips

open Foundations Foundations.Word Fsm FsmRun ByteConservation Branches WindowMembers

/-- A clip with the continuous label is a positive number of whole frames, lasts one window and
starts whole frames behind the record that opened the window. -/
def OnFrames (clipMs : Int) (w : Windowed) (call : FsmCall) : Prop :=
  ∀ clip ∈ clipsOf (callStep clipMs w.fsm call).2, clip.boundaryMode = .continuousByteRange →
    ∃ first ∈ (windowedStep clipMs w call).1.members.head?,
      (windowedStep clipMs w call).1.fsm.frameAlign = effectiveAlign first.frameAlign ∧
      0 < clip.totalLength ∧ effectiveAlign first.frameAlign ∣ clip.totalLength ∧
      clip.endTsMs - clip.startTsMs = clipMs ∧
      first.offset ≤ clip.startOffset ∧
      effectiveAlign first.frameAlign ∣ clip.startOffset - first.offset

theorem step_on_frames {clipMs : Int} {w : Windowed} {call : FsmCall} (tracked : Tracked w)
    (validated : call.Satisfies Validated) : OnFrames clipMs w call := by
  intro clip emitted label
  obtain ⟨grown, attempt, full, rfl, stepped⟩ := continuous_clip tracked validated emitted label
  obtain ⟨moves, active, -⟩ := attempted_moves validated attempt
  obtain ⟨first, later, members, on⟩ := (moves.tracked tracked).members active
  refine ⟨first, ?_, ?_, full.2.1, ?_, ?_, on.behind, ?_⟩
  · rw [stepped, members]
    rfl
  · rw [stepped]
    exact on.frameAlign
  · rw [← on.frameAlign]
    exact on.window_frames clipMs
  · simp [snapshotContinuousClip, snapshotClip]
  · rw [← on.frameAlign]
    exact on.frames

/-- Over any number of cuts and appended records, the clips cut by byte rate lie on the frames
of the record that opened their window. -/
theorem continuous_clips_on_frames (clipMs : Int) (calls : List FsmCall)
    (validated : ∀ call ∈ calls, call.Satisfies Validated) :
    Mealy.Along (windowedStep clipMs) (OnFrames clipMs) windowedReset calls := by
  exact Mealy.along_of_invariant (windowedStep clipMs) Tracked
    (fun call => call.Satisfies Validated)
    (fun w call tracked valid => step_on_frames tracked valid)
    (fun w call tracked valid => step_tracked clipMs tracked valid) reset_tracked validated

/-- Frames of four bytes and a window of eight: two cuts out of three records, none of which
ends a window. -/
theorem continuous_clips_on_four_byte_frames :
    Mealy.Along (windowedStep 2000) (OnFrames 2000) windowedReset
      [.record { continuousRecord 1 3 5 0 5 with frameAlign := 4 } 10,
        .record { continuousRecord 2 8 6 100 5 with frameAlign := 4 } 20, .idle 50 30,
        .record { continuousRecord 3 14 7 200 5 with frameAlign := 4 } 40] :=
  continuous_clips_on_frames 2000 _ (by decide)

/-- The record brings bytes of the continuous stream that the window collects. -/
def SameStream (fsm : SmFsm) (rec : SmMetaRecord) : Prop :=
  rec.continuous = true ∧ rec.byteRate = fsm.byteRate ∧
    effectiveAlign rec.frameAlign = fsm.frameAlign

instance (fsm : SmFsm) (rec : SmMetaRecord) : Decidable (SameStream fsm rec) := instDecidableAnd

/-- A clip with the continuous label has the length of one window, and every byte of it is a
byte of a member of the window that belongs to the stream of that rate and alignment. -/
def CoversStream (clipMs : Int) (w : Windowed) (call : FsmCall) : Prop :=
  ∀ clip ∈ clipsOf (callStep clipMs w.fsm call).2, clip.boundaryMode = .continuousByteRange →
    clip.totalLength = windowBytes clipMs (windowedStep clipMs w call).1.fsm ∧
    ∀ position ∈ clipBytes clip, ∃ rec ∈ (windowedStep clipMs w call).1.members,
      position ∈ recordBytes rec ∧ SameStream (windowedStep clipMs w call).1.fsm rec

instance (clipMs : Int) (w : Windowed) (call : FsmCall) : Decidable (CoversStream clipMs w call) :=
  inferInstanceAs (Decidable (∀ clip ∈ clipsOf _, _ → _ ∧ ∀ position ∈ clipBytes clip,
    ∃ rec ∈ (windowedStep clipMs w call).1.members, _))

/-- A record with bytes of another stream, or of none. -/
def Foreign (fsm : SmFsm) (rec : SmMetaRecord) : Prop := 0 < rec.length ∧ ¬ SameStream fsm rec

instance (fsm : SmFsm) (rec : SmMetaRecord) : Decidable (Foreign fsm rec) := instDecidableAnd

/-- Whenever a record completes a window, the foreign records that were merged into it begin
at or behind the cut. -/
def CutBeforeForeign (clipMs : Int) (w : Windowed) : FsmCall → Prop
  | .record rec _ =>
      recordBranch clipMs w.fsm rec = .extend → 0 < windowBytes clipMs w.fsm →
        windowBytes clipMs w.fsm ≤ u64Add w.fsm.totalLength rec.length →
        ∀ r ∈ w.members, Foreign w.fsm r → w.fsm.startOffset + windowBytes clipMs w.fsm ≤ r.offset
  | .idle _ _ | .flush => True

instance (clipMs : Int) (w : Windowed) :
    (call : FsmCall) → Decidable (CutBeforeForeign clipMs w call)
  | .record _ _ => inferInstanceAs (Decidable (_ → _ → _ → ∀ r ∈ w.members, _))
  | .idle _ _ | .flush => isTrue trivial

/-- No foreign record has bytes in front of the window. -/
structure Unmixed (w : Windowed) : Prop where
  tracked : Tracked w
  ahead : ∀ r ∈ w.members, Foreign w.fsm r → w.fsm.startOffset ≤ r.offset

theorem sameStream_of_compatible {fsm : SmFsm} {rec : SmMetaRecord}
    (compatible : continuousCompatible fsm rec = true) : SameStream fsm rec := by
  simp only [continuousCompatible, Bool.and_eq_true, beq_iff_eq] at compatible
  exact ⟨compatible.1.1.2, compatible.1.2.symm, compatible.2.symm⟩

/-- A cut off a window that has no foreign bytes in front covers the stream exactly when it
ends before the foreign members. -/
theorem cut_covers_iff {clipMs : Int} {w : Windowed} (unmixed : Unmixed w)
    (active : w.fsm.active = true) (full : Full clipMs w.fsm) :
    (∀ position ∈ clipBytes (snapshotContinuousClip w.fsm clipMs (windowBytes clipMs w.fsm)),
        ∃ rec ∈ w.members, position ∈ recordBytes rec ∧ SameStream w.fsm rec) ↔
      ∀ r ∈ w.members, Foreign w.fsm r →
        w.fsm.startOffset + windowBytes clipMs w.fsm ≤ r.offset := by
  obtain ⟨first, later, members, on⟩ := unmixed.tracked.members active
  obtain ⟨ends, -⟩ := unmixed.tracked.tiled active
  have reached := full.2.2
  have clip_mem : ∀ position,
      position ∈ clipBytes (snapshotContinuousClip w.fsm clipMs (windowBytes clipMs w.fsm)) ↔
        w.fsm.startOffset ≤ position ∧
          position < w.fsm.startOffset + windowBytes clipMs w.fsm := by
    intro position
    simp only [clipBytes, byteRange, snapshotContinuousClip, snapshotClip, List.mem_range'_1]
  constructor
  · intro covers r mem foreign
    by_contra inside
    -- the first byte of the foreign record lies in the clip
    have ahead := unmixed.ahead r mem foreign
    have own : r.offset ∈ recordBytes r := mem_recordBytes.mpr ⟨le_refl _, by
      have := foreign.1
      omega⟩
    obtain ⟨rec, member, here, same⟩ := covers r.offset ((clip_mem _).mpr ⟨ahead, by omega⟩)
    rw [members] at mem member
    exact foreign.2 (on.record_of_byte member mem here own ▸ same)
  · intro before position inClip
    obtain ⟨low, high⟩ := (clip_mem position).mp inClip
    obtain ⟨rec, member, here⟩ := on.record_at ends low (by omega)
    rw [← members] at member
    refine ⟨rec, member, here, ?_⟩
    by_contra other
    obtain ⟨start, stop⟩ := mem_recordBytes.mp here
    have behind := before rec member ⟨by omega, other⟩
    omega

theorem cutBeforeForeign_iff (clipMs : Int) (w : Windowed) (call : FsmCall) :
    CutBeforeForeign clipMs w call ↔
      ∀ grown, attempted clipMs w call = some grown → Full clipMs grown.fsm →
        ∀ r ∈ grown.members, Foreign grown.fsm r →
          grown.fsm.startOffset + windowBytes clipMs grown.fsm ≤ r.offset := by
  cases call with
  | idle idleMs nowMs => simp [CutBeforeForeign, attempted]
  | flush => simp [CutBeforeForeign, attempted]
  | record rec nowMs =>
      have taken := recordBranch_takes clipMs w.fsm rec
      simp only [CutBeforeForeign, attempted]
      generalize recordBranch clipMs w.fsm rec = branch at taken ⊢
      cases taken with
      | restart empty =>
          -- a window that opens with a continuous record holds bytes of its stream only
          refine iff_of_true (by simp) ?_
          rintro grown ⟨⟩ full r mem foreign
          rw [List.mem_singleton.mp mem] at foreign
          exact absurd ⟨full.1, rfl, rfl⟩ foreign.2
      | extend active offset compatible =>
          have own : SameStream w.fsm rec := sameStream_of_compatible compatible
          constructor
          · rintro before grown ⟨⟩ full r mem foreign
            rcases List.mem_append.mp mem with old | new
            · exact before rfl full.2.1 full.2.2 r old foreign
            · rw [List.mem_singleton.mp new] at foreign
              exact absurd own foreign.2
          · intro before _ positive reached r mem foreign
            exact before _ rfl ⟨continuous_of_compatible compatible, positive, reached⟩ r
              (List.mem_append_left [rec] mem) foreign
      | ignore invalid => simp
      | late => simp
      | gap active pending => simp
      | boundary active offset => simp
      | append active offset => simp

theorem Unmixed.moves {w next : Windowed} (unmixed : Unmixed w) (moves : Moves w next) :
    Unmixed next := by
  refine ⟨moves.tracked unmixed.tracked, ?_⟩
  cases moves with
  | keep => exact unmixed.ahead
  | reset => simp [windowedReset]
  | start range nowMs =>
      intro r mem _
      rw [List.mem_singleton.mp mem]
      exact le_refl _
  | append active range offset nowMs =>
      obtain ⟨ends, -⟩ := unmixed.tracked.tiled active
      intro r mem foreign
      rcases List.mem_append.mp mem with old | new
      · exact unmixed.ahead r old foreign
      · rw [List.mem_singleton.mp new, offset, ← ends]
        exact Nat.le_add_right _ _

theorem step_unmixed {clipMs : Int} {w : Windowed} {call : FsmCall} (unmixed : Unmixed w)
    (validated : call.Satisfies Validated) (before : CutBeforeForeign clipMs w call) :
    Unmixed (windowedStep clipMs w call).1 := by
  cases attempt : attempted clipMs w call with
  | none => exact unmixed.moves (unattempted_moves validated attempt).1
  | some grown =>
      obtain ⟨moves, active, step⟩ := attempted_moves validated attempt
      have grownUnmixed := unmixed.moves moves
      have kept := window_tracked grownUnmixed.tracked active clipMs
      rw [step]
      by_cases full : Full clipMs grown.fsm
      · have moved := (cut_exact grownUnmixed.tracked.tiled active full).1
        rw [maybeEmit_full full] at kept ⊢
        refine ⟨kept, fun r mem foreign => ?_⟩
        have cut := (cutBeforeForeign_iff clipMs w call).mp before grown attempt full r mem foreign
        simpa only [cutContinuousWindow, moved] using cut
      · rw [maybeEmit_short full]
        exact grownUnmixed

theorem step_covers_iff {clipMs : Int} {w : Windowed} {call : FsmCall} (unmixed : Unmixed w)
    (validated : call.Satisfies Validated) :
    CoversStream clipMs w call ↔ CutBeforeForeign clipMs w call := by
  rw [cutBeforeForeign_iff]
  constructor
  · intro covers grown attempt full
    obtain ⟨moves, active, step⟩ := attempted_moves validated attempt
    rw [maybeEmit_full full] at step
    apply (cut_covers_iff (unmixed.moves moves) active full).mp
    have emits : snapshotContinuousClip grown.fsm clipMs (windowBytes clipMs grown.fsm) ∈
        clipsOf (windowedStep clipMs w call).2 := by
      rw [step]
      exact List.mem_singleton_self _
    have covered := (covers _ emits rfl).2
    rw [step] at covered
    exact covered
  · intro before clip emitted label
    obtain ⟨grown, attempt, full, rfl, stepped⟩ :=
      continuous_clip unmixed.tracked validated emitted label
    obtain ⟨moves, active, -⟩ := attempted_moves validated attempt
    rw [stepped]
    exact ⟨rfl, (cut_covers_iff (unmixed.moves moves) active full).mpr
      (before grown attempt full)⟩

/-- A clip with the continuous label covers the one stream whose rate gave its length, along
exactly the runs in which no window is completed around foreign bytes. The members of a window
are records that the run has accepted. -/
theorem label_honest_iff (clipMs : Int) (calls : List FsmCall)
    (validated : ∀ call ∈ calls, call.Satisfies Validated) :
    (Mealy.Along (windowedStep clipMs) (CoversStream clipMs) windowedReset calls ↔
      Mealy.Along (windowedStep clipMs) (CutBeforeForeign clipMs) windowedReset calls) ∧
    ∀ rec ∈ (Mealy.run (windowedStep clipMs) windowedReset calls).1.members,
      rec ∈ acceptedInRun clipMs smFsmReset calls := by
  have fresh : Unmixed windowedReset := ⟨reset_tracked, by simp [windowedReset]⟩
  refine ⟨?_, fun rec mem =>
    (members_accepted clipMs windowedReset calls mem).resolve_left List.not_mem_nil⟩
  exact Mealy.along_iff_along (windowedStep clipMs) Unmixed (fun call => call.Satisfies Validated)
    (fun w call unmixed valid => step_covers_iff unmixed valid)
    (fun w call unmixed valid before => step_unmixed unmixed valid before) fresh validated

/-- Two windows arrive in one record, and a metadata-only record behind them: the second
window is cut when the stream goes on, and ends in front of the foreign byte. -/
theorem label_honest_before_foreign :
    Mealy.Along (windowedStep 1000) (CoversStream 1000) windowedReset
      [.record (continuousRecord 1 0 8 0 4) 10, .record (dataRecord 2 8 1 100) 20,
        .record (continuousRecord 3 9 1 200 4) 30] :=
  (label_honest_iff 1000 _ (by decide)).1.mpr (by decide)

/-- A metadata-only record in the middle of a window: the continuous record behind it completes
the four bytes, and the third of them is not a byte of the stream. -/
theorem label_covers_foreign_byte :
    ¬ Mealy.Along (windowedStep 1000) (CoversStream 1000) windowedReset
      [.record (continuousRecord 1 0 2 0 4) 10, .record (dataRecord 2 2 1 100) 20,
        .record (continuousRecord 3 3 1 200 4) 30] := by
  decide

end StreamDataPipeline.StreamMerge.ContinuousClips
