/- How far the reported start of a continuous clip lies from the time of its offset. -/

import Mathlib.Tactic.LinearCombination
import Mathlib.Tactic.Ring
import StreamDataPipeline.StreamMerge.Branches

/-!
Every cut moves the start of the window by a whole `clip_ms` and by a number of bytes
that was rounded down twice, so the clips lie on a grid whose slope is not exactly
the byte rate.
-/

set_option autoImplicit false
set_option relaxedAutoImplicit false

namespace StreamDataPipeline.StreamMerge.TimestampDrift

open Foundations Foundations.Word Fsm FsmRun ByteConservation Branches

/-- Millibytes of one window that the two roundings drop: to whole bytes and to whole frames. -/
def roundingLoss (clipMs : Int) (byteRate frameAlign : Nat) : Nat :=
  clipMs.toNat * byteRate % 1000 + 1000 * (clipMs.toNat * byteRate / 1000 % frameAlign)

theorem window_and_loss {clipMs : Int} (positive : 0 < clipMs) (byteRate : Nat) {frameAlign : Nat}
    (aligned : 0 < frameAlign) :
    clipMs.toNat * byteRate =
      1000 * alignedTargetBytes clipMs byteRate frameAlign +
        roundingLoss clipMs byteRate frameAlign := by
  have whole := Nat.div_add_mod (clipMs.toNat * byteRate) 1000
  unfold alignedTargetBytes roundingLoss
  by_cases stopped : byteRate = 0
  · simp [stopped]
  rw [if_neg (by omega)]
  dsimp only
  split_ifs with frames
  · have below := Nat.mod_le (clipMs.toNat * byteRate / 1000) frameAlign
    omega
  · have one : frameAlign = 1 := by omega
    rw [one, Nat.mod_one]
    omega

/-- A record of one continuous stream, as the reader lets it through. -/
structure OfStream (byteRate frameAlign : Nat) (rec : SmMetaRecord) : Prop where
  admitted : Admitted rec
  continuous : rec.continuous = true
  rate : rec.byteRate = byteRate
  aligned : effectiveAlign rec.frameAlign = frameAlign

instance (byteRate frameAlign : Nat) (rec : SmMetaRecord) :
    Decidable (OfStream byteRate frameAlign rec) :=
  decidable_of_iff
    (Admitted rec ∧ rec.continuous = true ∧ rec.byteRate = byteRate ∧
      effectiveAlign rec.frameAlign = frameAlign)
    ⟨fun h => ⟨h.1, h.2.1, h.2.2.1, h.2.2.2⟩,
      fun h => ⟨h.admitted, h.continuous, h.rate, h.aligned⟩⟩

/-- The record becomes the first one of a window. -/
def OpensWindow (clipMs : Int) (fsm : SmFsm) (rec : SmMetaRecord) : Prop :=
  recordBranch clipMs fsm rec = .restart ∨ recordBranch clipMs fsm rec = .gap ∨
    recordBranch clipMs fsm rec = .boundary

instance (clipMs : Int) (fsm : SmFsm) (rec : SmMetaRecord) :
    Decidable (OpensWindow clipMs fsm rec) := inferInstanceAs (Decidable (_ ∨ _ ∨ _))

def recordCalls (records : List (SmMetaRecord × Int)) : List FsmCall :=
  records.map fun r => .record r.1 r.2

private theorem recordCalls_cons (r : SmMetaRecord × Int) (rest : List (SmMetaRecord × Int)) :
    recordCalls (r :: rest) = .record r.1 r.2 :: recordCalls rest := rfl

/-- The clips that were cut by byte rate, in emission order. -/
def continuousClips (clipMs : Int) (fsm : SmFsm) (calls : List FsmCall) : List SmClipRecord :=
  (clipsOfRun clipMs fsm calls).filter fun clip => clip.boundaryMode = .continuousByteRange

private theorem continuousClips_cons (clipMs : Int) (fsm : SmFsm) (call : FsmCall)
    (calls : List FsmCall) :
    continuousClips clipMs fsm (call :: calls) =
      ((clipsOf (callStep clipMs fsm call).2).filter
          fun clip => clip.boundaryMode = .continuousByteRange) ++
        continuousClips clipMs (callStep clipMs fsm call).1 calls := by
  simp only [continuousClips, clipsOfRun, callRun, Mealy.run_cons, emittedClips,
    List.flatMap_cons, List.filter_append]

section Grid

variable (clipMs : Int) (byteRate frameAlign : Nat) (t₀ : Int) (o₀ : Nat)

def gridPoint (k : Nat) : Int × Nat :=
  (t₀ + k * clipMs, o₀ + k * alignedTargetBytes clipMs byteRate frameAlign)

/-- The state collects the window of number `k` and has taken in the stream up to `last`. -/
structure OnGrid (k : Nat) (last : SmMetaRecord) (fsm : SmFsm) : Prop where
  active : fsm.active = true
  continuous : fsm.continuous = true
  rate : fsm.byteRate = byteRate
  aligned : fsm.frameAlign = frameAlign
  point : (fsm.startTsMs, fsm.startOffset) = gridPoint clipMs byteRate frameAlign t₀ o₀ k
  expectedSeq : fsm.expectedSeq = last.seq + 1
  expectedOffset : fsm.expectedOffset = last.offset + last.length
  tiled : Tiled fsm

variable {clipMs byteRate frameAlign t₀ o₀}

theorem OnGrid.window {k : Nat} {last : SmMetaRecord} {fsm : SmFsm}
    (grid : OnGrid clipMs byteRate frameAlign t₀ o₀ k last fsm) :
    (maybeEmitContinuousWindow fsm clipMs = (fsm, .none)) ∨
      ∃ clip, (maybeEmitContinuousWindow fsm clipMs).2 = .emitComplete clip ∧
        clip.boundaryMode = .continuousByteRange ∧
        (clip.startTsMs, clip.startOffset) = gridPoint clipMs byteRate frameAlign t₀ o₀ k ∧
        OnGrid clipMs byteRate frameAlign t₀ o₀ (k + 1) last
          (maybeEmitContinuousWindow fsm clipMs).1 := by
  by_cases full : Full clipMs fsm
  · right
    have size : windowBytes clipMs fsm = alignedTargetBytes clipMs byteRate frameAlign := by
      rw [windowBytes, grid.rate, grid.aligned]
    have moved : u64Add fsm.startOffset (windowBytes clipMs fsm) =
        fsm.startOffset + alignedTargetBytes clipMs byteRate frameAlign := by
      rw [(cut_exact grid.tiled grid.active full).1, size]
    have kept : Tiled (maybeEmitContinuousWindow fsm clipMs).1 :=
      (window_conserves grid.tiled grid.active (maybeEmit_step fsm clipMs)).1
    have here := Prod.mk.inj grid.point
    refine ⟨snapshotContinuousClip fsm clipMs (windowBytes clipMs fsm), ?_, rfl, grid.point, ?_⟩
    · rw [maybeEmit_full full]
    · rw [maybeEmit_full full] at kept ⊢
      refine ⟨grid.active, grid.continuous, grid.rate, grid.aligned, ?_,
        grid.expectedSeq, grid.expectedOffset, kept⟩
      simp only [cutContinuousWindow, moved, gridPoint, Nat.cast_add, Nat.cast_one]
      refine Prod.ext ?_ ?_
      · simp only [here.1]
        ring
      · simp only [here.2]
        ring
  · exact .inl (maybeEmit_short full)

theorem startClip_onGrid (clipMs : Int) {rec : SmMetaRecord}
    (stream : OfStream byteRate frameAlign rec) (nowMs : Int) :
    OnGrid clipMs byteRate frameAlign rec.tsMs rec.offset 0 rec (startClip rec nowMs) where
  active := rfl
  continuous := stream.continuous
  rate := stream.rate
  aligned := stream.aligned
  point := by simp [startClip, gridPoint]
  expectedSeq := expectedSeq_exact stream.admitted.2
  expectedOffset := (expectedOffset_exact stream.admitted.2).1
  tiled := startClip_tiled stream.admitted.2 nowMs

theorem OnGrid.extends {k : Nat} {last rec : SmMetaRecord} {fsm : SmFsm}
    (grid : OnGrid clipMs byteRate frameAlign t₀ o₀ k last fsm)
    (stream : OfStream byteRate frameAlign rec) (follows : Follows last rec) (nowMs : Int) :
    recordBranch clipMs fsm rec = .extend ∧
      OnGrid clipMs byteRate frameAlign t₀ o₀ k rec (appendRecord fsm rec nowMs) := by
  have seq : rec.seq = fsm.expectedSeq := follows.1.trans grid.expectedSeq.symm
  have offset : rec.offset = fsm.expectedOffset := follows.2.trans grid.expectedOffset.symm
  have compatible : continuousCompatible fsm rec = true := by
    simp [continuousCompatible, grid.continuous, stream.continuous, grid.rate,
      stream.rate, grid.aligned, stream.aligned]
  constructor
  · simp [recordBranch, stream.admitted.1, grid.active, seq, Discontiguous, offset, compatible]
  · exact ⟨grid.active, grid.continuous, grid.rate, grid.aligned, grid.point,
      expectedSeq_exact stream.admitted.2, (expectedOffset_exact stream.admitted.2).1,
      appendRecord_tiled grid.tiled grid.active stream.admitted.2 offset nowMs⟩

private theorem OnGrid.window_clips {k : Nat} {last : SmMetaRecord} {fsm : SmFsm}
    (grid : OnGrid clipMs byteRate frameAlign t₀ o₀ k last fsm) (calls : List FsmCall)
    (later : ∀ {k' fsm'}, OnGrid clipMs byteRate frameAlign t₀ o₀ k' last fsm' →
      ∃ n, (continuousClips clipMs fsm' calls).map
          (fun clip => (clip.startTsMs, clip.startOffset)) =
        (List.range' k' n).map (gridPoint clipMs byteRate frameAlign t₀ o₀)) :
    ∃ n, (((clipsOf (maybeEmitContinuousWindow fsm clipMs).2).filter
          fun clip => clip.boundaryMode = .continuousByteRange) ++
        continuousClips clipMs (maybeEmitContinuousWindow fsm clipMs).1 calls).map
          (fun clip => (clip.startTsMs, clip.startOffset)) =
      (List.range' k n).map (gridPoint clipMs byteRate frameAlign t₀ o₀) := by
  rcases grid.window with kept | ⟨clip, action, mode, point, next⟩
  · rw [kept]
    exact later grid
  · obtain ⟨n, tail⟩ := later next
    refine ⟨n + 1, ?_⟩
    simp only [action, clipsOf, List.filter_cons, mode, decide_true, if_true, List.filter_nil,
      List.cons_append, List.nil_append, List.map_cons, List.range'_succ, point]
    exact congrArg _ tail

/-- From a state on the grid, the clips cut from the rest of the stream lie on the points that
follow, one after another. The induction is on the records. -/
theorem OnGrid.clips {k : Nat} {last : SmMetaRecord} {fsm : SmFsm}
    (grid : OnGrid clipMs byteRate frameAlign t₀ o₀ k last fsm)
    (rest : List (SmMetaRecord × Int))
    (stream : ∀ r ∈ rest, OfStream byteRate frameAlign r.1)
    (chain : (last :: rest.map Prod.fst).IsChain Follows) :
    ∃ n, (continuousClips clipMs fsm (recordCalls rest)).map
        (fun clip => (clip.startTsMs, clip.startOffset)) =
      (List.range' k n).map (gridPoint clipMs byteRate frameAlign t₀ o₀) := by
  induction rest generalizing k last fsm with
  | nil => exact ⟨0, rfl⟩
  | cons r rest ih =>
      rw [List.map_cons, List.isChain_cons_cons] at chain
      obtain ⟨branch, extended⟩ :=
        grid.extends (stream r List.mem_cons_self) chain.1 r.2
      have later := fun r' hr => stream r' (List.mem_cons_of_mem r hr)
      have stepped : callStep clipMs fsm (.record r.1 r.2) =
          maybeEmitContinuousWindow (appendRecord fsm r.1 r.2) clipMs := by
        rw [callStep, processRecord_branch, branch, branchStep]
      rw [recordCalls_cons, continuousClips_cons, stepped]
      exact extended.window_clips _ fun next => ih next later chain.2

end Grid

theorem reached_metadata (clipMs : Int) (calls : List FsmCall) :
    (callRun clipMs smFsmReset calls).1.boundaryMode = .metadata := by
  have window : ∀ fsm : SmFsm, fsm.boundaryMode = .metadata →
      (maybeEmitContinuousWindow fsm clipMs).1.boundaryMode = .metadata := by
    intro fsm metadata
    by_cases full : Full clipMs fsm
    · rw [maybeEmit_full full]
      rfl
    · rw [maybeEmit_short full]
      exact metadata
  refine Mealy.run_invariant (callStep clipMs) (fun fsm => fsm.boundaryMode = .metadata)
    (fun _ => True) ?_ smFsmReset calls rfl fun _ _ => trivial
  intro fsm call metadata _
  cases call with
  | record rec nowMs =>
      simp only [callStep, processRecord_branch]
      cases recordBranch clipMs fsm rec with
      | ignore | late => exact metadata
      | restart | extend => exact window _ rfl
      | gap | boundary | append => rfl
  | idle idleMs nowMs =>
      exact drain_preserves (fun fsm => fsm.boundaryMode = .metadata) rfl metadata (by simp)
  | flush =>
      exact drain_preserves (fun fsm => fsm.boundaryMode = .metadata) rfl metadata (by simp)

theorem continuousClips_on_grid {clipMs : Int} (before : List FsmCall)
    {byteRate frameAlign : Nat} (first : SmMetaRecord × Int) (rest : List (SmMetaRecord × Int))
    (stream : ∀ r ∈ first :: rest, OfStream byteRate frameAlign r.1)
    (chain : ((first :: rest).map Prod.fst).IsChain Follows)
    (opens : OpensWindow clipMs (callRun clipMs smFsmReset before).1 first.1) :
    ∃ n, (continuousClips clipMs (callRun clipMs smFsmReset before).1
        (recordCalls (first :: rest))).map (fun clip => (clip.startTsMs, clip.startOffset)) =
      (List.range' 0 n).map
        (gridPoint clipMs byteRate frameAlign first.1.tsMs first.1.offset) := by
  have metadata := reached_metadata clipMs before
  have started := startClip_onGrid clipMs (stream first List.mem_cons_self) first.2
  have later := fun r hr => stream r (List.mem_cons_of_mem first hr)
  generalize (callRun clipMs smFsmReset before).1 = fsm at metadata opens ⊢
  rw [recordCalls_cons, continuousClips_cons, callStep, processRecord_branch]
  rcases opens with restart | gap | boundary
  · rw [restart, branchStep]
    exact started.window_clips _ fun next => next.clips rest later chain
  · rw [gap]
    simpa [branchStep, clipsOf, snapshotClip, metadata] using started.clips rest later chain
  · rw [boundary]
    simpa [branchStep, clipsOf, snapshotClip, metadata] using started.clips rest later chain

/-- The start time that clip number `k` of a continuous stream reports stays within one frame
and one millisecond of the time of its offset exactly if the loss of `k` windows does. -/
theorem timestamp_drift_iff {clipMs : Int} (positive : 0 < clipMs) (before : List FsmCall)
    {byteRate frameAlign : Nat} (first : SmMetaRecord × Int) (rest : List (SmMetaRecord × Int))
    (stream : ∀ r ∈ first :: rest, OfStream byteRate frameAlign r.1)
    (chain : ((first :: rest).map Prod.fst).IsChain Follows)
    (opens : OpensWindow clipMs (callRun clipMs smFsmReset before).1 first.1)
    (k : Nat) (clip : SmClipRecord)
    (emitted : (continuousClips clipMs (callRun clipMs smFsmReset before).1
      (recordCalls (first :: rest)))[k]? = some clip) :
    ((clip.startTsMs - first.1.tsMs) * byteRate -
        1000 * ((clip.startOffset : Int) - first.1.offset)).natAbs ≤
        1000 * frameAlign + byteRate ↔
      k * roundingLoss clipMs byteRate frameAlign ≤ 1000 * frameAlign + byteRate := by
  obtain ⟨n, onGrid⟩ := continuousClips_on_grid before first rest stream chain opens
  have point : (clip.startTsMs, clip.startOffset) =
      gridPoint clipMs byteRate frameAlign first.1.tsMs first.1.offset k := by
    have entry := congrArg (fun points => points[k]?) onGrid
    simp only [List.getElem?_map, emitted, Option.map_some] at entry
    obtain ⟨i, found, equal⟩ := Option.map_eq_some_iff.mp entry.symm
    obtain ⟨bound, value⟩ := List.getElem?_eq_some_iff.mp found
    rw [List.getElem_range', Nat.zero_add, Nat.one_mul] at value
    rw [← equal, value]
  have aligned : 0 < frameAlign := by
    rw [← (stream first List.mem_cons_self).aligned, effectiveAlign]
    split_ifs <;> omega
  have window := window_and_loss positive byteRate aligned
  have length : (clipMs.toNat : Int) = clipMs := Int.toNat_of_nonneg (by omega)
  obtain ⟨time, offset⟩ := Prod.mk.inj point
  have drift : (clip.startTsMs - first.1.tsMs) * byteRate -
      1000 * ((clip.startOffset : Int) - first.1.offset) =
        ((k * roundingLoss clipMs byteRate frameAlign : Nat) : Int) := by
    have exact_window : clipMs * byteRate =
        1000 * (alignedTargetBytes clipMs byteRate frameAlign : Int) +
          (roundingLoss clipMs byteRate frameAlign : Int) := by
      calc clipMs * byteRate = ((clipMs.toNat * byteRate : Nat) : Int) := by
            rw [Nat.cast_mul, length]
        _ = _ := by
            rw [window]
            push_cast
            rfl
    rw [time, offset]
    push_cast
    linear_combination (k : Int) * exact_window
  rw [drift, Int.natAbs_natCast]

/-- Three bytes a second in windows of half a second: clip number 2 starts 1000 millibytes
ahead of its offset, within the bound of 1003. -/
theorem third_clip_within_bound :
    (((1000 : Int) - 0) * (3 : Nat) - 1000 * (((2 : Nat) : Int) - (0 : Nat))).natAbs ≤
      1000 * 1 + 3 :=
  (timestamp_drift_iff (show (0 : Int) < 500 by decide) [] (continuousRecord 1 0 1 0 3, 10)
    [(continuousRecord 2 1 1 333 3, 20), (continuousRecord 3 2 1 667 3, 30)] (by decide)
    (by decide) (by decide) 2
    { active := true, startTsMs := 1000, endTsMs := 1500, startOffset := 2, totalLength := 1,
      boundaryMode := .continuousByteRange, events := Events.smEventSetReset }
    (by decide)).mpr (by decide)

/-- One clip later the reported start is 1500 millibytes ahead, although every record carries
the time of its offset. -/
theorem fourth_clip_drifts :
    ∃ clip, (continuousClips 500 smFsmReset (recordCalls [(continuousRecord 1 0 1 0 3, 10),
        (continuousRecord 2 1 1 333 3, 20), (continuousRecord 3 2 1 667 3, 30),
        (continuousRecord 4 3 1 1000 3, 40)]))[3]? = some clip ∧
      ¬ ((clip.startTsMs - 0) * (3 : Nat) - 1000 * ((clip.startOffset : Int) - (0 : Nat))).natAbs ≤
        1000 * 1 + 3 :=
  ⟨{ active := true, startTsMs := 1500, endTsMs := 2000, startOffset := 3, totalLength := 1,
      boundaryMode := .continuousByteRange, events := Events.smEventSetReset }, by decide⟩

end StreamDataPipeline.StreamMerge.TimestampDrift
