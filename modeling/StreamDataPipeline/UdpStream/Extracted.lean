/- From the lines of the clips to the ordered file that extract_udp_clips.sh writes. -/

import StreamDataPipeline.Pipeline.StoredClips
import StreamDataPipeline.UdpStream.Extractor

/-!
A query lists the clips of the session in the order of its hash table, and the ordered file holds
their bytes in the order of the offsets.
-/

set_option autoImplicit false
set_option relaxedAutoImplicit false

namespace StreamDataPipeline.UdpStream.Extracted

open Foundations.ByteString Foundations.Decimal Foundations.LastWrite Foundations.ExpiringMap
  Foundations.KeySort Foundations.Json Foundations.JsonText
open Lib.JsonlCodec StreamMerge.Events StreamMerge.Fsm StreamMerge.FsmRun StreamMerge.EmitClip
open ClipStore.Format ClipStore.Main ClipStore.TtlRefinement
open Pipeline.ClipLine Pipeline.ClipKeys Pipeline.PlainClips Pipeline.StoredClips
open ClipRows Extractor

section Listing

variable {session : Bytes} {ttl : Int} {clock : Nat → Nat} {now : Int}

/-- The key under which the line of a clip is stored. -/
def lineKey (session : Bytes) (printed : PrintedClip) : Bytes :=
  clipKey session (tsSec printed.1)

theorem clipWrites_keys (lines : List PrintedClip) (calls : Nat) :
    (clipWrites session ttl clock lines calls).map Write.key = lines.map (lineKey session) := by
  induction lines generalizing calls with
  | nil => rfl
  | cons printed rest ih =>
      obtain ⟨clip, line⟩ := printed
      rw [clipWrites, List.map_cons, ih, List.map_cons]
      rfl

theorem lookup_clipWrites (live : ∀ n, expired (expiry ttl (clock n)) now = false)
    (lines : List PrintedClip) (calls : Nat) (k : Bytes) :
    lookup (after (clipWrites session ttl clock lines calls)) now k =
      (lastWrite (lineKey session) lines k).map Prod.snd := by
  have found (history : List ClipWrite) : lookup (after history) now k =
      (lastWrite Write.key history k).bind fun w => w.effect.bind fun entry =>
        if expired entry.2 now then none else some entry.1 := by
    rw [lookup, after_apply]
    cases lastWrite Write.key history k with
    | none => rfl
    | some w =>
        rw [Option.bind_some, Option.bind_some]
        cases w.effect <;> rfl
  rw [found]
  induction lines generalizing calls with
  | nil => rfl
  | cons printed rest ih =>
      obtain ⟨clip, line⟩ := printed
      have keys : (clipWrites session ttl clock rest (calls + 1)).map Write.key =
          rest.map (lineKey session) := clipWrites_keys rest (calls + 1)
      have head : lastWrite (lineKey session) ([(clip, line)] ++ rest) k = _ :=
        lastWrite_append [(clip, line)] rest k
      have first : lastWrite Write.key
          ([Write.put (clipKey session (tsSec clip)) line (expiry ttl (clock calls))] ++
            clipWrites session ttl clock rest (calls + 1)) k = _ := lastWrite_append _ _ k
      rw [List.singleton_append, lastWrite_singleton] at head first
      rw [clipWrites, first, head]
      by_cases later : k ∈ rest.map (lineKey session)
      · have step := ih (calls + 1)
        cases old : lastWrite (lineKey session) rest k with
        | none => exact absurd later (lastWrite_eq_none.mp old)
        | some printed =>
            cases written : lastWrite Write.key
                (clipWrites session ttl clock rest (calls + 1)) k with
            | none => exact absurd (keys ▸ later) (lastWrite_eq_none.mp written)
            | some w => rwa [old, written] at step
      · rw [lastWrite_eq_none.mpr (keys.symm ▸ later), lastWrite_eq_none.mpr later, Option.none_or,
          Option.none_or]
        by_cases same : clipKey session (tsSec clip) = k
        · have here : lineKey session (clip, line) = k := same
          simp [Write.key, same, here, Write.effect, live calls]
        · have other : lineKey session (clip, line) ≠ k := same
          simp [Write.key, same, other]

theorem listed_rows (live : ∀ n, expired (expiry ttl (clock n)) now = false)
    {lines : List PrintedClip} {calls : Nat} {out : Bytes}
    (lists : Lists (after (clipWrites session ttl clock lines calls)) now (session ++ [58]) out) :
    ∃ rows : List (Bytes × Bytes),
      out = rows.flatMap (fun row => row.1 ++ [tab] ++ row.2 ++ [lf]) ∧
      rows.Perm ((current (lineKey session) lines).map fun p => (lineKey session p, p.2)) := by
  obtain ⟨rows, text, nodup, members⟩ := lists
  refine ⟨rows, text, ?_⟩
  have targetNodup : ((current (lineKey session) lines).map fun p =>
      (lineKey session p, p.2)).Nodup := by
    apply List.Nodup.of_map Prod.fst
    rw [List.map_map]
    exact current_nodup (lineKey session) lines
  rw [List.perm_ext_iff_of_nodup (nodup.of_map Prod.fst) targetNodup]
  rintro ⟨key, value⟩
  rw [members, lookup_clipWrites live, Option.map_eq_some_iff, List.mem_map]
  constructor
  · rintro ⟨-, p, counts, rfl⟩
    obtain ⟨mem, rfl⟩ := (lastWrite_eq_some (lineKey session)).mp counts
    exact ⟨p, mem, rfl⟩
  · rintro ⟨p, mem, equal⟩
    obtain ⟨rfl, rfl⟩ := Prod.mk.inj equal
    refine ⟨⟨decimal (tsSec p.1), by simp [lineKey, clipKey]⟩, p, ?_, rfl⟩
    exact (lastWrite_eq_some (lineKey session)).mpr ⟨mem, rfl⟩

end Listing

section Records

variable {c : CJson} {d : Dialect} {src session path : Bytes} {events : List FsmEvent}
  {py : Python} {disk : Disk}

theorem sessionLines_text (correct : c.IsCorrect d) (built : artifactPath src session = some path)
    (untagged : ∀ clip ∈ runClips events, clip.events = smEventSetReset) :
    ∀ printed ∈ sessionLines c src session events,
      ∃ complete, printed.2 = clipLine printed.1 session path complete [] := by
  intro printed mem
  obtain ⟨action, done, emitted⟩ := List.mem_flatMap.mp mem
  obtain ⟨clip, ofAction, rfl⟩ := List.mem_map.mp emitted
  have inRun : clip ∈ runClips events := List.mem_flatMap.mpr ⟨action, done, ofAction⟩
  have active := sessionActions_active events clip inRun
  have text (complete : Bool) :
      ((emitClip c clip src session complete).getD []).dropLast =
        clipLine clip session path complete [] := by
    obtain ⟨texts, printed, strings⟩ := emitClip_eq correct active built complete
    rw [untagged clip inRun, smEventSetReset_items] at strings
    cases strings
    rw [printed, Option.getD_some, List.dropLast_concat]
  cases action with
  | none => cases ofAction
  | rejectLate => cases ofAction
  | emitComplete emitted =>
      obtain rfl := List.mem_singleton.mp ofAction
      exact ⟨true, text true⟩
  | emitPartial emitted =>
      obtain rfl := List.mem_singleton.mp ofAction
      exact ⟨false, text false⟩

theorem sortKey_lt {a b : SmClipRecord} (less : a.startOffset < b.startOffset) :
    sortKey (rowOfClip session path a) < sortKey (rowOfClip session path b) := by
  simp only [sortKey, rowOfClip, Prod.Lex.toLex_lt_toLex, lt_self_iff_false, true_and, false_or]
  exact .inl (by exact_mod_cast less)

/-- In whatever order the rows are printed, the records come in the order of the offsets. -/
theorem queryClipRecords_rows (sessionName : IsName session) (pathName : IsName path)
    {clips : List PrintedClip} (plain : ∀ p ∈ clips, PlainClip p.1) {rows : List (Bytes × Bytes)}
    (perm : rows.Perm (clips.map fun p => (lineKey session p, p.2)))
    (lines : ∀ p ∈ clips, ∃ complete, p.2 = clipLine p.1 session path complete [])
    (rises : clips.Pairwise fun p q => p.1.startOffset < q.1.startOffset) :
    queryClipRecords py (rows.flatMap fun row => row.1 ++ [tab] ++ row.2 ++ [lf]) =
      some (clips.map fun p => rowOfClip session path p.1) := by
  let text (row : Bytes × Bytes) : Bytes := row.1 ++ [tab] ++ row.2
  let record (row : Bytes × Bytes) : ClipRow :=
    (readRow py (text row)).join.getD ⟨[], [], 0, 0, 0, []⟩
  have clipRead : ∀ p ∈ clips, readRow py (text (lineKey session p, p.2)) =
      some (some (rowOfClip session path p.1)) := by
    intro p mem
    obtain ⟨complete, line⟩ := lines p mem
    dsimp only [text]
    rw [line]
    exact readRow_clip complete py (plain p mem) sessionName pathName
  have clipRecord : ∀ p ∈ clips, record (lineKey session p, p.2) = rowOfClip session path p.1 := by
    intro p mem
    simp only [record, clipRead p mem]
    rfl
  have ofClip : ∀ row ∈ rows, ∃ p ∈ clips, row = (lineKey session p, p.2) := by
    intro row mem
    obtain ⟨p, here, same⟩ := List.mem_map.mp (perm.mem_iff.mp mem)
    exact ⟨p, here, same.symm⟩
  have read : ∀ row ∈ rows, readRow py (text row) = some (some (record row)) := by
    intro row mem
    obtain ⟨p, here, rfl⟩ := ofClip row mem
    rw [clipRecord p here]
    exact clipRead p here
  have inner : ∀ row ∈ rows, ∀ b ∈ text row, b = tab ∨ 32 ≤ b := by
    intro row mem b inside
    obtain ⟨p, here, rfl⟩ := ofClip row mem
    obtain ⟨complete, line⟩ := lines p here
    simp only [text, lineKey, clipKey, List.mem_append, List.mem_cons, List.not_mem_nil,
      or_false] at inside
    rcases inside with ((inside | rfl | inside) | separator) | inside
    · exact .inr (sessionName b inside).2.2.1
    · exact .inr (by decide)
    · exact .inr (decimal_printable _ b inside)
    · exact .inl separator
    · rw [line] at inside
      rcases clipLine_bytes p.1 session path complete (d := pythonDialect) .nil b inside with
        inside | inside | visible
      · exact .inr (sessionName b inside).2.2.1
      · exact .inr (pathName b inside).2.2.1
      · exact .inr visible
  have sorted : (rows.map record).Perm (clips.map fun p => rowOfClip session path p.1) := by
    have mapped := perm.map record
    rw [List.map_map] at mapped
    exact (List.map_congr_left clipRecord) ▸ mapped
  have listed : queryClipRecords py (rows.flatMap fun row => text row ++ [lf]) =
      some (sortBy sortKey (rows.map record)) := queryClipRecords_map inner read
  rw [listed]
  exact congrArg some (sortBy_eq sorted (List.pairwise_map.mpr (rises.imp sortKey_lt)))

theorem extract_session {raw : Directory} {stdout : Bytes} {rows : List ClipRow}
    (read : queryClipRecords py stdout = some rows) (nonempty : rows ≠ [])
    (inside : ∀ row ∈ rows, Inside disk.files row) (writable : Writable py disk.writes rows)
    (one : ∀ row ∈ rows, row.session = session) :
    ∃ dir, extract py disk raw stdout = some dir ∧
      readFile dir (orderedName (safeName py session)) =
        some (rows.flatMap (cutOut disk.files)) := by
  refine ⟨_, extract_inside read nonempty inside writable, ?_⟩
  obtain ⟨row, rest, rfl⟩ := List.exists_cons_of_ne_nil nonempty
  have ordered : readFile (orderedFiles py disk.files (row :: rest))
      (orderedName (safeName py row.session)) = _ := readFile_orderedFiles List.mem_cons_self
  have all : (row :: rest).filter (fun other => safeName py other.session =
      safeName py session) = row :: rest := by
    rw [List.filter_eq_self]
    intro other mem
    rw [one other mem]
    exact decide_eq_true rfl
  rw [one row List.mem_cons_self, all] at ordered
  rw [readFile_append, ordered, Option.some_or]

end Records

end StreamDataPipeline.UdpStream.Extracted
