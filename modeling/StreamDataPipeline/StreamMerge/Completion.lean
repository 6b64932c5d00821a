/- No row of a session is lost once the metadata file is open. -/

import StreamDataPipeline.StreamMerge.Session

set_option autoImplicit false
set_option relaxedAutoImplicit false

namespace StreamDataPipeline.StreamMerge.Completion

open Foundations Foundations.ByteString Lib.Libpipeline Session

/-- A row that the ingestor appends: not empty, and one line. -/
def IsRow (row : Bytes) : Prop := row ≠ [] ∧ lf ∉ row

instance : DecidablePred IsRow := fun _ => instDecidableAnd

/-- What the ingestor has left in the directory. -/
def Written (rows : List Bytes) (s : State) : Prop :=
  match s.ingest with
  | .before => s.metaFile = none ∧ s.sentinel = false
  | .writing rest => s.sentinel = false ∧
      ∃ content, s.metaFile = some content ∧ content ++ rest = rowsText rows
  | .closed => s.sentinel = false ∧ s.metaFile = some (rowsText rows)
  | .marking | .finished => s.sentinel = true ∧ s.metaFile = some (rowsText rows)

/-- Nobody hears of the sentinel before it is there. -/
def Heard (s : State) : Prop :=
  (s.sawSentinel = true → s.sentinel = true) ∧
    ∀ event ∈ s.dirWatch.getD [], lpIsCompletedSession event = true → s.sentinel = true

/-- What was read so far are the rows passed on and the bytes still in the buffer. -/
def Reading (rows : List Bytes) (s : State) : Prop :=
  (∃ todo, rows = s.parsed ++ todo) ∧
    match s.metaFd with
    | none => s.parsed = [] ∧ s.metaBuf = []
    | some offset => ∃ content, s.metaFile = some content ∧ offset ≤ content.length ∧
        content.take offset = rowsText s.parsed ++ s.metaBuf

/-- What is known at each place of stream_merge_main. -/
def At (rows : List Bytes) (s : State) : Pc → Prop
  | .watchDir | .testSentinel => s.metaFd = none ∧ s.sawSentinel = false
  | .openMeta => s.metaFd = none
  | .waitHead => s.metaFd = none → s.sawSentinel = false
  | .waitPoll | .waitConsume | .waitOpen => s.metaFd = none ∧ s.sawSentinel = false
  | .drainRead .final => s.metaFd.isSome = true ∧ s.sawSentinel = true
  | .drainLines .final => s.sawSentinel = true ∧ s.metaFd = some (rowsText rows).length
  | .flush => s.sawSentinel = true ∧ s.metaFd = some (rowsText rows).length ∧ lf ∉ s.metaBuf
  | .returned status => status = 0 → s.parsed = rows
  | _ => s.metaFd.isSome = true

structure SessionOk (rows : List Bytes) (s : State) : Prop where
  written : Written rows s
  heard : Heard s
  reading : Reading rows s
  here : At rows s s.pc

variable {session : Bytes} {rows : List Bytes} {s : State}

theorem metaName_not_sentinel (session : Bytes) :
    lpIsCompletedSession (metaName session) = false := by
  have shape : (metaName session).reverse =
      108 :: (ascii ".meta.json").reverse ++ session.reverse := by
    rw [metaName, List.reverse_append]
    rfl
  have first : (108 : UInt8) ≠ 47 := by decide
  have last : pipelineSentinelName.reverse = 100 :: (ascii ".pipeline_en").reverse := rfl
  rw [lpIsCompletedSession, beq_eq_false_iff_ne]
  intro equal
  have reversed := congrArg List.reverse equal
  rw [List.reverse_reverse, shape, last, List.cons_append, List.takeWhile_cons_of_pos
    (by simp [first])] at reversed
  exact absurd (List.cons.inj reversed).1 (by decide)

theorem rowsText_append (xs ys : List Bytes) : rowsText (xs ++ ys) = rowsText xs ++ rowsText ys :=
  List.flatMap_append

private theorem first_row {todo : List Bytes} (clean : ∀ row ∈ todo, IsRow row)
    {buf line rest : Bytes} (split : strchr lf buf = some (line, rest))
    (start : buf <+: rowsText todo) : ∃ later, todo = line :: later := by
  obtain ⟨rfl, noLf⟩ := strchr_eq_some split
  obtain ⟨tail, whole⟩ := start
  cases todo with
  | nil => simp [rowsText] at whole
  | cons row later =>
      have rowNoLf := (clean row List.mem_cons_self).2
      have text : rowsText (row :: later) = row ++ lf :: rowsText later := by simp [rowsText]
      have read := strchr_append rowNoLf (rowsText later)
      rw [← text, ← whole, List.append_assoc, List.cons_append, strchr_append noLf] at read
      exact ⟨later, by rw [(Prod.mk.inj (Option.some.inj read)).1]⟩

private theorem no_rows_left {todo : List Bytes} (noLf : lf ∉ rowsText todo) : todo = [] := by
  cases todo with
  | nil => rfl
  | cons row later => exact absurd (by simp [rowsText]) noLf

private theorem Written.front {content : Bytes} (written : Written rows s)
    (file : s.metaFile = some content) : content <+: rowsText rows := by
  unfold Written at written
  split at written
  · rw [written.1] at file
    cases file
  · obtain ⟨_, content', file', whole⟩ := written
    obtain rfl := Option.some.inj (file.symm.trans file')
    exact ⟨_, whole⟩
  · obtain rfl := Option.some.inj (file.symm.trans written.2)
    exact List.prefix_rfl
  all_goals
    obtain rfl := Option.some.inj (file.symm.trans written.2)
    exact List.prefix_rfl

private theorem Written.whole (written : Written rows s) (present : s.sentinel = true) :
    s.metaFile = some (rowsText rows) := by
  unfold Written at written
  split at written
  · rw [written.2] at present
    cases present
  · rw [written.1] at present
    cases present
  · rw [written.1] at present
    cases present
  all_goals exact written.2

theorem start_ok (rows : List Bytes) : SessionOk rows start :=
  ⟨⟨rfl, rfl⟩, ⟨nofun, by simp [start]⟩, ⟨⟨rows, rfl⟩, rfl, rfl⟩, rfl, rfl⟩

private theorem Reading.extend (reading : Reading rows s) {s' : State}
    (parsed : s'.parsed = s.parsed) (buf : s'.metaBuf = s.metaBuf) (fd : s'.metaFd = s.metaFd)
    (longer : ∀ content, s.metaFile = some content →
      ∃ more, s'.metaFile = some (content ++ more)) : Reading rows s' := by
  unfold Reading at reading ⊢
  rw [parsed, buf, fd]
  refine ⟨reading.1, ?_⟩
  cases read : s.metaFd with
  | none => simpa [read] using reading.2
  | some offset =>
      have before := reading.2
      rw [read] at before
      obtain ⟨content, file, inside, taken⟩ := before
      obtain ⟨more, file'⟩ := longer content file
      refine ⟨content ++ more, file', by rw [List.length_append]; omega, ?_⟩
      rw [List.take_append_of_le_length inside, taken]

private theorem Heard.notify (heard : Heard s) {name : Bytes}
    (announced : lpIsCompletedSession name = true → s.sentinel = true) :
    ∀ event ∈ (notifyDir s name).getD [], lpIsCompletedSession event = true →
      s.sentinel = true := by
  intro event mem
  cases watch : s.dirWatch with
  | none => simp [notifyDir, watch] at mem
  | some events =>
      simp only [notifyDir, watch, Option.map_some, Option.getD_some, List.mem_append,
        List.mem_singleton] at mem
      rcases mem with old | rfl
      · exact heard.2 event (by simpa [watch] using old)
      · exact announced

private theorem ingest_keeps (ok : SessionOk rows s) {n : Nat} {s' : State}
    (stepped : ingestStep session rows s n = some s') : SessionOk rows s' := by
  obtain ⟨written, heard, reading, here⟩ := ok
  have unchanged : ∀ content, s.metaFile = some content →
      ∃ more, s.metaFile = some (content ++ more) := fun content file => ⟨[], by simpa using file⟩
  unfold Written at written
  unfold ingestStep at stepped
  split at stepped
  · rename_i before
    rw [before] at written
    cases stepped
    have absent (content : Bytes) : s.metaFile ≠ some content := by simp [written.1]
    exact ⟨⟨written.2, [], rfl, rfl⟩, heard,
      reading.extend rfl rfl rfl fun content file => absurd file (absent content), here⟩
  · rename_i writing
    rw [writing] at written
    cases stepped
    obtain ⟨absent, content, file, whole⟩ := written
    rw [List.append_nil] at whole
    have quiet := heard.notify fun wrong => by
      rw [metaName_not_sentinel session] at wrong
      cases wrong
    exact ⟨⟨absent, whole ▸ file⟩, ⟨heard.1, quiet⟩, reading.extend rfl rfl rfl unchanged, here⟩
  · rename_i b rest writing
    rw [writing] at written
    cases stepped
    obtain ⟨absent, content, file, whole⟩ := written
    refine ⟨⟨absent, content ++ b :: rest.take n, by rw [file]; rfl, ?_⟩, heard,
      reading.extend rfl rfl rfl fun content' file' => ⟨b :: rest.take n, by rw [file']; rfl⟩, here⟩
    rw [← whole, List.append_assoc, List.cons_append, List.take_append_drop]
  · rename_i closed
    rw [closed] at written
    cases stepped
    exact ⟨⟨rfl, written.2⟩, ⟨fun _ => rfl, fun _ _ _ => rfl⟩,
      reading.extend rfl rfl rfl unchanged, here⟩
  · rename_i marking
    rw [marking] at written
    cases stepped
    exact ⟨written, ⟨heard.1, heard.notify fun _ => written.1⟩,
      reading.extend rfl rfl rfl unchanged, here⟩
  · cases stepped

private theorem consume_heard (heard : Heard s) {events : List Bytes}
    (queued : s.dirWatch.getD [] = events) : Heard (consume s events) := by
  refine ⟨fun saw => ?_, by simp [consume]⟩
  simp only [consume, Bool.or_eq_true, List.any_eq_true] at saw
  rcases saw with before | ⟨event, mem, isSentinel⟩
  · exact heard.1 before
  · exact heard.2 event (queued ▸ mem) isSentinel

/-- The files are as before, and so is what was read of them. -/
private structure SameFiles (s s' : State) : Prop where
  ingest : s'.ingest = s.ingest := by rfl
  metaFile : s'.metaFile = s.metaFile := by rfl
  sentinel : s'.sentinel = s.sentinel := by rfl
  metaFd : s'.metaFd = s.metaFd := by rfl
  metaBuf : s'.metaBuf = s.metaBuf := by rfl
  parsed : s'.parsed = s.parsed := by rfl

private theorem SessionOk.move (ok : SessionOk rows s) {s' : State} (same : SameFiles s s')
    (heard : Heard s') (here : At rows s' s'.pc) : SessionOk rows s' := by
  refine ⟨?_, heard, ?_, here⟩
  · have written := ok.written
    unfold Written at written ⊢
    rw [same.ingest, same.metaFile, same.sentinel]
    exact written
  · have reading := ok.reading
    unfold Reading at reading ⊢
    rw [same.metaFd, same.metaBuf, same.parsed, same.metaFile]
    exact reading

private theorem drainRead_keeps (ok : SessionOk rows s) {call : Drain} (pc : s.pc = .drainRead call)
    {answer : Answer} {s' : State} (stepped : mergeStep s answer = some s') :
    SessionOk rows s' := by
  have here := ok.here
  have isOpen : s.metaFd.isSome = true := by
    rw [pc] at here
    cases call
    · exact here
    · exact here
    · exact here.1
  obtain ⟨offset, fd⟩ := Option.isSome_iff_exists.mp isOpen
  have reading := ok.reading
  rw [Reading, fd] at reading
  obtain ⟨todo, content, file, inside, taken⟩ := reading
  obtain ⟨ingest, metaFile, sentinel, dirWatch, fileWatch, _, saw, metaFd, buf, parsed⟩ := s
  dsimp only at pc fd file
  subst pc fd file
  simp only [mergeStep] at stepped
  split_ifs at stepped with ended
  · cases stepped
    have atEnd : offset = content.length := by
      have short : content.length ≤ offset := by simpa using ended
      omega
    refine ok.move {} ok.heard ?_
    cases call with
    | first => rfl
    | woken dirReady => rfl
    | final =>
        have whole := ok.written.whole (ok.heard.1 here.2)
        obtain rfl := Option.some.inj whole
        exact ⟨here.2, congrArg some atEnd⟩
  · cases stepped
    have chunk : ((content.drop offset).take
        ((content.drop offset).take 4096).length) = (content.drop offset).take 4096 := by
      rw [List.length_take, ← List.take_take, List.take_length]
    refine ⟨ok.written, ok.heard, ⟨todo, content, rfl, ?_, ?_⟩, ?_⟩
    · simp only [List.length_take, List.length_drop]
      omega
    · dsimp only at taken ⊢
      rw [List.take_add, taken, chunk, List.append_assoc]
    · cases call with
      | first => rfl
      | woken dirReady => rfl
      | final => exact ⟨rfl, here.2⟩

private theorem drainLines_keeps (clean : ∀ row ∈ rows, IsRow row) (ok : SessionOk rows s)
    {call : Drain} (pc : s.pc = .drainLines call) {answer : Answer} {s' : State}
    (stepped : mergeStep s answer = some s') : SessionOk rows s' := by
  have here := ok.here
  have isOpen : s.metaFd.isSome = true := by
    rw [pc] at here
    cases call
    · exact here
    · exact here
    · rw [here.2]
      rfl
  obtain ⟨offset, fd⟩ := Option.isSome_iff_exists.mp isOpen
  have reading := ok.reading
  rw [Reading, fd] at reading
  obtain ⟨⟨todo, allRows⟩, content, file, inside, taken⟩ := reading
  have front := ok.written.front file
  obtain ⟨ingest, metaFile, sentinel, dirWatch, fileWatch, _, saw, metaFd, buf, parsed⟩ := s
  dsimp only at pc fd file allRows taken
  subst pc fd file
  simp only [mergeStep] at stepped
  cases line : strchr lf buf with
  | none =>
      simp only [line] at stepped
      cases stepped
      refine ok.move {} ok.heard ?_
      cases call with
      | first => rfl
      | woken dirReady => rfl
      | final => exact ⟨here.1, here.2, strchr_eq_none.mp line⟩
  | some parts =>
      obtain ⟨row, rest⟩ := parts
      have unread : buf <+: rowsText todo := by
        have start : rowsText parsed ++ buf <+: rowsText parsed ++ rowsText todo := by
          rw [← taken, ← rowsText_append, ← allRows]
          exact (List.take_prefix offset content).trans front
        exact (List.prefix_append_right_inj _).mp start
      have todoClean : ∀ row ∈ todo, IsRow row := fun row mem =>
        clean row (allRows ▸ List.mem_append_right parsed mem)
      obtain ⟨later, rfl⟩ := first_row todoClean line unread
      have nonempty : row ≠ [] := (todoClean row List.mem_cons_self).1
      have passedOn : content.take offset = rowsText (parsed ++ [row]) ++ rest := by
        rw [taken, (strchr_eq_some line).1, rowsText_append]
        simp [rowsText]
      have remaining : rows = (parsed ++ [row]) ++ later := by simp [allRows]
      simp only [line, nonempty, if_false] at stepped
      cases answer with
      | expected =>
          cases stepped
          refine ⟨ok.written, ok.heard, ⟨⟨later, remaining⟩, content, rfl, inside, passedOn⟩, ?_⟩
          cases call with
          | first => rfl
          | woken dirReady => rfl
          | final => exact here
      | other =>
          cases stepped
          exact ⟨ok.written, ok.heard, ⟨⟨later, remaining⟩, content, rfl, inside, passedOn⟩, nofun⟩

private theorem opened_reading (ok : SessionOk rows s) (unread : s.metaFd = none) {content : Bytes}
    (file : s.metaFile = some content) {s' : State} (sameFile : s'.metaFile = s.metaFile)
    (fd : s'.metaFd = some 0) (same : s'.metaBuf = s.metaBuf ∧ s'.parsed = s.parsed) :
    Reading rows s' := by
  have before := ok.reading
  rw [Reading, unread] at before
  obtain ⟨todo, noRows, noBytes⟩ := before
  rw [Reading, fd, same.1, same.2, sameFile]
  refine ⟨todo, content, file, Nat.zero_le _, ?_⟩
  rw [noRows, noBytes]
  rfl

private theorem openMeta_keeps (ok : SessionOk rows s) (pc : s.pc = .openMeta) {answer : Answer}
    {s' : State} (stepped : mergeStep s answer = some s') : SessionOk rows s' := by
  have closed : s.metaFd = none := by simpa [pc, At] using ok.here
  simp only [mergeStep, pc] at stepped
  split at stepped
  · rename_i content file
    cases stepped
    exact ⟨ok.written, ok.heard, opened_reading ok closed file rfl rfl ⟨rfl, rfl⟩, rfl⟩
  · rename_i absent
    cases stepped
    refine ok.move {} ok.heard fun _ => ?_
    -- a sentinel that is already there comes after the metadata file
    cases saw : s.sawSentinel with
    | false => rfl
    | true =>
        rw [ok.written.whole (ok.heard.1 saw)] at absent
        cases absent

private theorem waitConsume_keeps (ok : SessionOk rows s) (pc : s.pc = .waitConsume)
    {answer : Answer} (waits : WaitsForMeta s (.merge answer)) {s' : State}
    (stepped : mergeStep s answer = some s') : SessionOk rows s' := by
  have here : s.metaFd = none ∧ s.sawSentinel = false := by simpa [pc, At] using ok.here
  have otherNames := waits pc
  simp only [mergeStep, pc] at stepped
  split at stepped
  · cases stepped
    exact ok.move {} ok.heard here
  · rename_i event events queued
    cases stepped
    have unseen : (event :: events).any lpIsCompletedSession = false := by
      rw [queued] at otherNames
      exact List.any_eq_false.mpr fun name mem => by simp [otherNames name mem]
    refine ok.move {} (consume_heard ok.heard queued) ?_
    simp only [consume, pc]
    exact ⟨here.1, by simp only [here.2, unseen, Bool.or_false]⟩

private theorem waitOpen_keeps (ok : SessionOk rows s) (pc : s.pc = .waitOpen) {answer : Answer}
    {s' : State} (stepped : mergeStep s answer = some s') : SessionOk rows s' := by
  obtain ⟨closed, unseen⟩ : s.metaFd = none ∧ s.sawSentinel = false := by
    simpa [pc, At] using ok.here
  simp only [mergeStep, pc, unseen, Bool.false_eq_true, if_false] at stepped
  cases stepped
  refine ⟨ok.written, ⟨nofun, ok.heard.2⟩, ?_, fun _ => rfl⟩
  cases file : s.metaFile with
  | none =>
      have before := ok.reading
      rw [Reading, closed] at before
      exact before
  | some content => exact opened_reading ok closed file file.symm rfl ⟨rfl, rfl⟩

private theorem mainConsume_keeps (ok : SessionOk rows s) (pc : s.pc = .mainConsume)
    {answer : Answer} {s' : State} (stepped : mergeStep s answer = some s') :
    SessionOk rows s' := by
  have here : s.metaFd.isSome = true := by simpa [pc, At] using ok.here
  simp only [mergeStep, pc] at stepped
  split at stepped
  · cases stepped
    exact ok.move {} ok.heard here
  · rename_i event events queued
    cases stepped
    refine ok.move {} (consume_heard ok.heard queued) ?_
    simp only [consume, pc]
    exact here

/-- Behind the final drain no row is left: the buffer holds the rest of the file, and no
newline. -/
private theorem flush_keeps (ok : SessionOk rows s) (pc : s.pc = .flush) {answer : Answer}
    {s' : State} (stepped : mergeStep s answer = some s') : SessionOk rows s' := by
  obtain ⟨saw, atEnd, noLf⟩ : s.sawSentinel = true ∧ s.metaFd = some (rowsText rows).length ∧
      lf ∉ s.metaBuf := by simpa [pc, At] using ok.here
  have whole := ok.written.whole (ok.heard.1 saw)
  have reading := ok.reading
  rw [Reading, atEnd] at reading
  obtain ⟨⟨todo, allRows⟩, content, file, _, taken⟩ := reading
  obtain rfl := Option.some.inj (file.symm.trans whole)
  have rest : rowsText todo = s.metaBuf := by
    rw [List.take_length, allRows, rowsText_append] at taken
    exact List.append_cancel_left taken
  have noTodo : todo = [] := no_rows_left (by rw [rest]; exact noLf)
  have done : s.parsed = rows := by rw [allRows, noTodo, List.append_nil]
  cases answer <;> simp only [mergeStep, pc] at stepped <;> cases stepped <;>
    exact ok.move {} ok.heard fun _ => done

private theorem merge_keeps (clean : ∀ row ∈ rows, IsRow row) (ok : SessionOk rows s)
    {answer : Answer} (waits : WaitsForMeta s (.merge answer)) {s' : State}
    (stepped : mergeStep s answer = some s') : SessionOk rows s' := by
  have here := ok.here
  cases pc : s.pc with
  | openMeta => exact openMeta_keeps ok pc stepped
  | waitConsume => exact waitConsume_keeps ok pc waits stepped
  | waitOpen => exact waitOpen_keeps ok pc stepped
  | drainRead call => exact drainRead_keeps ok pc stepped
  | drainLines call => exact drainLines_keeps clean ok pc stepped
  | mainConsume => exact mainConsume_keeps ok pc stepped
  | flush => exact flush_keeps ok pc stepped
  | returned status =>
      simp only [mergeStep, pc] at stepped
      cases stepped
  | watchDir =>
      simp only [mergeStep, pc] at stepped here
      cases answer <;> cases stepped
      · exact ok.move {} ⟨ok.heard.1, by simp⟩ here
      · exact ok.move {} ok.heard nofun
  | testSentinel =>
      simp only [mergeStep, pc] at stepped here
      cases stepped
      exact ok.move {} ⟨id, ok.heard.2⟩ here.1
  | waitHead =>
      simp only [mergeStep, pc] at stepped here
      split_ifs at stepped with waiting
      · cases answer <;> cases stepped
        · exact ok.move {} ok.heard waiting
        · exact ok.move {} ok.heard nofun
      · cases stepped
        have isOpen : s.metaFd.isSome = true :=
          Option.isSome_iff_ne_none.mpr fun closed => waiting ⟨closed, here closed⟩
        exact ok.move {} ok.heard isOpen
  | waitPoll =>
      simp only [mergeStep, pc] at stepped here
      cases answer <;> cases stepped
      · refine ok.move {} ok.heard ?_
        dsimp only
        split_ifs <;> exact here
      · exact ok.move {} ok.heard fun _ => here.2
  | waitEnd =>
      simp only [mergeStep, pc] at stepped here
      obtain ⟨offset, fd⟩ := Option.isSome_iff_exists.mp here
      split at stepped
      · rename_i closed
        rw [fd] at closed
        cases closed
      · cases stepped
        exact ok.move {} ok.heard here
  | watchFile =>
      simp only [mergeStep, pc] at stepped here
      cases answer <;> cases stepped
      · exact ok.move {} ok.heard here
      · exact ok.move {} ok.heard nofun
  | mainHead =>
      simp only [mergeStep, pc] at stepped here
      cases stepped
      refine ok.move {} ok.heard ?_
      dsimp only
      split_ifs with saw
      · exact ⟨here, saw⟩
      · exact here
  | mainPoll =>
      simp only [mergeStep, pc] at stepped here
      cases answer <;> cases stepped <;>
        exact ok.move {} ok.heard here
  | mainFile fileReady dirReady =>
      simp only [mergeStep, pc] at stepped here
      cases fileReady <;> cases stepped <;>
        exact ok.move {} ok.heard here
  | mainDir dirReady =>
      simp only [mergeStep, pc] at stepped here
      cases dirReady <;> cases stepped <;>
        exact ok.move {} ok.heard here
  | mainSentinel =>
      simp only [mergeStep, pc] at stepped here
      cases stepped
      refine ok.move {} ⟨fun saw => ?_, ok.heard.2⟩ here
      rcases Bool.or_eq_true_iff.mp saw with before | present
      · exact ok.heard.1 before
      · exact present
  | mainIdle =>
      simp only [mergeStep, pc] at stepped here
      cases answer <;> cases stepped
      · exact ok.move {} ok.heard here
      · exact ok.move {} ok.heard nofun

/-- While the wait for the metadata file leaves the event of the sentinel in the queue, a run
that returns 0 has passed on every row. -/
theorem session_lossless (session : Bytes) (clean : ∀ row ∈ rows, IsRow row) {s : State}
    {schedule : List Move}
    (waits : Schedule.Guarded (step session rows) WaitsForMeta start schedule)
    (ran : Schedule.run (step session rows) start schedule = some s) : Lossless rows s := by
  have ok : SessionOk rows s := by
    refine Schedule.run_invariant (step session rows) WaitsForMeta (SessionOk rows)
      (fun {s move s'} ok guarded stepped => ?_) (start_ok rows) waits ran
    cases move with
    | ingest n => exact ingest_keeps ok stepped
    | merge answer => exact merge_keeps clean ok guarded stepped
  intro returned
  have here := ok.here
  rw [returned] at here
  exact here rfl

def mergeMoves (n : Nat) : List Move := List.replicate n (.merge .expected)

/-- The wait wakes up for the close of the metadata file, before the sentinel is created. -/
def timelySchedule : List Move :=
  mergeMoves 4 ++ [.ingest 0, .ingest 1, .ingest 0] ++ mergeMoves 7 ++ [.ingest 0, .ingest 0] ++
    mergeMoves 16

theorem session_lossless_timely :
    ∃ s, Schedule.run (step (ascii "cam") [ascii "r"]) start timelySchedule = some s ∧
      s.pc = .returned 0 ∧ Lossless [ascii "r"] s :=
  ⟨(Schedule.run (step (ascii "cam") [ascii "r"]) start timelySchedule).get (by decide +kernel),
    (Option.some_get _).symm, by decide +kernel,
    session_lossless (ascii "cam") (by decide)
      (show Schedule.Guarded (step (ascii "cam") [ascii "r"]) WaitsForMeta start timelySchedule by
        decide +kernel) (Option.some_get _).symm⟩

/-- The metadata file is closed and the sentinel created before the wait wakes up: it takes
both events at once, returns 0 and has not opened the file. -/
theorem sentinel_in_same_wakeup_loses_rows :
    ∃ schedule s, Schedule.run (step (ascii "cam") [ascii "r"]) start schedule = some s ∧
      s.pc = .returned 0 ∧ s.parsed = [] ∧ ¬ Lossless [ascii "r"] s :=
  ⟨mergeMoves 4 ++ [.ingest 0, .ingest 1, .ingest 0, .ingest 0, .ingest 0] ++ mergeMoves 6,
    (Schedule.run (step (ascii "cam") [ascii "r"]) start (mergeMoves 4 ++
      [.ingest 0, .ingest 1, .ingest 0, .ingest 0, .ingest 0] ++ mergeMoves 6)).get
        (by decide +kernel), (Option.some_get _).symm, by decide +kernel, by decide +kernel,
    by decide +kernel⟩

end StreamDataPipeline.StreamMerge.Completion
