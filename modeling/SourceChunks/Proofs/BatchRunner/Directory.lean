import SourceChunks.Proofs.BatchRunner.Batch

/-!
# The files of a directory are chunked once each

The files of a directory come to those in the queue, and batch after batch is done until the queue
is empty. Each batch takes a file at least and puts none back, so there is an end. What the files
are chunked to does not depend on how they were shared out among batches.
-/

namespace SourceChunks

variable {files : FileTree} {watch : Bytes → ParseEvent}

namespace BatchRunner

variable {b b' start : BatchRunner} {past : List Bytes} {result more : BatchResult}

/-! ## Batch after batch -/

/-- Since a runner started these files have been done, and the others are still queued. -/
structure Drained (files : FileTree) (watch : Bytes → ParseEvent) (start : BatchRunner)
    (past : List Bytes) (b : BatchRunner) (result : BatchResult) : Prop where
  /-- No file has come to the queue. -/
  past_append : past ++ b.queue.jobs.map Job.path = start.queue.jobs.map Job.path
  /-- The files that have been done have the chunks that they would have alone. -/
  get?_eq : ∀ path,
    result.get? path = if path ∈ past then (FileOutcome.ofFile files watch path).chunks? else none
  /-- Parsers have begun with these files. -/
  exists_parsed : ∃ parsed : List Bytes, parsed.Perm (past.flatMap (parsedFor files)) ∧
    b.parsed = start.parsed ++ parsed
  /-- The pool serves parsers. -/
  serves : b.pool.ServesParsers

/-- One more batch has been done. -/
theorem Drained.batch (h : Drained files watch start past b result) {n : ℕ}
    (hdoes : Does files watch (b.begun n) ((b.queue.pop n).2.map Job.path) b' more) :
    Drained files watch start (past ++ (b.queue.pop n).2.map Job.path) b' (merge result more) := by
  obtain ⟨deeds, -, hdone, -⟩ := hdoes.exists_deeds
  have hqueue : b'.queue = (b.queue.pop n).1 := hdone.queue_eq
  obtain ⟨before, hbefore, hstart⟩ := h.exists_parsed
  obtain ⟨parsed, hparsed, hbatch⟩ := hdoes.exists_parsed
  refine ⟨?_, ?_, ⟨before ++ parsed, ?_, ?_⟩, hdoes.serves⟩
  · rw [hqueue, List.append_assoc, JobQueue.map_path_pop]
    exact h.past_append
  · intro path
    have hmerge : (merge result more).get? path = (more.get? path).or (result.get? path) :=
      Dict.get?_foldl_insert more.sorted result path
    rw [hmerge, hdoes.get?_eq, h.get?_eq]
    simp only [List.mem_append]
    by_cases hpast : path ∈ past
    · simp only [hpast, true_or, if_true]
      split
      · exact Option.or_self
      · exact Option.none_or
    · simp only [hpast, false_or, if_false, Option.or_none]
  · rw [List.flatMap_append]
    exact hbefore.append hparsed
  · rw [hbatch, ← List.append_assoc, ← hstart]
    rfl

/-- A batch of a queue that is not empty has a file. So the runner is not cancelled after it, and
its queue is shorter. -/
theorem Does.of_size_ne_zero {paths : List Bytes} {n : ℕ}
    (h : Does files watch (b.begun n) paths b' more) (hn : 0 < n) (hsize : b.queue.size ≠ 0) :
    b'.isCancelled = false ∧ b'.queue.size < b.queue.size := by
  obtain ⟨deeds, -, hdone, -⟩ := h.exists_deeds
  have hlength : (b.queue.pop n).2.length = min n b.queue.size := List.length_take
  have hpopped : (b.queue.pop n).2.isEmpty = false := by
    rw [List.isEmpty_eq_false_iff_exists_mem]
    exact List.exists_mem_of_length_pos (by omega)
  refine ⟨?_, ?_⟩
  · rw [hdone.isCancelled_eq, begun, hpopped, Bool.and_false]
  · rw [hdone.queue_eq, begun, JobQueue.size_pop]
    omega

/-- When the queue is empty all files have been done. -/
theorem Drained.of_size_eq_zero (h : Drained files watch start past b result)
    (hsize : b.queue.size = 0) :
    b.queue.jobs = [] ∧ Drained files watch start (start.queue.jobs.map Job.path) b result := by
  have hjobs : b.queue.jobs = [] := List.length_eq_zero_iff.mp hsize
  have hpast := h.past_append
  rw [hjobs, List.map_nil, List.append_nil] at hpast
  exact ⟨hjobs, hpast ▸ h⟩

/-- The runner that does batch after batch by itself empties the queue. -/
theorem Drained.drain (h : Drained files watch start past b result)
    (hwatch : ∀ path, watch path ≠ .cancel) (now : Int) {limit : ℕ}
    (hlimit : b.queue.size ≤ limit) :
    (b.drain files now watch result limit).1.queue.jobs = [] ∧
      Drained files watch start (start.queue.jobs.map Job.path)
        (b.drain files now watch result limit).1 (b.drain files now watch result limit).2 := by
  induction limit generalizing b past result with
  | zero => exact h.of_size_eq_zero (Nat.le_zero.mp hlimit)
  | succ limit ih =>
    rw [BatchRunner.drain]
    split
    · next hsize => exact h.of_size_eq_zero hsize
    · next hsize =>
      have hdoes := Crew.does_process files hwatch h.serves now b.batchSize
      obtain ⟨hcancelled, hless⟩ := hdoes.of_size_ne_zero b.batchSize_pos hsize
      simp only [hcancelled, Bool.false_eq_true, if_false]
      exact ih (h.batch hdoes) (by omega)

end BatchRunner

/-! ## Workers on batch after batch -/

open BatchRunner

/-- What is going on while the queue of a runner is emptied. -/
inductive DrainPhase where
  /-- The runner looks whether a file is queued. -/
  | look (b : BatchRunner) (result : BatchResult)
  /-- Workers share a batch. -/
  | batch (c : Crew) (result : BatchResult)
  /-- Nothing more. -/
  | done (b : BatchRunner) (result : BatchResult)

namespace DrainPhase

variable {b start : BatchRunner} {past : List Bytes} {result : BatchResult}

/-- What follows a batch. -/
def next (b : BatchRunner) (result : BatchResult) : DrainPhase :=
  if b.isCancelled then .done b result else .look b result

/-- The queue is emptied batch by batch. -/
inductive Step (files : FileTree) (watch : Bytes → ParseEvent) : DrainPhase → DrainPhase → Prop
  | stop {b : BatchRunner} {result : BatchResult} (hempty : b.queue.size = 0) :
      Step files watch (.look b result) (.done b result)
  | start {b : BatchRunner} {result : BatchResult} (hsize : b.queue.size ≠ 0) :
      Step files watch (.look b result) (.batch (.ofBatch b true b.batchSize) result)
  | work {c c' : Crew} {result : BatchResult} (hstep : Crew.Step files watch c c') :
      Step files watch (.batch c result) (.batch c' result)
  | collect {c : Crew} {result : BatchResult} (hfinished : c.isFinished) :
      Step files watch (.batch c result) (next c.close.1 (merge result c.close.2))

/-- If the workers on a batch come to an end and so does what follows, the whole does. -/
theorem comesToEnd_batch {P : Crew → Prop} {Q : DrainPhase → Prop} {c : Crew}
    (h : ComesToEnd (Crew.Step files watch) P c)
    (hnext : ∀ c, P c →
      ComesToEnd (Step files watch) Q (next c.close.1 (merge result c.close.2))) :
    ComesToEnd (Step files watch) Q (.batch c result) := by
  induction h with
  | @intro c _ hlast ih =>
    refine .intro ?_ ?_
    · intro t hstep
      cases hstep with
      | work hstep => exact ih _ hstep
      | collect hfinished =>
        exact hnext c (hlast fun _ => Crew.not_step_of_phases_eq (Crew.isFinished_iff.mp hfinished))
    · intro hend
      have hstop := Crew.eq_stop_of_forall_not_step fun c' hstep => hend _ (.work hstep)
      exact absurd (.collect (Crew.isFinished_iff.mpr hstop)) (hend _)

/-- However the workers go on, the queue is emptied. -/
theorem comesToEnd_look (h : Drained files watch start past b result)
    (hwatch : ∀ path, watch path ≠ .cancel) :
    ComesToEnd (Step files watch)
      (fun s => ∃ b' result', s = .done b' result' ∧ b'.queue.jobs = [] ∧
        Drained files watch start (start.queue.jobs.map Job.path) b' result')
      (.look b result) := by
  induction hn : b.queue.size using Nat.strong_induction_on generalizing b past result with
  | _ n ih =>
    refine .intro ?_ ?_
    · intro t hstep
      cases hstep with
      | stop hempty =>
        exact .intro nofun fun _ => ⟨b, result, rfl, h.of_size_eq_zero hempty⟩
      | start hsize =>
        refine comesToEnd_batch (Crew.comesToEnd_ofBatch hwatch h.serves true b.batchSize) ?_
        intro c hdoes
        obtain ⟨hcancelled, hless⟩ := hdoes.of_size_ne_zero b.batchSize_pos hsize
        rw [next, hcancelled]
        exact ih _ (hn ▸ hless) (h.batch hdoes) rfl
    · intro hend
      by_cases hempty : b.queue.size = 0
      · exact absurd (.stop hempty) (hend _)
      · exact absurd (.start hempty) (hend _)

end DrainPhase

namespace BatchRunner

variable {b start : BatchRunner} {directory : Bytes} {options : ScanOptions} {path : Bytes}

/-! ## Directories -/

/-- The same runner with another size of its batches and another number of workers. -/
def configured (b : BatchRunner) (batchSize maxWorkers : ℕ) : BatchRunner :=
  { BatchRunner.new batchSize maxWorkers b.pool b.monitor with
    queue := b.queue
    isCancelled := b.isCancelled
    parsed := b.parsed }

/-- The files that are to be done with those of a directory: those that are queued, and those that
are found there, have a known language and are neither queued nor processed. -/
def Due (files : FileTree) (b : BatchRunner) (directory : Bytes) (options : ScanOptions)
    (path : Bytes) : Prop :=
  b.queue.isQueued path ∨
    path ∈ (files.scan files.scanIgnores directory options).map FoundFile.path ∧
      (Language.ofExtension? (Path.extension path)).isSome ∧
      ¬ b.queue.isQueued path ∧ ¬ b.queue.isProcessed path

/-- All files that are due have been done, each of them once, with this result. -/
structure Drains (files : FileTree) (b : BatchRunner) (directory : Bytes) (options : ScanOptions)
    (result : BatchResult) (after : BatchRunner × BatchResult) : Prop where
  /-- The queue is empty. -/
  jobs_eq : after.1.queue.jobs = []
  /-- The result is this one. -/
  result_eq : after.2 = result
  /-- A parser has begun once with each file that is due and can be read. -/
  exists_parsed : ∃ parsed : List Bytes, after.1.parsed = b.parsed ++ parsed ∧ parsed.Nodup ∧
    ∀ path, path ∈ parsed ↔ Due files b directory options path ∧
      (Language.ofExtension? (Path.extension path)).isSome ∧ (files.read? path).isSome

/-- Adding a directory puts the files of its scan, in order, into the queue. -/
theorem addDirectory_eq (b : BatchRunner) (priority : Bytes → Int) :
    addDirectory files b directory options priority =
      { b with
        queue := ((files.scan files.scanIgnores directory options).filter
          fun f => (Language.ofExtension? (Path.extension f.path)).isSome).foldl
            (fun q f => (q.push f.path (priority f.path)).1) b.queue } := by
  rw [addDirectory]
  generalize (files.scan files.scanIgnores directory options).filter _ = found
  induction found generalizing b with
  | nil => rfl
  | cons f rest ih => exact ih _

/-- After a directory is added, the queue holds exactly what is due. -/
theorem mem_addDirectory_iff (h : b.queue.Consistent) (priority : Bytes → Int) :
    path ∈ (addDirectory files b directory options priority).queue.jobs.map Job.path ↔
      Due files b directory options path := by
  rw [addDirectory_eq, ← (h.foldl_push _).isQueued_iff, JobQueue.isQueued_foldl_push_iff, Due]
  have hfound : path ∈ ((files.scan files.scanIgnores directory options).filter
      fun f => (Language.ofExtension? (Path.extension f.path)).isSome).map FoundFile.path ↔
      path ∈ (files.scan files.scanIgnores directory options).map FoundFile.path ∧
        (Language.ofExtension? (Path.extension path)).isSome := by
    simp only [List.mem_map, List.mem_filter]
    constructor
    · rintro ⟨f, ⟨hf, hknown⟩, rfl⟩
      exact ⟨⟨f, hf, rfl⟩, hknown⟩
    · rintro ⟨⟨f, hf, rfl⟩, hknown⟩
      exact ⟨f, ⟨hf, hknown⟩, rfl⟩
  rw [hfound]
  tauto

/-- Parsers begin with the files that have a known language and can be read. -/
theorem flatMap_parsedFor (paths : List Bytes) :
    paths.flatMap (parsedFor files) = paths.filter fun path =>
      (Language.ofExtension? (Path.extension path)).isSome && (files.read? path).isSome := by
  induction paths with
  | nil => rfl
  | cons path rest ih =>
    rw [List.flatMap_cons, ih, parsedFor, List.filter_cons]
    cases Language.ofExtension? (Path.extension path) with
    | none => rfl
    | some language => cases files.read? path <;> rfl

/-- The files that are due are queued, and no others, and nothing else has changed. -/
structure QueuesDue (files : FileTree) (b : BatchRunner) (directory : Bytes) (options : ScanOptions)
    (start : BatchRunner) : Prop where
  /-- No file is queued twice. -/
  consistent : start.queue.Consistent
  /-- The queued files are those that are due. -/
  mem_iff : ∀ path,
    path ∈ start.queue.jobs.map Job.path ↔ Due files b directory options path
  /-- No further file has been parsed. -/
  parsed_eq : start.parsed = b.parsed
  /-- The pool serves parsers. -/
  serves : start.pool.ServesParsers

/-- A directory added to a runner in use leaves queued just what is due, whatever the settings. -/
theorem Used.queuesDue (hused : b.Used) (files : FileTree) (directory : Bytes)
    (options : ScanOptions) (batchSize maxWorkers : ℕ) (priority : Bytes → Int) :
    QueuesDue files b directory options
      (addDirectory files (b.configured batchSize maxWorkers) directory options priority) := by
  obtain ⟨history, hrun⟩ := hused.queue
  have hmem (path : Bytes) : path ∈ (addDirectory files (b.configured batchSize maxWorkers)
      directory options priority).queue.jobs.map Job.path ↔ Due files b directory options path :=
    mem_addDirectory_iff (b := b.configured batchSize maxWorkers) hrun.consistent priority
  rw [addDirectory_eq] at hmem ⊢
  exact ⟨hrun.consistent.foldl_push _, hmem, rfl, hused.servesParsers⟩

/-- Before the first batch nothing is drained, and everything due is queued. -/
theorem QueuesDue.drained (h : QueuesDue files b directory options start) :
    Drained files watch start [] start .empty :=
  ⟨rfl, fun _ => rfl, ⟨[], .rfl, (List.append_nil _).symm⟩, h.serves⟩

/-- Once all files that were due have been done, they have the chunks that they would have
alone. -/
theorem Drained.get?_eq_some_iff {after : BatchRunner × BatchResult}
    (h : Drained files watch start (start.queue.jobs.map Job.path) after.1 after.2)
    (hstart : QueuesDue files b directory options start) (path : Bytes) (chunks : List Chunk) :
    after.2.get? path = some chunks ↔
      Due files b directory options path ∧ FileOutcome.Yields files watch path chunks := by
  rw [h.get?_eq, FileOutcome.ite_chunks?_ofFile_eq_some_iff, hstart.mem_iff]

/-- Once all files that were due have been done, parsers have begun once with each of them. -/
theorem Drained.exists_begun {after : BatchRunner × BatchResult}
    (h : Drained files watch start (start.queue.jobs.map Job.path) after.1 after.2)
    (hstart : QueuesDue files b directory options start) :
    ∃ parsed : List Bytes, after.1.parsed = b.parsed ++ parsed ∧ parsed.Nodup ∧
      ∀ path, path ∈ parsed ↔ Due files b directory options path ∧
        (Language.ofExtension? (Path.extension path)).isSome ∧ (files.read? path).isSome := by
  obtain ⟨parsed, hperm, hafter⟩ := h.exists_parsed
  rw [flatMap_parsedFor] at hperm
  refine ⟨parsed, ?_, ?_, ?_⟩
  · rw [hafter, hstart.parsed_eq]
  · exact hperm.nodup_iff.mpr (hstart.consistent.nodup_paths.filter _)
  · intro path
    rw [hperm.mem_iff, List.mem_filter, hstart.mem_iff, Bool.and_eq_true]

/-- Whatever the runner has been used for before, and whatever the size of its batches, the number
of its workers and the priorities of the files are: unless it is cancelled, it comes to an end with
the files of a directory, and then the queue is empty, each file that was due has been done once,
and the result is the same. -/
theorem directory_drains (hused : b.Used) (hwatch : ∀ path, watch path ≠ .cancel)
    (hdirectory : files.isDirectoryAt directory) (options : ScanOptions) :
    ∃ result : BatchResult,
      (∀ path chunks, result.get? path = some chunks ↔
        Due files b directory options path ∧ FileOutcome.Yields files watch path chunks) ∧
      ∀ batchSize maxWorkers priority,
        (∀ now, Drains files b directory options result
          ((b.configured batchSize maxWorkers).processDirectory files now watch directory options
            priority)) ∧
        ComesToEnd (DrainPhase.Step files watch)
          (fun s => ∃ after, s = .done after.1 after.2 ∧
            Drains files b directory options result after)
          (.look ((b.configured batchSize maxWorkers).addDirectory files directory options priority)
            .empty) := by
  have hstart := hused.queuesDue files directory options
  have halone (batchSize maxWorkers : ℕ) (priority : Bytes → Int) (now : Int) :=
    (hstart batchSize maxWorkers priority).drained.drain hwatch now le_rfl
  -- The result is that of one choice; with any other one the same look-ups come out.
  obtain ⟨result, hresult⟩ : ∃ result : BatchResult, ∀ path chunks,
      result.get? path = some chunks ↔
        Due files b directory options path ∧ FileOutcome.Yields files watch path chunks :=
    ⟨_, (halone 1 1 (fun _ => 0) 0).2.get?_eq_some_iff (hstart 1 1 fun _ => 0)⟩
  refine ⟨result, hresult, ?_⟩
  intro batchSize maxWorkers priority
  have hdrains (after : BatchRunner × BatchResult)
      (h : after.1.queue.jobs = [] ∧ Drained files watch
        (addDirectory files (b.configured batchSize maxWorkers) directory options priority)
        ((addDirectory files (b.configured batchSize maxWorkers) directory options
          priority).queue.jobs.map Job.path) after.1 after.2) :
      Drains files b directory options result after := by
    refine ⟨h.1, Dict.ext_get? fun path => Option.ext fun chunks => ?_,
      h.2.exists_begun (hstart batchSize maxWorkers priority)⟩
    rw [h.2.get?_eq_some_iff (hstart batchSize maxWorkers priority), hresult]
  refine ⟨?_, ?_⟩
  · intro now
    rw [processDirectory, if_pos hdirectory]
    exact hdrains _ (halone batchSize maxWorkers priority now)
  · have hend := DrainPhase.comesToEnd_look (hstart batchSize maxWorkers priority).drained hwatch
    refine hend.mono ?_
    rintro s ⟨b', result', rfl, h⟩
    exact ⟨(b', result'), rfl, hdrains _ h⟩

/-- A queued file and one that is found are chunked, whatever the sizes and priorities are, and
though the parser gives up on another queued file and two more are not there. -/
theorem directory_drains_queuedAndFound :
    let files : FileTree := .directory
      [(bytes "a.py", .file (bytes "x")), (bytes "bad.py", .file (bytes "z")),
        (bytes "d", .directory [(bytes "b.py", .file (bytes "y"))])]
    let watch := failsOn (bytes "bad.py")
    let options : ScanOptions := ⟨bytes "*", true⟩
    fourQueued.Used ∧ (∀ path, watch path ≠ .cancel) ∧ files.isDirectoryAt (bytes "d") ∧
      ∃ result : BatchResult,
        result.get? (bytes "a.py") = some (chunkText .python (bytes "a.py") (bytes "x")) ∧
        result.get? (bytes "d/b.py") = some (chunkText .python (bytes "d/b.py") (bytes "y")) ∧
        ∀ batchSize maxWorkers priority now,
          let after := (fourQueued.configured batchSize maxWorkers).processDirectory files now watch
            (bytes "d") options priority
          after.1.queue.jobs = [] ∧ after.2 = result := by
  intro files watch options
  have hwatch := failsOn_ne_cancel (bytes "bad.py")
  have hdirectory : files.isDirectoryAt (bytes "d") := by decide +kernel
  obtain ⟨result, hresult, hdrains⟩ :=
    directory_drains used_fourQueued hwatch hdirectory options
  refine ⟨used_fourQueued, hwatch, hdirectory, result, ?_, ?_, ?_⟩
  · refine (hresult _ _).mpr ⟨.inl ?_, .python, bytes "x", ?_, ?_, ?_, rfl⟩
    all_goals decide +kernel
  · refine (hresult _ _).mpr ⟨.inr ⟨?_, ?_, ?_, ?_⟩, .python, bytes "y", ?_, ?_, ?_, rfl⟩
    all_goals decide +kernel
  · intro batchSize maxWorkers priority now
    have h := (hdrains batchSize maxWorkers priority).1 now
    exact ⟨h.jobs_eq, h.result_eq⟩

end BatchRunner

end SourceChunks
