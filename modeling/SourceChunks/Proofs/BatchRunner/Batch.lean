import SourceChunks.Proofs.BatchRunner.Crew
import SourceChunks.Proofs.JobQueue.Order

/-!
# A batch is as good as its files one by one

Parsers are used again for other files, and several workers may share a batch. None of this shows:
the result of a batch has for each file what it would be chunked to alone, and a file that cannot be
chunked leaves no trace but a count.
-/

namespace SourceChunks

variable {files : FileTree} {watch : Bytes → ParseEvent}

namespace FileOutcome

/-- The number of bytes of the text of a file that was chunked. -/
def size? : FileOutcome → Option ℕ
  | .chunked size _ => some size
  | _ => none

end FileOutcome

namespace BatchRunner

variable {b b' : BatchRunner} {paths : List Bytes} {path : Bytes} {result : BatchResult}

/-! ## What the deeds for some files come to -/

/-- What the deeds for a batch parse is what each of its files calls for. -/
theorem filterMap_parsed?_deedsForAll (files : FileTree) (watch : Bytes → ParseEvent)
    (paths : List Bytes) :
    (deedsForAll files watch paths).filterMap Deed.parsed? = paths.flatMap (parsedFor files) := by
  rw [deedsForAll, List.filterMap_flatMap]
  congr 1
  funext path
  simp [deedsFor, List.filterMap_append, List.filterMap_map, Deed.parsed?, Function.comp_def]

/-- The deeds for a batch deliver each of its paths once, with the outcome of its file. -/
theorem filterMap_delivery?_deedsForAll (paths : List Bytes) :
    (deedsForAll files watch paths).filterMap Deed.delivery? =
      paths.map fun path => (path, FileOutcome.ofFile files watch path) := by
  rw [deedsForAll, List.filterMap_flatMap, ← List.flatMap_singleton' (paths.map _),
    List.flatMap_map]
  congr 1
  funext path
  simp [deedsFor, List.filterMap_append, List.filterMap_map, Deed.delivery?, Function.comp_def]

/-- The values a metric gets from a batch are those its files record under that name. -/
theorem filterMap_value?_deedsForAll (metric : Bytes) (paths : List Bytes) :
    (deedsForAll files watch paths).filterMap (Deed.value? metric) =
      paths.flatMap fun path => (FileOutcome.ofFile files watch path).records.filterMap fun x =>
        if metric = bytes x.1 then some x.2 else none := by
  rw [deedsForAll, List.filterMap_flatMap]
  congr 1
  funext path
  simp [deedsFor, List.filterMap_append, List.filterMap_map, Deed.value?, Function.comp_def]

/-- A delivered outcome stands for its own path only; a failed one leaves an earlier result in
place. -/
theorem get?_deliver (result : BatchResult) (path path' : Bytes) (outcome : FileOutcome) :
    (deliver result path outcome).get? path' =
      if path' = path then outcome.chunks?.or (result.get? path') else result.get? path' := by
  rw [deliver]
  split
  · next chunks hchunks =>
    rw [Dict.get?_insert, hchunks]
    rfl
  · next hnone =>
    rw [hnone, Option.none_or, ite_self]

/-- What was delivered for a file is in the result, whatever was delivered for others. -/
theorem get?_foldl_deliver (files : FileTree) (watch : Bytes → ParseEvent)
    {deliveries : List (Bytes × FileOutcome)}
    (h : ∀ x ∈ deliveries, x.2 = FileOutcome.ofFile files watch x.1) (result : BatchResult)
    (path : Bytes) :
    (deliveries.foldl (fun result x => deliver result x.1 x.2) result).get? path =
      if path ∈ deliveries.map Prod.fst then
        (FileOutcome.ofFile files watch path).chunks?.or (result.get? path)
      else result.get? path := by
  induction deliveries generalizing result with
  | nil => rfl
  | cons x rest ih =>
    rw [List.foldl_cons, ih fun y hy => h y (List.mem_cons_of_mem _ hy), get?_deliver,
      h x List.mem_cons_self]
    by_cases hx : path = x.1
    · simp [hx, ← Option.or_assoc]
    · simp only [hx, if_false, List.map_cons, List.mem_cons, false_or]

/-- After a batch, the results hold the chunks of exactly the batch's paths that were chunked. -/
theorem Does.get?_eq (h : Does files watch b paths b' result) (path : Bytes) :
    result.get? path =
      if path ∈ paths then (FileOutcome.ofFile files watch path).chunks? else none := by
  obtain ⟨deeds, hperm, -, rfl⟩ := h.exists_deeds
  have hdeliveries := (hperm.filterMap Deed.delivery?).trans
    (.of_eq (filterMap_delivery?_deedsForAll paths))
  rw [deliverAll, get?_foldl_deliver files watch]
  · have hmem := (hdeliveries.map Prod.fst).mem_iff (a := path)
    rw [List.map_map, Function.comp_def, List.map_id'] at hmem
    simp only [hmem, Dict.get?_empty, Option.or_none]
  · intro x hx
    obtain ⟨path', -, rfl⟩ := List.mem_map.mp (hdeliveries.mem_iff.mp hx)
    rfl

/-- A batch adds to the parsed files just what its paths call for, in some order. -/
theorem Does.exists_parsed (h : Does files watch b paths b' result) :
    ∃ parsed : List Bytes, parsed.Perm (paths.flatMap (parsedFor files)) ∧
      b'.parsed = b.parsed ++ parsed := by
  obtain ⟨deeds, hperm, hdone, -⟩ := h.exists_deeds
  refine ⟨deeds.filterMap Deed.parsed?, ?_, hdone.parsed_eq⟩
  rw [← filterMap_parsed?_deedsForAll files watch]
  exact hperm.filterMap _

/-! ## Metrics -/

/-- A metric has gained some values, in some order. Of the old and the new ones the last stay. -/
def Gains (metric : String) (new : List Float) (m m' : Monitor Float) : Prop :=
  ∃ recorded : List Float, recorded.Perm new ∧
    m'.valuesOf (bytes metric) = (m.valuesOf (bytes metric) ++ recorded).rtake m.window

/-- A metric with another first letter than that of the metrics of durations is none of these. -/
theorem ne_metricOf {metric : Bytes} (h : metric.head? ≠ (bytes "operation.").head?)
    (operation : Bytes) : metric ≠ Monitor.metricOf operation := by
  rintro rfl
  exact h (List.head?_append_of_ne_nil _ (by decide))

/-- A metric gains the values of all files, unless it is one of durations. -/
theorem Does.gains (h : Does files watch b paths b' result) (metric : String)
    (value? : FileOutcome → Option Float) (hwindowed : b.monitor.Windowed)
    (hmetric : (bytes metric).head? ≠ (bytes "operation.").head?)
    (hvalue : ∀ outcome, outcome.records.filterMap
      (fun x => if bytes metric = bytes x.1 then some x.2 else none) = (value? outcome).toList) :
    Gains metric (paths.filterMap fun path => value? (FileOutcome.ofFile files watch path))
      b.monitor b'.monitor := by
  obtain ⟨deeds, hperm, hdone, -⟩ := h.exists_deeds
  refine ⟨deeds.filterMap (Deed.value? (bytes metric)), ?_, ?_⟩
  · refine (hperm.filterMap _).trans (.of_eq ?_)
    rw [filterMap_value?_deedsForAll, List.filterMap_eq_flatMap_toList]
    simp only [hvalue]
  · rw [hdone.valuesOf_eq _ (ne_metricOf hmetric), Monitor.foldl_push (hwindowed _)]

/-! ## Batches -/

/-- The queue, the pool and the monitor of a runner have been used in any way since they were new.
Only the factory for parsers is still the one that it was, and parsers stayed parsers of their
languages. -/
structure Used (b : BatchRunner) : Prop where
  /-- The queue has been used. -/
  queue : ∃ history, JobQueue.Run history b.queue
  /-- The pool has been used. -/
  pool : ∃ c : Custody, c.Used ∧ b.pool = c.pool
  /-- The monitor has been used. -/
  monitor : ∃ (window : ℕ) (operations : List (MonitorOperation Float)),
    b.monitor = operations.foldl Monitor.perform (.new window)

/-- What is to be after a batch of `n` files, given those that have left the queue: these were the
most urgent ones, each of them has the chunks that it would have alone, or none, and what was
recorded and what is in use of the pool fit this. -/
structure Completes (files : FileTree) (watch : Bytes → ParseEvent) (b : BatchRunner) (n : ℕ)
    (popped : List Job) (after : BatchRunner × BatchResult) : Prop where
  /-- As many files as asked for have left the queue, or all. -/
  length_popped : popped.length = min n b.queue.size
  /-- The others are still there. -/
  popped_append : popped ++ after.1.queue.jobs = b.queue.jobs
  /-- None of them is more urgent. -/
  not_before : ∀ job ∈ popped, ∀ left ∈ after.1.queue.jobs, ¬ left.before job
  /-- The files that have left are processed. -/
  isProcessed_iff : ∀ path,
    after.1.queue.isProcessed path ↔ b.queue.isProcessed path ∨ path ∈ popped.map Job.path
  /-- Those that can be chunked have their chunks, and no other file has any. -/
  get?_eq_some_iff : ∀ path chunks, after.2.get? path = some chunks ↔
    path ∈ popped.map Job.path ∧ FileOutcome.Yields files watch path chunks
  /-- Each file that failed counts as one error. -/
  errors : Gains "batch.errors"
    (List.replicate (popped.countP fun job => FileOutcome.ofFile files watch job.path = .failed) 1)
    b.monitor after.1.monitor
  /-- The size of each file that was chunked is recorded. -/
  fileSizes : Gains "batch.file_size"
    ((popped.map Job.path).filterMap fun path =>
      (FileOutcome.ofFile files watch path).size?.map Scalar.ofNat)
    b.monitor after.1.monitor
  /-- The number of chunks of each file that was chunked is recorded. -/
  chunkCounts : Gains "batch.chunk_count"
    ((popped.map Job.path).filterMap fun path =>
      (FileOutcome.ofFile files watch path).chunks?.map fun chunks => Scalar.ofNat chunks.length)
    b.monitor after.1.monitor
  /-- As many resources of each type are in use as before. -/
  inUse_eq : ∀ type, (after.1.pool.countsOf type).inUse = (b.pool.countsOf type).inUse

/-- A pool in use serves every language with a parser of that language. -/
theorem Used.servesParsers (h : b.Used) : b.pool.ServesParsers := by
  obtain ⟨c, hc, hpool⟩ := h.pool
  rw [hpool]
  exact hc.holdsParsers.serves

/-- A monitor in use keeps no more measurements than its window allows. -/
theorem Used.windowed (h : b.Used) : b.monitor.Windowed := by
  obtain ⟨window, operations, hmonitor⟩ := h.monitor
  rw [hmonitor]
  exact Monitor.windowed_foldl window operations

/-- A failed file counts as one error. -/
theorem filterMap_failed (paths : List Bytes) :
    (paths.filterMap fun path =>
      if FileOutcome.ofFile files watch path = .failed then some (1 : Float) else none) =
    List.replicate (paths.countP fun path => FileOutcome.ofFile files watch path = .failed) 1 := by
  induction paths with
  | nil => rfl
  | cons path rest ih =>
    by_cases hfailed : FileOutcome.ofFile files watch path = .failed
    · simp [hfailed, ih, List.replicate_succ]
    · simp [hfailed, ih]

/-- Whatever does all that was to be done for a batch brings about what is to be after it. -/
theorem Does.completes {n : ℕ}
    (h : Does files watch (b.begun n) ((b.queue.pop n).2.map Job.path) b' result) (hused : b.Used) :
    Completes files watch b n (b.queue.pop n).2 (b', result) := by
  obtain ⟨history, hrun⟩ := hused.queue
  obtain ⟨hlength, happend, hbefore⟩ := hrun.pop_spec n
  obtain ⟨deeds, -, hdone, -⟩ := h.exists_deeds
  have hqueue : b'.queue = (b.queue.pop n).1 := hdone.queue_eq
  rw [← hqueue] at happend hbefore
  refine ⟨hlength, happend, hbefore, ?_, ?_, ?_, ?_, ?_, h.inUse_eq⟩
  · intro path
    rw [hqueue]
    exact JobQueue.isProcessed_pop_iff
  · intro path chunks
    rw [h.get?_eq]
    exact FileOutcome.ite_chunks?_ofFile_eq_some_iff files watch
  · have hgains := h.gains "batch.errors"
      (fun outcome => if outcome = .failed then some 1 else none) hused.windowed (by decide) ?_
    · rw [filterMap_failed, List.countP_map] at hgains
      exact hgains
    · intro outcome
      cases outcome <;> rfl
  · refine h.gains "batch.file_size" (fun outcome => outcome.size?.map Scalar.ofNat)
      hused.windowed (by decide) ?_
    intro outcome
    cases outcome <;> rfl
  · refine h.gains "batch.chunk_count"
      (fun outcome => outcome.chunks?.map fun chunks => Scalar.ofNat chunks.length)
      hused.windowed (by decide) ?_
    intro outcome
    cases outcome <;> rfl

/-- Whatever the runner has been used for before, how many files a batch is to have, and whether it
is done by the runner alone or by several workers whose steps may mix in any way: unless the runner
is cancelled the batch comes to an end, and then the most urgent files have left the queue and each
has the chunks that it would have alone. -/
theorem batch_completes (hused : b.Used) (files : FileTree)
    (hwatch : ∀ path, watch path ≠ .cancel) (n : ℕ) :
    ∃ popped, (∀ now, Completes files watch b n popped (b.process files now watch n)) ∧
      ∀ parallel, ComesToEnd (Crew.Step files watch)
        (fun c => Completes files watch b n popped c.close) (Crew.ofBatch b parallel n) := by
  refine ⟨(b.queue.pop n).2, ?_, ?_⟩
  · intro now
    exact (Crew.does_process files hwatch hused.servesParsers now n).completes hused
  · intro parallel
    exact (Crew.comesToEnd_ofBatch hwatch hused.servesParsers parallel n).mono
      fun c h => Does.completes h hused

/-- Something that is done with a pool before a batch: a parser is leased and chunks a text. -/
def oneTextParsed : List CustodyOperation :=
  [.lease (bytes "p") (ResourceFactory.parserType (bytes "python")),
    .use (bytes "p") fun
      | .parser parser => .parser (parser.chunk (bytes "old.py") (bytes "y")).1
      | body => body,
    .releaseLease (bytes "p")]

/-- A runner with four files whose pool has a parser that was used before. -/
def fourQueued : BatchRunner :=
  let b := BatchRunner.new 1 2 ((Custody.ofPool (.new 1)).after oneTextParsed).pool (.new 3)
  let queue := [("bad.py", 3), ("a.py", 1), ("none.py", 2), ("later.py", 0)].foldl
    (fun (q : JobQueue) job => (q.push (bytes job.1) job.2).1) .empty
  { b with queue }

/-- What happens when the parser gives up on one file. -/
def failsOn (bad path : Bytes) : ParseEvent := if path = bad then .fail else .proceed

/-- A watcher that fails on one path never cancels. -/
theorem failsOn_ne_cancel (bad path : Bytes) : failsOn bad path ≠ .cancel := by
  rw [failsOn]
  split <;> exact nofun

/-- The four-file runner can arise: four pushes fill its queue, and its pool was used before. -/
theorem used_fourQueued : fourQueued.Used where
  queue := ⟨_, (((JobQueue.Run.start.next (.push _ _)).next (.push _ _)).next (.push _ _)).next
    (.push _ _)⟩
  pool := by
    refine ⟨_, (Custody.Used.new 1).after oneTextParsed ?_, rfl⟩
    simp only [oneTextParsed, List.mem_cons, List.not_mem_nil, or_false]
    rintro operation (rfl | rfl | rfl)
    · trivial
    · exact fun parser => ⟨_, rfl, rfl⟩
    · trivial
  monitor := ⟨3, [], rfl⟩

/-- Of three files one is chunked, though the parser gives up on another one and the third one is
not there. These two count as errors. -/
theorem batch_completes_twoFail :
    let files : FileTree :=
      .directory [(bytes "a.py", .file (bytes "x")), (bytes "bad.py", .file (bytes "y"))]
    let watch := failsOn (bytes "bad.py")
    let chunks := chunkText .python (bytes "a.py") (bytes "x")
    fourQueued.Used ∧ (∀ path, watch path ≠ .cancel) ∧
      (∀ now, let after := fourQueued.process files now watch 3
        after.2.get? (bytes "a.py") = some chunks ∧ after.2.get? (bytes "bad.py") = none ∧
          Gains "batch.errors" [1, 1] fourQueued.monitor after.1.monitor) ∧
      ∀ parallel, ComesToEnd (Crew.Step files watch)
        (fun c => c.close.2.get? (bytes "a.py") = some chunks)
        (Crew.ofBatch fourQueued parallel 3) := by
  intro files watch chunks
  have hwatch := failsOn_ne_cancel (bytes "bad.py")
  obtain ⟨popped, halone, hcrew⟩ := batch_completes used_fourQueued files hwatch 3
  have hpopped : popped = [⟨bytes "bad.py", 3, 0⟩, ⟨bytes "none.py", 2, 2⟩,
      ⟨bytes "a.py", 1, 1⟩] := by
    have htake := congrArg (List.take popped.length) (halone 0).popped_append
    rw [List.take_left, (halone 0).length_popped] at htake
    rw [htake]
    decide +kernel
  have hchunks {after : BatchRunner × BatchResult}
      (h : Completes files watch fourQueued 3 popped after) :
      after.2.get? (bytes "a.py") = some chunks := by
    refine (h.get?_eq_some_iff _ _).mpr ⟨?_, .python, bytes "x", ?_, ?_, ?_, rfl⟩
    · rw [hpopped]
      decide
    · decide +kernel
    · decide +kernel
    · decide
  refine ⟨used_fourQueued, hwatch, ?_, fun parallel => (hcrew parallel).mono fun _ => hchunks⟩
  intro now
  refine ⟨hchunks (halone now), ?_, ?_⟩
  · refine Option.eq_none_iff_forall_ne_some.mpr fun found hfound => ?_
    obtain ⟨-, language, text, -, -, hnot, -⟩ := ((halone now).get?_eq_some_iff _ _).mp hfound
    exact hnot (by decide)
  · have herrors := (halone now).errors
    rw [hpopped] at herrors
    exact herrors

end BatchRunner

end SourceChunks
