import SourceChunks.BatchRunner.SharedBatch
import SourceChunks.Proofs.BatchRunner.Batch
import SourceChunks.Proofs.JobQueue.Requeueing

/-!
# A cancelled batch is split in two

The workers on a batch take its jobs by a shared counter, and each of them stops when it finds the
runner cancelled or no job left. Looking at the one and raising the other are two steps, between
which the others may make any number of steps and the cancellation may come in. Through all this the
jobs below the counter are those that were begun, and each of them is either done or a worker is at
it. So when all workers have stopped, the batch is split where the counter stands: what is below is
done, and what is above goes back to the queue as if it had never been popped.
-/

namespace SourceChunks

open BatchRunner

variable {files : FileTree} {watch : Bytes → ParseEvent}

/-! ## Steps for a file -/

namespace BatchRunner

/-- The queue stays as it is, and a cancellation is not taken back. -/
structure Keeps (b b' : BatchRunner) : Prop where
  /-- The queue stays as it is. -/
  queue_eq : b'.queue = b.queue
  /-- A cancellation is not taken back. -/
  isCancelled : b.isCancelled = true → b'.isCancelled = true

/-- A runner that is left alone keeps its queue and its cancellation. -/
theorem Keeps.refl (b : BatchRunner) : b.Keeps b := ⟨rfl, id⟩

/-- A chore neither changes the queue nor takes back a cancellation. -/
theorem keeps_perform (now : Int) (b : BatchRunner) (chore : Chore) :
    b.Keeps (b.perform now chore) := by
  cases chore <;> exact ⟨rfl, id⟩

/-- Parsing a file neither changes the queue nor takes back a cancellation. -/
theorem keeps_parse (b : BatchRunner) (r : Resource) (path : Bytes) :
    b.Keeps (b.parse files watch r path).1 := by
  rw [parse]
  split
  · cases watch path with
    | cancel => exact ⟨rfl, fun _ => rfl⟩
    | _ => exact ⟨rfl, id⟩
  · exact Keeps.refl b

/-- No step for a file changes the queue or takes back a cancellation. -/
theorem keeps_advance (now : Int) (b : BatchRunner) (path : Bytes) (phase : FilePhase) :
    b.Keeps (b.advance files watch now path phase).1 := by
  cases phase with
  | begin => exact ⟨rfl, id⟩
  | find timer language =>
    rw [advance]
    cases b.pool.takeFree? (ResourceFactory.parserType language.name) <;> exact ⟨rfl, id⟩
  | create timer language =>
    rw [advance]
    rcases b.pool.create (ResourceFactory.parserType language.name) with ⟨pool, failure | r⟩ <;>
      exact ⟨rfl, id⟩
  | parse timer r => exact keeps_parse b r path
  | finish outcome chores =>
    cases chores with
    | nil => exact Keeps.refl b
    | cons chore rest => exact keeps_perform now b chore

/-- A step for a file leaves less to be done, also when the parser fails or the runner is
cancelled. -/
theorem weight_advance_lt (now : Int) (b : BatchRunner) (path : Bytes) {phase : FilePhase}
    (hopen : phase.outcome? = none) :
    weight (b.advance files watch now path phase).2 < weight phase := by
  have hchores (outcome : FileOutcome) (timer : Measurement) (held : Option Resource) :
      weight (.finish outcome (outcome.chores timer held)) < 8 :=
    Nat.lt_succ_of_le (weight_chores_le outcome timer held)
  cases phase with
  | begin =>
    rw [advance]
    cases Language.ofExtension? (Path.extension path) with
    | none => exact (hchores _ _ _).trans (by decide)
    | some language => exact Nat.lt_succ_self 10
  | find timer language =>
    rw [advance]
    cases b.pool.takeFree? (ResourceFactory.parserType language.name) with
    | none => exact Nat.lt_succ_self 9
    | some taken => exact Nat.lt_add_of_pos_right Nat.two_pos
  | create timer language =>
    rw [advance]
    rcases b.pool.create (ResourceFactory.parserType language.name) with ⟨pool, failure | r⟩
    · exact (hchores _ _ _).trans (Nat.lt_succ_self 8)
    · exact Nat.lt_succ_self 8
  | parse timer r => exact hchores _ _ _
  | finish outcome chores =>
    cases chores with
    | nil => cases hopen
    | cons chore rest => exact Nat.lt_succ_self _

end BatchRunner

namespace WorkerPhase

/-- The file that a worker is at. -/
def path? : WorkerPhase → Option Bytes
  | .work path _ => some path
  | _ => none

/-- The files that workers are at. -/
def paths (phases : List WorkerPhase) : List Bytes := phases.filterMap path?

variable {phases : List WorkerPhase} {worker : ℕ} {phase : WorkerPhase}

/-- When a worker goes over to another phase, those before and after it stay as they are. -/
theorem exists_set_eq (hget : phases[worker]? = some phase) (phase' : WorkerPhase) :
    ∃ before after, phases = before ++ phase :: after ∧
      phases.set worker phase' = before ++ phase' :: after := by
  obtain ⟨hlt, rfl⟩ := List.getElem?_eq_some_iff.mp hget
  obtain ⟨before, after, hphases, -, hset⟩ : ∃ before after,
      phases = before ++ phases[worker] :: after ∧ before.length = worker ∧
        phases.set worker phase' = before ++ phase' :: after := List.exists_of_set hlt
  exact ⟨before, after, hphases, hset⟩

/-- When a worker goes over to another phase, the others stay at their files. -/
theorem paths_set_perm (hget : phases[worker]? = some phase) (phase' : WorkerPhase) :
    (phase.path?.toList ++ paths (phases.set worker phase')).Perm
      (phase'.path?.toList ++ paths phases) := by
  obtain ⟨before, after, hphases, hset⟩ := exists_set_eq hget phase'
  have hpaths (p : WorkerPhase) :
      (paths (before ++ p :: after)).Perm (p.path?.toList ++ (paths before ++ paths after)) := by
    rw [paths, List.filterMap_append, List.filterMap_cons]
    cases p.path? with
    | none => exact .rfl
    | some path => exact List.perm_middle
  rw [hset, hphases]
  refine ((hpaths phase').append_left _).trans ?_
  exact (List.perm_append_comm_assoc _ _ _).trans ((hpaths phase).symm.append_left _)

end WorkerPhase

namespace Crew

variable {c c' : Crew} {worker : ℕ} {phase phase' : WorkerPhase}

/-- When a worker goes over to another phase, it and the waiting files tell whether less is left. -/
theorem weight_lt_of_set (hget : c.phases[worker]? = some phase)
    (hset : c'.phases = c.phases.set worker phase')
    (hlt : phase'.weight + 11 * c'.waiting.length < phase.weight + 11 * c.waiting.length) :
    c'.weight < c.weight := by
  obtain ⟨before, after, hphases, hset'⟩ := WorkerPhase.exists_set_eq hget phase'
  rw [weight, weight, hset, hset', hphases, WorkerPhase.sum_map_append_cons,
    WorkerPhase.sum_map_append_cons]
  omega

/-- Whatever step a worker makes that has not stopped, less is left to be done. -/
theorem weight_stepWorker_lt (now : Int) (hget : c.phases[worker]? = some phase)
    (hopen : phase.isStop = false) : (stepWorker files watch now c worker).weight < c.weight := by
  rw [stepWorker, hget]
  cases phase with
  | stop => cases hopen
  | look =>
    refine weight_lt_of_set hget rfl (Nat.add_lt_add_right ?_ _)
    split <;> decide
  | take =>
    cases hwaiting : c.waiting with
    | nil => exact weight_lt_of_set hget rfl (Nat.add_lt_add_right Nat.one_pos _)
    | cons job rest =>
      refine weight_lt_of_set hget rfl ?_
      simp only [setPhase, WorkerPhase.weight, BatchRunner.weight, hwaiting, List.length_cons]
      omega
  | work path phase =>
    simp only
    cases houtcome : phase.outcome? with
    | some outcome =>
      obtain rfl := FilePhase.outcome?_eq_some_iff.mp houtcome
      exact weight_lt_of_set hget rfl (Nat.add_lt_add_right (Nat.lt_succ_self 2) _)
    | none =>
      exact weight_lt_of_set hget rfl
        (Nat.add_lt_add_right (weight_advance_lt now c.runner path houtcome) _)

/-- Only a worker that takes a file changes what is waiting. -/
theorem waiting_stepWorker (now : Int) (h : c.phases[worker]? ≠ some .take) :
    (stepWorker files watch now c worker).waiting = c.waiting := by
  rw [stepWorker]
  cases hget : c.phases[worker]? with
  | none => rfl
  | some phase =>
    cases phase with
    | stop => rfl
    | look => rfl
    | take => exact absurd hget h
    | work path phase =>
      simp only
      cases phase.outcome? <;> rfl

end Crew

namespace SharedBatch

variable {s s' : SharedBatch} {b : BatchRunner} {n : ℕ}

/-! ## The counter and the waiting files -/

/-- With the counter the workers make the same steps as with the jobs that nobody has taken. -/
theorem crew_stepWorker (now : Int) (s : SharedBatch) (worker : ℕ) :
    (stepWorker files watch now s worker).crew =
      Crew.stepWorker files watch now s.crew worker := by
  rw [stepWorker]
  split
  · next hget =>
    have hget' : s.crew.phases[worker]? = some .take := hget
    rw [Crew.stepWorker, hget']
    cases hjob : s.jobs[s.next]? with
    | none =>
      have hend := List.getElem?_eq_none_iff.mp hjob
      simp only [crew, Crew.setPhase, List.drop_eq_nil_of_le hend,
        List.drop_eq_nil_of_le (Nat.le_succ_of_le hend)]
    | some job =>
      obtain ⟨hlt, rfl⟩ := List.getElem?_eq_some_iff.mp hjob
      have hwaiting : s.crew.waiting = s.jobs[s.next] :: s.jobs.drop (s.next + 1) :=
        List.drop_eq_getElem_cons hlt
      simp only [hwaiting]
      rfl
  · next hget =>
    have hwaiting : (Crew.stepWorker files watch now s.crew worker).waiting = s.crew.waiting :=
      Crew.waiting_stepWorker now hget
    show Crew.mk _ _ s.crew.waiting _ = _
    rw [← hwaiting]

/-- The crew of a shared batch takes the crew's own steps; cancellation events do not concern it. -/
theorem crew_run (s : SharedBatch) (events : List CrewEvent) :
    (s.run files watch events).crew = s.crew.run files watch events := by
  induction events generalizing s with
  | nil => rfl
  | cons e rest ih =>
    have hhandle : (s.handle files watch e).crew = s.crew.handle files watch e := by
      cases e with
      | step worker now => exact crew_stepWorker now s worker
      | cancel => rfl
    show ((s.handle files watch e).run files watch rest).crew = _
    rw [ih, hhandle]
    rfl

/-- A shared batch starts with the crew of the batch it takes from the queue. -/
theorem crew_ofBatch (b : BatchRunner) (parallel : Bool) (n : ℕ) :
    (ofBatch b n (b.crewSize parallel (b.queue.pop n).2.length)).crew =
      Crew.ofBatch b parallel n := by
  rw [ofBatch, Crew.ofBatch]
  rcases hpop : b.queue.pop n with ⟨queue, _ | ⟨job, rest⟩⟩ <;> rfl

/-- The jobs that were not begun are those that nobody has taken, also when the counter has run
past the end. -/
theorem unstarted_eq (s : SharedBatch) : s.unstarted = s.jobs.drop s.next := by
  rw [unstarted, started]
  rcases Nat.le_total s.next s.jobs.length with hle | hge
  · rw [Nat.min_eq_left hle]
  · rw [Nat.min_eq_right hge, List.drop_length, List.drop_eq_nil_of_le hge]

/-- Closing the crew gives the runner that closing the shared batch gives. -/
theorem close_crew (s : SharedBatch) : s.crew.close = s.close := by
  rw [close, unstarted_eq]
  rfl

/-- A batch of the runner ends the same in either form. -/
theorem close_run_ofBatch (b : BatchRunner) (parallel : Bool) (n : ℕ) (events : List CrewEvent) :
    ((ofBatch b n (b.crewSize parallel (b.queue.pop n).2.length)).run files watch events).close =
      ((Crew.ofBatch b parallel n).run files watch events).close := by
  rw [← close_crew, crew_run, crew_ofBatch]

/-! ## Steps -/

/-- A worker that has not stopped makes its next step. -/
def Step (files : FileTree) (watch : Bytes → ParseEvent) (s s' : SharedBatch) : Prop :=
  ∃ worker now phase, s.phases[worker]? = some phase ∧ phase.isStop = false ∧
    s' = stepWorker files watch now s worker

/-- The job that a worker begins with in an event. -/
def begunBy (s : SharedBatch) : CrewEvent → Option Job
  | .step worker _ =>
    match s.phases[worker]? with
    | some .take => s.jobs[s.next]?
    | _ => none
  | .cancel => none

/-- The file that a worker is done with in an event, and what became of it. -/
def doneBy (s : SharedBatch) : CrewEvent → Option (Bytes × FileOutcome)
  | .step worker _ =>
    match s.phases[worker]? with
    | some (.work path phase) => phase.outcome?.map fun outcome => (path, outcome)
    | _ => none
  | .cancel => none

/-- What an event changes, given the job that a worker begins with in it and the file that a worker
is done with. -/
structure Moves (s : SharedBatch) (begun : Option Job) (done : Option (Bytes × FileOutcome))
    (s' : SharedBatch) : Prop where
  /-- The batch stays as it is. -/
  jobs_eq : s'.jobs = s.jobs
  /-- The queue stays as it is, and a cancellation is not taken back. -/
  keeps : s.runner.Keeps s'.runner
  /-- The counter is not lowered. -/
  next_le : s.next ≤ s'.next
  /-- The job that is begun is the one at the counter. -/
  take_next : s.jobs.take s'.next = s.jobs.take s.next ++ begun.toList
  /-- A worker is at each file from when it is begun until it is done. -/
  paths_perm : (done.toList.map Prod.fst ++ WorkerPhase.paths s'.phases).Perm
    (begun.toList.map Job.path ++ WorkerPhase.paths s.phases)
  /-- What became of the file that is done goes into the result. -/
  result_eq : s'.result = done.toList.foldl (fun result x => deliver result x.1 x.2) s.result
  /-- A worker stops only when the runner is cancelled or no job is left. -/
  stop_mem : .stop ∈ s'.phases →
    .stop ∈ s.phases ∨ s'.runner.isCancelled = true ∨ s.jobs.length ≤ s'.next
  /-- No worker goes away. -/
  length_phases : s'.phases.length = s.phases.length

/-- A step that changes nothing takes no job and finishes no file. -/
theorem Moves.refl (s : SharedBatch) : Moves s none none s where
  jobs_eq := rfl
  keeps := .refl s.runner
  next_le := le_rfl
  take_next := (List.append_nil _).symm
  paths_perm := .rfl
  result_eq := rfl
  stop_mem := .inl
  length_phases := rfl

/-- A worker goes over to another phase, and no job is begun in this step. -/
theorem Moves.of_set {worker : ℕ} {phase phase' : WorkerPhase} {runner : BatchRunner}
    {result : BatchResult} {done : Option (Bytes × FileOutcome)}
    (hget : s.phases[worker]? = some phase) (hkeeps : s.runner.Keeps runner)
    (hpath : phase.path?.toList = done.toList.map Prod.fst ++ phase'.path?.toList)
    (hresult : result = done.toList.foldl (fun result x => deliver result x.1 x.2) s.result)
    (hstop : phase' = .stop → runner.isCancelled = true) :
    Moves s none done { s with runner, result, phases := s.phases.set worker phase' } where
  jobs_eq := rfl
  keeps := hkeeps
  next_le := le_rfl
  take_next := (List.append_nil _).symm
  paths_perm := by
    have hperm := WorkerPhase.paths_set_perm hget phase'
    rw [hpath, List.append_assoc] at hperm
    exact (List.perm_append_left_iff _).mp ((List.perm_append_comm_assoc _ _ _).trans hperm)
  result_eq := hresult
  stop_mem hmem := (List.mem_or_eq_of_mem_set hmem).imp_right fun heq => .inl (hstop heq.symm)
  length_phases := List.length_set

/-- Each event changes no more than that. -/
theorem moves_handle (s : SharedBatch) (e : CrewEvent) :
    Moves s (s.begunBy e) (s.doneBy e) (s.handle files watch e) := by
  cases e with
  | cancel =>
    exact ⟨rfl, ⟨rfl, fun _ => rfl⟩, le_rfl, (List.append_nil _).symm, .rfl, rfl, .inl, rfl⟩
  | step worker now =>
    show Moves s _ _ (stepWorker files watch now s worker)
    rw [begunBy, doneBy, stepWorker]
    cases hget : s.phases[worker]? with
    | none =>
      have hget' : s.crew.phases[worker]? = none := hget
      simp only [Crew.stepWorker, hget']
      exact Moves.refl s
    | some phase =>
      have hget' : s.crew.phases[worker]? = some phase := hget
      cases phase with
      | stop =>
        simp only [Crew.stepWorker, hget']
        exact Moves.refl s
      | look =>
        simp only [Crew.stepWorker, hget']
        refine Moves.of_set hget (.refl _) ?_ rfl ?_
        · split <;> rfl
        · show (if s.runner.isCancelled then _ else _) = _ → s.runner.isCancelled = true
          cases s.runner.isCancelled with
          | true => exact fun _ => rfl
          | false =>
            intro hstop
            cases hstop
      | take =>
        refine ⟨rfl, .refl _, Nat.le_succ _, List.take_add_one, ?_, rfl, ?_, List.length_set⟩
        · have hperm := WorkerPhase.paths_set_perm hget
          cases s.jobs[s.next]? with
          | none => exact hperm .stop
          | some job => exact hperm (.work job.path .begin)
        · intro hmem
          refine (List.mem_or_eq_of_mem_set hmem).imp_right fun heq => .inr ?_
          cases hjob : s.jobs[s.next]? with
          | none => exact Nat.le_succ_of_le (List.getElem?_eq_none_iff.mp hjob)
          | some job =>
            rw [hjob] at heq
            cases heq
      | work path phase =>
        simp only [Crew.stepWorker, hget']
        cases houtcome : phase.outcome? with
        | some outcome =>
          refine Moves.of_set hget (.refl _) rfl rfl ?_
          intro hstop
          cases hstop
        | none =>
          refine Moves.of_set hget (keeps_advance now s.runner path phase) rfl rfl ?_
          intro hstop
          cases hstop

/-! ## Runs -/

/-- What is noted in each of several events, which happen one after another. -/
def noted {α : Type} (note : SharedBatch → CrewEvent → Option α) (files : FileTree)
    (watch : Bytes → ParseEvent) (s : SharedBatch) : List CrewEvent → List α
  | [] => []
  | e :: rest => (note s e).toList ++ noted note files watch (s.handle files watch e) rest

/-- How far the workers have got with a batch, given the jobs that were begun and the files that are
done. -/
structure Progress (b : BatchRunner) (n : ℕ) (begun : List Job) (done : List (Bytes × FileOutcome))
    (s : SharedBatch) : Prop where
  /-- The batch is that of the runner. -/
  jobs_eq : s.jobs = (b.queue.pop n).2
  /-- The batch has left the queue. -/
  queue_eq : s.runner.queue = (b.queue.pop n).1
  /-- The jobs below the counter were begun, in their order. -/
  begun_eq : begun = s.jobs.take s.next
  /-- Each of them is done or a worker is at it. -/
  paths_perm : (done.map Prod.fst ++ WorkerPhase.paths s.phases).Perm (begun.map Job.path)
  /-- What became of the files that are done is in the result. -/
  result_eq : s.result = done.foldl (fun result x => deliver result x.1 x.2) .empty
  /-- A worker has stopped only if the runner is cancelled or no job is left. -/
  stop_mem : .stop ∈ s.phases → s.runner.isCancelled = true ∨ s.jobs.length ≤ s.next
  /-- There are workers if there are jobs. -/
  phases_ne_nil : s.jobs ≠ [] → s.phases ≠ []

/-- A batch that has just been taken has begun nothing and finished nothing. -/
theorem progress_ofBatch (b : BatchRunner) (n : ℕ) {workers : ℕ} (hworkers : 0 < workers) :
    Progress b n [] [] (ofBatch b n workers) := by
  rw [ofBatch]
  rcases hpop : b.queue.pop n with ⟨queue, _ | ⟨job, rest⟩⟩
  · refine ⟨?_, ?_, rfl, .rfl, rfl, nofun, fun h => absurd rfl h⟩
    · rw [hpop]
      rfl
    · rw [hpop]
      rfl
  · have hphase {phase : WorkerPhase} (hmem : phase ∈ List.replicate workers .look) :
        phase = .look := List.eq_of_mem_replicate hmem
    have hpaths : WorkerPhase.paths (List.replicate workers .look) = [] :=
      List.filterMap_eq_nil_iff.mpr fun phase hmem => hphase hmem ▸ rfl
    refine ⟨?_, ?_, rfl, ?_, rfl, ?_, ?_⟩
    · rw [hpop]
      rfl
    · rw [hpop]
      rfl
    · exact .of_eq hpaths
    · exact fun hmem => nomatch hphase hmem
    · exact fun _ => List.ne_nil_of_length_pos (List.length_replicate.symm ▸ hworkers)

/-- Progress survives a step: the job it takes is begun, the file it finishes is done. -/
theorem Progress.moves {begun : List Job} {done : List (Bytes × FileOutcome)} {job? : Option Job}
    {file? : Option (Bytes × FileOutcome)} (h : Progress b n begun done s)
    (hmoves : Moves s job? file? s') :
    Progress b n (begun ++ job?.toList) (done ++ file?.toList) s' where
  jobs_eq := hmoves.jobs_eq.trans h.jobs_eq
  queue_eq := hmoves.keeps.queue_eq.trans h.queue_eq
  begun_eq := by rw [hmoves.jobs_eq, hmoves.take_next, h.begun_eq]
  paths_perm := by
    rw [List.map_append, List.map_append, List.append_assoc]
    refine (hmoves.paths_perm.append_left _).trans ?_
    refine (List.perm_append_comm_assoc _ _ _).trans ?_
    exact (h.paths_perm.append_left _).trans List.perm_append_comm
  result_eq := by rw [hmoves.result_eq, h.result_eq, List.foldl_append]
  stop_mem hmem := by
    rw [hmoves.jobs_eq]
    rcases hmoves.stop_mem hmem with hold | hnew
    · exact (h.stop_mem hold).imp hmoves.keeps.isCancelled hmoves.next_le.trans'
    · exact hnew
  phases_ne_nil hjobs := by
    rw [hmoves.jobs_eq] at hjobs
    rw [← List.length_pos_iff, hmoves.length_phases, List.length_pos_iff]
    exact h.phases_ne_nil hjobs

/-- However the steps of the workers mix and whenever a cancellation comes in, the jobs below the
counter are those that were begun. -/
theorem Progress.run {begun : List Job} {done : List (Bytes × FileOutcome)}
    (h : Progress b n begun done s) (events : List CrewEvent) :
    Progress b n (begun ++ noted begunBy files watch s events)
      (done ++ noted doneBy files watch s events) (s.run files watch events) := by
  induction events generalizing begun done s with
  | nil =>
    rw [noted, noted, List.append_nil, List.append_nil]
    exact h
  | cons e rest ih =>
    rw [noted, noted, ← List.append_assoc, ← List.append_assoc]
    exact ih (h.moves (moves_handle s e))

/-- Whatever the workers do next, they come to an end. -/
theorem comesToEnd (s : SharedBatch) :
    ComesToEnd (Step files watch) (fun s => s.isFinished = true) s := by
  have hstep (s s' : SharedBatch) (_ : True) (hstep : Step files watch s s') :
      True ∧ s'.crew.weight < s.crew.weight := by
    obtain ⟨worker, now, phase, hget, hopen, rfl⟩ := hstep
    rw [crew_stepWorker]
    exact ⟨trivial, Crew.weight_stepWorker_lt now hget hopen⟩
  have hlast (s : SharedBatch) (_ : True) (hlast : ∀ s', ¬ Step files watch s s') :
      s.isFinished = true := by
    refine List.all_eq_true.mpr fun phase hmem => ?_
    by_contra hopen
    obtain ⟨worker, hget⟩ := List.mem_iff_getElem?.mp hmem
    exact hlast _ ⟨worker, 0, phase, hget, Bool.eq_false_iff.mpr hopen, rfl⟩
  exact ComesToEnd.of_measure (fun s => s.crew.weight) hstep hlast trivial

/-! ## When all have stopped -/

/-- What is to be after a batch, given the jobs that were begun, the files that are done with what
became of them, and the jobs that are left: the batch is split in two, and no file is lost, done
twice, or both done and left. -/
structure Splits (b : BatchRunner) (n : ℕ) (begun : List Job) (done : List (Bytes × FileOutcome))
    (left : List Job) (after : BatchRunner × BatchResult) : Prop where
  /-- The jobs that were begun are the first ones of the batch, and the others are left. -/
  begun_append_left : begun ++ left = (b.queue.pop n).2
  /-- The files that are done are those that were begun, each of them once. -/
  done_perm : (done.map Prod.fst).Perm (begun.map Job.path)
  /-- No file is done twice. -/
  nodup_done : (done.map Prod.fst).Nodup
  /-- No file that is done is left too. -/
  not_left : ∀ path ∈ done.map Prod.fst, path ∉ left.map Job.path
  /-- The result is what became of the files that are done. -/
  result_eq : after.2 = done.foldl (fun result x => deliver result x.1 x.2) .empty
  /-- The jobs that are left are in the queue again as they were, besides those that never left. -/
  mem_jobs_iff : ∀ job, job ∈ after.1.queue.jobs ↔ job ∈ left ∨ job ∈ (b.queue.pop n).1.jobs
  /-- Of the batch only the files that are done are processed. -/
  isProcessed_iff : ∀ path,
    after.1.queue.isProcessed path ↔ b.queue.isProcessed path ∨ path ∈ done.map Prod.fst
  /-- The files that are left are not processed. -/
  not_processed : ∀ job ∈ left, ¬ after.1.queue.isProcessed job.path
  /-- The queue is as if only the jobs that were begun had been popped. -/
  queue_eq : after.1.queue = (b.queue.pop begun.length).1
  /-- Jobs are left only if the runner is cancelled. -/
  isCancelled : left ≠ [] → after.1.isCancelled = true

/-- A shared batch is finished when every worker has stopped. -/
theorem isFinished_iff : s.isFinished = true ↔ ∀ phase ∈ s.phases, phase = .stop :=
  Crew.isFinished_iff (c := s.crew)

/-- When all workers have stopped, the batch is split where the counter stands. -/
theorem Progress.splits {history : List QueueEvent} {begun : List Job}
    {done : List (Bytes × FileOutcome)} (h : Progress b n begun done s)
    (hqueue : JobQueue.Run history b.queue) (hfinished : s.isFinished = true) :
    Splits b n begun done s.unstarted s.close := by
  have hstop := isFinished_iff.mp hfinished
  have hlength : begun.length = s.started := by rw [h.begun_eq, List.length_take, started]
  have hle : begun.length ≤ (b.queue.pop n).2.length := by
    rw [hlength, ← h.jobs_eq]
    exact Nat.min_le_right _ _
  have hleft : s.unstarted = (b.queue.pop n).2.drop begun.length := by
    rw [unstarted, hlength, h.jobs_eq]
  have happend : begun ++ s.unstarted = (b.queue.pop n).2 := by
    rw [h.begun_eq, unstarted_eq, List.take_append_drop, h.jobs_eq]
  have hbegun : (b.queue.pop begun.length).2 = begun := by
    have hsplit := JobQueue.pop_append_drop hle
    rw [← hleft, ← happend] at hsplit
    exact List.append_cancel_right hsplit
  have hperm : (done.map Prod.fst).Perm (begun.map Job.path) := by
    have hnone : WorkerPhase.paths s.phases = [] :=
      List.filterMap_eq_nil_iff.mpr fun phase hmem => hstop phase hmem ▸ rfl
    have hpaths := h.paths_perm
    rwa [hnone, List.append_nil] at hpaths
  have hback : s.close.1.queue = (b.queue.pop begun.length).1 := by
    rw [← hqueue.requeue_drop_pop hle, ← hleft, ← h.queue_eq]
    rfl
  have hnodup := hqueue.consistent.nodup_paths_pop n
  rw [← happend, List.map_append] at hnodup
  obtain ⟨hfirst, -, hapart⟩ := List.nodup_append.mp hnodup
  have hnot : ∀ path ∈ done.map Prod.fst, path ∉ s.unstarted.map Job.path :=
    fun path hdone hmem => hapart path (hperm.mem_iff.mp hdone) path hmem rfl
  have hprocessed (path : Bytes) : s.close.1.queue.isProcessed path ↔
      b.queue.isProcessed path ∨ path ∈ done.map Prod.fst := by
    rw [hback, JobQueue.isProcessed_pop_iff, hbegun, hperm.mem_iff]
  refine ⟨happend, hperm, hperm.nodup_iff.mpr hfirst, hnot, h.result_eq, ?_, hprocessed, ?_, hback,
    ?_⟩
  · intro job
    rw [hback, ← JobQueue.drop_pop_append hle, ← hleft, List.mem_append]
  · intro job hjob hdone
    rcases (hprocessed job.path).mp hdone with hold | hnew
    · have hbatch : job ∈ (b.queue.pop n).2 := happend ▸ List.mem_append_right begun hjob
      have hmem : job.path ∈ b.queue.jobs.map Job.path :=
        List.mem_map_of_mem (List.mem_of_mem_take hbatch)
      exact hqueue.consistent.not_processed _ ((hqueue.consistent.isQueued_iff _).mpr hmem) hold
    · exact hnot _ hnew (List.mem_map_of_mem hjob)
  · intro hne
    have hjobs : s.jobs ≠ [] := fun hnil => hne (by rw [unstarted, hnil, List.drop_nil])
    obtain ⟨phase, hmem⟩ := List.exists_mem_of_ne_nil _ (h.phases_ne_nil hjobs)
    rcases h.stop_mem (hstop phase hmem ▸ hmem) with hcancelled | hend
    · exact hcancelled
    · exact absurd (by rw [unstarted_eq, List.drop_eq_nil_of_le hend]) hne

/-- Whatever happened to the queue before, however many files a batch is to have and however many
workers share it, whatever the parsers do, however the steps of the workers mix and whenever a
cancellation comes in: from any point on the workers come to an end, and when all have stopped the
batch is split in two. The files below the counter are done, each of them once, and the jobs above
it are in the queue again as if they had never been popped. -/
theorem cancellation_splits_batch {history : List QueueEvent} {b : BatchRunner}
    (hqueue : JobQueue.Run history b.queue) (files : FileTree) (watch : Bytes → ParseEvent) (n : ℕ)
    {workers : ℕ} (hworkers : 0 < workers) (events : List CrewEvent) :
    let start := ofBatch b n workers
    let s := start.run files watch events
    ComesToEnd (Step files watch) (fun s => s.isFinished = true) s ∧
      (s.isFinished = true → Splits b n (noted begunBy files watch start events)
        (noted doneBy files watch start events) s.unstarted s.close) := by
  intro start s
  refine ⟨comesToEnd s, ?_⟩
  exact ((progress_ofBatch b n hworkers).run events).splits hqueue

/-- Two workers have both looked when one takes a file and the runner is cancelled. The other one
takes a file all the same. These two are done, though the parser gives up on one and the other is
not there, and the two other jobs are in the queue again. -/
theorem cancellation_splits_batch_twoLeft :
    let files : FileTree :=
      .directory [(bytes "a.py", .file (bytes "x")), (bytes "bad.py", .file (bytes "y"))]
    let watch := failsOn (bytes "bad.py")
    let start := ofBatch fourQueued 4 2
    let events : List CrewEvent := [.step 0 0, .step 1 0, .step 0 0, .cancel] ++
      (List.range 12).flatMap fun now => [.step 0 now, .step 1 now]
    let s := start.run files watch events
    let left : List Job := [⟨bytes "a.py", 1, 1⟩, ⟨bytes "later.py", 0, 3⟩]
    (∃ history, JobQueue.Run history fourQueued.queue) ∧ 0 < 2 ∧ s.isFinished = true ∧
      ((noted doneBy files watch start events).map Prod.fst).Perm
        [bytes "bad.py", bytes "none.py"] ∧
      s.unstarted = left ∧ (∀ job, job ∈ s.close.1.queue.jobs ↔ job ∈ left) ∧
      (∀ job ∈ left, ¬ s.close.1.queue.isProcessed job.path) ∧
      s.close.1.queue.isProcessed (bytes "bad.py") := by
  intro files watch start events s left
  have hfinished : s.isFinished = true := by decide +kernel
  have hleft : s.unstarted = left := by decide +kernel
  obtain ⟨history, hqueue⟩ := used_fourQueued.queue
  have hsplits : Splits fourQueued 4 (noted begunBy files watch start events)
      (noted doneBy files watch start events) s.unstarted s.close :=
    (cancellation_splits_batch hqueue files watch 4 Nat.two_pos events).2 hfinished
  rw [hleft] at hsplits
  have hbatch : (fourQueued.queue.pop 4).2 =
      [⟨bytes "bad.py", 3, 0⟩, ⟨bytes "none.py", 2, 2⟩] ++ left := by decide +kernel
  have hbegun := List.append_cancel_right (hsplits.begun_append_left.trans hbatch)
  have hdone := hsplits.done_perm
  rw [hbegun] at hdone
  refine ⟨⟨history, hqueue⟩, Nat.two_pos, hfinished, hdone, hleft, ?_, hsplits.not_processed, ?_⟩
  · intro job
    have hempty : (fourQueued.queue.pop 4).1.jobs = [] := by decide +kernel
    rw [hsplits.mem_jobs_iff, hempty]
    exact or_iff_left List.not_mem_nil
  · exact (hsplits.isProcessed_iff _).mpr (.inr (hdone.mem_iff.mpr List.mem_cons_self))

end SharedBatch

end SourceChunks
