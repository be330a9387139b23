import SourceChunks.BatchRunner

/-!
# Several workers on one batch

A batch may be shared out among several workers. Each of them, again and again, looks whether the
runner is cancelled, takes the next file and chunks it. What a worker does between two looks at
something that is shared with the others is one step: the pool, the monitor and the result are each
locked for one change only, so for one file there are many steps. Between two of them the others may
make any number of steps, time may pass and a cancellation may come in, so a run of the crew is a
list of events. The runner itself works like a crew of one.
-/

namespace SourceChunks

/-- How far a worker has got with a file. -/
inductive FilePhase where
  /-- Begin to measure the time. -/
  | begin
  /-- Look for a free parser of the language. -/
  | find (timer : Measurement) (language : Language)
  /-- Have a new parser of the language made. -/
  | create (timer : Measurement) (language : Language)
  /-- Chunk the file with a resource. -/
  | parse (timer : Measurement) (r : Resource)
  /-- Do what is left to be done. -/
  | finish (outcome : FileOutcome) (chores : List Chore)

/-- The outcome of a file for which all is done. -/
def FilePhase.outcome? : FilePhase → Option FileOutcome
  | .finish outcome [] => some outcome
  | _ => none

/-- What a worker does next. -/
inductive WorkerPhase where
  /-- Look whether the runner is cancelled. -/
  | look
  /-- Take the next file. -/
  | take
  /-- Work on the file that was taken. -/
  | work (path : Bytes) (phase : FilePhase)
  /-- Nothing more. -/
  | stop

/-- Whether a worker has nothing more to do. -/
def WorkerPhase.isStop : WorkerPhase → Bool
  | .stop => true
  | _ => false

/-- Workers on a batch. -/
structure Crew where
  /-- The runner whose batch it is. -/
  runner : BatchRunner
  /-- The chunks of the files that are done. -/
  result : BatchResult
  /-- The jobs that nobody has taken. -/
  waiting : List Job
  /-- What each worker does next. -/
  phases : List WorkerPhase

/-- What happens to a crew. -/
inductive CrewEvent where
  /-- A worker makes its next step at some time. -/
  | step (worker : Nat) (now : Int)
  /-- The runner is cancelled. -/
  | cancel
  deriving DecidableEq, Repr

/-- The number of workers for so many jobs. One does them all in turn where it is asked for, and if
there is only one. -/
def BatchRunner.crewSize (b : BatchRunner) (parallel : Bool) (jobs : Nat) : Nat :=
  if parallel && 1 < jobs then min b.maxWorkers jobs else 1

/-- The next step for a file before the outcome is delivered. -/
def BatchRunner.advance (files : FileTree) (watch : Bytes → ParseEvent) (now : Int)
    (b : BatchRunner) (path : Bytes) : FilePhase → BatchRunner × FilePhase
  | .begin =>
    let (monitor, timer) := Measurement.start b.monitor now (bytes "batch_process_file")
    ({ b with monitor }, match Language.ofExtension? (Path.extension path) with
      | none => .finish .skipped (FileOutcome.skipped.chores timer none)
      | some language => .find timer language)
  | .find timer language =>
    match b.pool.takeFree? (ResourceFactory.parserType language.name) with
    | none => (b, .create timer language)
    | some (pool, r) => ({ b with pool }, .parse timer r)
  | .create timer language =>
    match b.pool.create (ResourceFactory.parserType language.name) with
    | (pool, .error _) =>
      ({ b with pool }, .finish .failed (FileOutcome.failed.chores timer none))
    | (pool, .ok r) => ({ b with pool }, .parse timer r)
  | .parse timer r =>
    let (b, r, outcome) := b.parse files watch r path
    (b, .finish outcome (outcome.chores timer (some r)))
  | .finish outcome [] => (b, .finish outcome [])
  | .finish outcome (chore :: rest) => (b.perform now chore, .finish outcome rest)

namespace Crew

/-- The crew for the first `n` files of the queue. A cancellation from before does not count. -/
def ofBatch (b : BatchRunner) (parallel : Bool) (n : Nat) : Crew :=
  let (queue, jobs) := b.queue.pop n
  let b := { b with queue }
  if jobs.isEmpty then ⟨b, .empty, [], []⟩
  else
    ⟨{ b with isCancelled := false }, .empty, jobs,
      List.replicate (b.crewSize parallel jobs.length) .look⟩

/-- Change what a worker does next. -/
def setPhase (c : Crew) (worker : Nat) (phase : WorkerPhase) : Crew :=
  { c with phases := c.phases.set worker phase }

/-- Whether all workers have stopped. -/
def isFinished (c : Crew) : Bool := c.phases.all WorkerPhase.isStop

variable (files : FileTree) (watch : Bytes → ParseEvent)

/-- The next step of a worker; there is none for a worker that has stopped or does not exist. -/
def stepWorker (now : Int) (c : Crew) (worker : Nat) : Crew :=
  match c.phases[worker]? with
  | none | some .stop => c
  | some .look => c.setPhase worker (if c.runner.isCancelled then .stop else .take)
  | some .take =>
    match c.waiting with
    | [] => c.setPhase worker .stop
    | job :: rest => { c with waiting := rest }.setPhase worker (.work job.path .begin)
  | some (.work path phase) =>
    match phase.outcome? with
    | some outcome =>
      { c with result := BatchRunner.deliver c.result path outcome }.setPhase worker .look
    | none =>
      let (runner, phase) := c.runner.advance files watch now path phase
      { c with runner }.setPhase worker (.work path phase)

/-- What one event changes. -/
def handle (c : Crew) : CrewEvent → Crew
  | .step worker now => stepWorker files watch now c worker
  | .cancel => { c with runner := c.runner.cancel }

/-- What several events change, one after another. -/
def run (c : Crew) (events : List CrewEvent) : Crew := events.foldl (handle files watch) c

/-- The runner after the batch: the jobs that nobody has taken are back in its queue. -/
def close (c : Crew) : BatchRunner × BatchResult :=
  ({ c.runner with queue := c.runner.queue.requeue c.waiting }, c.result)

end Crew

end SourceChunks
