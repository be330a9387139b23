import SourceChunks.BatchRunner.Crew

/-!
# A batch that is shared out by a counter

The workers on a batch leave it as it is. A shared counter tells where the next job stands, and a
worker reads it and raises it in one step. A worker that finds no job there has raised it all the
same, so the counter may run past the end of the batch. When all workers have stopped, the counter
tells which jobs were begun, and the others go back to the queue.
-/

namespace SourceChunks

/-- Workers on a batch with a counter. -/
structure SharedBatch where
  /-- The runner whose batch it is. -/
  runner : BatchRunner
  /-- The chunks of the files that are done. -/
  result : BatchResult
  /-- The jobs of the batch. -/
  jobs : List Job
  /-- How often a worker has asked for a job. -/
  next : Nat
  /-- What each worker does next. -/
  phases : List WorkerPhase

namespace SharedBatch

/-- The workers with the jobs that nobody has taken. -/
def crew (s : SharedBatch) : Crew := ⟨s.runner, s.result, s.jobs.drop s.next, s.phases⟩

/-- The first `n` files of the queue with so many workers, or none if there is no file. A
cancellation from before does not count. -/
def ofBatch (b : BatchRunner) (n workers : Nat) : SharedBatch :=
  let (queue, jobs) := b.queue.pop n
  let b := { b with queue }
  if jobs.isEmpty then ⟨b, .empty, [], 0, []⟩
  else ⟨{ b with isCancelled := false }, .empty, jobs, 0, List.replicate workers .look⟩

/-- Whether all workers have stopped. -/
def isFinished (s : SharedBatch) : Bool := s.phases.all WorkerPhase.isStop

/-- How many jobs were begun. -/
def started (s : SharedBatch) : Nat := min s.next s.jobs.length

/-- The jobs that were not begun. -/
def unstarted (s : SharedBatch) : List Job := s.jobs.drop s.started

variable (files : FileTree) (watch : Bytes → ParseEvent)

/-- The next step of a worker. Only one that takes a job looks at the counter. -/
def stepWorker (now : Int) (s : SharedBatch) (worker : Nat) : SharedBatch :=
  match s.phases[worker]? with
  | some .take =>
    let phase := match s.jobs[s.next]? with
      | none => .stop
      | some job => .work job.path .begin
    { s with next := s.next + 1, phases := s.phases.set worker phase }
  | _ =>
    let c := s.crew.stepWorker files watch now worker
    { s with runner := c.runner, result := c.result, phases := c.phases }

/-- What one event changes. -/
def handle (s : SharedBatch) : CrewEvent → SharedBatch
  | .step worker now => stepWorker files watch now s worker
  | .cancel => { s with runner := s.runner.cancel }

/-- What several events change, one after another. -/
def run (s : SharedBatch) (events : List CrewEvent) : SharedBatch :=
  events.foldl (handle files watch) s

/-- The runner after the batch: the jobs that were not begun are back in its queue. -/
def close (s : SharedBatch) : BatchRunner × BatchResult :=
  ({ s.runner with queue := s.runner.queue.requeue s.unstarted }, s.result)

end SharedBatch

end SourceChunks
