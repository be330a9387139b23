import SourceChunks.Dict

/-!
# The queue of files to work on

Jobs leave the queue by priority, the higher first, and among equal priorities in the order in which
they were accepted. A path is refused while it is queued and after it has been popped, until the
popped paths are forgotten, so each file is worked on once.
-/

namespace SourceChunks

/-- A file to work on. -/
structure Job where
  /-- The path of the file. -/
  path : Bytes
  /-- How urgent it is; more is sooner. -/
  priority : Int
  /-- The number of jobs that were accepted before it. -/
  sequence : Nat
  deriving DecidableEq, Repr

/-- Whether a job leaves the queue before another. -/
def Job.before (a b : Job) : Bool :=
  b.priority < a.priority || (a.priority == b.priority && a.sequence < b.sequence)

/-- Jobs to do and paths that are done with. -/
structure JobQueue where
  /-- The jobs in the order in which they will leave. -/
  jobs : List Job
  /-- The paths of the jobs. -/
  queued : Dict Unit
  /-- The paths that have left. -/
  processed : Dict Unit
  /-- The sequence number of the next job. -/
  nextSequence : Nat
  deriving DecidableEq

namespace JobQueue

/-- A queue without jobs that has seen no path. -/
def empty : JobQueue := ⟨[], Dict.empty, Dict.empty, 0⟩

/-- Put a job in front of the first job that it leaves before. -/
def place (job : Job) : List Job → List Job
  | [] => [job]
  | j :: rest => if job.before j then job :: j :: rest else j :: place job rest

/-- Whether a path is waiting in the queue. -/
def isQueued (q : JobQueue) (path : Bytes) : Bool := q.queued.contains path

/-- Whether a path has been popped and not been forgotten. -/
def isProcessed (q : JobQueue) (path : Bytes) : Bool := q.processed.contains path

/-- The number of jobs. -/
def size (q : JobQueue) : Nat := q.jobs.length

/-- Accept a path unless it is queued or processed; the answer tells whether it was accepted. -/
def push (q : JobQueue) (path : Bytes) (priority : Int) : JobQueue × Bool :=
  if q.isProcessed path || q.isQueued path then (q, false)
  else
    ({ q with
        jobs := place ⟨path, priority, q.nextSequence⟩ q.jobs
        queued := q.queued.insert path ()
        nextSequence := q.nextSequence + 1 }, true)

/-- Take the first `n` jobs, or all if there are fewer; their paths count as processed. -/
def pop (q : JobQueue) (n : Nat) : JobQueue × List Job :=
  let batch := q.jobs.take n
  ({ q with
      jobs := q.jobs.drop n
      queued := batch.foldl (fun waiting j => waiting.erase j.path) q.queued
      processed := batch.foldl (fun done j => done.insert j.path ()) q.processed }, batch)

/-- Put back a job that was popped but not started. -/
def putBack (q : JobQueue) (job : Job) : JobQueue :=
  let q := { q with processed := q.processed.erase job.path }
  if q.isQueued job.path then q
  else { q with jobs := place job q.jobs, queued := q.queued.insert job.path () }

/-- Put back jobs that were popped but not started. -/
def requeue (q : JobQueue) (jobs : List Job) : JobQueue := jobs.foldl putBack q

/-- Drop all jobs; the answer is how many there were. -/
def clear (q : JobQueue) : JobQueue × Nat := ({ q with jobs := [], queued := Dict.empty }, q.size)

/-- Forget the processed paths; the answer is how many there were. -/
def forgetProcessed (q : JobQueue) : JobQueue × Nat :=
  ({ q with processed := Dict.empty }, q.processed.size)

/-- A job stays among the others when it is placed. -/
theorem mem_place {job j : Job} {js : List Job} : j ∈ place job js ↔ j = job ∨ j ∈ js := by
  induction js with
  | nil => simp [place]
  | cons a rest ih =>
    simp only [place]
    split
    · simp
    · simp only [List.mem_cons, ih]
      constructor
      · rintro (h | h | h)
        · exact Or.inr (Or.inl h)
        · exact Or.inl h
        · exact Or.inr (Or.inr h)
      · rintro (h | h | h)
        · exact Or.inr (Or.inl h)
        · exact Or.inl h
        · exact Or.inr (Or.inr h)

end JobQueue

end SourceChunks
