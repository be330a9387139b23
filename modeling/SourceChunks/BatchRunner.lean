import SourceChunks.FileTree.Scan
import SourceChunks.JobQueue
import SourceChunks.Monitor
import SourceChunks.Pool

/-!
# Chunking files in batches

A runner takes files from its queue, the most urgent first, and chunks each of them with a parser
from its pool. A file that cannot be chunked has no result and does not disturb the others. Once the
runner is cancelled no further file is started, and those not started go back to the queue.
-/

namespace SourceChunks

/-- What happens when a parser begins with a file. -/
inductive ParseEvent where
  /-- The file is parsed. -/
  | proceed
  /-- The parser gives up. -/
  | fail
  /-- The runner is cancelled; this file is still parsed. -/
  | cancel
  deriving DecidableEq, Repr

/-- What became of a file. -/
inductive FileOutcome where
  /-- Its language is not known. -/
  | skipped
  /-- It could not be chunked. -/
  | failed
  /-- A text of so many bytes has these chunks. -/
  | chunked (size : Nat) (chunks : List Chunk)
  deriving DecidableEq

/-- What is still to be done for a file once its outcome is known. -/
inductive Chore where
  /-- Record a value of a metric. -/
  | record (metric : String) (value : Float)
  /-- Give a resource back to the pool. -/
  | giveBack (r : Resource)
  /-- Stop to measure how long the file takes. -/
  | stopTimer (timer : Measurement)

namespace FileOutcome

/-- The chunks of a file that was chunked. -/
def chunks? : FileOutcome → Option (List Chunk)
  | .chunked _ chunks => some chunks
  | _ => none

/-- The values that are recorded for a file, by metric. -/
def records : FileOutcome → List (String × Float)
  | .skipped => []
  | .failed => [("batch.errors", 1)]
  | .chunked size chunks =>
    [("batch.file_size", Scalar.ofNat size), ("batch.chunk_count", Scalar.ofNat chunks.length)]

/-- The chores for a file, given what its time is taken with and the resource that is held for it.
The values are recorded before the resource goes back, but a failure is recorded after that. -/
def chores (outcome : FileOutcome) (timer : Measurement) (held : Option Resource) : List Chore :=
  let back := held.toList.map .giveBack
  let records := outcome.records.map fun x => .record x.1 x.2
  match outcome with
  | .failed => back ++ records ++ [.stopTimer timer]
  | _ => records ++ back ++ [.stopTimer timer]

end FileOutcome

/-- A queue of files and what is needed to chunk them. -/
structure BatchRunner where
  /-- How many files a batch of a directory has. -/
  batchSize : Nat
  /-- How many workers share a batch at most. -/
  maxWorkers : Nat
  /-- The files to chunk. -/
  queue : JobQueue
  /-- The parsers. -/
  pool : Pool
  /-- What was measured. -/
  monitor : Monitor Float
  /-- Whether no further file of the batch is to be started. -/
  isCancelled : Bool
  /-- The files that parsers began with, the first one first. -/
  parsed : List Bytes
  /-- A batch of a directory has a file. -/
  batchSize_pos : 0 < batchSize
  /-- There is a worker for a batch. -/
  maxWorkers_pos : 0 < maxWorkers

/-- The chunks of files by path. -/
abbrev BatchResult := Dict (List Chunk)

namespace BatchRunner

/-- A runner without files; a batch size of zero counts as one, and so does a number of workers. -/
def new (batchSize maxWorkers : Nat) (pool : Pool) (monitor : Monitor Float) : BatchRunner where
  batchSize := max batchSize 1
  maxWorkers := max maxWorkers 1
  queue := .empty
  pool := pool
  monitor := monitor
  isCancelled := false
  parsed := []
  batchSize_pos := Nat.le_max_right batchSize 1
  maxWorkers_pos := Nat.le_max_right maxWorkers 1

/-- Queue a file; the answer tells whether it was accepted. -/
def add (b : BatchRunner) (path : Bytes) (priority : Int) : BatchRunner × Bool :=
  let (queue, accepted) := b.queue.push path priority
  ({ b with queue }, accepted)

/-- Ask that no further file be started. -/
def cancel (b : BatchRunner) : BatchRunner := { b with isCancelled := true }

/-- Do a chore. -/
def perform (now : Int) (b : BatchRunner) : Chore → BatchRunner
  | .record metric value => { b with monitor := b.monitor.record now (bytes metric) value }
  | .giveBack r => { b with pool := b.pool.release r }
  | .stopTimer timer => { b with monitor := (timer.stop b.monitor now).1 }

variable (files : FileTree) (now : Int) (watch : Bytes → ParseEvent)

/-- Chunk a file with a resource that should be a parser, which then holds the file. -/
def parse (b : BatchRunner) (r : Resource) (path : Bytes) :
    BatchRunner × Resource × FileOutcome :=
  match r.body, files.read? path with
  | .parser parser, some text =>
    let (parser, chunks) := parser.chunk path text
    let b := { b with parsed := b.parsed ++ [path] }
    let r := { r with body := .parser parser }
    match watch path with
    | .proceed => (b, r, .chunked text.length chunks)
    | .fail => (b, r, .failed)
    | .cancel => (b.cancel, r, .chunked text.length chunks)
  | _, _ => (b, r, .failed)

/-- Chunk a file with a parser of its language, if there is one; it is still held afterwards. -/
def parseByExtension (b : BatchRunner) (path : Bytes) :
    BatchRunner × Option Resource × FileOutcome :=
  match Language.ofExtension? (Path.extension path) with
  | none => (b, none, .skipped)
  | some language =>
    match b.pool.acquire (ResourceFactory.parserType language.name) with
    | (pool, .error _) => ({ b with pool }, none, .failed)
    | (pool, .ok r) =>
      let (b, r, outcome) := parse files watch { b with pool } r path
      (b, some r, outcome)

/-- Chunk a file and measure how long that takes. -/
def processFile (b : BatchRunner) (path : Bytes) : BatchRunner × FileOutcome :=
  let (monitor, timer) := Measurement.start b.monitor now (bytes "batch_process_file")
  let (b, held, outcome) := parseByExtension files watch { b with monitor } path
  ((outcome.chores timer held).foldl (perform now) b, outcome)

/-- The result with that of one more file. -/
def deliver (result : BatchResult) (path : Bytes) (outcome : FileOutcome) : BatchResult :=
  match outcome.chunks? with
  | some chunks => result.insert path chunks
  | none => result

/-- Chunk the files of a batch until the runner is cancelled; the jobs that are left are those not
started. -/
def processJobs (b : BatchRunner) (result : BatchResult) :
    List Job → BatchRunner × BatchResult × List Job
  | [] => (b, result, [])
  | job :: rest =>
    if b.isCancelled then (b, result, job :: rest)
    else
      let (b, outcome) := processFile files now watch b job.path
      processJobs b (deliver result job.path outcome) rest

/-- Chunk the first `n` files of the queue. A cancellation from before does not count. -/
def process (b : BatchRunner) (n : Nat) : BatchRunner × BatchResult :=
  let (queue, jobs) := b.queue.pop n
  let b := { b with queue }
  if jobs.isEmpty then (b, Dict.empty)
  else
    let (b, result, left) := processJobs files now watch { b with isCancelled := false } .empty jobs
    ({ b with queue := b.queue.requeue left }, result)

/-- Queue the files of a directory whose language is known. -/
def addDirectory (b : BatchRunner) (directory : Bytes) (options : ScanOptions)
    (priority : Bytes → Int) : BatchRunner :=
  let found := files.scan files.scanIgnores directory options
  (found.filter fun f => (Language.ofExtension? (Path.extension f.path)).isSome).foldl
    (fun b f => (b.add f.path (priority f.path)).1) b

/-- A result together with a later one. -/
def merge (result more : BatchResult) : BatchResult :=
  more.entries.foldl (fun d e => d.insert e.1 e.2) result

/-- Chunk batch after batch, at most so many, until the queue is empty or the runner is
cancelled. -/
def drain (b : BatchRunner) (result : BatchResult) : Nat → BatchRunner × BatchResult
  | 0 => (b, result)
  | limit + 1 =>
    if b.queue.size = 0 then (b, result)
    else
      let (b, more) := process files now watch b b.batchSize
      let result := merge result more
      if b.isCancelled then (b, result) else drain b result limit

/-- Queue the files of a directory and chunk all that is in the queue. Each batch starts at least
one file, so there are no more batches than files. -/
def processDirectory (b : BatchRunner) (directory : Bytes) (options : ScanOptions)
    (priority : Bytes → Int) : BatchRunner × BatchResult :=
  if files.isDirectoryAt directory then
    let b := addDirectory files b directory options priority
    drain files now watch b .empty b.queue.size
  else (b, Dict.empty)

end BatchRunner

end SourceChunks
