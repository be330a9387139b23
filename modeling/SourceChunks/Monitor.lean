import SourceChunks.Dict
import SourceChunks.Instant
import SourceChunks.Scalar

/-!
# Measuring operations

A monitor times operations and keeps the last samples of each metric. An operation that is started
gets a handle; ending it by that handle records its duration once. Handles are never given out
twice.
-/

namespace SourceChunks

/-- A recorded value. -/
structure Sample (α : Type) where
  /-- The value. -/
  value : α
  /-- When it was recorded. -/
  time : Instant
  deriving DecidableEq, Repr

/-- An operation that has started. -/
structure RunningOperation where
  /-- The name of the operation. -/
  name : Bytes
  /-- When it started, in nanoseconds. -/
  startedAt : Int
  deriving DecidableEq, Repr

/-- The samples of all metrics and the operations under way. -/
structure Monitor (α : Type) where
  /-- How many samples of each metric are kept. -/
  window : Nat
  /-- The samples of each metric, the oldest first. -/
  samples : Dict (List (Sample α))
  /-- The operations under way, by handle. -/
  running : Dict RunningOperation
  /-- How many handles have been given out. -/
  handleCount : Nat

/-- What the samples of a metric have in common. -/
structure MetricSummary (α : Type) where
  /-- How many there are. -/
  count : Nat
  /-- Their mean. -/
  mean : α
  /-- The least of them. -/
  least : α
  /-- The greatest of them. -/
  greatest : α
  deriving DecidableEq, Repr

namespace Monitor

variable {α : Type}

/-- A monitor without samples; a window of zero counts as one. -/
def new (window : Nat) : Monitor α := ⟨max window 1, Dict.empty, Dict.empty, 0⟩

/-- The samples of a metric, the oldest first. -/
def samplesOf (m : Monitor α) (name : Bytes) : List (Sample α) := (m.samples.get? name).getD []

/-- Record a value of a metric. Of more values than the window has room for the last ones stay. -/
def record (m : Monitor α) (now : Int) (name : Bytes) (value : α) : Monitor α :=
  let all := m.samplesOf name ++ [⟨value, Instant.ofNanos now⟩]
  { m with samples := m.samples.insert name (all.drop (all.length - m.window)) }

/-- The handle of an operation: its name and a number. -/
def handleOf (name : Bytes) (number : Nat) : Bytes := name ++ bytes "#" ++ Bytes.ofNat number

/-- Start an operation; the answer is its handle. -/
def start (m : Monitor α) (now : Int) (name : Bytes) : Monitor α × Bytes :=
  let handle := handleOf name m.handleCount
  ({ m with
      running := m.running.insert handle ⟨name, now⟩
      handleCount := m.handleCount + 1 }, handle)

/-- The name of the metric that the durations of an operation go to. -/
def metricOf (operation : Bytes) : Bytes := bytes "operation." ++ operation

variable [Scalar α]

/-- A number of nanoseconds in milliseconds. -/
def milliseconds (nanos : Int) : α := Scalar.ofInt nanos / Scalar.ofInt 1000000

/-- End the operation of a handle and record its duration; the answer is the duration in
milliseconds, or zero for a handle that no operation under way has. -/
def finish (m : Monitor α) (now : Int) (handle : Bytes) : Monitor α × α :=
  match m.running.get? handle with
  | none => (m, Scalar.ofNat 0)
  | some op =>
    let duration := milliseconds (now - op.startedAt)
    let m := { m with running := m.running.erase handle }
    (m.record now (metricOf op.name) duration, duration)

/-- What the values of a metric have in common, if there are any. -/
def summarize : List α → Option (MetricSummary α)
  | [] => none
  | v :: vs =>
    let count := vs.length + 1
    some
      { count
        mean := (v :: vs).foldl (· + ·) (Scalar.ofNat 0) / Scalar.ofNat count
        least := vs.foldl Scalar.least v
        greatest := vs.foldl Scalar.greatest v }

/-- The summaries of all metrics, in the order of their names. -/
def metrics (m : Monitor α) : List (Bytes × MetricSummary α) :=
  m.samples.entries.filterMap fun (name, samples) =>
    (summarize (samples.map Sample.value)).map fun s => (name, s)

/-- Forget all samples and all operations under way. -/
def reset (m : Monitor α) : Monitor α := { m with samples := Dict.empty, running := Dict.empty }

end Monitor

/-- An operation that is measured from its start until it is stopped, which counts once. -/
structure Measurement where
  /-- The handle, until the measurement is stopped. -/
  handle : Option Bytes
  deriving DecidableEq, Repr

namespace Measurement

variable {α : Type}

/-- Start to measure an operation. -/
def start (m : Monitor α) (now : Int) (name : Bytes) : Monitor α × Measurement :=
  let (m, handle) := m.start now name
  (m, ⟨some handle⟩)

/-- Stop a measurement; the answer is the duration in milliseconds the first time and zero after
that. -/
def stop [Scalar α] (m : Monitor α) (now : Int) (x : Measurement) : Monitor α × Measurement × α :=
  match x.handle with
  | none => (m, x, Scalar.ofNat 0)
  | some handle =>
    let (m, duration) := m.finish now handle
    (m, ⟨none⟩, duration)

end Measurement

end SourceChunks
