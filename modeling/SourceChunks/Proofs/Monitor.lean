import Mathlib.Data.List.DropRight
import SourceChunks.Monitor
import SourceChunks.Proofs.Dict

/-!
# Measuring operations, over time

A metric keeps the last values that were recorded for it. A value that is recorded comes to the
others, of which the oldest is lost if there is no room, and the values of the other metrics stay.
-/

namespace SourceChunks

/-- Something that is done with a monitor. -/
inductive MonitorOperation (α : Type) where
  /-- An operation is started. -/
  | start (now : Int) (name : Bytes)
  /-- The operation of a handle is ended. -/
  | finish (now : Int) (handle : Bytes)
  /-- A value of a metric is recorded. -/
  | record (now : Int) (name : Bytes) (value : α)
  /-- All samples are forgotten. -/
  | reset

namespace Monitor

variable {α : Type} {m : Monitor α} {name : Bytes}

/-- The values of a metric, the oldest first. -/
def valuesOf (m : Monitor α) (name : Bytes) : List α := (m.samplesOf name).map Sample.value

/-- The values of a metric after one more was recorded. -/
def push (window : ℕ) (values : List α) (value : α) : List α := (values ++ [value]).rtake window

/-- No metric has more values than the window has room for. -/
def Windowed (m : Monitor α) : Prop := ∀ name, (m.valuesOf name).length ≤ m.window

/-- What an operation makes of a monitor. -/
def perform [Scalar α] (m : Monitor α) : MonitorOperation α → Monitor α
  | .start now name => (m.start now name).1
  | .finish now handle => (m.finish now handle).1
  | .record now name value => m.record now name value
  | .reset => m.reset

/-- A recorded value comes to those of its metric, and the others stay. -/
theorem valuesOf_record (m : Monitor α) (now : Int) (name name' : Bytes) (value : α) :
    (m.record now name value).valuesOf name' =
      if name' = name then push m.window (m.valuesOf name) value else m.valuesOf name' := by
  simp only [valuesOf, record, samplesOf, Dict.get?_insert]
  split
  · simp [push, List.rtake]
  · rfl

/-- Ending an operation changes the values of no metric except that of the operation. -/
theorem valuesOf_finish [Scalar α] (m : Monitor α) (now : Int) (handle : Bytes)
    (hname : ∀ operation, name ≠ metricOf operation) :
    (m.finish now handle).1.valuesOf name = m.valuesOf name := by
  rw [finish]
  split
  · rfl
  · next op hop =>
    rw [valuesOf_record, if_neg (hname op.name)]
    rfl

/-- Ending an operation does not change the room for values. -/
theorem window_finish [Scalar α] (m : Monitor α) (now : Int) (handle : Bytes) :
    (m.finish now handle).1.window = m.window := by
  rw [finish]
  split <;> rfl

/-- No more values are kept than there is room for. -/
theorem length_push_le (window : ℕ) (values : List α) (value : α) :
    (push window values value).length ≤ window := by
  rw [push, List.rtake, List.length_drop]
  omega

/-- Recording a value keeps within the window. -/
theorem Windowed.record (h : m.Windowed) (now : Int) (name : Bytes) (value : α) :
    (m.record now name value).Windowed := by
  intro name'
  rw [valuesOf_record]
  split
  · exact length_push_le _ _ _
  · exact h name'

/-- Every operation keeps within the window. -/
theorem Windowed.perform [Scalar α] (h : m.Windowed) (operation : MonitorOperation α) :
    (m.perform operation).Windowed := by
  cases operation with
  | start now name => exact h
  | finish now handle =>
    rw [Monitor.perform, finish]
    split
    · exact h
    · exact Windowed.record (m := { m with running := m.running.erase handle }) h _ _ _
  | record now name value => exact h.record now name value
  | reset => exact fun name => Nat.zero_le _

/-- Whatever is done with a new monitor, it keeps to its window. -/
theorem windowed_foldl [Scalar α] (window : ℕ) (operations : List (MonitorOperation α)) :
    (operations.foldl perform (new window)).Windowed := by
  induction operations using List.reverseRecOn with
  | nil => exact fun name => Nat.zero_le _
  | append_singleton operations operation ih =>
    rw [List.foldl_append]
    exact ih.perform operation

/-- What one more value pushes out may be gone already. -/
theorem push_rtake (window : ℕ) (values : List α) (value : α) :
    push window (values.rtake window) value = push window values value := by
  simp only [push, List.rtake_eq_reverse_take_reverse, List.reverse_append, List.reverse_reverse,
    List.reverse_singleton, List.singleton_append]
  cases window with
  | zero => rfl
  | succ w =>
    rw [List.take_succ_cons, List.take_succ_cons, List.take_take, Nat.min_eq_left w.le_succ]

/-- Of the old and the recorded values the last ones stay. -/
theorem foldl_push {window : ℕ} {values : List α} (h : values.length ≤ window) (new : List α) :
    new.foldl (push window) values = (values ++ new).rtake window := by
  induction new using List.reverseRecOn with
  | nil =>
    rw [List.append_nil, List.rtake, Nat.sub_eq_zero_of_le h]
    rfl
  | append_singleton new value ih =>
    rw [List.foldl_append, ih, List.foldl_cons, List.foldl_nil, push_rtake, push,
      List.append_assoc]

end Monitor

end SourceChunks
