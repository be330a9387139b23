import SourceChunks.Proofs.Monitor.Records
import SourceChunks.Proofs.Monitor.Summaries

/-!
# Each operation counts once

A monitor is used: time goes by, operations are started and ended by their handles or by other ones,
and measurements are taken, which end their operations when they are stopped or go out of scope. A
measurement that was stopped has a spent handle, so that stopping it again is like ending an
operation by such a handle: nothing comes of it. What the monitor shows in the end are the last
records of what has happened, and their summaries.
-/

namespace SourceChunks

/-- Something that is done with a monitor. -/
inductive MonitorAction (α : Type) where
  /-- Some nanoseconds go by. -/
  | advance (nanos : Int)
  /-- An operation is started. -/
  | start (name : Bytes)
  /-- An operation is ended by a handle. -/
  | finish (handle : Bytes)
  /-- An operation is started that a measurement will end. -/
  | measure (name : Bytes)
  /-- A measurement is stopped. -/
  | stop (number : ℕ)
  /-- A measurement goes out of scope. -/
  | drop (number : ℕ)
  /-- A value of a metric is recorded. -/
  | record (name : Bytes) (value : α)
  /-- All samples and all operations under way are forgotten. -/
  | reset

/-- A monitor in use, and all that has happened to it. -/
structure MonitorSession (α : Type) where
  /-- The monitor. -/
  monitor : Monitor α
  /-- What time it is, in nanoseconds. -/
  clock : Int
  /-- The measurements in scope, each with the handle that it has got. -/
  measurements : List (Bytes × Measurement)
  /-- What has happened to the monitor. -/
  history : List (MonitorEvent α)

namespace MonitorSession

open Monitor

variable {α : Type} {window : ℕ} {s : MonitorSession α}

/-! ## Measurements -/

/-- A measurement either has its handle still, or was stopped and nothing is under way with the
handle. -/
def Tracks (history : List (MonitorEvent α)) (p : Bytes × Measurement) : Prop :=
  p.1 ∈ handles history ∧
    (p.2.handle = some p.1 ∨ p.2.handle = none ∧ ∀ op, ¬ Underway history p.1 op)

/-- A measurement that was stopped stays so, whatever happens. -/
theorem Tracks.concat {history : List (MonitorEvent α)} {p : Bytes × Measurement}
    {e : MonitorEvent α} (h : Tracks history p) (hnodup : (handles (history ++ [e])).Nodup) :
    Tracks (history ++ [e]) p := by
  obtain ⟨hmem, hheld | ⟨hnone, hspent⟩⟩ := h
  all_goals
    have hmem' : p.1 ∈ handles (history ++ [e]) := by
      rw [handles_append]
      exact List.mem_append_left _ hmem
  · exact ⟨hmem', .inl hheld⟩
  · exact ⟨hmem', .inr ⟨hnone, fun op => not_underway_append hnodup hmem hspent⟩⟩

/-! ## What is done -/

/-- A new monitor. -/
def new (window : ℕ) (clock : Int) : MonitorSession α := ⟨Monitor.new window, clock, [], []⟩

/-- Start to measure an operation. -/
def measure (s : MonitorSession α) (name : Bytes) : MonitorSession α :=
  let handle := (s.monitor.start s.clock name).2
  let (monitor, x) := Measurement.start s.monitor s.clock name
  { s with
    monitor
    measurements := s.measurements ++ [(handle, x)]
    history := s.history ++ [.start s.clock name handle] }

variable [Scalar α]

/-- Stop a measurement in scope. -/
def stop (s : MonitorSession α) (number : ℕ) : MonitorSession α :=
  match s.measurements[number]? with
  | none => s
  | some (handle, x) =>
    let (monitor, x, _) := x.stop s.monitor s.clock
    { s with
      monitor
      measurements := s.measurements.set number (handle, x)
      history := s.history ++ [.finish s.clock handle] }

/-- What an action makes of a monitor in use. -/
def perform (s : MonitorSession α) : MonitorAction α → MonitorSession α
  | .advance nanos => { s with clock := s.clock + nanos }
  | .start name =>
    { s with
      monitor := (s.monitor.start s.clock name).1
      history := s.history ++ [.start s.clock name (s.monitor.start s.clock name).2] }
  | .finish handle =>
    { s with
      monitor := (s.monitor.finish s.clock handle).1
      history := s.history ++ [.finish s.clock handle] }
  | .measure name => s.measure name
  | .stop number => s.stop number
  | .drop number =>
    { s.stop number with measurements := (s.stop number).measurements.eraseIdx number }
  | .record name value =>
    { s with
      monitor := s.monitor.record s.clock name value
      history := s.history ++ [.record s.clock name value] }
  | .reset => { s with monitor := s.monitor.reset, history := s.history ++ [.reset] }

/-! ## Whatever is done -/

/-- The monitor has come about by what has happened, and all measurements have their handles or were
stopped. -/
structure Holds (window : ℕ) (s : MonitorSession α) : Prop where
  /-- The monitor has come about by what has happened. -/
  run : Run window s.history s.monitor
  /-- Each measurement has its handle, or was stopped. -/
  tracks : ∀ p ∈ s.measurements, Tracks s.history p

/-- What happens to the monitor leaves the measurements as they are. -/
theorem Holds.next (h : Holds window s) {e : MonitorEvent α} {m : Monitor α}
    (hstep : Step s.monitor e m) :
    Holds window { s with monitor := m, history := s.history ++ [e] } := by
  have hrun : Run window (s.history ++ [e]) m := h.run.next hstep
  refine ⟨hrun, ?_⟩
  intro p hp
  exact (h.tracks p hp).concat hrun.accounts.nodup

/-- Stopping a measurement does to the monitor what ending an operation by its handle does. -/
theorem monitor_stop {m : Monitor α} {history : List (MonitorEvent α)} {handle : Bytes}
    {x : Measurement} (haccounts : Accounts history m) (htracks : Tracks history (handle, x))
    (now : Int) : (x.stop m now).1 = (m.finish now handle).1 := by
  obtain ⟨-, hheld | ⟨hnone, hspent⟩⟩ := htracks
  · rw [Measurement.stop, hheld]
  · rw [Measurement.stop, hnone, finish_of_get?_eq_none now (haccounts.get?_eq_none hspent)]

/-- A measurement that was stopped has no handle. -/
theorem handle_stop (m : Monitor α) (now : Int) (x : Measurement) :
    (x.stop m now).2.1.handle = none := by
  unfold Measurement.stop
  split
  · assumption
  · rfl

/-- Stopping a measurement keeps monitor and handles together. -/
theorem Holds.stop (h : Holds window s) (number : ℕ) : Holds window (s.stop number) := by
  unfold MonitorSession.stop
  split
  · exact h
  · next handle x hget =>
    have htracks : Tracks s.history (handle, x) := h.tracks _ (List.mem_of_getElem? hget)
    have hnext := h.next (Step.finish s.clock handle)
    rw [← monitor_stop h.run.accounts htracks s.clock] at hnext
    refine ⟨hnext.run, ?_⟩
    intro p hp
    rcases List.mem_or_eq_of_mem_set hp with hold | rfl
    · exact hnext.tracks p hold
    · refine ⟨(hnext.tracks _ (List.mem_of_getElem? hget)).1, .inr ⟨handle_stop .., ?_⟩⟩
      intro op
      rw [underway_concat_iff]
      simp [Ends]

/-- A new measurement gets a handle that no other one has. -/
theorem Holds.measure (h : Holds window s) (name : Bytes) : Holds window (s.measure name) := by
  have hnext := h.next (Step.start s.clock name)
  refine ⟨hnext.run, ?_⟩
  intro p hp
  rcases List.mem_append.mp hp with hold | hlast
  · exact hnext.tracks p hold
  · obtain rfl := List.mem_singleton.mp hlast
    refine ⟨?_, .inl rfl⟩
    show _ ∈ handles (s.history ++ _)
    rw [handles_append]
    exact List.mem_append_right _ (List.mem_singleton_self _)

/-- Every action keeps monitor and handles together. -/
theorem Holds.perform (h : Holds window s) (action : MonitorAction α) :
    Holds window (s.perform action) := by
  cases action with
  | advance nanos => exact ⟨h.run, h.tracks⟩
  | start name => exact h.next (Step.start s.clock name)
  | finish handle => exact h.next (Step.finish s.clock handle)
  | measure name => exact h.measure name
  | stop number => exact h.stop number
  | drop number =>
    refine ⟨(h.stop number).run, ?_⟩
    intro p hp
    exact (h.stop number).tracks p (List.mem_of_mem_eraseIdx hp)
  | record name value => exact h.next (Step.record s.clock name value)
  | reset => exact h.next Step.reset

/-- Whatever is done with a new monitor, it comes about by what happens. -/
theorem holds_foldl (window : ℕ) (clock : Int) (actions : List (MonitorAction α)) :
    Holds window (actions.foldl perform (new window clock)) := by
  induction actions using List.reverseRecOn with
  | nil => exact ⟨.start, nofun⟩
  | append_singleton actions action ih =>
    rw [List.foldl_append]
    exact ih.perform action

/-! ## What the monitor shows -/

/-- Whatever is done with a monitor, no handle is given out twice, and of all ends by one handle at
most one comes while an operation is under way with it. Ending an operation by any other handle does
nothing. The samples of a metric are the last ones that were recorded for it, by themselves or at
the end of an operation under way, and each metric that has samples is listed once, with their
summary. -/
theorem counts_each_operation_once (window : ℕ) (clock : Int) (actions : List (MonitorAction ℚ)) :
    let s := actions.foldl perform (new window clock)
    (handles s.history).Nodup ∧
      (∀ handle i j time time' op op', s.history[i]? = some (.finish time handle) →
        s.history[j]? = some (.finish time' handle) → Underway (s.history.take i) handle op →
        Underway (s.history.take j) handle op' → i = j) ∧
      (∀ handle, (∀ op, ¬ Underway s.history handle op) →
        s.monitor.finish s.clock handle = (s.monitor, 0)) ∧
      (∃ records, Lists s.history records ∧
        ∀ name, s.monitor.samplesOf name = (samplesIn records name).rtake (max window 1)) ∧
      (s.monitor.metrics.Pairwise fun a b => a.1 < b.1) ∧
      ∀ name summary, (name, summary) ∈ s.monitor.metrics ↔
        Summarizes (s.monitor.valuesOf name) summary := by
  intro s
  have h : Holds window s := holds_foldl window clock actions
  have haccounts : Accounts s.history s.monitor := h.run.accounts
  obtain ⟨records, hlists, hkeeps⟩ := h.run.exists_lists
  refine ⟨haccounts.nodup, ?_, ?_, ⟨records, hlists, ?_⟩, pairwise_metrics s.monitor, ?_⟩
  · intro handle i j time time' op op' hi hj hop hop'
    exact eq_of_underway haccounts.nodup hi hj hop hop'
  · intro handle hspent
    rw [finish_of_get?_eq_none s.clock (haccounts.get?_eq_none hspent), Scalar.ofNat_rat]
    rfl
  · intro name
    rw [hkeeps name, h.run.window_eq]
  · intro name summary
    rw [mem_metrics_iff, summarize_eq_some_iff]

/-- An operation is ended twice by its handle, which ends in digits after two number signs. Only the
first end comes while it is under way, and a third one would do nothing. -/
theorem counts_each_operation_once_endedTwice :
    let name := bytes "a#0"
    let handle := handleOf name 0
    let actions : List (MonitorAction ℚ) :=
      [.start name, .advance 5000000, .finish handle, .finish handle]
    let s := actions.foldl perform (new 0 0)
    Underway (s.history.take 1) handle ⟨name, 0⟩ ∧
      (∀ op, ¬ Underway (s.history.take 2) handle op) ∧
      s.monitor.finish s.clock handle = (s.monitor, 0) := by
  intro name handle actions s
  have hhistory : s.history =
      [.start 0 name handle, .finish 5000000 handle, .finish 5000000 handle] := rfl
  have hfirst : Underway (s.history.take 1) handle ⟨name, 0⟩ := ⟨[], _, [], rfl, rfl, nofun⟩
  have hspent (op : RunningOperation) : ¬ Underway s.history handle op := by
    have hlast : s.history = s.history.take 2 ++ [.finish 5000000 handle] := rfl
    rw [hlast, underway_concat_iff]
    simp [Ends]
  obtain ⟨-, hunique, hnothing, -⟩ := counts_each_operation_once 0 0 actions
  refine ⟨hfirst, ?_, hnothing handle hspent⟩
  intro op hop
  have hplaces : 1 = 2 := hunique handle 1 2 5000000 5000000 _ op rfl rfl hfirst hop
  omega

end MonitorSession

end SourceChunks
