import SourceChunks.Proofs.Monitor.Histories

/-!
# What a monitor has recorded

A value that is recorded adds a sample to its metric, and so does the end of an operation under way:
the time that it has taken. The records of a history are these samples in the order in which they
were added, until all is forgotten, and of the records of each metric the last ones are kept.
-/

namespace SourceChunks

/-- A sample that an event has added to a metric. -/
structure MetricRecord (α : Type) where
  /-- The place of the event among all events. -/
  place : ℕ
  /-- The name of the metric. -/
  metric : Bytes
  /-- The sample. -/
  sample : Sample α

namespace Monitor

variable {α : Type} {window : ℕ} {m m' : Monitor α} {history : List (MonitorEvent α)}
  {e : MonitorEvent α} {handle : Bytes} {records : List (MetricRecord α)} {r : MetricRecord α}

/-! ## The samples of a metric -/

/-- The samples of a metric among some records. -/
def samplesIn (records : List (MetricRecord α)) (name : Bytes) : List (Sample α) :=
  (records.filter fun r => r.metric = name).map MetricRecord.sample

/-- One more record adds its sample to its own metric only. -/
theorem samplesIn_concat (records : List (MetricRecord α)) (r : MetricRecord α) (name : Bytes) :
    samplesIn (records ++ [r]) name =
      if name = r.metric then samplesIn records name ++ [r.sample] else samplesIn records name := by
  simp only [samplesIn, List.filter_append, List.map_append, List.filter_singleton]
  by_cases hsame : name = r.metric
  · simp [hsame]
  · simp [hsame, Ne.symm hsame]

/-- A recorded value comes to the samples of its metric, and the others stay. -/
theorem samplesOf_record (m : Monitor α) (now : Int) (name name' : Bytes) (value : α) :
    (m.record now name value).samplesOf name' =
      if name' = name then push m.window (m.samplesOf name) ⟨value, .ofNanos now⟩
      else m.samplesOf name' := by
  simp only [record, samplesOf, Dict.get?_insert]
  split
  · rfl
  · rfl

/-- The samples that a monitor has of each metric are the last ones among some records. -/
def Keeps (m : Monitor α) (records : List (MetricRecord α)) : Prop :=
  ∀ name, m.samplesOf name = (samplesIn records name).rtake m.window

/-- A monitor that keeps the last records keeps them when there is one more. -/
theorem Keeps.record (h : m.Keeps records) (now : Int) (name : Bytes) (value : α) (place : ℕ) :
    (m.record now name value).Keeps (records ++ [⟨place, name, value, .ofNanos now⟩]) := by
  intro name'
  rw [samplesOf_record, samplesIn_concat]
  by_cases hsame : name' = name
  · rw [if_pos hsame, if_pos hsame, h name, push_rtake, hsame]
    rfl
  · rw [if_neg hsame, if_neg hsame]
    exact h name'

/-! ## The records of a history -/

variable [Scalar α]

/-- The event adds the sample to the metric, after what has happened before it: a value that is
recorded, or the time that an operation under way has taken when it is ended. -/
inductive Adds (before : List (MonitorEvent α)) : MonitorEvent α → Bytes → Sample α → Prop
  | record (time : Int) (name : Bytes) (value : α) :
      Adds before (.record time name value) name ⟨value, .ofNanos time⟩
  | finish (time : Int) {handle : Bytes} {op : RunningOperation}
      (h : Underway before handle op) :
      Adds before (.finish time handle) (metricOf op.name)
        ⟨milliseconds (time - op.startedAt), .ofNanos time⟩

/-- An event of the history has added the sample, and nothing was forgotten since. -/
def IsRecord (history : List (MonitorEvent α)) (r : MetricRecord α) : Prop :=
  (∃ e, history[r.place]? = some e ∧ Adds (history.take r.place) e r.metric r.sample) ∧
    .reset ∉ history.drop r.place

/-- The records of a history, in the order of the events that have added them. -/
structure Lists (history : List (MonitorEvent α)) (records : List (MetricRecord α)) : Prop where
  /-- The places increase. -/
  increasing : (records.map MetricRecord.place).Pairwise (· < ·)
  /-- All that is a record is listed. -/
  mem_iff : ∀ r, r ∈ records ↔ IsRecord history r

/-- The event of a record is in the history. -/
theorem IsRecord.place_lt (h : IsRecord history r) : r.place < history.length := by
  obtain ⟨⟨e, hget, -⟩, -⟩ := h
  exact (List.getElem?_eq_some_iff.mp hget).1

/-- What an event adds comes to the records. -/
theorem isRecord_concat_iff (he : e ≠ .reset) : IsRecord (history ++ [e]) r ↔
    IsRecord history r ∨ r.place = history.length ∧ Adds history e r.metric r.sample := by
  unfold IsRecord
  rcases Nat.lt_trichotomy r.place history.length with hlt | heq | hgt
  · rw [List.getElem?_append_left hlt, List.take_append_of_le_length hlt.le,
      List.drop_append_of_le_length hlt.le]
    simp [he.symm, hlt.ne]
  · rw [heq]
    simp [he.symm]
  · have hlength : (history ++ [e]).length ≤ r.place := by
      rw [List.length_append, List.length_singleton]
      omega
    rw [List.getElem?_eq_none hgt.le, List.getElem?_eq_none hlength]
    simp [hgt.ne']

/-- After all was forgotten there are no records. -/
theorem lists_concat_reset (history : List (MonitorEvent α)) :
    Lists (history ++ [.reset]) [] := by
  refine ⟨List.Pairwise.nil, fun r => iff_of_false List.not_mem_nil ?_⟩
  intro hr
  have hlt := hr.place_lt
  rw [List.length_append, List.length_singleton, Nat.lt_succ_iff] at hlt
  apply hr.2
  rw [List.drop_append_of_le_length hlt]
  exact List.mem_append_right _ (List.mem_singleton_self _)

/-- An event that adds nothing leaves the records as they are. -/
theorem Lists.of_not_adds (h : Lists history records) (he : e ≠ .reset)
    (hnone : ∀ name x, ¬ Adds history e name x) : Lists (history ++ [e]) records := by
  refine ⟨h.increasing, fun r => ?_⟩
  rw [h.mem_iff, isRecord_concat_iff he]
  simp only [hnone, and_false, or_false]

/-- The sample that an event adds is the last record. -/
theorem Lists.concat (h : Lists history records) (he : e ≠ .reset) {name : Bytes} {x : Sample α}
    (hadds : ∀ name' x', Adds history e name' x' ↔ name' = name ∧ x' = x) :
    Lists (history ++ [e]) (records ++ [⟨history.length, name, x⟩]) := by
  constructor
  · rw [List.map_append]
    refine List.pairwise_append.mpr ⟨h.increasing, List.pairwise_singleton _ _, ?_⟩
    intro i hi j hj
    obtain ⟨r, hr, rfl⟩ := List.mem_map.mp hi
    obtain rfl := List.mem_singleton.mp hj
    exact ((h.mem_iff r).mp hr).place_lt
  · intro r
    obtain ⟨place, metric, sample⟩ := r
    rw [List.mem_append, List.mem_singleton, h.mem_iff, isRecord_concat_iff he, hadds]
    simp

/-- What an event adds, if it adds anything, is recorded by the monitor, and nothing else. -/
theorem Step.exists_lists (hstep : Step m e m') (haccounts : Accounts history m)
    (hlists : Lists history records) (hkeeps : m.Keeps records) :
    ∃ records', Lists (history ++ [e]) records' ∧ m'.Keeps records' := by
  cases hstep with
  | start now name => exact ⟨records, hlists.of_not_adds nofun nofun, hkeeps⟩
  | reset =>
    refine ⟨[], lists_concat_reset history, fun name => ?_⟩
    show ((Dict.empty.get? name).getD [] : List (Sample α)) = _
    simp [samplesIn, List.rtake]
  | record now name value =>
    refine ⟨_, hlists.concat (e := .record now name value) nofun ?_,
      hkeeps.record now name value history.length⟩
    intro name' x'
    constructor
    · rintro ⟨⟩
      exact ⟨rfl, rfl⟩
    · rintro ⟨rfl, rfl⟩
      exact .record now name' value
  | finish now handle =>
    cases hget : m.running.get? handle with
    | none =>
      rw [finish_of_get?_eq_none now hget]
      refine ⟨records, hlists.of_not_adds nofun ?_, hkeeps⟩
      intro name x hadds
      cases hadds with
      | finish _ hop =>
        rw [(haccounts.get?_iff handle _).mpr hop] at hget
        exact absurd hget nofun
    | some op =>
      have hop : Underway history handle op := (haccounts.get?_iff handle op).mp hget
      have hadds (name : Bytes) (x : Sample α) : Adds history (.finish now handle) name x ↔
          name = metricOf op.name ∧ x = ⟨milliseconds (now - op.startedAt), .ofNanos now⟩ := by
        constructor
        · intro hadds
          cases hadds with
          | finish _ hop' =>
            obtain rfl := haccounts.unique hop hop'
            exact ⟨rfl, rfl⟩
        · rintro ⟨rfl, rfl⟩
          exact .finish now hop
      have hrest : Keeps { m with running := m.running.erase handle } records := hkeeps
      rw [finish_of_get?_eq_some now hget]
      exact ⟨_, hlists.concat (e := .finish now handle) nofun hadds,
        hrest.record now _ _ history.length⟩

/-- The samples that a monitor keeps are the last records of its history. -/
theorem Run.exists_lists (h : Run window history m) :
    ∃ records, Lists history records ∧ m.Keeps records := by
  induction h with
  | start =>
    refine ⟨[], ⟨List.Pairwise.nil, fun r => iff_of_false List.not_mem_nil ?_⟩, fun name => ?_⟩
    · exact fun hr => absurd hr.place_lt (Nat.not_lt_zero _)
    · show ((Dict.empty.get? name).getD [] : List (Sample α)) = _
      simp [samplesIn, List.rtake]
  | next h hstep ih =>
    obtain ⟨records, hlists, hkeeps⟩ := ih
    exact hstep.exists_lists h.accounts hlists hkeeps

end Monitor

end SourceChunks
