import SourceChunks.JobQueue
import SourceChunks.Proofs.Dict

/-!
# The queue of files to work on, in use

A queue has its jobs in a list, and the paths of the jobs and those that were popped in two sets. In
a consistent queue these agree, and each operation leaves a consistent queue consistent.
-/

namespace SourceChunks

namespace JobQueue

variable {q : JobQueue} {path : Bytes} {job : Job}

/-- The queued paths are those of the jobs, no two jobs have the same path, and no path is both
queued and processed. -/
structure Consistent (q : JobQueue) : Prop where
  /-- A path is queued if it is that of a job. -/
  isQueued_iff : ∀ path, q.isQueued path ↔ path ∈ q.jobs.map Job.path
  /-- No two jobs have the same path. -/
  nodup_paths : (q.jobs.map Job.path).Nodup
  /-- A queued path is not processed. -/
  not_processed : ∀ path, q.isQueued path → ¬ q.isProcessed path

/-- The empty queue is consistent. -/
theorem consistent_empty : empty.Consistent where
  isQueued_iff _ := iff_of_false nofun List.not_mem_nil
  nodup_paths := List.nodup_nil
  not_processed := nofun

/-- There are as many jobs as queued paths. -/
theorem Consistent.size_eq (h : q.Consistent) : q.size = q.queued.size := by
  have hperm : (q.jobs.map Job.path).Perm q.queued.keys := by
    refine (List.perm_ext_iff_of_nodup h.nodup_paths q.queued.sorted.nodup_keys).mpr ?_
    intro path
    rw [← h.isQueued_iff, isQueued, Dict.contains_iff_mem_keys]
    rfl
  rw [← Dict.length_keys, ← hperm.length_eq, List.length_map]
  rfl

/-! ## Jobs that come -/

/-- Placing a job adds it to the others. -/
theorem place_perm (job : Job) (js : List Job) : (place job js).Perm (job :: js) := by
  induction js with
  | nil => exact .refl _
  | cons j rest ih =>
    rw [place]
    split
    · exact .refl _
    · exact (ih.cons j).trans (.swap job j rest)

/-- A queue with one more job, whatever the number of the next one is. -/
def enter (q : JobQueue) (job : Job) (next : ℕ) : JobQueue :=
  { q with
    jobs := place job q.jobs
    queued := q.queued.insert job.path ()
    nextSequence := next }

/-- Entering a job queues its path. -/
theorem isQueued_enter_iff {next : ℕ} :
    (q.enter job next).isQueued path ↔ path = job.path ∨ q.isQueued path :=
  Dict.contains_insert_iff

/-- A job comes in consistently if its path is neither queued nor processed. -/
theorem Consistent.enter (h : q.Consistent) (hqueued : ¬ q.isQueued job.path)
    (hprocessed : ¬ q.isProcessed job.path) (next : ℕ) : (q.enter job next).Consistent := by
  have hpaths := (place_perm job q.jobs).map Job.path
  constructor
  · intro path
    rw [isQueued_enter_iff, h.isQueued_iff]
    exact List.mem_cons.symm.trans hpaths.mem_iff.symm
  · refine hpaths.nodup_iff.mpr (List.nodup_cons.mpr ⟨?_, h.nodup_paths⟩)
    rwa [← h.isQueued_iff]
  · intro path hpath
    rcases isQueued_enter_iff.mp hpath with rfl | hpath
    · exact hprocessed
    · exact h.not_processed path hpath

/-- A path is refused if it is queued or processed, and else comes in as a new job. -/
theorem push_cases (q : JobQueue) (path : Bytes) (priority : Int) :
    (q.isQueued path ∨ q.isProcessed path) ∧ q.push path priority = (q, false) ∨
      (¬ q.isQueued path ∧ ¬ q.isProcessed path) ∧
        q.push path priority =
          (q.enter ⟨path, priority, q.nextSequence⟩ (q.nextSequence + 1), true) := by
  rw [push]
  split
  · next hthere =>
    rw [Bool.or_eq_true] at hthere
    exact .inl ⟨hthere.symm, rfl⟩
  · next hnew =>
    rw [Bool.or_eq_true, not_or] at hnew
    exact .inr ⟨hnew.symm, rfl⟩

/-- A path is accepted if it is neither queued nor processed. -/
theorem snd_push_iff {priority : Int} :
    (q.push path priority).2 ↔ ¬ q.isQueued path ∧ ¬ q.isProcessed path := by
  obtain ⟨hthere, hpush⟩ | ⟨hnew, hpush⟩ := q.push_cases path priority
  · rw [hpush]
    exact iff_of_false nofun fun hnew => hthere.elim hnew.1 hnew.2
  · rw [hpush]
    exact iff_of_true rfl hnew

/-- Pushing leaves the processed paths. -/
theorem processed_push (q : JobQueue) (path : Bytes) (priority : Int) :
    (q.push path priority).1.processed = q.processed := by
  obtain ⟨-, hpush⟩ | ⟨-, hpush⟩ := q.push_cases path priority
  · rw [hpush]
  · rw [hpush]
    rfl

/-- A push processes nothing. -/
theorem isProcessed_push (q : JobQueue) (path : Bytes) (priority : Int) :
    (q.push path priority).1.isProcessed = q.isProcessed :=
  congrArg Dict.contains (q.processed_push path priority)

/-- A push keeps the queue consistent, whether it is accepted or not. -/
theorem Consistent.push (h : q.Consistent) (path : Bytes) (priority : Int) :
    (q.push path priority).1.Consistent := by
  obtain ⟨-, hpush⟩ | ⟨hnew, hpush⟩ := q.push_cases path priority
  · rw [hpush]
    exact h
  · rw [hpush]
    exact h.enter hnew.1 hnew.2 _

/-- Of several files those come in that are neither queued nor processed. -/
theorem isQueued_foldl_push_iff {β : Type} {pathOf : β → Bytes} {priorityOf : β → Int}
    {found : List β} :
    (found.foldl (fun q f => (q.push (pathOf f) (priorityOf f)).1) q).isQueued path ↔
      q.isQueued path ∨ path ∈ found.map pathOf ∧ ¬ q.isProcessed path := by
  induction found generalizing q with
  | nil => simp
  | cons f rest ih =>
    rw [List.foldl_cons, ih, isProcessed_push, List.map_cons, List.mem_cons]
    obtain ⟨hthere, hpush⟩ | ⟨⟨-, hprocessed⟩, hpush⟩ := q.push_cases (pathOf f) (priorityOf f)
    · rw [hpush]
      grind
    · rw [hpush, isQueued_enter_iff]
      grind

/-- Pushing one found file after another keeps the queue consistent. -/
theorem Consistent.foldl_push {β : Type} {pathOf : β → Bytes} {priorityOf : β → Int}
    (h : q.Consistent) (found : List β) :
    (found.foldl (fun q f => (q.push (pathOf f) (priorityOf f)).1) q).Consistent := by
  induction found generalizing q with
  | nil => exact h
  | cons f rest ih => exact ih (h.push _ _)

/-! ## Jobs that leave -/

/-- A pop takes as many jobs as it is asked for, if there are so many. -/
theorem size_pop (q : JobQueue) (n : ℕ) : (q.pop n).1.size = q.size - n := List.length_drop

/-- The paths of popped jobs are no longer queued. -/
theorem isQueued_pop_iff {n : ℕ} :
    (q.pop n).1.isQueued path ↔ q.isQueued path ∧ path ∉ (q.pop n).2.map Job.path :=
  Dict.contains_foldl_erase_iff

/-- The paths of popped jobs are processed. -/
theorem isProcessed_pop_iff {n : ℕ} :
    (q.pop n).1.isProcessed path ↔ q.isProcessed path ∨ path ∈ (q.pop n).2.map Job.path :=
  Dict.contains_foldl_insert_iff

/-- What is popped and what stays are the jobs. -/
theorem map_path_pop (q : JobQueue) (n : ℕ) :
    (q.pop n).2.map Job.path ++ (q.pop n).1.jobs.map Job.path = q.jobs.map Job.path := by
  rw [← List.map_append]
  exact congrArg _ (List.take_append_drop n q.jobs)

/-- A pop keeps the queue consistent. -/
theorem Consistent.pop (h : q.Consistent) (n : ℕ) : (q.pop n).1.Consistent := by
  have hnodup := h.nodup_paths
  rw [← map_path_pop q n] at hnodup
  obtain ⟨-, hrest, hdisjoint⟩ := List.nodup_append.mp hnodup
  have hqueued : ∀ path, (q.pop n).1.isQueued path ↔ path ∈ (q.pop n).1.jobs.map Job.path := by
    intro path
    rw [isQueued_pop_iff, h.isQueued_iff, ← map_path_pop q n, List.mem_append]
    constructor
    · rintro ⟨hmem, hleft⟩
      exact hmem.resolve_left hleft
    · intro hmem
      exact ⟨.inr hmem, fun hleft => hdisjoint path hleft path hmem rfl⟩
  refine ⟨hqueued, hrest, ?_⟩
  intro path hpath hprocessed
  obtain ⟨hold, hleft⟩ := isQueued_pop_iff.mp hpath
  exact (isProcessed_pop_iff.mp hprocessed).elim (h.not_processed path hold) hleft

/-! ## Jobs that come back -/

/-- A job that comes back is no longer processed; it comes in again unless it is queued. -/
theorem putBack_cases (q : JobQueue) (job : Job) :
    let forgiven := { q with processed := q.processed.erase job.path }
    q.isQueued job.path ∧ q.putBack job = forgiven ∨
      ¬ q.isQueued job.path ∧ q.putBack job = forgiven.enter job q.nextSequence := by
  intro forgiven
  rw [putBack]
  split
  · next hthere => exact .inl ⟨hthere, rfl⟩
  · next hnew => exact .inr ⟨hnew, rfl⟩

/-- The path of a job that is put back is no longer processed. -/
theorem isProcessed_putBack_iff :
    (q.putBack job).isProcessed path ↔ q.isProcessed path ∧ path ≠ job.path := by
  obtain ⟨-, hputBack⟩ | ⟨-, hputBack⟩ := q.putBack_cases job
  all_goals
    rw [hputBack]
    exact Dict.contains_erase_iff

/-- A job that is put back keeps the queue consistent, also if its path was queued again. -/
theorem Consistent.putBack (h : q.Consistent) (job : Job) : (q.putBack job).Consistent := by
  have hforgiven : { q with processed := q.processed.erase job.path }.Consistent := by
    refine ⟨h.isQueued_iff, h.nodup_paths, ?_⟩
    intro path hpath hprocessed
    exact h.not_processed path hpath (Dict.contains_erase_iff.mp hprocessed).1
  obtain ⟨-, hputBack⟩ | ⟨hnew, hputBack⟩ := q.putBack_cases job
  · rw [hputBack]
    exact hforgiven
  · rw [hputBack]
    exact hforgiven.enter hnew (fun h => (Dict.contains_erase_iff.mp h).2 rfl) _

/-- Jobs that are put back keep the queue consistent. -/
theorem Consistent.requeue (h : q.Consistent) (jobs : List Job) : (q.requeue jobs).Consistent := by
  induction jobs generalizing q with
  | nil => exact h
  | cons job rest ih => exact ih (h.putBack job)

/-- The paths that come back are no longer processed. -/
theorem isProcessed_requeue_iff {jobs : List Job} :
    (q.requeue jobs).isProcessed path ↔ q.isProcessed path ∧ path ∉ jobs.map Job.path := by
  induction jobs generalizing q with
  | nil => simp [requeue]
  | cons job rest ih =>
    show ((q.putBack job).requeue rest).isProcessed path ↔ _
    rw [ih, isProcessed_putBack_iff, List.map_cons, List.mem_cons, not_or, and_assoc]

/-- Only the jobs that come back come in. -/
theorem mem_jobs_of_mem_requeue {jobs : List Job} (h : job ∈ (q.requeue jobs).jobs) :
    job ∈ q.jobs ∨ job ∈ jobs := by
  induction jobs generalizing q with
  | nil => exact .inl h
  | cons j rest ih =>
    rcases ih h with hold | hrest
    · obtain ⟨-, hputBack⟩ | ⟨-, hputBack⟩ := q.putBack_cases j
      · rw [hputBack] at hold
        exact .inl hold
      · rw [hputBack] at hold
        rcases mem_place.mp hold with rfl | hold
        · exact .inr List.mem_cons_self
        · exact .inl hold
    · exact .inr (List.mem_cons_of_mem j hrest)

/-- Jobs that are put back keep their numbers, so the next number stays. -/
theorem nextSequence_requeue (q : JobQueue) (jobs : List Job) :
    (q.requeue jobs).nextSequence = q.nextSequence := by
  induction jobs generalizing q with
  | nil => rfl
  | cons job rest ih =>
    refine (ih (q.putBack job)).trans ?_
    obtain ⟨-, hputBack⟩ | ⟨-, hputBack⟩ := q.putBack_cases job
    · rw [hputBack]
    · rw [hputBack]
      rfl

/-! ## Jobs that are dropped and paths that are forgotten -/

/-- A cleared queue is consistent. -/
theorem consistent_clear (q : JobQueue) : q.clear.1.Consistent where
  isQueued_iff _ := iff_of_false nofun List.not_mem_nil
  nodup_paths := List.nodup_nil
  not_processed := nofun

/-- Forgetting what was processed keeps the queue consistent. -/
theorem Consistent.forgetProcessed (h : q.Consistent) : q.forgetProcessed.1.Consistent where
  isQueued_iff := h.isQueued_iff
  nodup_paths := h.nodup_paths
  not_processed _ _ := nofun

end JobQueue

end SourceChunks
