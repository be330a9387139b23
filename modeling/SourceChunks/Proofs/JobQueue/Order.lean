import SourceChunks.Proofs.JobQueue.Histories

/-!
# Jobs leave in order

A new job is put in front of the first job that it leaves before, so whatever happens to a queue, no
job leaves before one that stands in front of it.
-/

namespace SourceChunks

/-- A job leaves before another if it is more urgent, or as urgent and accepted earlier. -/
theorem Job.before_iff {a b : Job} :
    a.before b ↔ b.priority < a.priority ∨ a.priority = b.priority ∧ a.sequence < b.sequence := by
  simp [Job.before]

/-- Coming before is transitive. -/
theorem Job.before_trans {a b c : Job} (hab : a.before b) (hbc : b.before c) : a.before c := by
  rw [before_iff] at *
  omega

namespace JobQueue

variable {q q' : JobQueue} {job : Job} {history : List QueueEvent} {e : QueueEvent}

/-- No job leaves before one that stands in front of it. -/
def Ordered (jobs : List Job) : Prop := jobs.Pairwise fun a b => ¬ b.before a

/-- A job is placed so that the order stays. -/
theorem Ordered.place {jobs : List Job} (h : Ordered jobs) (job : Job) :
    Ordered (place job jobs) := by
  induction jobs with
  | nil => exact List.pairwise_singleton _ _
  | cons j rest ih =>
    obtain ⟨hj, hrest⟩ := List.pairwise_cons.mp h
    rw [JobQueue.place]
    split
    · next hbefore =>
      refine List.pairwise_cons.mpr ⟨?_, h⟩
      intro k hk hkjob
      rcases List.mem_cons.mp hk with rfl | hk
      · have hself := Job.before_trans hbefore hkjob
        rw [Job.before_iff] at hself
        omega
      · exact hj k hk (Job.before_trans hkjob hbefore)
    · next hnot =>
      refine List.pairwise_cons.mpr ⟨?_, ih hrest⟩
      intro k hk
      rcases mem_place.mp hk with rfl | hk
      · exact hnot
      · exact hj k hk

/-- Jobs that are put back are put in order. -/
theorem Ordered.requeue (h : Ordered q.jobs) (jobs : List Job) : Ordered (q.requeue jobs).jobs := by
  induction jobs generalizing q with
  | nil => exact h
  | cons job rest ih =>
    refine ih ?_
    obtain ⟨-, hputBack⟩ | ⟨-, hputBack⟩ := q.putBack_cases job
    · rw [hputBack]
      exact h
    · rw [hputBack]
      exact h.place job

/-- An event keeps the jobs in order. -/
theorem Step.ordered (hstep : Step history q e q') (h : Ordered q.jobs) : Ordered q'.jobs := by
  cases hstep with
  | push path priority =>
    obtain ⟨-, hpush⟩ | ⟨-, hpush⟩ := q.push_cases path priority
    · rw [hpush]
      exact h
    · rw [hpush]
      exact h.place _
  | pop n => exact h.sublist (List.drop_sublist n q.jobs)
  | requeue jobs hpopped => exact h.requeue jobs
  | clear => exact List.Pairwise.nil
  | forget => exact h

/-- Whatever happens to a new queue, its jobs are in order. -/
theorem Run.ordered (h : Run history q) : Ordered q.jobs := by
  induction h with
  | start => exact List.Pairwise.nil
  | next h hstep ih => exact hstep.ordered ih

/-- What is popped is as many jobs as asked for, or all, and no other job would leave before one of
them. -/
theorem Run.pop_spec (h : Run history q) (n : ℕ) :
    (q.pop n).2.length = min n q.size ∧ (q.pop n).2 ++ (q.pop n).1.jobs = q.jobs ∧
      ∀ popped ∈ (q.pop n).2, ∀ left ∈ (q.pop n).1.jobs, ¬ left.before popped := by
  refine ⟨List.length_take, List.take_append_drop n q.jobs, ?_⟩
  have hordered : Ordered (q.jobs.take n ++ q.jobs.drop n) := by
    rw [List.take_append_drop]
    exact h.ordered
  exact (List.pairwise_append.mp hordered).2.2

end JobQueue

end SourceChunks
