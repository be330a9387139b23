import SourceChunks.Proofs.History
import SourceChunks.Proofs.JobQueue

/-!
# Each file is worked on once

A queue is used: paths are pushed, jobs are popped and some of them put back, once or several times,
at once or much later. Through all this the queue stays consistent, and a path is processed exactly
if it was popped and neither put back nor forgotten since. So it is not popped again before one of
these happens.
-/

namespace SourceChunks

/-- Something that happens to a queue. -/
inductive QueueEvent where
  /-- A path is pushed. -/
  | push (path : Bytes) (priority : Int)
  /-- These jobs are popped together. -/
  | pop (batch : List Job)
  /-- Jobs are put back. -/
  | requeue (jobs : List Job)
  /-- All jobs are dropped. -/
  | clear
  /-- The processed paths are forgotten. -/
  | forget

namespace QueueEvent

/-- The event takes a path from the queue. -/
def HandsOut (path : Bytes) : QueueEvent → Prop
  | .pop batch => path ∈ batch.map Job.path
  | _ => False

/-- The event makes a path count as not processed. -/
def Releases (path : Bytes) : QueueEvent → Prop
  | .requeue jobs => path ∈ jobs.map Job.path
  | .forget => True
  | _ => False

end QueueEvent

namespace JobQueue

open QueueEvent

/-! ## Runs -/

/-- The job was popped. -/
def Popped (history : List QueueEvent) (job : Job) : Prop :=
  ∃ batch, .pop batch ∈ history ∧ job ∈ batch

/-- What an event makes of a queue. Only jobs that were popped before are put back. -/
inductive Step (history : List QueueEvent) (q : JobQueue) : QueueEvent → JobQueue → Prop
  | push (path : Bytes) (priority : Int) :
      Step history q (.push path priority) (q.push path priority).1
  | pop (n : ℕ) : Step history q (.pop (q.pop n).2) (q.pop n).1
  | requeue (jobs : List Job) (hpopped : ∀ job ∈ jobs, Popped history job) :
      Step history q (.requeue jobs) (q.requeue jobs)
  | clear : Step history q .clear q.clear.1
  | forget : Step history q .forget q.forgetProcessed.1

/-- A new queue is used for some time. -/
inductive Run : List QueueEvent → JobQueue → Prop
  | start : Run [] empty
  | next {history : List QueueEvent} {q q' : JobQueue} {e : QueueEvent} (h : Run history q)
      (hstep : Step history q e q') : Run (history ++ [e]) q'

variable {history : List QueueEvent} {q q' : JobQueue} {e : QueueEvent} {path : Bytes} {job : Job}

/-- Before its last event the queue was used as well. -/
theorem Run.exists_step (h : Run (history ++ [e]) q') :
    ∃ q, Run history q ∧ Step history q e q' := by
  generalize hall : history ++ [e] = all at h
  cases h with
  | start => exact absurd hall (by simp)
  | next h hstep =>
    obtain ⟨rfl, hlast⟩ := List.append_inj' hall rfl
    obtain rfl := List.singleton_inj.mp hlast
    exact ⟨_, h, hstep⟩

/-- After the first events of a history the queue was used for some time. -/
theorem Run.exists_of_append {before after : List QueueEvent} (h : Run (before ++ after) q) :
    ∃ q', Run before q' := by
  induction after using List.reverseRecOn generalizing q with
  | nil => exact ⟨q, by simpa using h⟩
  | append_singleton after e ih =>
    rw [← List.append_assoc] at h
    obtain ⟨q₁, h₁, -⟩ := h.exists_step
    exact ih h₁

/-! ## Paths -/

/-- An event keeps the queue consistent. -/
theorem Step.consistent (hstep : Step history q e q') (h : q.Consistent) : q'.Consistent := by
  cases hstep with
  | push path priority => exact h.push path priority
  | pop n => exact h.pop n
  | requeue jobs hpopped => exact h.requeue jobs
  | clear => exact consistent_clear q
  | forget => exact h.forgetProcessed

/-- Whatever happens to a new queue, it stays consistent. -/
theorem Run.consistent (h : Run history q) : q.Consistent := by
  induction h with
  | start => exact consistent_empty
  | next h hstep ih => exact hstep.consistent ih

/-- A path is processed after an event that takes it from the queue, and stays so until an event
releases it. -/
theorem Step.isProcessed_iff (hstep : Step history q e q') :
    q'.isProcessed path ↔ HandsOut path e ∨ q.isProcessed path ∧ ¬ Releases path e := by
  cases hstep with
  | push path' priority =>
    rw [isProcessed, processed_push]
    simp only [HandsOut, Releases, false_or, not_false_eq_true, and_true]
    exact Iff.rfl
  | pop n =>
    rw [isProcessed_pop_iff, or_comm]
    simp only [HandsOut, Releases, not_false_eq_true, and_true]
  | requeue jobs hpopped =>
    rw [isProcessed_requeue_iff]
    simp only [HandsOut, Releases, false_or]
  | clear =>
    simp only [HandsOut, Releases, false_or, not_false_eq_true, and_true]
    exact Iff.rfl
  | forget =>
    simp only [HandsOut, Releases, false_or, not_true_eq_false, and_false]
    exact iff_of_false nofun id

/-- A path is processed if it was popped and neither put back nor forgotten since. -/
theorem Run.isProcessed_iff (h : Run history q) :
    q.isProcessed path ↔ NoneSince (Releases path) (HandsOut path) history := by
  induction h with
  | start => exact iff_of_false nofun not_noneSince_nil
  | next h hstep ih => rw [noneSince_concat_iff, ← ih, hstep.isProcessed_iff]

/-! ## Sequence numbers -/

/-- The jobs that are in the queue or were popped have different sequence numbers, and the next job
will have another one. -/
structure Numbered (history : List QueueEvent) (q : JobQueue) : Prop where
  /-- The number of the next job is greater than those of the others. -/
  sequence_lt : ∀ job, job ∈ q.jobs ∨ Popped history job → job.sequence < q.nextSequence
  /-- Jobs with the same number are one. -/
  eq_of_sequence_eq : ∀ a b, a ∈ q.jobs ∨ Popped history a → b ∈ q.jobs ∨ Popped history b →
    a.sequence = b.sequence → a = b

/-- A job was popped before or with the last event. -/
theorem popped_concat_iff : Popped (history ++ [e]) job ↔
    Popped history job ∨ ∃ batch, e = .pop batch ∧ job ∈ batch := by
  simp only [Popped, List.mem_append, List.mem_singleton, or_and_right, exists_or, eq_comm]

/-- Jobs stay numbered while none is new. -/
theorem Numbered.of_known (h : Numbered history q) {history' : List QueueEvent}
    (hjobs : ∀ job ∈ q'.jobs, job ∈ q.jobs ∨ Popped history job)
    (hpopped : ∀ job, Popped history' job → job ∈ q.jobs ∨ Popped history job)
    (hnext : q'.nextSequence = q.nextSequence) : Numbered history' q' := by
  have hknown (job : Job) (hjob : job ∈ q'.jobs ∨ Popped history' job) :
      job ∈ q.jobs ∨ Popped history job := hjob.elim (hjobs job) (hpopped job)
  refine ⟨fun job hjob => hnext ▸ h.sequence_lt job (hknown job hjob), ?_⟩
  intro a b ha hb
  exact h.eq_of_sequence_eq a b (hknown a ha) (hknown b hb)

/-- A job that comes in with the next number is numbered too. -/
theorem Numbered.enter (h : Numbered history q) (hnext : job.sequence = q.nextSequence) :
    Numbered history (q.enter job (q.nextSequence + 1)) := by
  have hknown {a : Job} (ha : a ∈ (q.enter job (q.nextSequence + 1)).jobs ∨ Popped history a) :
      a = job ∨ a ∈ q.jobs ∨ Popped history a := by
    rcases ha with hjobs | hpopped
    · exact (mem_place.mp hjobs).imp_right .inl
    · exact .inr (.inr hpopped)
  constructor
  · intro a ha
    rcases hknown ha with rfl | hold
    · exact Nat.lt_succ_of_le (Nat.le_of_eq hnext)
    · exact Nat.lt_succ_of_lt (h.sequence_lt a hold)
  · intro a b ha hb heq
    rcases hknown ha with rfl | holda <;> rcases hknown hb with rfl | holdb
    · rfl
    · exact absurd (heq.symm.trans hnext) (Nat.ne_of_lt (h.sequence_lt b holdb))
    · exact absurd (heq.trans hnext) (Nat.ne_of_lt (h.sequence_lt a holda))
    · exact h.eq_of_sequence_eq a b holda holdb heq

/-- An event keeps the numbers apart. -/
theorem Step.numbered (hstep : Step history q e q') (h : Numbered history q) :
    Numbered (history ++ [e]) q' := by
  -- Only an event that pops jobs makes more of them popped.
  have hquiet (he : ∀ batch, e ≠ .pop batch) {js : List Job} (job : Job)
      (hjob : Popped (history ++ [e]) job) : job ∈ js ∨ Popped history job := by
    refine .inr ((popped_concat_iff.mp hjob).resolve_right ?_)
    rintro ⟨batch, heq, -⟩
    exact he batch heq
  cases hstep with
  | push path priority =>
    obtain ⟨-, hpush⟩ | ⟨-, hpush⟩ := q.push_cases path priority
    · rw [hpush]
      exact h.of_known (fun job => .inl) (hquiet nofun) rfl
    · rw [hpush]
      exact (h.enter rfl).of_known (fun job => .inl) (hquiet nofun) rfl
  | pop n =>
    refine h.of_known (fun job hjob => .inl (List.mem_of_mem_drop hjob)) ?_ rfl
    intro job hjob
    rcases popped_concat_iff.mp hjob with hold | ⟨batch, heq, hbatch⟩
    · exact .inr hold
    · obtain rfl := QueueEvent.pop.inj heq
      exact .inl (List.mem_of_mem_take hbatch)
  | requeue jobs hback =>
    refine h.of_known ?_ (hquiet nofun) (nextSequence_requeue q jobs)
    intro job hjob
    exact (mem_jobs_of_mem_requeue hjob).imp_right (hback job)
  | clear => exact h.of_known nofun (hquiet nofun) rfl
  | forget => exact h.of_known (fun job => .inl) (hquiet nofun) rfl

/-- The numbers of a reachable queue are apart. -/
theorem Run.numbered (h : Run history q) : Numbered history q := by
  induction h with
  | start => exact ⟨by simp [Popped, empty], by simp [Popped, empty]⟩
  | next h hstep ih => exact hstep.numbered ih

/-- Whatever happens to a new queue, its jobs have different sequence numbers. -/
theorem Run.nodup_sequences (h : Run history q) : (q.jobs.map Job.sequence).Nodup := by
  refine (List.nodup_map_iff_inj_on (h.consistent.nodup_paths.of_map _)).mpr ?_
  intro a ha b hb heq
  exact h.numbered.eq_of_sequence_eq a b (.inl ha) (.inl hb) heq

/-! ## Pops -/

/-- Jobs that are popped together have different paths. -/
theorem Run.nodup_batch (h : Run history q) {batch : List Job} (hbatch : .pop batch ∈ history) :
    (batch.map Job.path).Nodup := by
  obtain ⟨before, after, rfl⟩ := List.append_of_mem hbatch
  rw [List.append_cons] at h
  obtain ⟨q₁, h₁⟩ := h.exists_of_append
  obtain ⟨q₀, h₀, hstep⟩ := h₁.exists_step
  cases hstep with
  | pop n => exact h₀.consistent.nodup_paths.sublist ((List.take_sublist n q₀.jobs).map _)

/-- Between two pops of one path it is put back, or the processed paths are forgotten. -/
theorem Run.exists_releases (h : Run history q) {before between after : List QueueEvent}
    {batch batch' : List Job}
    (hhistory : history = before ++ .pop batch :: (between ++ .pop batch' :: after))
    (hpath : path ∈ batch.map Job.path) (hpath' : path ∈ batch'.map Job.path) :
    ∃ e ∈ between, Releases path e := by
  by_contra hnone
  have hsplit : history = ((before ++ .pop batch :: between) ++ [.pop batch']) ++ after := by
    simp [hhistory]
  rw [hsplit] at h
  obtain ⟨q₁, h₁⟩ := h.exists_of_append
  obtain ⟨q₀, h₀, hstep⟩ := h₁.exists_step
  have hprocessed : q₀.isProcessed path := by
    refine h₀.isProcessed_iff.mpr ⟨before, .pop batch, between, rfl, hpath, ?_⟩
    intro e he hreleases
    exact hnone ⟨e, he, hreleases⟩
  have hqueued : q₀.isQueued path := by
    cases hstep with
    | pop n =>
      rw [h₀.consistent.isQueued_iff, ← map_path_pop q₀ n]
      exact List.mem_append_left _ hpath'
  exact h₀.consistent.not_processed path hqueued hprocessed

/-- Whatever happens to a new queue, its queued paths are those of its jobs, of which no two have
the same path or the same sequence number. No path is both queued and processed, those that are
neither are accepted, and there are as many jobs as queued paths. A path is popped once only, until
it is put back or the processed paths are forgotten. -/
theorem run_pops_each_path_once (h : Run history q) :
    (∀ path, path ∈ q.queued.keys ↔ path ∈ q.jobs.map Job.path) ∧
      (q.jobs.map Job.path).Nodup ∧
      (∀ path, ¬ (q.isQueued path ∧ q.isProcessed path)) ∧
      (q.jobs.map Job.sequence).Nodup ∧
      (∀ path priority, (q.push path priority).2 ↔ ¬ q.isQueued path ∧ ¬ q.isProcessed path) ∧
      q.size = q.queued.size ∧
      (∀ batch, .pop batch ∈ history → (batch.map Job.path).Nodup) ∧
      ∀ before batch between batch' after path,
        history = before ++ .pop batch :: (between ++ .pop batch' :: after) →
        path ∈ batch.map Job.path → path ∈ batch'.map Job.path →
        ∃ e ∈ between, Releases path e := by
  have hc := h.consistent
  have hkeys (path : Bytes) : path ∈ q.queued.keys ↔ path ∈ q.jobs.map Job.path := by
    rw [← Dict.contains_iff_mem_keys]
    exact hc.isQueued_iff path
  have hdisjoint (path : Bytes) : ¬ (q.isQueued path ∧ q.isProcessed path) :=
    fun hboth => hc.not_processed path hboth.1 hboth.2
  exact ⟨hkeys, hc.nodup_paths, hdisjoint, h.nodup_sequences, fun path priority => snd_push_iff,
    hc.size_eq, fun batch => h.nodup_batch, fun _ _ _ _ _ _ => h.exists_releases⟩

/-- A job that was not started is put back and popped again, and then put back twice, after which it
is in the queue once. The other path is not accepted again. -/
theorem run_pops_each_path_once_of_two :
    let a : Job := ⟨bytes "a", 0, 0⟩
    let b : Job := ⟨bytes "b", 1, 1⟩
    let history : List QueueEvent := [.push a.path 0, .push b.path 1, .pop [b], .requeue [b],
      .pop [b, a], .requeue [b, b]]
    ∃ q, Run history q ∧ q.jobs = [b] ∧ ¬ (q.push a.path 0).2 ∧ q.size = q.queued.size ∧
      ∃ e ∈ [QueueEvent.requeue [b]], Releases b.path e := by
  intro a b history
  let q₁ := ((empty.push a.path 0).1.push b.path 1).1
  let q₂ := (q₁.pop 1).1.requeue [b]
  let q₃ := (q₂.pop 2).1.requeue [b, b]
  have hrun₁ : Run [.push a.path 0, .push b.path 1] q₁ := (Run.start.next (.push a.path 0)).next
    (.push b.path 1)
  have hpop₁ : (q₁.pop 1).2 = [b] := by decide +kernel
  have hpop₂ : (q₂.pop 2).2 = [b, a] := by decide +kernel
  have hrun₂ : Run [.push a.path 0, .push b.path 1, .pop [b], .requeue [b]] q₂ := by
    have hstep := hrun₁.next (.pop 1)
    rw [hpop₁] at hstep
    exact hstep.next (.requeue [b] (by simp [Popped]))
  have hrun : Run history q₃ := by
    have hstep := hrun₂.next (.pop 2)
    rw [hpop₂] at hstep
    exact hstep.next (.requeue [b, b] (by simp [Popped]))
  obtain ⟨-, -, -, -, haccepts, hsize, -, hreleases⟩ := run_pops_each_path_once hrun
  refine ⟨q₃, hrun, by decide +kernel, ?_, hsize, ?_⟩
  · rw [haccepts a.path 0]
    decide +kernel
  · exact hreleases [.push a.path 0, .push b.path 1] [b] _ [b, a] [.requeue [b, b]] b.path rfl
      (by simp) (by simp)

end JobQueue

end SourceChunks
