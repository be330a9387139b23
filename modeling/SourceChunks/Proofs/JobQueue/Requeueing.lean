import SourceChunks.Proofs.JobQueue.Drawing

/-!
# Putting back what was not started

The jobs at the end of a batch that are put back come to stand where they stood before the pop, and
their paths count as queued again and no longer as processed. So a pop whose last jobs are put back
leaves the same queue as one that takes the others only. No path of a batch was processed before the
pop, as it was queued then; else putting it back would forget more than the pop has noted.
-/

namespace SourceChunks

/-- Sets with the same members are equal. -/
theorem Dict.ext_contains {d d' : Dict Unit} (h : ∀ k, d.contains k ↔ d'.contains k) : d = d' := by
  apply ext_get?
  intro k
  have hk := h k
  simp only [contains] at hk
  cases hget : d.get? k <;> cases hget' : d'.get? k <;> simp [hget, hget'] at hk ⊢

namespace JobQueue

variable {history : List QueueEvent} {q q' : JobQueue} {job : Job} {n i : ℕ}

/-- A consistent queue is known by its jobs, the processed paths and the next number. -/
theorem Consistent.eq_of_jobs_eq (h : q.Consistent) (h' : q'.Consistent) (hjobs : q.jobs = q'.jobs)
    (hprocessed : ∀ path, q.isProcessed path ↔ q'.isProcessed path)
    (hnext : q.nextSequence = q'.nextSequence) : q = q' := by
  have hqueued : q.queued = q'.queued := by
    apply Dict.ext_contains
    intro path
    have hpath := h.isQueued_iff path
    rw [hjobs, ← h'.isQueued_iff path] at hpath
    exact hpath
  have hdone : q.processed = q'.processed := Dict.ext_contains hprocessed
  obtain ⟨jobs, queued, processed, nextSequence⟩ := q
  obtain ⟨jobs', queued', processed', nextSequence'⟩ := q'
  simp only at hjobs hqueued hdone hnext
  rw [hjobs, hqueued, hdone, hnext]

/-- Jobs whose paths are not queued all come in when they are put back. -/
theorem mem_jobs_requeue_iff {jobs : List Job} (hpaths : (jobs.map Job.path).Nodup)
    (hnew : ∀ j ∈ jobs, ¬ q.isQueued j.path) :
    job ∈ (q.requeue jobs).jobs ↔ job ∈ jobs ∨ job ∈ q.jobs := by
  induction jobs generalizing q with
  | nil => simp [requeue]
  | cons j rest ih =>
    obtain ⟨hj, hpaths⟩ := List.nodup_cons.mp hpaths
    obtain ⟨hfirst, hnew⟩ := List.forall_mem_cons.mp hnew
    obtain ⟨hthere, -⟩ | ⟨-, hputBack⟩ := q.putBack_cases j
    · exact absurd hthere hfirst
    · have hrest : ∀ k ∈ rest, ¬ (q.putBack j).isQueued k.path := by
        intro k hk hqueued
        rw [hputBack, isQueued_enter_iff] at hqueued
        rcases hqueued with heq | hold
        · exact hj (heq ▸ List.mem_map_of_mem hk)
        · exact hnew k hk hold
      have hjobs : (q.putBack j).jobs = place j q.jobs := by rw [hputBack]; rfl
      show job ∈ ((q.putBack j).requeue rest).jobs ↔ _
      rw [ih hpaths hrest, hjobs, mem_place, List.mem_cons, or_left_comm, or_assoc]

/-- The jobs at the end of a batch stand in front of what stays. -/
theorem drop_pop_append (hi : i ≤ (q.pop n).2.length) :
    (q.pop n).2.drop i ++ (q.pop n).1.jobs = (q.pop i).1.jobs := by
  rw [← List.drop_append_of_le_length hi, pop_append]
  rfl

/-- A batch begins with what a smaller pop takes. -/
theorem pop_append_drop (hi : i ≤ (q.pop n).2.length) :
    (q.pop i).2 ++ (q.pop n).2.drop i = (q.pop n).2 := by
  have hle : i ≤ n := hi.trans (List.length_take_le n q.jobs)
  have htake : (q.pop n).2.take i = (q.pop i).2 := by
    show (q.jobs.take n).take i = q.jobs.take i
    rw [List.take_take, Nat.min_eq_left hle]
  rw [← htake, List.take_append_drop]

/-- No path occurs twice in a batch. -/
theorem Consistent.nodup_paths_pop (h : q.Consistent) (n : ℕ) :
    ((q.pop n).2.map Job.path).Nodup := by
  have hpaths := h.nodup_paths
  rw [← q.pop_append n, List.map_append] at hpaths
  exact (List.nodup_append.mp hpaths).1

/-- The jobs at the end of a batch are in the queue again when they are put back. -/
theorem Consistent.mem_jobs_requeue_drop_pop_iff (h : q.Consistent)
    (hi : i ≤ (q.pop n).2.length) :
    job ∈ ((q.pop n).1.requeue ((q.pop n).2.drop i)).jobs ↔ job ∈ (q.pop i).1.jobs := by
  have hpaths : (((q.pop n).2.drop i).map Job.path).Nodup :=
    (h.nodup_paths_pop n).sublist ((List.drop_sublist i _).map Job.path)
  have hnew : ∀ j ∈ (q.pop n).2.drop i, ¬ (q.pop n).1.isQueued j.path := by
    intro j hj
    rw [isQueued_pop_iff, not_and_not_right]
    exact fun _ => List.mem_map_of_mem (List.mem_of_mem_drop hj)
  rw [mem_jobs_requeue_iff hpaths hnew, ← List.mem_append, drop_pop_append hi]

/-- The paths at the end of a batch count as before the pop when they are put back. -/
theorem Consistent.isProcessed_requeue_drop_pop_iff (h : q.Consistent)
    (hi : i ≤ (q.pop n).2.length) {path : Bytes} :
    ((q.pop n).1.requeue ((q.pop n).2.drop i)).isProcessed path ↔
      (q.pop i).1.isProcessed path := by
  have hbatch : path ∈ (q.pop n).2.map Job.path ↔
      path ∈ (q.pop i).2.map Job.path ∨ path ∈ ((q.pop n).2.drop i).map Job.path := by
    rw [← List.mem_append, ← List.map_append, pop_append_drop hi]
  have hpaths := h.nodup_paths_pop n
  rw [← pop_append_drop hi, List.map_append] at hpaths
  obtain ⟨-, -, hapart⟩ := List.nodup_append.mp hpaths
  -- The paths that are put back were queued before the pop.
  have hfresh : path ∈ ((q.pop n).2.drop i).map Job.path → ¬ q.isProcessed path := by
    intro hpath
    refine h.not_processed path ((h.isQueued_iff path).mpr ?_)
    rw [← map_path_pop q n]
    exact List.mem_append_left _ (hbatch.mpr (.inr hpath))
  rw [isProcessed_requeue_iff, isProcessed_pop_iff, isProcessed_pop_iff, hbatch]
  constructor
  · rintro ⟨hdone | hstarted | hback, hnot⟩
    · exact .inl hdone
    · exact .inr hstarted
    · exact absurd hback hnot
  · rintro (hdone | hstarted)
    · exact ⟨.inl hdone, fun hback => hfresh hback hdone⟩
    · exact ⟨.inr (.inl hstarted), fun hback => hapart path hstarted path hback rfl⟩

/-- Putting back the end of a batch leaves the queue as if only the rest had been popped. -/
theorem Run.requeue_drop_pop (h : Run history q) (hi : i ≤ (q.pop n).2.length) :
    (q.pop n).1.requeue ((q.pop n).2.drop i) = (q.pop i).1 := by
  have hpopped : ∀ job ∈ (q.pop n).2.drop i, Popped (history ++ [.pop (q.pop n).2]) job :=
    fun job hjob => ⟨_, by simp, List.mem_of_mem_drop hjob⟩
  have hback := (h.next (.pop n)).next (.requeue _ hpopped)
  have hshort := h.next (.pop i)
  refine hback.consistent.eq_of_jobs_eq hshort.consistent ?_ ?_ (nextSequence_requeue _ _)
  · exact hback.pairwise_before.eq_of_mem_iff hshort.pairwise_before
      fun job => h.consistent.mem_jobs_requeue_drop_pop_iff hi
  · exact fun path => h.consistent.isProcessed_requeue_drop_pop_iff hi

/-- Whatever happened to a new queue before: when the last jobs of a batch are put back, the queue
has the same jobs, queued and processed paths and the same next number as if only the others had
been popped. When all of a batch is put back, the queue is as it was before the pop. So whatever
arrangement of the jobs is kept either way, the same jobs come out later. -/
theorem run_requeue_undoes_pop (h : Run history q) (n : ℕ) :
    (∀ i ≤ (q.pop n).2.length, (q.pop n).1.requeue ((q.pop n).2.drop i) = (q.pop i).1) ∧
    (q.pop n).1.requeue (q.pop n).2 = q ∧
    ∀ i ≤ (q.pop n).2.length, ∀ held held',
      held.Perm ((q.pop n).1.requeue ((q.pop n).2.drop i)).jobs → held'.Perm (q.pop i).1.jobs →
      ∀ m batch left batch' left', Draws m held batch left → Draws m held' batch' left' →
        batch = batch' ∧ left.Perm left' := by
  refine ⟨fun i => h.requeue_drop_pop, h.requeue_drop_pop (Nat.zero_le _), ?_⟩
  intro i hi held held' hheld hheld' m batch left batch' left' hdraws hdraws'
  rw [h.requeue_drop_pop hi] at hheld
  have hrun : Run (history ++ [.pop (q.pop i).2]) (q.pop i).1 := h.next (.pop i)
  obtain ⟨rfl, hleft⟩ := (hrun.draws_iff_pop hheld).mp hdraws
  obtain ⟨rfl, hleft'⟩ := (hrun.draws_iff_pop hheld').mp hdraws'
  exact ⟨rfl, hleft.trans hleft'.symm⟩

/-- Of two jobs that are popped together the second one is put back. It is as if only the first one
had been popped. -/
theorem run_requeue_undoes_pop_second :
    let a : Job := ⟨bytes "a", 0, 0⟩
    let b : Job := ⟨bytes "b", 1, 1⟩
    let q := ((empty.push a.path 0).1.push b.path 1).1
    Run [.push a.path 0, .push b.path 1] q ∧ (q.pop 2).2 = [b, a] ∧ 1 ≤ (q.pop 2).2.length ∧
      (q.pop 2).1.requeue [a] = (q.pop 1).1 ∧ (q.pop 1).1.isProcessed b.path ∧
      ¬ (q.pop 1).1.isProcessed a.path := by
  intro a b q
  have hrun : Run [.push a.path 0, .push b.path 1] q :=
    (Run.start.next (.push _ _)).next (.push _ _)
  have hpop : (q.pop 2).2 = [b, a] := by decide +kernel
  have hone : 1 ≤ (q.pop 2).2.length := by
    rw [hpop]
    decide
  have hback := (run_requeue_undoes_pop hrun 2).1 1 hone
  rw [hpop] at hback
  exact ⟨hrun, hpop, hone, hback, by decide +kernel, by decide +kernel⟩

end JobQueue

end SourceChunks
