import SourceChunks.Proofs.JobQueue.Drawing

/-!
# Who comes out first

Jobs come out by priority and then in the order in which their paths were accepted. While no job
comes in, all that is popped is in this order, however many jobs each pop takes. A job has the
number that it got when its path was accepted, also after it was popped and put back, so of two jobs
with one priority the one accepted first comes out first, whatever else happens in between.
-/

namespace SourceChunks

/-- The jobs that an event takes from the queue. -/
def QueueEvent.batch : QueueEvent → List Job
  | .pop batch => batch
  | _ => []

/-- The jobs that are taken from the queue, in the order in which they come out. -/
def handedOut (history : List QueueEvent) : List Job := history.flatMap QueueEvent.batch

/-- What is handed out is what was handed out before and then the last batch. -/
theorem handedOut_concat (history : List QueueEvent) (e : QueueEvent) :
    handedOut (history ++ [e]) = handedOut history ++ e.batch := by
  simp [handedOut]

namespace JobQueue

variable {history later : List QueueEvent} {q q₁ q₂ : JobQueue} {e : QueueEvent} {a b job : Job}
  {i j : ℕ}

/-! ## Runs are determined by their events -/

/-- Without events the queue is the empty one. -/
theorem Run.eq_empty (h : Run [] q) : q = empty := by
  generalize hnil : ([] : List QueueEvent) = history at h
  cases h with
  | start => rfl
  | next h hstep => exact absurd hnil (by simp)

/-- The jobs that are popped tell what is left. -/
theorem pop_eq_of_batch_eq {n m : ℕ} (h : (q.pop n).2 = (q.pop m).2) : q.pop n = q.pop m := by
  have hleft : q.jobs.drop n = q.jobs.drop m := by
    have hboth := (q.pop_append n).trans (q.pop_append m).symm
    rw [h] at hboth
    exact List.append_cancel_left hboth
  have hbatch : q.jobs.take n = q.jobs.take m := h
  simp only [pop, hbatch, hleft]

/-- An event makes one thing only of a queue. -/
theorem Step.unique (h₁ : Step history q e q₁) (h₂ : Step history q e q₂) : q₁ = q₂ := by
  cases h₁ with
  | push path priority => cases h₂; rfl
  | pop n =>
    generalize hbatch : QueueEvent.pop (q.pop n).2 = e at h₂
    cases h₂ with
    | pop m => rw [pop_eq_of_batch_eq (QueueEvent.pop.inj hbatch)]
    | push | requeue | clear | forget => exact absurd hbatch nofun
  | requeue jobs hpopped => cases h₂; rfl
  | clear => cases h₂; rfl
  | forget => cases h₂; rfl

/-- The events determine the queue. -/
theorem Run.unique (h₁ : Run history q₁) (h₂ : Run history q₂) : q₁ = q₂ := by
  induction history using List.reverseRecOn generalizing q₁ q₂ with
  | nil => rw [h₁.eq_empty, h₂.eq_empty]
  | append_singleton history e ih =>
    obtain ⟨q, h₁, hstep₁⟩ := h₁.exists_step
    obtain ⟨q', h₂, hstep₂⟩ := h₂.exists_step
    obtain rfl := ih h₁ h₂
    exact hstep₁.unique hstep₂

/-! ## The numbers of jobs -/

/-- An accepted push uses up one number. -/
theorem nextSequence_push {path : Bytes} {priority : Int} (h : (q.push path priority).2) :
    (q.push path priority).1.nextSequence = q.nextSequence + 1 := by
  obtain ⟨-, hpush⟩ | ⟨-, hpush⟩ := q.push_cases path priority
  · rw [hpush] at h
    exact absurd h nofun
  · rw [hpush]
    rfl

/-- The next number never falls. -/
theorem Step.nextSequence_le (hstep : Step history q e q₁) : q.nextSequence ≤ q₁.nextSequence := by
  cases hstep with
  | push path priority =>
    obtain ⟨-, hpush⟩ | ⟨-, hpush⟩ := q.push_cases path priority
    · rw [hpush]
    · rw [hpush]
      exact Nat.le_succ _
  | pop n => exact le_rfl
  | requeue jobs hpopped => rw [nextSequence_requeue]
  | clear => exact le_rfl
  | forget => exact le_rfl

/-- The number of the next job never becomes smaller. -/
theorem Run.nextSequence_le (h : Run history q) (h₁ : Run (history ++ later) q₁) :
    q.nextSequence ≤ q₁.nextSequence := by
  induction later using List.reverseRecOn generalizing q₁ with
  | nil => rw [h.unique (by simpa using h₁)]
  | append_singleton later e ih =>
    rw [← List.append_assoc] at h₁
    obtain ⟨q', hrun, hstep⟩ := h₁.exists_step
    exact (ih hrun).trans hstep.nextSequence_le

/-- The event at a place of a history pushes the path of a job, which is accepted. -/
def CreatedAt (history : List QueueEvent) (i : ℕ) (job : Job) : Prop :=
  ∃ q, Run (history.take i) q ∧ history[i]? = some (.push job.path job.priority) ∧
    (q.push job.path job.priority).2 ∧ job.sequence = q.nextSequence

/-- A job that was created stays created. -/
theorem CreatedAt.append (h : CreatedAt history i job) (later : List QueueEvent) :
    CreatedAt (history ++ later) i job := by
  obtain ⟨q, hrun, hevent, haccepted, hnumber⟩ := h
  obtain ⟨hi, -⟩ := List.getElem?_eq_some_iff.mp hevent
  refine ⟨q, ?_, ?_, haccepted, hnumber⟩
  · rwa [List.take_append_of_le_length hi.le]
  · rwa [List.getElem?_append_left hi]

/-- Only a path that is accepted makes a new job. -/
theorem Step.known_or_new (hstep : Step history q e q₁)
    (hjob : job ∈ q₁.jobs ∨ Popped (history ++ [e]) job) :
    (job ∈ q.jobs ∨ Popped history job) ∨ e = .push job.path job.priority ∧
      (q.push job.path job.priority).2 ∧ job.sequence = q.nextSequence := by
  rcases hjob with hjob | hpopped
  · cases hstep with
    | push path priority =>
      obtain ⟨-, hpush⟩ | ⟨-, hpush⟩ := q.push_cases path priority
      · rw [hpush] at hjob
        exact .inl (.inl hjob)
      · rw [hpush] at hjob
        rcases mem_place.mp hjob with rfl | hold
        · exact .inr ⟨rfl, by rw [hpush], rfl⟩
        · exact .inl (.inl hold)
    | pop n => exact .inl (.inl (List.mem_of_mem_drop hjob))
    | requeue jobs hback => exact .inl ((mem_jobs_of_mem_requeue hjob).imp_right (hback job))
    | clear => exact absurd hjob List.not_mem_nil
    | forget => exact .inl (.inl hjob)
  · rcases popped_concat_iff.mp hpopped with hold | ⟨batch, rfl, hbatch⟩
    · exact .inl (.inr hold)
    · cases hstep with
      | pop n => exact .inl (.inl (List.mem_of_mem_take hbatch))

/-- Every job that is in the queue or was popped comes from a path that was accepted. -/
theorem Run.exists_createdAt (h : Run history q) (hjob : job ∈ q.jobs ∨ Popped history job) :
    ∃ i, CreatedAt history i job := by
  induction h with
  | start => exact absurd hjob (by simp [empty, Popped])
  | @next history q q' e h hstep ih =>
    rcases hstep.known_or_new hjob with hknown | ⟨rfl, haccepted, hnumber⟩
    · obtain ⟨i, hi⟩ := ih hknown
      exact ⟨i, hi.append _⟩
    · refine ⟨history.length, q, ?_, ?_, haccepted, hnumber⟩
      · rwa [List.take_left]
      · exact List.getElem?_concat_length

/-- Jobs are numbered in the order in which their paths were accepted. -/
theorem CreatedAt.sequence_lt (ha : CreatedAt history i a) (hb : CreatedAt history j b)
    (hij : i < j) : a.sequence < b.sequence := by
  obtain ⟨q, hrun, hevent, haccepted, hnumber⟩ := ha
  obtain ⟨q', hrun', -, -, hnumber'⟩ := hb
  have htake : history.take (i + 1) = history.take i ++ [.push a.path a.priority] := by
    rw [List.take_add_one, hevent]
    rfl
  have hsplit : history.take j = history.take (i + 1) ++ (history.take j).drop (i + 1) := by
    conv_lhs => rw [← List.take_append_drop (i + 1) (history.take j)]
    rw [List.take_take, Nat.min_eq_left hij]
  rw [hsplit, htake] at hrun'
  have hle := (hrun.next (.push a.path a.priority)).nextSequence_le hrun'
  rw [nextSequence_push haccepted] at hle
  omega

/-! ## Jobs that come out -/

/-- Jobs that wait go on waiting while others are put back. -/
theorem mem_jobs_requeue_of_mem {jobs : List Job} (h : job ∈ q.jobs) :
    job ∈ (q.requeue jobs).jobs := by
  induction jobs generalizing q with
  | nil => exact h
  | cons j rest ih =>
    refine ih ?_
    obtain ⟨-, hputBack⟩ | ⟨-, hputBack⟩ := q.putBack_cases j
    · rw [hputBack]
      exact h
    · rw [hputBack]
      exact mem_place.mpr (.inr h)

/-- A job stays in the queue until it comes out, or all jobs are dropped. -/
theorem Step.mem_jobs_or (hstep : Step history q e q₁) (hclear : e ≠ .clear) (hjob : job ∈ q.jobs) :
    job ∈ e.batch ∨ job ∈ q₁.jobs := by
  cases hstep with
  | push path priority =>
    right
    obtain ⟨-, hpush⟩ | ⟨-, hpush⟩ := q.push_cases path priority
    · rw [hpush]
      exact hjob
    · rw [hpush]
      exact mem_place.mpr (.inr hjob)
  | pop n => exact List.mem_append.mp ((q.pop_append n).symm ▸ hjob)
  | requeue jobs hpopped => exact .inr (mem_jobs_requeue_of_mem hjob)
  | clear => exact absurd rfl hclear
  | forget => exact .inr hjob

/-- Of two jobs in the queue one that leaves before the other comes out before it. -/
theorem Step.sublist_batch (h : Run history q) (hstep : Step history q e q₁) (hab : a.before b)
    (ha : a ∈ q.jobs) (hb : b ∈ e.batch) : [a, b].Sublist e.batch := by
  cases hstep with
  | pop n =>
    obtain ⟨hbatch, -, hbefore⟩ := List.pairwise_append.mp (h.pairwise_pop n)
    have ha : a ∈ (q.pop n).2 := by
      rw [← q.pop_append n] at ha
      rcases List.mem_append.mp ha with ha | hleft
      · exact ha
      · exact absurd hab (Job.not_before_of_before (hbefore b hb a hleft))
    refine Job.sublist_of_subset (List.pairwise_pair.mpr hab) hbatch ?_
    exact List.cons_subset.mpr ⟨ha, List.cons_subset.mpr ⟨hb, List.nil_subset _⟩⟩
  | push | requeue | clear | forget => exact absurd hb List.not_mem_nil

/-- The second of two jobs has not come out of the queue. The first one has, or both are in it. -/
structure Waits (a b : Job) (out : List Job) (q : JobQueue) : Prop where
  notMem_out : b ∉ out
  mem_jobs : b ∈ q.jobs
  first : a ∈ out ∨ a ∈ q.jobs

/-- With each event the second job goes on waiting, or comes out behind the first one. -/
theorem Waits.step {out : List Job} (hwaits : Waits a b out q) (h : Run history q)
    (hstep : Step history q e q₁) (hclear : e ≠ .clear) (hab : a.before b) :
    [a, b].Sublist (out ++ e.batch) ∨ Waits a b (out ++ e.batch) q₁ := by
  by_cases hout : b ∈ e.batch
  · left
    rcases hwaits.first with ha | ha
    · exact (List.singleton_sublist.mpr ha).append (List.singleton_sublist.mpr hout)
    · exact (hstep.sublist_batch h hab ha hout).trans (List.sublist_append_right _ _)
  · right
    refine ⟨?_, (hstep.mem_jobs_or hclear hwaits.mem_jobs).resolve_left hout, ?_⟩
    · exact fun hmem => (List.mem_append.mp hmem).elim hwaits.notMem_out hout
    · rw [List.mem_append, or_assoc]
      exact hwaits.first.imp_right (hstep.mem_jobs_or hclear)

/-- Of two waiting jobs, with no clearing after, the first comes out first or the second still
waits. -/
theorem Run.sublist_handedOut_or_waits (h : Run history q) (hab : a.before b) (ha : a ∈ q.jobs)
    (hb : b ∈ q.jobs) (h₁ : Run (history ++ later) q₁) (hclear : .clear ∉ later) :
    [a, b].Sublist (handedOut later) ∨ Waits a b (handedOut later) q₁ := by
  induction later using List.reverseRecOn generalizing q₁ with
  | nil =>
    obtain rfl := h.unique (by simpa using h₁)
    exact .inr ⟨List.not_mem_nil, hb, .inr ha⟩
  | append_singleton later e ih =>
    rw [← List.append_assoc] at h₁
    obtain ⟨q', hrun, hstep⟩ := h₁.exists_step
    rw [List.mem_append, not_or] at hclear
    have hnot : e ≠ .clear := fun heq => hclear.2 (heq ▸ List.mem_singleton_self _)
    rw [handedOut_concat]
    rcases ih hrun hclear.1 with hboth | hwaits
    · exact .inl (hboth.trans (List.sublist_append_left _ _))
    · exact hwaits.step hrun hstep hnot hab

/-- Of two jobs in the queue the one that leaves before the other comes out before it, whatever else
happens, unless all jobs are dropped before. -/
theorem Run.sublist_handedOut (h : Run history q) (hab : a.before b) (ha : a ∈ q.jobs)
    (hb : b ∈ q.jobs) (h₁ : Run (history ++ later) q₁) (hclear : .clear ∉ later)
    (hout : b ∈ handedOut later) : [a, b].Sublist (handedOut later) :=
  (h.sublist_handedOut_or_waits hab ha hb h₁ hclear).resolve_right
    fun hwaits => hwaits.notMem_out hout

/-! ## Stretches in which no job comes in -/

/-- None of some events that follow a history brings a job into the queue. -/
def BringsNone (history later : List QueueEvent) : Prop :=
  ∀ before e, before ++ [e] <+: later → ∀ q q', Run (history ++ before) q →
    Step (history ++ before) q e q' → q'.jobs ⊆ q.jobs

/-- Popping brings no job. -/
theorem bringsNone_of_forall_pop (h : ∀ e ∈ later, ∃ batch, e = .pop batch) :
    BringsNone history later := by
  intro before e hpart q q' _ hstep
  obtain ⟨batch, rfl⟩ := h e (hpart.subset (by simp))
  cases hstep with
  | pop n => exact List.drop_subset n q.jobs

/-- What comes out in one event is in front of what stays, if no job comes in. -/
theorem Step.batch_append_sublist (h : Run history q) (hstep : Step history q e q₁)
    (hnone : q₁.jobs ⊆ q.jobs) : (e.batch ++ q₁.jobs).Sublist q.jobs := by
  have hleft : q₁.jobs.Sublist q.jobs :=
    Job.sublist_of_subset (h.next hstep).pairwise_before h.pairwise_before hnone
  cases hstep with
  | pop n => exact (q.pop_append n).symm ▸ List.Sublist.refl _
  | push | requeue | clear | forget => exact hleft

/-- What comes out while no job comes in is in front of what stays. -/
theorem Run.handedOut_append_sublist (h : Run history q) (h₁ : Run (history ++ later) q₁)
    (hnone : BringsNone history later) : (handedOut later ++ q₁.jobs).Sublist q.jobs := by
  induction later using List.reverseRecOn generalizing q₁ with
  | nil =>
    obtain rfl := h.unique (by simpa using h₁)
    exact .refl _
  | append_singleton later e ih =>
    rw [← List.append_assoc] at h₁
    obtain ⟨q', hrun, hstep⟩ := h₁.exists_step
    have hlast := hnone later e (List.prefix_refl _) q' q₁ hrun hstep
    have hbefore := ih hrun fun before e hpart =>
      hnone before e (hpart.trans (List.prefix_append _ _))
    rw [handedOut_concat, List.append_assoc]
    exact ((hstep.batch_append_sublist hrun hlast).append_left _).trans hbefore

/-- Whatever happens to a new queue, a pop takes as many jobs as asked for, or all: the first ones
by priority and then by number, in this order. It is what is drawn from any arrangement of the jobs.
While no job comes in, all that is popped is in this order and leaves before what stays. Every job
comes from a path that was accepted, and of two jobs in the queue with one priority the one whose
path was accepted first comes out first, whatever happens until then but for dropping all jobs. -/
theorem run_pops_in_order (h : Run history q) :
    (∀ n, (q.pop n).2.length = min n q.size ∧
      (∀ job, job ∈ q.jobs ↔ job ∈ (q.pop n).2 ∨ job ∈ (q.pop n).1.jobs) ∧
      ((q.pop n).2 ++ (q.pop n).1.jobs).Pairwise (fun a b =>
        b.priority < a.priority ∨ a.priority = b.priority ∧ a.sequence < b.sequence) ∧
      ∀ held batch left, held.Perm q.jobs →
        (Draws n held batch left ↔ batch = (q.pop n).2 ∧ left.Perm (q.pop n).1.jobs)) ∧
    (∀ later q', Run (history ++ later) q' → BringsNone history later →
      (handedOut later ++ q'.jobs).Pairwise fun a b =>
        b.priority < a.priority ∨ a.priority = b.priority ∧ a.sequence < b.sequence) ∧
    (∀ job ∈ q.jobs, ∃ i, CreatedAt history i job) ∧
    ∀ i j a b, CreatedAt history i a → CreatedAt history j b → i < j → a ∈ q.jobs → b ∈ q.jobs →
      a.priority = b.priority → ∀ later q', Run (history ++ later) q' → .clear ∉ later →
        b ∈ handedOut later → [a, b].Sublist (handedOut later) := by
  refine ⟨fun n => ⟨List.length_take, fun job => ?_, ?_, ?_⟩, ?_, ?_, ?_⟩
  · rw [← List.mem_append, pop_append]
  · exact (h.pairwise_pop n).imp Job.before_iff.mp
  · exact fun held batch left hheld => h.draws_iff_pop hheld
  · intro later q' h' hnone
    exact (h.pairwise_before.sublist (h.handedOut_append_sublist h' hnone)).imp Job.before_iff.mp
  · exact fun job hjob => h.exists_createdAt (.inl hjob)
  · intro i j a b ha hb hij hmema hmemb hpriority later q' h' hclear hout
    have hab : a.before b := Job.before_iff.mpr (.inr ⟨hpriority, ha.sequence_lt hb hij⟩)
    exact h.sublist_handedOut hab hmema hmemb h' hclear hout

/-- Two jobs are popped and put back. Then all three come out in two pops: the urgent one first, and
of the others the one that was put back, as its path was accepted first. -/
theorem run_pops_in_order_putBack :
    let a : Job := ⟨bytes "a", 0, 0⟩
    let b : Job := ⟨bytes "b", 1, 1⟩
    let c : Job := ⟨bytes "c", 0, 2⟩
    let history : List QueueEvent :=
      [.push a.path 0, .push b.path 1, .push c.path 0, .pop [b, a], .requeue [b, a]]
    let later : List QueueEvent := [.pop [b], .pop [a, c]]
    ∃ q q', Run history q ∧ Run (history ++ later) q' ∧ BringsNone history later ∧
      CreatedAt history 0 a ∧ CreatedAt history 2 c ∧
      (handedOut later).Pairwise (fun a b =>
        b.priority < a.priority ∨ a.priority = b.priority ∧ a.sequence < b.sequence) ∧
      [a, c].Sublist (handedOut later) := by
  intro a b c history later
  let q₂ := ((empty.push a.path 0).1.push b.path 1).1
  let q₃ := (q₂.push c.path 0).1
  let q := (q₃.pop 2).1.requeue [b, a]
  let q' := ((q.pop 1).1.pop 2).1
  have hrun₂ : Run [.push a.path 0, .push b.path 1] q₂ := (Run.start.next (.push _ _)).next
    (.push _ _)
  have hrun : Run history q := by
    have hpop : (q₃.pop 2).2 = [b, a] := by decide +kernel
    have hstep := (hrun₂.next (.push c.path 0)).next (.pop 2)
    rw [hpop] at hstep
    exact hstep.next (.requeue [b, a] (by simp [Popped]))
  have hrun' : Run (history ++ later) q' := by
    have hpop₁ : (q.pop 1).2 = [b] := by decide +kernel
    have hpop₂ : ((q.pop 1).1.pop 2).2 = [a, c] := by decide +kernel
    have hstep := (hrun.next (.pop 1)).next (.pop 2)
    rwa [hpop₁, hpop₂, List.append_assoc] at hstep
  have hnone : BringsNone history later := bringsNone_of_forall_pop (by simp [later])
  have ha : CreatedAt history 0 a := ⟨empty, Run.start, rfl, by decide +kernel, rfl⟩
  have hc : CreatedAt history 2 c := ⟨q₂, hrun₂, rfl, by decide +kernel, rfl⟩
  obtain ⟨-, horder, -, hfirst⟩ := run_pops_in_order hrun
  refine ⟨q, q', hrun, hrun', hnone, ha, hc, ?_, ?_⟩
  · exact (List.pairwise_append.mp (horder later q' hrun' hnone)).1
  · exact hfirst 0 2 a c ha hc (by decide) (by decide +kernel) (by decide +kernel) rfl later q'
      hrun' (by simp [later]) (by decide)

end JobQueue

end SourceChunks
