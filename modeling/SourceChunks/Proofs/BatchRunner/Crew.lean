import Mathlib.Algebra.GroupWithZero.Nat
import SourceChunks.Proofs.BatchRunner.File
import SourceChunks.Proofs.Termination

/-!
# Workers on a batch

Whatever workers share a batch and however their steps mix, what is done and what is owed make up
all that is to be done for the files. With each step less is left, and when no worker can make one
all is done. The runner that chunks the files one after another works like a crew of one.
-/

namespace SourceChunks

open BatchRunner

variable {files : FileTree} {watch : Bytes → ParseEvent}

/-- A file has an outcome exactly when its last chore is done. -/
theorem FilePhase.outcome?_eq_some_iff {phase : FilePhase} {outcome : FileOutcome} :
    phase.outcome? = some outcome ↔ phase = .finish outcome [] := by
  cases phase with
  | finish outcome' chores => cases chores <;> simp [outcome?]
  | _ => simp [outcome?]

namespace WorkerPhase

/-- What is left to be done for the file that a worker has taken. -/
def owed (files : FileTree) (watch : Bytes → ParseEvent) : WorkerPhase → List Deed
  | .work path phase => BatchRunner.owed files watch path phase
  | _ => []

/-- What is known about the file that a worker has taken is right. -/
def Fits (files : FileTree) (watch : Bytes → ParseEvent) : WorkerPhase → Prop
  | .work path phase => BatchRunner.Fits files watch path phase
  | _ => True

/-- How many resources of a type a worker holds. -/
def heldOf (type : Bytes) : WorkerPhase → ℕ
  | .work _ phase => BatchRunner.heldOf type phase
  | _ => 0

/-- No less than the number of steps that are left for a worker that takes no further file. -/
def weight : WorkerPhase → ℕ
  | .look => 2
  | .take => 1
  | .work _ phase => BatchRunner.weight phase
  | .stop => 0

/-- A sum over workers splits at any one of them. -/
theorem sum_map_append_cons (f : WorkerPhase → ℕ) (before after : List WorkerPhase)
    (phase : WorkerPhase) :
    ((before ++ phase :: after).map f).sum =
      (before.map f).sum + (f phase + (after.map f).sum) := by
  rw [List.map_append, List.map_cons, List.sum_append, List.sum_cons]

/-- Workers that hold no parser of a type hold none of it together. -/
theorem sum_heldOf {type : Bytes} {phases : List WorkerPhase}
    (h : ∀ phase ∈ phases, phase.heldOf type = 0) : (phases.map (heldOf type)).sum = 0 :=
  List.sum_eq_zero_iff_forall_eq_nat.mpr (List.forall_mem_map.mpr h)

end WorkerPhase

/-- A result together with all outcomes that are delivered. -/
def BatchRunner.deliverAll (result : BatchResult) (deeds : List Deed) : BatchResult :=
  (deeds.filterMap Deed.delivery?).foldl (fun result x => deliver result x.1 x.2) result

/-- All that is done for some files. -/
def BatchRunner.deedsForAll (files : FileTree) (watch : Bytes → ParseEvent) (paths : List Bytes) :
    List Deed :=
  paths.flatMap (deedsFor files watch)

/-- All that was to be done for some files has been done, and it gave this result. In which order it
was done is left open. -/
structure BatchRunner.Does (files : FileTree) (watch : Bytes → ParseEvent) (b : BatchRunner)
    (paths : List Bytes) (b' : BatchRunner) (result : BatchResult) : Prop where
  /-- All that was to be done has been done. -/
  exists_deeds : ∃ deeds, deeds.Perm (deedsForAll files watch paths) ∧ Achieves b deeds b' ∧
    result = deliverAll .empty deeds
  /-- The pool still serves parsers. -/
  serves : b'.pool.ServesParsers
  /-- As much of the pool is in use as before. -/
  inUse_eq : ∀ type, (b'.pool.countsOf type).inUse = (b.pool.countsOf type).inUse

/-- There is a worker for each batch that has files. -/
theorem BatchRunner.crewSize_pos (b : BatchRunner) (parallel : Bool) {jobs : ℕ} (h : 0 < jobs) :
    0 < b.crewSize parallel jobs := by
  rw [crewSize]
  split
  · exact Nat.lt_min.mpr ⟨b.maxWorkers_pos, h⟩
  · exact Nat.one_pos

/-- The runner after it took the first `n` files from its queue. -/
def BatchRunner.begun (b : BatchRunner) (n : ℕ) : BatchRunner :=
  { b with
    queue := (b.queue.pop n).1
    isCancelled := b.isCancelled && (b.queue.pop n).2.isEmpty }

namespace Crew

variable {c c' : Crew} {b : BatchRunner} {paths : List Bytes}

/-- A worker that has not stopped makes its next step. -/
def Step (files : FileTree) (watch : Bytes → ParseEvent) (c c' : Crew) : Prop :=
  ∃ worker now phase, c.phases[worker]? = some phase ∧ phase.isStop = false ∧
    c' = stepWorker files watch now c worker

/-- What is left to be done for the files that nobody has taken. -/
def owedWaiting (files : FileTree) (watch : Bytes → ParseEvent) (c : Crew) : List Deed :=
  deedsForAll files watch (c.waiting.map Job.path)

/-- What is left to be done by a crew. -/
def owed (files : FileTree) (watch : Bytes → ParseEvent) (c : Crew) : List Deed :=
  c.phases.flatMap (WorkerPhase.owed files watch) ++ c.owedWaiting files watch

/-! ## Steps -/

/-- What a step of a worker changes: it does a part of what is owed, and what is in use of the pool
changes by as much as what the worker holds. -/
structure Turn (files : FileTree) (watch : Bytes → ParseEvent) (c : Crew) (phase : WorkerPhase)
    (c' : Crew) (phase' : WorkerPhase) : Prop where
  /-- What is known about the file is right. -/
  fits : phase'.Fits files watch
  /-- The pool still serves parsers. -/
  serves : c'.runner.pool.ServesParsers
  /-- What the worker holds is in use. -/
  inUse_eq : ∀ type, (c'.runner.pool.countsOf type).inUse + phase.heldOf type =
    (c.runner.pool.countsOf type).inUse + phase'.heldOf type
  /-- A part of what was owed has been done. -/
  exists_deeds : ∃ deeds,
    phase.owed files watch ++ c.owedWaiting files watch =
      deeds ++ (phase'.owed files watch ++ c'.owedWaiting files watch) ∧
    Achieves c.runner deeds c'.runner ∧ c'.result = deliverAll c.result deeds
  /-- The worker stops only when no file is waiting. -/
  waiting_of_stop : phase' = .stop → c'.waiting = []
  /-- Less is left to be done. -/
  weight_lt : phase'.weight + 11 * c'.waiting.length < phase.weight + 11 * c.waiting.length

/-- Every step of a worker is such a turn. -/
theorem exists_turn (now : Int) (hwatch : ∀ path, watch path ≠ .cancel)
    (hnot : c.runner.isCancelled = false) (hserves : c.runner.pool.ServesParsers) {worker : ℕ}
    {phase : WorkerPhase} (hget : c.phases[worker]? = some phase) (hopen : phase.isStop = false)
    (hfits : phase.Fits files watch)
    (hheld : ∀ type, phase.heldOf type ≤ (c.runner.pool.countsOf type).inUse) :
    ∃ phase', (stepWorker files watch now c worker).phases = c.phases.set worker phase' ∧
      Turn files watch c phase (stepWorker files watch now c worker) phase' := by
  rw [stepWorker, hget]
  cases phase with
  | stop => cases hopen
  | look =>
    simp only [hnot, Bool.false_eq_true, if_false]
    refine ⟨.take, rfl, trivial, hserves, fun _ => rfl, ⟨[], rfl, .refl _, rfl⟩, ?_, ?_⟩
    · intro hstop
      cases hstop
    · exact Nat.add_lt_add_right Nat.one_lt_two _
  | take =>
    simp only
    cases hwaiting : c.waiting with
    | nil =>
      refine ⟨.stop, rfl, trivial, hserves, fun _ => rfl, ⟨[], rfl, .refl _, rfl⟩, ?_, ?_⟩
      · exact fun _ => hwaiting
      · exact Nat.add_lt_add_right Nat.one_pos _
    | cons job rest =>
      refine ⟨.work job.path .begin, rfl, trivial, hserves, fun _ => rfl,
        ⟨[], ?_, .refl _, rfl⟩, ?_, ?_⟩
      · simp only [owedWaiting, deedsForAll, hwaiting]
        rfl
      · intro hstop
        cases hstop
      · simp only [setPhase, WorkerPhase.weight, BatchRunner.weight, hwaiting, List.length_cons]
        omega
  | work path phase =>
    simp only
    cases houtcome : phase.outcome? with
    | some outcome =>
      obtain rfl := FilePhase.outcome?_eq_some_iff.mp houtcome
      refine ⟨.look, rfl, trivial, hserves, fun _ => rfl,
        ⟨_, rfl, achieves_deliver c.runner path outcome, rfl⟩, ?_, ?_⟩
      · intro hstop
        cases hstop
      · exact Nat.add_lt_add_right (Nat.lt_succ_self 2) _
    | none =>
      have hadvances := advances now (hwatch path) hserves hfits hheld houtcome
      obtain ⟨deeds, howed, hnone, hdone⟩ := hadvances.exists_deeds
      refine ⟨.work path _, rfl, hadvances.fits, hadvances.serves, hadvances.inUse_eq,
        ⟨deeds, ?_, hdone, ?_⟩, ?_, ?_⟩
      · rw [WorkerPhase.owed, howed, List.append_assoc]
        rfl
      · rw [deliverAll, hnone]
        rfl
      · intro hstop
        cases hstop
      · exact Nat.add_lt_add_right hadvances.weight_lt _

/-- What is done in one turn is no longer owed by the crew. -/
theorem owed_perm_of_turn {before after : List WorkerPhase} {phase phase' : WorkerPhase}
    {more : List Deed}
    (hphases : c.phases = before ++ phase :: after) (hset : c'.phases = before ++ phase' :: after)
    (howed : phase.owed files watch ++ c.owedWaiting files watch =
      more ++ (phase'.owed files watch ++ c'.owedWaiting files watch)) :
    (more ++ c'.owed files watch).Perm (c.owed files watch) := by
  have hmove (mine waiting : List Deed) :
      (before.flatMap (WorkerPhase.owed files watch) ++
        (mine ++ after.flatMap (WorkerPhase.owed files watch)) ++ waiting).Perm
      (before.flatMap (WorkerPhase.owed files watch) ++
        after.flatMap (WorkerPhase.owed files watch) ++ (mine ++ waiting)) := by
    simp only [List.append_assoc]
    exact (List.perm_append_comm_assoc _ _ _).append_left _
  simp only [owed, hphases, hset, List.flatMap_append, List.flatMap_cons]
  refine ((hmove _ _).append_left more).trans (.trans ?_ (hmove _ _).symm)
  rw [howed]
  exact List.perm_append_comm_assoc _ _ _

/-! ## Runs -/

/-- How far a crew has got with some files that a runner had to do. -/
structure Progress (files : FileTree) (watch : Bytes → ParseEvent) (b : BatchRunner)
    (paths : List Bytes) (c : Crew) : Prop where
  /-- What has been done and what is owed make up all that is to be done. -/
  exists_deeds : ∃ deeds,
    (deeds ++ c.owed files watch).Perm (deedsForAll files watch paths) ∧
    Achieves b deeds c.runner ∧ c.result = deliverAll .empty deeds
  /-- The pool serves parsers. -/
  serves : c.runner.pool.ServesParsers
  /-- What is known about the files is right. -/
  fits : ∀ phase ∈ c.phases, phase.Fits files watch
  /-- What the workers hold is in use besides what was in use before. -/
  inUse_eq : ∀ type, (c.runner.pool.countsOf type).inUse =
    (b.pool.countsOf type).inUse + (c.phases.map (WorkerPhase.heldOf type)).sum
  /-- While there are workers the runner is not cancelled. -/
  not_cancelled : c.phases ≠ [] → c.runner.isCancelled = false
  /-- The workers do not all stop while a file is waiting. -/
  waiting_eq_nil : (∀ phase ∈ c.phases, phase = .stop) → c.waiting = []

/-- No less than the number of steps that are left for a crew. A waiting file weighs as much as one
that a worker begins with. -/
def weight (c : Crew) : ℕ := (c.phases.map WorkerPhase.weight).sum + 11 * c.waiting.length

/-- A step makes progress and lowers the weight of the work that is left. -/
theorem Progress.step (h : Progress files watch b paths c) (hwatch : ∀ path, watch path ≠ .cancel)
    (hstep : Step files watch c c') :
    Progress files watch b paths c' ∧ c'.weight < c.weight := by
  obtain ⟨worker, now, phase, hget, hopen, rfl⟩ := hstep
  obtain ⟨hlt, hphase⟩ := List.getElem?_eq_some_iff.mp hget
  have hmem : phase ∈ c.phases := hphase ▸ List.getElem_mem hlt
  have hnot := h.not_cancelled (List.ne_nil_of_mem hmem)
  have hheld (type : Bytes) : phase.heldOf type ≤ (c.runner.pool.countsOf type).inUse := by
    obtain ⟨before, after, hphases⟩ := List.append_of_mem hmem
    rw [h.inUse_eq, hphases, WorkerPhase.sum_map_append_cons]
    omega
  obtain ⟨phase', hset, hturn⟩ :=
    exists_turn now hwatch hnot h.serves hget hopen (h.fits phase hmem) hheld
  obtain ⟨before, after, hphases, -, hset'⟩ : ∃ before after,
      c.phases = before ++ c.phases[worker] :: after ∧ before.length = worker ∧
        c.phases.set worker phase' = before ++ phase' :: after := List.exists_of_set hlt
  rw [hphase] at hphases
  rw [hset'] at hset
  generalize stepWorker files watch now c worker = c' at hset hturn ⊢
  obtain ⟨deeds, hperm, hdone, hresult⟩ := h.exists_deeds
  obtain ⟨more, howed, hmore, hresult'⟩ := hturn.exists_deeds
  refine ⟨⟨⟨deeds ++ more, ?_, hdone.trans hmore, ?_⟩, hturn.serves, ?_, ?_, ?_, ?_⟩, ?_⟩
  · rw [List.append_assoc]
    exact ((owed_perm_of_turn hphases hset howed).append_left deeds).trans hperm
  · rw [hresult', hresult, deliverAll, deliverAll, deliverAll, List.filterMap_append,
      List.foldl_append]
  · intro other hother
    rw [hset, List.mem_append, List.mem_cons] at hother
    rcases hother with hother | rfl | hother
    · exact h.fits other (hphases ▸ List.mem_append_left _ hother)
    · exact hturn.fits
    · exact h.fits other (hphases ▸ List.mem_append_right _ (List.mem_cons_of_mem _ hother))
  · intro type
    have hbefore := h.inUse_eq type
    have hturn' := hturn.inUse_eq type
    rw [hphases, WorkerPhase.sum_map_append_cons] at hbefore
    rw [hset, WorkerPhase.sum_map_append_cons]
    omega
  · exact fun _ => hmore.isCancelled_eq.trans hnot
  · intro hstop
    refine hturn.waiting_of_stop (hstop phase' ?_)
    rw [hset]
    exact List.mem_append_right _ List.mem_cons_self
  · have hlt' := hturn.weight_lt
    rw [weight, weight, hset, hphases, WorkerPhase.sum_map_append_cons,
      WorkerPhase.sum_map_append_cons]
    omega

/-- While no step is possible all workers have stopped. -/
theorem eq_stop_of_forall_not_step (hlast : ∀ c', ¬ Step files watch c c') :
    ∀ phase ∈ c.phases, phase = .stop := by
  intro phase hmem
  obtain ⟨worker, hlt, hphase⟩ := List.getElem_of_mem hmem
  have hget : c.phases[worker]? = some phase := List.getElem?_eq_some_iff.mpr ⟨hlt, hphase⟩
  cases phase with
  | stop => rfl
  | _ => exact absurd ⟨worker, 0, _, hget, rfl, rfl⟩ (hlast _)

/-- A crew is finished when every worker has stopped. -/
theorem isFinished_iff : c.isFinished ↔ ∀ phase ∈ c.phases, phase = .stop := by
  rw [isFinished, List.all_eq_true]
  refine forall₂_congr fun phase _ => ?_
  cases phase <;> simp [WorkerPhase.isStop]

/-- A crew that can make no further step has done all that was to be done, and gives back a queue as
it was left when the batch began. -/
theorem Progress.does (h : Progress files watch b paths c)
    (hlast : ∀ c', ¬ Step files watch c c') :
    Does files watch b paths c.close.1 c.close.2 := by
  have hstop := eq_stop_of_forall_not_step hlast
  have hwaiting := h.waiting_eq_nil hstop
  have hclose : c.close = (c.runner, c.result) := by
    rw [close, hwaiting]
    rfl
  have howed : c.owed files watch = [] := by
    rw [owed, owedWaiting, hwaiting, List.map_nil, List.append_eq_nil_iff, List.flatMap_eq_nil_iff]
    refine ⟨?_, rfl⟩
    intro phase hmem
    rw [hstop phase hmem]
    rfl
  obtain ⟨deeds, hperm, hdone, hresult⟩ := h.exists_deeds
  rw [howed, List.append_nil] at hperm
  rw [hclose]
  refine ⟨⟨deeds, hperm, hdone, hresult⟩, h.serves, ?_⟩
  intro type
  rw [h.inUse_eq, WorkerPhase.sum_heldOf fun phase hmem => hstop phase hmem ▸ rfl, Nat.add_zero]

/-! ## Batches -/

/-- A crew that has just been set up has done nothing, and the runner is as the queue left it. -/
theorem progress_ofBatch (hserves : b.pool.ServesParsers) (parallel : Bool) (n : ℕ) :
    Progress files watch (b.begun n) ((b.queue.pop n).2.map Job.path) (ofBatch b parallel n) := by
  rw [ofBatch, begun]
  rcases hpop : b.queue.pop n with ⟨queue, jobs⟩
  cases jobs with
  | nil =>
    simp only [List.isEmpty_nil, Bool.and_true, if_true]
    exact ⟨⟨[], .rfl, .refl _, rfl⟩, hserves, List.forall_mem_nil _, fun _ => rfl, absurd rfl,
      fun _ => rfl⟩
  | cons job rest =>
    simp only [List.isEmpty_cons, Bool.and_false, Bool.false_eq_true, if_false]
    have hphase (phase : WorkerPhase)
        (hmem : phase ∈ List.replicate (b.crewSize parallel (job :: rest).length) .look) :
        phase = .look := List.eq_of_mem_replicate hmem
    refine ⟨⟨[], ?_, .refl _, rfl⟩, hserves, ?_, ?_, fun _ => rfl, ?_⟩
    · rw [List.nil_append, owed,
        List.flatMap_eq_nil_iff.mpr fun phase hmem => hphase phase hmem ▸ rfl]
      exact .rfl
    · exact fun phase hmem => hphase phase hmem ▸ trivial
    · intro type
      rw [WorkerPhase.sum_heldOf fun phase hmem => hphase phase hmem ▸ rfl, Nat.add_zero]
    · intro hstop
      have hpos := b.crewSize_pos parallel (Nat.succ_pos rest.length)
      cases hstop .look (List.mem_replicate.mpr ⟨hpos.ne', rfl⟩)

/-- However the workers on a batch go on, they come to an end, and then all that was to be done for
the files of the batch has been done. -/
theorem comesToEnd_ofBatch (hwatch : ∀ path, watch path ≠ .cancel) (hserves : b.pool.ServesParsers)
    (parallel : Bool) (n : ℕ) :
    ComesToEnd (Step files watch)
      (fun c => Does files watch (b.begun n) ((b.queue.pop n).2.map Job.path) c.close.1 c.close.2)
      (ofBatch b parallel n) :=
  ComesToEnd.of_measure weight (fun _ _ h hstep => h.step hwatch hstep)
    (fun _ h hlast => h.does hlast) (progress_ofBatch hserves parallel n)

/-! ## A crew of one -/

/-- A step for a file before its outcome is delivered. -/
def FileStep (files : FileTree) (watch : Bytes → ParseEvent) (now : Int) (path : Bytes)
    (s s' : BatchRunner × FilePhase) : Prop :=
  s.2.outcome? = none ∧ s' = s.1.advance files watch now path s.2

/-- Once the outcome is known, the chores run one after another to the end. -/
theorem reaches_chores (now : Int) (path : Bytes) (b : BatchRunner) (outcome : FileOutcome)
    (chores : List Chore) :
    Relation.ReflTransGen (FileStep files watch now path) (b, .finish outcome chores)
      (chores.foldl (perform now) b, .finish outcome []) := by
  induction chores generalizing b with
  | nil => exact .refl
  | cons chore rest ih => exact .head ⟨rfl, rfl⟩ (ih (b.perform now chore))

/-- The steps for a file come to what is done for it in one go. -/
theorem reaches_processFile (files : FileTree) (watch : Bytes → ParseEvent) (now : Int)
    (path : Bytes) (b : BatchRunner) :
    Relation.ReflTransGen (FileStep files watch now path) (b, .begin)
      ((b.processFile files now watch path).1,
        .finish (b.processFile files now watch path).2 []) := by
  refine .head ⟨rfl, rfl⟩ ?_
  rw [processFile, advance]
  obtain ⟨monitor, timer⟩ := Measurement.start b.monitor now (bytes "batch_process_file")
  simp only [parseByExtension]
  cases Language.ofExtension? (Path.extension path) with
  | none => exact reaches_chores now path _ _ _
  | some language =>
    simp only [Pool.acquire]
    refine .head ⟨rfl, rfl⟩ ?_
    rw [advance]
    cases b.pool.takeFree? (ResourceFactory.parserType language.name) with
    | some taken => exact .head ⟨rfl, rfl⟩ (reaches_chores now path _ _ _)
    | none =>
      refine .head ⟨rfl, rfl⟩ ?_
      rw [advance]
      rcases b.pool.create (ResourceFactory.parserType language.name) with ⟨pool, failure | r⟩
      · exact reaches_chores now path _ _ _
      · exact .head ⟨rfl, rfl⟩ (reaches_chores now path _ _ _)

/-- The only worker makes the steps for its file. -/
theorem reaches_work {now : Int} {path : Bytes} {s s' : BatchRunner × FilePhase}
    (h : Relation.ReflTransGen (FileStep files watch now path) s s') (result : BatchResult)
    (waiting : List Job) :
    Relation.ReflTransGen (Step files watch) ⟨s.1, result, waiting, [.work path s.2]⟩
      ⟨s'.1, result, waiting, [.work path s'.2]⟩ := by
  refine h.lift (fun s => Crew.mk s.1 result waiting [.work path s.2]) ?_
  rintro s - ⟨hopen, rfl⟩
  refine ⟨0, now, _, rfl, rfl, ?_⟩
  simp only [stepWorker, List.getElem?_cons_zero, hopen]
  rfl

/-- The only worker chunks file after file until none is left or the runner is cancelled. -/
theorem reaches_processJobs (files : FileTree) (watch : Bytes → ParseEvent) (now : Int)
    (b : BatchRunner) (result : BatchResult) (jobs : List Job) :
    ∃ last, Relation.ReflTransGen (Step files watch) ⟨b, result, jobs, [.look]⟩ last ∧
      last.phases = [.stop] ∧
      b.processJobs files now watch result jobs = (last.runner, last.result, last.waiting) := by
  have hlook (b : BatchRunner) (result : BatchResult) (jobs : List Job) :
      Step files watch ⟨b, result, jobs, [.look]⟩
        ⟨b, result, jobs, [if b.isCancelled then .stop else .take]⟩ :=
    ⟨0, now, _, rfl, rfl, rfl⟩
  induction jobs generalizing b result with
  | nil =>
    have hfirst := hlook b result []
    cases hcancelled : b.isCancelled with
    | true => exact ⟨_, .single hfirst, by simp only [hcancelled, if_true], rfl⟩
    | false =>
      rw [hcancelled] at hfirst
      exact ⟨⟨b, result, [], [.stop]⟩, .head hfirst (.single ⟨0, now, _, rfl, rfl, rfl⟩), rfl, rfl⟩
  | cons job rest ih =>
    have hfirst := hlook b result (job :: rest)
    cases hcancelled : b.isCancelled with
    | true =>
      refine ⟨_, .single hfirst, by simp only [hcancelled, if_true], ?_⟩
      simp only [processJobs, hcancelled, if_true]
    | false =>
      rw [hcancelled] at hfirst
      have hfile := reaches_work (reaches_processFile files watch now job.path b) result rest
      obtain ⟨last, hrest, hstop, hlast⟩ := ih (b.processFile files now watch job.path).1
        (deliver result job.path (b.processFile files now watch job.path).2)
      refine ⟨last, .head hfirst (.head ⟨0, now, _, rfl, rfl, rfl⟩ (hfile.trans
        (.head ⟨0, now, _, rfl, rfl, rfl⟩ hrest))), hstop, ?_⟩
      simp only [processJobs, hcancelled, Bool.false_eq_true, if_false]
      exact hlast

/-- A crew whose workers have all stopped takes no step. -/
theorem not_step_of_phases_eq (h : ∀ phase ∈ c.phases, phase = .stop) :
    ¬ Step files watch c c' := by
  rintro ⟨worker, now, phase, hget, hopen, -⟩
  rw [h phase (List.mem_of_getElem? hget)] at hopen
  exact absurd hopen nofun

/-- The runner that chunks the files of a batch one after another makes a run of a crew of one. -/
theorem exists_run_process (files : FileTree) (watch : Bytes → ParseEvent) (now : Int)
    (b : BatchRunner) (n : ℕ) :
    ∃ last, Relation.ReflTransGen (Step files watch) (ofBatch b false n) last ∧
      (∀ c, ¬ Step files watch last c) ∧ b.process files now watch n = last.close := by
  rw [ofBatch, process]
  obtain ⟨queue, jobs⟩ := b.queue.pop n
  cases jobs with
  | nil => exact ⟨_, .refl, fun _ => not_step_of_phases_eq nofun, rfl⟩
  | cons job rest =>
    obtain ⟨last, hrun, hstop, hlast⟩ := reaches_processJobs files watch now
      { b with queue, isCancelled := false } .empty (job :: rest)
    refine ⟨last, hrun, fun _ => not_step_of_phases_eq ?_, ?_⟩
    · rw [hstop]
      exact fun phase hmem => List.mem_singleton.mp hmem
    · simp only [List.isEmpty_cons, Bool.false_eq_true, if_false]
      rw [hlast]
      rfl

/-- So it does for the files of a batch what any crew does. -/
theorem does_process (files : FileTree) (hwatch : ∀ path, watch path ≠ .cancel)
    (hserves : b.pool.ServesParsers) (now : Int) (n : ℕ) :
    Does files watch (b.begun n) ((b.queue.pop n).2.map Job.path)
      (b.process files now watch n).1 (b.process files now watch n).2 := by
  obtain ⟨last, hrun, hlast, hprocess⟩ := exists_run_process files watch now b n
  rw [hprocess]
  exact (comesToEnd_ofBatch hwatch hserves false n).of_reflTransGen hrun hlast

end Crew

end SourceChunks
