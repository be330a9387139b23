import SourceChunks.BatchRunner.Crew
import SourceChunks.Proofs.Monitor
import SourceChunks.Proofs.Pool.Parsers

/-!
# What is done for one file

What becomes of a file depends on the file alone: on its extension, on its content, and on whether
the parser gives up. So what a worker has to do for a file is known from the beginning. With each
step it does a part of that and owes the rest, whatever the others do in between.
-/

namespace SourceChunks

/-- A part of what is done for a file that can be seen from outside. -/
inductive Deed where
  /-- A parser begins with the file. -/
  | parse (path : Bytes)
  /-- A value of a metric is recorded. -/
  | record (metric : String) (value : Float)
  /-- The outcome is delivered. -/
  | deliver (path : Bytes) (outcome : FileOutcome)

namespace Deed

/-- The file that a parser begins with. -/
def parsed? : Deed → Option Bytes
  | .parse path => some path
  | _ => none

/-- The value that is recorded of a metric. -/
def value? (metric : Bytes) : Deed → Option Float
  | .record name value => if metric = bytes name then some value else none
  | _ => none

/-- The outcome that is delivered, with its file. -/
def delivery? : Deed → Option (Bytes × FileOutcome)
  | .deliver path outcome => some (path, outcome)
  | _ => none

end Deed

namespace Chore

/-- The part of what is done for a file that a chore is. -/
def deed? : Chore → Option Deed
  | .record metric value => some (.record metric value)
  | _ => none

/-- The resource that a chore gives back. -/
def returned? : Chore → Option Resource
  | .giveBack r => some r
  | _ => none

end Chore

namespace FileOutcome

variable (files : FileTree) (watch : Bytes → ParseEvent)

/-- What becomes of a file that is chunked alone. -/
def ofFile (path : Bytes) : FileOutcome :=
  match Language.ofExtension? (Path.extension path) with
  | none => .skipped
  | some language =>
    match files.read? path with
    | none => .failed
    | some text =>
      if watch path = .fail then .failed
      else .chunked text.length (chunkText language path text)

/-- A file that is chunked alone has these chunks: its language is known, it can be read, and the
parser does not give up on its text. -/
def Yields (path : Bytes) (chunks : List Chunk) : Prop :=
  ∃ language text, Language.ofExtension? (Path.extension path) = some language ∧
    files.read? path = some text ∧ watch path ≠ .fail ∧ chunks = chunkText language path text

/-- A file's outcome has chunks exactly when the file yields them. -/
theorem chunks?_ofFile_eq_some_iff {path : Bytes} {chunks : List Chunk} :
    (ofFile files watch path).chunks? = some chunks ↔ Yields files watch path chunks := by
  rw [ofFile, Yields]
  split
  · next hnone => simp [chunks?, hnone]
  · next language hlanguage =>
    split
    · next hnone => simp [chunks?, hnone]
    · next text htext =>
      split
      · next hfail => simp [chunks?, hfail]
      · next hnot => simp [chunks?, hlanguage, htext, hnot, eq_comm]

/-- Under a condition, a file's outcome has chunks exactly when the condition holds and the file
yields them. -/
theorem ite_chunks?_ofFile_eq_some_iff {p : Prop} [Decidable p] {path : Bytes}
    {chunks : List Chunk} :
    (if p then (ofFile files watch path).chunks? else none) = some chunks ↔
      p ∧ Yields files watch path chunks := by
  rw [← chunks?_ofFile_eq_some_iff]
  split
  · next hp => exact (and_iff_right hp).symm
  · next hp => exact iff_of_false nofun fun hboth => hp hboth.1

/-- The chores after a file record exactly the outcome's measurements. -/
theorem filterMap_deed?_chores (outcome : FileOutcome) (timer : Measurement)
    (held : Option Resource) :
    (outcome.chores timer held).filterMap Chore.deed? =
      outcome.records.map fun x => .record x.1 x.2 := by
  cases outcome <;> cases held <;> rfl

/-- The chores after a file give back exactly the parser that it holds. -/
theorem filterMap_returned?_chores (outcome : FileOutcome) (timer : Measurement)
    (held : Option Resource) :
    (outcome.chores timer held).filterMap Chore.returned? = held.toList := by
  cases outcome <;> cases held <;> rfl

/-- At most four chores follow a file. -/
theorem length_chores_le (outcome : FileOutcome) (timer : Measurement) (held : Option Resource) :
    (outcome.chores timer held).length ≤ 4 := by
  cases outcome <;> cases held <;> simp [chores, records]

end FileOutcome

namespace BatchRunner

variable (files : FileTree) (watch : Bytes → ParseEvent)

/-- The file, if a parser begins with it: its language is known and it can be read. -/
def parsedFor (path : Bytes) : List Bytes :=
  match Language.ofExtension? (Path.extension path), files.read? path with
  | some _, some _ => [path]
  | _, _ => []

/-- All that is done for a file. -/
def deedsFor (path : Bytes) : List Deed :=
  (parsedFor files path).map .parse ++
    (FileOutcome.ofFile files watch path).records.map (fun x => .record x.1 x.2) ++
    [.deliver path (FileOutcome.ofFile files watch path)]

/-- What is left to be done for a file. -/
def owed (path : Bytes) : FilePhase → List Deed
  | .finish outcome chores => chores.filterMap Chore.deed? ++ [.deliver path outcome]
  | _ => deedsFor files watch path

/-- What is known about a file from how far a worker has got with it. -/
def Fits (path : Bytes) : FilePhase → Prop
  | .begin => True
  | .find _ language | .create _ language =>
    Language.ofExtension? (Path.extension path) = some language
  | .parse _ r => r.Suits ∧ ∃ language,
    Language.ofExtension? (Path.extension path) = some language ∧
      r.type = ResourceFactory.parserType language.name
  | .finish outcome chores =>
    outcome = FileOutcome.ofFile files watch path ∧
      ∀ r ∈ chores.filterMap Chore.returned?, r.Suits

/-- Between two states of a runner these deeds were done, and nothing else that can be seen. -/
structure Achieves (b : BatchRunner) (deeds : List Deed) (b' : BatchRunner) : Prop where
  /-- Parsers have begun with more files. -/
  parsed_eq : b'.parsed = b.parsed ++ deeds.filterMap Deed.parsed?
  /-- Values have been recorded, except of the metrics that tell how long operations take. -/
  valuesOf_eq : ∀ metric, (∀ operation, metric ≠ Monitor.metricOf operation) →
    b'.monitor.valuesOf metric =
      (deeds.filterMap (Deed.value? metric)).foldl (Monitor.push b.monitor.window)
        (b.monitor.valuesOf metric)
  /-- The window is the same. -/
  window_eq : b'.monitor.window = b.monitor.window
  /-- The queue is the same. -/
  queue_eq : b'.queue = b.queue
  /-- The size of a batch is the same. -/
  batchSize_eq : b'.batchSize = b.batchSize
  /-- The number of workers is the same. -/
  maxWorkers_eq : b'.maxWorkers = b.maxWorkers
  /-- The runner is as much cancelled as before. -/
  isCancelled_eq : b'.isCancelled = b.isCancelled

variable {files watch} {b b' b'' : BatchRunner} {path : Bytes} {deeds deeds' : List Deed}

/-- What happens to the pool cannot be seen, nor what is recorded of how long operations take. -/
theorem achieves_nil (b : BatchRunner) (pool : Pool) (monitor : Monitor Float)
    (hvalues : ∀ metric, (∀ operation, metric ≠ Monitor.metricOf operation) →
      monitor.valuesOf metric = b.monitor.valuesOf metric)
    (hwindow : monitor.window = b.monitor.window) : Achieves b [] { b with pool, monitor } :=
  ⟨(List.append_nil _).symm, hvalues, hwindow, rfl, rfl, rfl, rfl⟩

/-- Doing nothing achieves no deeds. -/
theorem Achieves.refl (b : BatchRunner) : Achieves b [] b :=
  achieves_nil b b.pool b.monitor (fun _ _ => rfl) rfl

/-- A change of the pool alone achieves no deeds. -/
theorem achieves_pool (b : BatchRunner) (pool : Pool) : Achieves b [] { b with pool } :=
  achieves_nil b pool b.monitor (fun _ _ => rfl) rfl

/-- An outcome is delivered without the runner. -/
theorem achieves_deliver (b : BatchRunner) (path : Bytes) (outcome : FileOutcome) :
    Achieves b [.deliver path outcome] b :=
  ⟨(List.append_nil _).symm, fun _ _ => rfl, rfl, rfl, rfl, rfl, rfl⟩

/-- Deeds achieved one after another are achieved together. -/
theorem Achieves.trans (h : Achieves b deeds b') (h' : Achieves b' deeds' b'') :
    Achieves b (deeds ++ deeds') b'' where
  parsed_eq := by
    rw [h'.parsed_eq, h.parsed_eq, List.filterMap_append, List.append_assoc]
  valuesOf_eq metric hmetric := by
    rw [h'.valuesOf_eq metric hmetric, h.valuesOf_eq metric hmetric, h.window_eq,
      List.filterMap_append, List.foldl_append]
  window_eq := h'.window_eq.trans h.window_eq
  queue_eq := h'.queue_eq.trans h.queue_eq
  batchSize_eq := h'.batchSize_eq.trans h.batchSize_eq
  maxWorkers_eq := h'.maxWorkers_eq.trans h.maxWorkers_eq
  isCancelled_eq := h'.isCancelled_eq.trans h.isCancelled_eq

/-! ## Chores -/

/-- A chore does what it is to do. -/
theorem achieves_perform (now : Int) (b : BatchRunner) (chore : Chore) :
    Achieves b chore.deed?.toList (b.perform now chore) := by
  cases chore with
  | record metric value =>
    refine ⟨(List.append_nil _).symm, ?_, rfl, rfl, rfl, rfl, rfl⟩
    intro name hname
    rw [perform, Monitor.valuesOf_record]
    by_cases heq : name = bytes metric
    · simp [Chore.deed?, Deed.value?, heq]
    · simp [Chore.deed?, Deed.value?, heq]
  | giveBack r => exact achieves_pool b _
  | stopTimer timer =>
    rw [perform, Measurement.stop]
    cases timer.handle with
    | none => exact .refl b
    | some handle =>
      exact achieves_nil b b.pool _ (fun _ hname => Monitor.valuesOf_finish _ _ _ hname)
        (Monitor.window_finish _ _ _)

/-! ## Parsing -/

/-- A parser of its language chunks a file as it is chunked alone, and stays such a parser. -/
theorem parse_spec (files : FileTree) (b : BatchRunner) (hwatch : watch path ≠ .cancel)
    {r : Resource} (hfits : r.Suits)
    {language : Language} (hlanguage : Language.ofExtension? (Path.extension path) = some language)
    (htype : r.type = ResourceFactory.parserType language.name) :
    ∃ r' : Resource, r'.type = r.type ∧ r'.Suits ∧
      b.parse files watch r path =
        ({ b with parsed := b.parsed ++ parsedFor files path }, r',
          FileOutcome.ofFile files watch path) := by
  obtain ⟨parser, hbody, rfl⟩ := hfits language htype
  simp only [parse, hbody, FileOutcome.ofFile, parsedFor, hlanguage]
  cases htext : files.read? path with
  | none => exact ⟨r, rfl, hfits, by simp only [List.append_nil]⟩
  | some text =>
    refine ⟨{ r with body := .parser (parser.chunk path text).1 }, rfl, ?_, ?_⟩
    · intro language' htype'
      exact ⟨_, rfl, ResourceFactory.parserType_inj (htype.symm.trans htype')⟩
    · cases hevent : watch path with
      | proceed => rfl
      | fail => rfl
      | cancel => exact absurd hevent hwatch

/-! ## Steps -/

/-- The resources that are held for a file. -/
def heldFor : FilePhase → List Resource
  | .parse _ r => [r]
  | .finish _ chores => chores.filterMap Chore.returned?
  | _ => []

/-- How many of the resources that are held for a file are of a type. -/
def heldOf (type : Bytes) (phase : FilePhase) : ℕ := (heldFor phase).countP fun r => type = r.type

/-- More than the number of steps that are left for a file. -/
def weight : FilePhase → ℕ
  | .begin => 11
  | .find _ _ => 10
  | .create _ _ => 9
  | .parse _ _ => 8
  | .finish _ chores => 3 + chores.length

/-- A step for a file does a part of what is owed and leaves the rest. What is in use of the pool
changes by as much as what is held for the file. -/
structure Advances (files : FileTree) (watch : Bytes → ParseEvent) (path : Bytes)
    (b : BatchRunner) (phase : FilePhase) (b' : BatchRunner) (phase' : FilePhase) : Prop where
  /-- What is known about the file is right. -/
  fits : Fits files watch path phase'
  /-- The pool still serves parsers. -/
  serves : b'.pool.ServesParsers
  /-- What is held for the file is in use. -/
  inUse_eq : ∀ type, (b'.pool.countsOf type).inUse + heldOf type phase =
    (b.pool.countsOf type).inUse + heldOf type phase'
  /-- A part of what was owed has been done; the outcome has not been delivered. -/
  exists_deeds : ∃ deeds, owed files watch path phase = deeds ++ owed files watch path phase' ∧
    deeds.filterMap Deed.delivery? = [] ∧ Achieves b deeds b'
  /-- Less is left to be done. -/
  weight_lt : weight phase' < weight phase

/-- Before its chores a file counts for its type exactly the parser that it holds. -/
theorem heldOf_chores (type : Bytes) (outcome : FileOutcome) (timer : Measurement)
    (held : Option Resource) :
    heldOf type (.finish outcome (outcome.chores timer held)) =
      held.toList.countP fun r => type = r.type := by
  rw [heldOf, heldFor, FileOutcome.filterMap_returned?_chores]

/-- The deeds for a file are its parse and then what its chores still owe. -/
theorem owed_chores (files : FileTree) (watch : Bytes → ParseEvent) (path : Bytes)
    (timer : Measurement) (held : Option Resource) :
    deedsFor files watch path = (parsedFor files path).map .parse ++
      owed files watch path (.finish (FileOutcome.ofFile files watch path)
        ((FileOutcome.ofFile files watch path).chores timer held)) := by
  rw [owed, FileOutcome.filterMap_deed?_chores, deedsFor, List.append_assoc]

/-- A file that only has its chores left weighs at most seven. -/
theorem weight_chores_le (outcome : FileOutcome) (timer : Measurement) (held : Option Resource) :
    weight (.finish outcome (outcome.chores timer held)) ≤ 7 := by
  have hle := outcome.length_chores_le timer held
  rw [weight]
  omega

/-- A resource is handed out for a file. -/
theorem advances_take {phase : FilePhase} {timer : Measurement} {pool : Pool} {r : Resource}
    {language : Language} (hlanguage : Language.ofExtension? (Path.extension path) = some language)
    (hserves : pool.ServesParsers) (htype : r.type = ResourceFactory.parserType language.name)
    (hsuits : r.Suits)
    (hinUse : ∀ type, (pool.countsOf type).inUse =
      (b.pool.countsOf type).inUse + if type = r.type then 1 else 0)
    (hheld : heldFor phase = []) (howed : owed files watch path phase = deedsFor files watch path)
    (hweight : 8 < weight phase) :
    Advances files watch path b phase { b with pool } (.parse timer r) where
  fits := ⟨hsuits, language, hlanguage, htype⟩
  serves := hserves
  inUse_eq type := by
    rw [hinUse, heldOf, hheld, heldOf, heldFor, List.countP_singleton]
    simp only [List.countP_nil, Nat.add_zero, decide_eq_true_eq]
  exists_deeds := ⟨[], howed, rfl, achieves_pool b pool⟩
  weight_lt := hweight

/-- A chore is done for a file. -/
theorem advances_perform (now : Int) {outcome : FileOutcome} {chore : Chore} {rest : List Chore}
    (hserves : b.pool.ServesParsers)
    (hfits : Fits files watch path (.finish outcome (chore :: rest)))
    (hheld : ∀ type, heldOf type (.finish outcome (chore :: rest)) ≤
      (b.pool.countsOf type).inUse) :
    Advances files watch path b (.finish outcome (chore :: rest)) (b.perform now chore)
      (.finish outcome rest) where
  fits := by
    refine ⟨hfits.1, ?_⟩
    intro r hr
    exact hfits.2 r (((List.sublist_cons_self chore rest).filterMap _).subset hr)
  serves := by
    cases chore with
    | record metric value => exact hserves
    | giveBack r => exact hserves.release (hfits.2 r List.mem_cons_self)
    | stopTimer timer => exact hserves
  inUse_eq type := by
    cases chore with
    | record metric value => rfl
    | stopTimer timer => rfl
    | giveBack r =>
      have hle := hheld type
      have hcons : heldOf type (.finish outcome (.giveBack r :: rest)) =
          heldOf type (.finish outcome rest) + if type = r.type then 1 else 0 := by
        simp only [heldOf, heldFor, List.filterMap_cons, Chore.returned?, List.countP_cons,
          decide_eq_true_eq]
      rw [hcons] at hle ⊢
      rw [perform, Pool.inUse_release]
      omega
  exists_deeds := by
    refine ⟨chore.deed?.toList, ?_, ?_, achieves_perform now b chore⟩
    · cases chore <;> rfl
    · cases chore <;> rfl
  weight_lt := by
    rw [weight, weight, List.length_cons]
    omega

/-- Whatever step comes next for a file, it does a part of what is owed. -/
theorem advances (now : Int) (hwatch : watch path ≠ .cancel) {phase : FilePhase}
    (hserves : b.pool.ServesParsers) (hfits : Fits files watch path phase)
    (hheld : ∀ type, heldOf type phase ≤ (b.pool.countsOf type).inUse)
    (hopen : phase.outcome? = none) :
    Advances files watch path b phase (b.advance files watch now path phase).1
      (b.advance files watch now path phase).2 := by
  cases phase with
  | begin =>
    have hdone := achieves_nil b b.pool (b.monitor.start now (bytes "batch_process_file")).1
      (fun _ _ => rfl) rfl
    rw [advance]
    cases hlanguage : Language.ofExtension? (Path.extension path) with
    | none =>
      have houtcome : FileOutcome.ofFile files watch path = .skipped := by
        simp only [FileOutcome.ofFile, hlanguage]
      have hparsed : parsedFor files path = [] := by simp only [parsedFor, hlanguage]
      have hrest := owed_chores files watch path
        (Measurement.start b.monitor now (bytes "batch_process_file")).2 none
      rw [houtcome, hparsed] at hrest
      refine ⟨⟨houtcome.symm, fun r hr => ?_⟩, hserves, fun type => rfl,
        ⟨[], hrest, rfl, hdone⟩, ?_⟩
      · rw [FileOutcome.filterMap_returned?_chores] at hr
        exact absurd hr List.not_mem_nil
      · exact (weight_chores_le _ _ _).trans_lt (by simp [weight])
    | some language =>
      exact ⟨hlanguage, hserves, fun type => rfl, ⟨[], rfl, rfl, hdone⟩, Nat.lt_succ_self _⟩
  | find timer language =>
    rw [advance]
    cases htake : b.pool.takeFree? (ResourceFactory.parserType language.name) with
    | none => exact ⟨hfits, hserves, fun type => rfl, ⟨[], rfl, rfl, .refl b⟩, Nat.lt_succ_self _⟩
    | some taken =>
      obtain ⟨hserves', htype, hsuits, hinUse⟩ := hserves.takeFree htake
      exact advances_take hfits hserves' htype hsuits hinUse rfl rfl (by simp [weight])
  | create timer language =>
    obtain ⟨pool, r, hcreate, hserves', htype, hsuits, hinUse⟩ := hserves.create language
    rw [advance, hcreate]
    exact advances_take hfits hserves' htype hsuits hinUse rfl rfl (by simp [weight])
  | parse timer r =>
    obtain ⟨hsuits, language, hlanguage, htype⟩ := hfits
    obtain ⟨r', htype', hsuits', hparse⟩ := parse_spec files b hwatch hsuits hlanguage htype
    have hdone : Achieves b ((parsedFor files path).map .parse)
        { b with parsed := b.parsed ++ parsedFor files path } := by
      refine ⟨?_, fun metric _ => ?_, rfl, rfl, rfl, rfl, rfl⟩
      · simp [List.filterMap_map, Deed.parsed?, Function.comp_def]
      · simp [List.filterMap_map, Deed.value?, Function.comp_def]
    rw [advance, hparse]
    have hnone : ((parsedFor files path).map Deed.parse).filterMap Deed.delivery? = [] := by
      simp [List.filterMap_map, Deed.delivery?, Function.comp_def]
    refine ⟨⟨rfl, fun r hr => ?_⟩, hserves, fun type => ?_,
      ⟨_, owed_chores _ _ _ _ _, hnone, hdone⟩, ?_⟩
    · rw [FileOutcome.filterMap_returned?_chores, Option.toList_some, List.mem_singleton] at hr
      exact hr ▸ hsuits'
    · rw [heldOf_chores, Option.toList_some, heldOf, heldFor, List.countP_singleton,
        List.countP_singleton, htype']
    · exact (weight_chores_le _ _ _).trans_lt (Nat.lt_succ_self _)
  | finish outcome chores =>
    cases chores with
    | nil => exact absurd hopen nofun
    | cons chore rest => exact advances_perform now hserves hfits hheld

end BatchRunner

end SourceChunks
