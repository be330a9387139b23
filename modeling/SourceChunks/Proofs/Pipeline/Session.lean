import SourceChunks.Proofs.Pipeline.Processing
import SourceChunks.Proofs.SearchIndex

/-!
# Runs of a pipeline

A session is a pipeline in use. While time goes by, texts of files are processed and files are
forgotten, entries of the memory cache may go at any time, and the pipeline may be opened anew on
its directory. Each file has one language. In every session the caches hold the text of each file
that was stored last, and the index lists the chunks of the files that were processed since the
pipeline was opened and not forgotten.
-/

namespace SourceChunks

/-- What happens in a session. -/
inductive Event where
  /-- A text of a file is processed. -/
  | process (filePath text : Bytes)
  /-- A file is forgotten. -/
  | forget (filePath : Bytes)
  /-- Time goes by. -/
  | wait (nanos : Int)
  /-- What has outlived its lifetime is removed from memory. -/
  | sweep
  /-- What matches a pattern is removed from memory. -/
  | evict (pattern : Bytes)
  /-- Everything is removed from memory. -/
  | clear
  /-- The pipeline is opened anew on its directory, with settings that may differ otherwise. -/
  | restart (settings : Settings)

namespace Event

/-- The texts of files that are on disk after an event. -/
def storedAfter (texts : Bytes → Option Bytes) : Event → Bytes → Option Bytes
  | .process f t => Function.update texts f (some t)
  | .forget f => Function.update texts f none
  | _ => texts

/-- The texts of files that are indexed after an event. -/
def indexedAfter (texts : Bytes → Option Bytes) : Event → Bytes → Option Bytes
  | .process f t => Function.update texts f (some t)
  | .forget f => Function.update texts f none
  | .restart _ => fun _ => none
  | _ => texts

/-- What is indexed stays among what is stored. -/
theorem storedAfter_of_indexedAfter {stored indexed : Bytes → Option Bytes}
    (h : ∀ f t, indexed f = some t → stored f = some t) (e : Event) (f t : Bytes)
    (ht : e.indexedAfter indexed f = some t) : e.storedAfter stored f = some t := by
  have hupdate (g : Bytes) (text? : Option Bytes)
      (hg : Function.update indexed g text? f = some t) :
      Function.update stored g text? f = some t := by
    rw [Function.update_apply] at hg ⊢
    split at hg
    · next heq => rwa [if_pos heq]
    · next hne =>
      rw [if_neg hne]
      exact h f t hg
  cases e with
  | process g u => exact hupdate g (some u) ht
  | forget g => exact hupdate g none ht
  | restart => exact absurd ht nofun
  | wait | sweep | evict | clear => exact h f t ht

/-- The files and texts that are processed in some events. -/
def used (events : List Event) : Set (Bytes × Bytes) := {x | .process x.1 x.2 ∈ events}

/-- The text of each file that was processed since the pipeline was opened and not forgotten, the
last one if there are more. -/
def current (events : List Event) : Bytes → Option Bytes := events.foldl indexedAfter fun _ => none

end Event

/-- A pipeline in use. -/
structure Session where
  /-- The pipeline. -/
  pipeline : Pipeline
  /-- The time in nanoseconds. -/
  now : Int

namespace Session

/-- An event happens. -/
def step (lang : Bytes → Language) (s : Session) : Event → Except Failure Session
  | .process f t =>
    let (pipeline, r) := s.pipeline.processText s.now f t (lang f).name
    r.map fun _ => { s with pipeline }
  | .forget f =>
    let (pipeline, r) := s.pipeline.forget f
    r.map fun _ => { s with pipeline }
  | .wait nanos => .ok { s with now := s.now + nanos }
  | .sweep =>
    .ok { s with pipeline.memory := (s.pipeline.memory.evictExpired s.now).1 }
  | .evict pattern =>
    .ok { s with pipeline.memory := (s.pipeline.memory.invalidatePattern pattern).1 }
  | .clear => .ok { s with pipeline.memory := s.pipeline.memory.clear }
  | .restart settings =>
    let disk := s.pipeline.disk
    let (_, r) := Pipeline.openAt disk.files { settings with cacheDirectory := disk.directory }
    r.map fun pipeline => { s with pipeline }

/-- Events happen one after another. -/
def run (lang : Bytes → Language) (s : Session) (events : List Event) : Except Failure Session :=
  events.foldlM (step lang) s

end Session

/-- The chunks of texts of files. -/
def chunksOf (lang : Bytes → Language) (used : Set (Bytes × Bytes)) : Set Chunk :=
  {c | ∃ x ∈ used, c ∈ chunkText (lang x.1) x.1 x.2}

namespace Session

variable {lang : Bytes → Language} {used : Set (Bytes × Bytes)} {s : Session}
  {stored indexed : Bytes → Option Bytes}

/-- The files and texts that some texts of files are. -/
def graph (texts : Bytes → Option Bytes) : Set (Bytes × Bytes) := {x | texts x.1 = some x.2}

/-- The caches hold the stored texts. Of these some are indexed, and provided that ids tell chunks
apart the index lists their chunks. -/
structure Holds (lang : Bytes → Language) (used : Set (Bytes × Bytes)) (s : Session)
    (stored indexed : Bytes → Option Bytes) : Prop where
  caches : Pipeline.CachesHold lang used s.pipeline.disk s.pipeline.memory stored
  stored_of_indexed : ∀ f t, indexed f = some t → stored f = some t
  lists : SearchIndex.IdsTell (chunksOf lang used) →
    s.pipeline.index.Lists (chunksOf lang (graph indexed))

/-- The chunks of some texts when the text of one file becomes another one. -/
theorem chunksOf_graph_update (lang : Bytes → Language) (texts : Bytes → Option Bytes) (f : Bytes)
    (text? : Option Bytes) : chunksOf lang (graph (Function.update texts f text?)) =
      SearchIndex.replaceFile (chunksOf lang (graph texts)) f
        ((text?.map fun t => chunkText (lang f) f t).getD []) := by
  ext c
  constructor
  · rintro ⟨⟨g, t⟩, hg, hc⟩
    by_cases hgf : g = f
    · subst hgf
      have htext : text? = some t := by simpa [graph] using hg
      rw [htext]
      exact Or.inr hc
    · have htext : texts g = some t := by simpa [graph, Function.update_of_ne hgf] using hg
      exact Or.inl ⟨⟨(g, t), htext, hc⟩,
        fun hpath => hgf ((chunkText_filePath hc).symm.trans hpath)⟩
  · rintro (⟨⟨⟨g, t⟩, hg, hc⟩, hpath⟩ | hc)
    · have hgf : g ≠ f := fun heq => hpath ((chunkText_filePath hc).trans heq)
      exact ⟨(g, t), (Function.update_of_ne hgf ..).trans hg, hc⟩
    · cases text? with
      | none => exact absurd hc List.not_mem_nil
      | some t => exact ⟨(f, t), Function.update_self .., hc⟩

/-- Of the chunks of texts of files, one for each, those of one file are those of its text. -/
theorem mem_chunkText_of_mem_graph {texts : Bytes → Option Bytes} {f t : Bytes}
    (htext : ∀ t', texts f = some t' → t' = t) {c : Chunk} (hc : c ∈ chunksOf lang (graph texts))
    (hpath : c.filePath = f) : c ∈ chunkText (lang f) f t := by
  obtain ⟨⟨g, t'⟩, hg, hc⟩ := hc
  obtain rfl : g = f := (chunkText_filePath hc).symm.trans hpath
  obtain rfl := htext t' hg
  exact hc

/-- Chunks of the stored texts are chunks of texts that are used. -/
theorem chunksOf_graph_subset {texts : Bytes → Option Bytes}
    (h : ∀ f t, texts f = some t → (f, t) ∈ used) :
    chunksOf lang (graph texts) ⊆ chunksOf lang used := by
  rintro c ⟨⟨f, t⟩, hft, hc⟩
  exact ⟨(f, t), h f t hft, hc⟩

/-- The index without records lists the chunks of no text. -/
theorem lists_empty (lang : Bytes → Language) :
    SearchIndex.empty.Lists (chunksOf lang (graph fun _ => none)) := by
  intro id r
  refine ⟨nofun, ?_⟩
  rintro ⟨c, ⟨x, hx, -⟩, -⟩
  exact absurd hx nofun

/-- The index lists the chunks of a text that was processed in place of the old ones of the file. -/
theorem lists_of_indexFollows {x x' : SearchIndex} {f t : Bytes}
    (h : x.Lists (chunksOf lang (graph indexed)))
    (hall : SearchIndex.IdsTell (chunksOf lang used))
    (hstored : ∀ f t, indexed f = some t → stored f = some t)
    (hused : ∀ f t, stored f = some t → (f, t) ∈ used) (ht : (f, t) ∈ used)
    (hfollows : Pipeline.IndexFollows lang stored f t x x') :
    x'.Lists (chunksOf lang (graph (Function.update indexed f (some t)))) := by
  have hs : chunksOf lang (graph indexed) ⊆ chunksOf lang used :=
    chunksOf_graph_subset fun f t hft => hused f t (hstored f t hft)
  have hchunks {t : Bytes} (ht : (f, t) ∈ used) :
      ∀ c ∈ chunkText (lang f) f t, c ∈ chunksOf lang used ∧ c.filePath = f :=
    fun c hc => ⟨⟨(f, t), ht, hc⟩, chunkText_filePath hc⟩
  -- The text that is indexed of the file, if there is one, is the one that is stored.
  have hfile {t : Bytes} (htext : stored f = some t) :
      ∀ c ∈ chunksOf lang (graph indexed), c.filePath = f → c ∈ chunkText (lang f) f t := by
    intro c
    apply mem_chunkText_of_mem_graph
    intro t' ht'
    exact Option.some.inj ((hstored f t' ht').symm.trans htext)
  rw [chunksOf_graph_update]
  cases hfollows with
  | kept htext hcontains => exact h.of_containsAll hall hs (hchunks ht) (hfile htext) hcontains
  | rebuilt => exact h.rebuildFile hall hs (hchunks ht)
  | patched now htext hcontains hd =>
    have hold := hchunks (hused f _ htext)
    exact (h.of_containsAll hall hs hold (hfile htext) hcontains).applyDiff hall hs hold
      (hchunks ht) hd now

/-- An event of a session does not fail, and the session holds what it should after it. -/
theorem Holds.exists_step_eq (h : s.Holds lang used stored indexed)
    (husage : Pipeline.Usage lang used) {e : Event}
    (he : ∀ f t, e = .process f t → (f, t) ∈ used) :
    ∃ s', step lang s e = .ok s' ∧ s'.Holds lang used (e.storedAfter stored)
      (e.indexedAfter indexed) := by
  have hstored := e.storedAfter_of_indexedAfter h.stored_of_indexed
  cases e with
  | process f t =>
    obtain ⟨p', r, hprocess, -, hcaches, hfollows⟩ :=
      Pipeline.exists_processText_eq h.caches husage (he f t rfl) s.now
    refine ⟨{ s with pipeline := p' }, by rw [step, hprocess]; rfl, hcaches, hstored, ?_⟩
    intro hall
    exact lists_of_indexFollows (h.lists hall) hall h.stored_of_indexed h.caches.mem_used
      (he f t rfl) hfollows
  | forget f =>
    obtain ⟨p', hforget, hcaches, hindex⟩ := Pipeline.exists_forget_eq h.caches husage f
    refine ⟨{ s with pipeline := p' }, by rw [step, hforget]; rfl, hcaches, hstored, ?_⟩
    intro hall
    rw [Event.indexedAfter, chunksOf_graph_update, hindex]
    exact (h.lists hall).rebuildFile hall (chunksOf_graph_subset fun f t hft =>
      h.caches.mem_used f t (h.stored_of_indexed f t hft)) nofun
  | wait nanos => exact ⟨_, rfl, h.caches, hstored, h.lists⟩
  | sweep =>
    exact ⟨_, rfl, h.caches.of_memory fun _ _ => MemoryCache.Has.of_evictExpired, hstored, h.lists⟩
  | evict pattern =>
    exact ⟨_, rfl, h.caches.of_memory fun _ _ hhas => hhas.of_invalidatePattern.1, hstored, h.lists⟩
  | clear =>
    exact ⟨_, rfl, h.caches.of_memory fun _ _ hhas => absurd hhas MemoryCache.not_has_clear,
      hstored, h.lists⟩
  | restart settings =>
    obtain ⟨p', hopen, hcaches, hindex⟩ := Pipeline.exists_openAt_eq h.caches settings
    refine ⟨{ s with pipeline := p' }, by rw [step, hopen]; rfl, hcaches, hstored, ?_⟩
    intro _
    rw [hindex]
    exact lists_empty lang

/-- A run of a session does not fail, and the session holds what it should after it. -/
theorem Holds.exists_run_eq (h : s.Holds lang used stored indexed)
    (husage : Pipeline.Usage lang used) {events : List Event} (hevents : Event.used events ⊆ used) :
    ∃ s', run lang s events = .ok s' ∧ s'.Holds lang used (events.foldl Event.storedAfter stored)
      (events.foldl Event.indexedAfter indexed) := by
  induction events generalizing s stored indexed with
  | nil => exact ⟨s, rfl, h⟩
  | cons e rest ih =>
    obtain ⟨s', hstep, hholds⟩ := h.exists_step_eq husage (e := e) fun f t he =>
      hevents (he ▸ List.mem_cons_self ..)
    obtain ⟨s'', hrun, hholds'⟩ := ih hholds fun x hx => hevents (List.mem_cons_of_mem _ hx)
    refine ⟨s'', ?_, hholds'⟩
    rw [run, List.foldlM_cons, hstep]
    exact hrun

/-! ## Sessions from the start -/

/-- What is hashed for some files and texts: the paths, the texts, and what names their chunks. -/
def hashed (lang : Bytes → Language) (used : Set (Bytes × Bytes)) : Set Bytes :=
  Prod.fst '' used ∪ Prod.snd '' used ∪ Chunk.hashedText '' chunksOf lang used

/-- A pipeline in normal use: it is new, the texts that it processes and their paths can be stored,
and the files of its disk cache can be written. -/
structure NormalUse (p : Pipeline) (events : List Event) : Prop where
  isNew : p.IsNew
  processable : ∀ f t, (f, t) ∈ Event.used events → Processable f t
  writable : ∀ n ∈ DiskCache.fileNames (Prod.fst '' Event.used events),
    p.disk.files.CanWrite p.disk.directory n

/-- Where hashes of paths and of texts do not collide and no ids are repeated within a text, a
pipeline in normal use may be used for its texts. -/
theorem NormalUse.usage {p : Pipeline} {events : List Event} (h : NormalUse p events)
    (hpaths : Set.InjOn Sha256.hexOf (Prod.fst '' Event.used events))
    (htexts : Set.InjOn Sha256.hexOf (Prod.snd '' Event.used events))
    (hids : ∀ f t, (f, t) ∈ Event.used events → ((chunkText (lang f) f t).map Chunk.id).Nodup) :
    Pipeline.Usage lang (Event.used events) where
  processable := h.processable
  blobName_injOn := fun _ hf _ hg heq => hpaths hf hg (List.append_cancel_right heq)
  hexOf_injOn := htexts
  nodup_ids := hids

/-- The first events of a session do not fail, and the session holds what it should after them. -/
theorem NormalUse.exists_run_eq {p : Pipeline} {events rest : List Event}
    (h : NormalUse p (events ++ rest))
    (husage : Pipeline.Usage lang (Event.used (events ++ rest))) (now : Int) :
    ∃ s, run lang ⟨p, now⟩ events = .ok s ∧ s.Holds lang (Event.used (events ++ rest))
      (events.foldl Event.storedAfter fun _ => none) (Event.current events) := by
  obtain ⟨hcaches, hindex⟩ := h.isNew.cachesHold lang h.writable
  have hstart : Holds lang (Event.used (events ++ rest)) ⟨p, now⟩ (fun _ => none) fun _ => none :=
    ⟨hcaches, nofun, fun _ => hindex ▸ lists_empty lang⟩
  exact hstart.exists_run_eq husage fun _ hx => List.mem_append_left _ hx

/-! ## A session with an edit that is undone -/

/-- A file is edited, and then the pipeline is opened anew. -/
def editAndRestart : List Event :=
  [.process (bytes "a") (bytes "a"), .wait 1, .process (bytes "a") (bytes "b"),
    .restart Settings.defaults]

/-- The edit is undone. -/
def undo : Event := .process (bytes "a") (bytes "a")

/-- The edit and its undoing use one file with two texts. -/
theorem mem_used_undo {f t : Bytes} (h : (f, t) ∈ Event.used (editAndRestart ++ [undo])) :
    f = bytes "a" ∧ (t = bytes "a" ∨ t = bytes "b") := by
  simp only [Event.used, editAndRestart, undo, Set.mem_ofPred_eq, List.mem_append, List.mem_cons,
    Event.process.injEq, List.not_mem_nil, or_false, reduceCtorEq, false_or] at h
  tauto

/-- The pipeline that the default settings open where there are no files. -/
def fresh : Pipeline where
  moveThreshold := Settings.defaults.moveThreshold
  rebuildThreshold := Settings.defaults.rebuildThreshold
  disk := ⟨.directory [(Settings.defaults.cacheDirectory, .empty)],
    Settings.defaults.cacheDirectory, Dict.empty, .zero, .roomy⟩
  memory := .new Settings.defaults
  index := .empty
  monitor := .new Settings.defaults.metricWindow

/-- The pipeline that is opened where there are no files is a new one. -/
theorem isNew_fresh : fresh.IsNew := ⟨.empty, Settings.defaults, _, rfl, rfl⟩

/-- This is normal use of such a pipeline. -/
theorem normalUse_fresh : NormalUse fresh (editAndRestart ++ [undo]) where
  isNew := isNew_fresh
  processable := by
    intro f t hft
    obtain ⟨rfl, rfl | rfl⟩ := mem_used_undo hft <;> constructor <;> decide +kernel
  writable := by
    rintro n (rfl | rfl | ⟨f, ⟨⟨f, t⟩, hft, rfl⟩, rfl⟩)
    · decide +kernel
    · decide +kernel
    · have hblob : fresh.disk.files.CanWrite fresh.disk.directory
          (CacheEntry.blobName (bytes "a")) := by decide +kernel
      rwa [(mem_used_undo hft).1]

/-- The hashes of a session with an edit that is undone do not collide. -/
theorem injOn_hashed_undo : Set.InjOn Sha256.hexOf
    (hashed (fun _ => .c) (Event.used (editAndRestart ++ [undo]))) := by
  have hnodup : ([bytes "a", bytes "b", bytes "a:1:1:a", bytes "a:1:1:b"].map
      Sha256.hexOf).Nodup := by decide +kernel
  have hfirst : (chunkText .c (bytes "a") (bytes "a")).map Chunk.hashedText =
      [bytes "a:1:1:a"] := by decide +kernel
  have hsecond : (chunkText .c (bytes "a") (bytes "b")).map Chunk.hashedText =
      [bytes "a:1:1:b"] := by decide +kernel
  have hmem : ∀ s ∈ hashed (fun _ => .c) (Event.used (editAndRestart ++ [undo])),
      s ∈ [bytes "a", bytes "b", bytes "a:1:1:a", bytes "a:1:1:b"] := by
    rintro _ ((⟨⟨f, t⟩, hft, rfl⟩ | ⟨⟨f, t⟩, hft, rfl⟩) | ⟨c, ⟨⟨f, t⟩, hft, hc⟩, rfl⟩)
    · obtain ⟨rfl, -⟩ := mem_used_undo hft
      simp
    · obtain ⟨-, rfl | rfl⟩ := mem_used_undo hft <;> simp
    · obtain ⟨rfl, rfl | rfl⟩ := mem_used_undo hft
      · have hc := List.mem_map_of_mem (f := Chunk.hashedText) hc
        rw [hfirst] at hc
        simp [List.mem_singleton.mp hc]
      · have hc := List.mem_map_of_mem (f := Chunk.hashedText) hc
        rw [hsecond] at hc
        simp [List.mem_singleton.mp hc]
  exact fun s hs s' hs' => List.inj_on_of_nodup_map hnodup (hmem s hs) (hmem s' hs')

end Session

end SourceChunks
