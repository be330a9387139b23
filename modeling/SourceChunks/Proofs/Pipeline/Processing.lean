import SourceChunks.Proofs.ChunkDiff.Application
import SourceChunks.Proofs.Pipeline.Caches

/-!
# Processing a text of a file

Whatever the caches hold of a file, processing a text of it answers the chunks of the text and
leaves the caches with them. Of the index it is known on each way what becomes of it: it is left
alone, rebuilt for the file, or it follows a diff from the chunks of the text that was stored last.
-/

namespace SourceChunks

/-- Every language is found by its name. -/
theorem Language.named_name (l : Language) : named l.name = .ok l := by
  rw [named, ofName?_name]

/-- The chunks of a text of a file tell the path that a diff from them takes. -/
theorem ChunkDiff.resolvePath_chunkText (l : Language) (f t : Bytes) :
    resolvePath f (chunkText l f t) = f := by
  rw [resolvePath]
  split
  · next hempty =>
    cases hhead : (chunkText l f t).head? with
    | none => exact (List.isEmpty_iff.mp hempty).symm
    | some c => exact chunkText_filePath (List.mem_of_head? hhead)
  · rfl

/-- The diff from the chunks of one text of a file to another text of it partitions the ids of both.
-/
theorem ChunkDiff.partitions_compute_chunkText {α : Type} [Scalar α] (threshold : α) (l : Language)
    (f t t' : Bytes) : (compute threshold (chunkText l f t) t' l f).Partitions (chunkText l f t)
      (chunkText l f t') := by
  rw [compute, resolvePath_chunkText]
  exact partitions_ofChunks threshold _ _

namespace Pipeline

variable {lang : Bytes → Language} {used : Set (Bytes × Bytes)} {p : Pipeline}
  {stored : Bytes → Option Bytes} {f t : Bytes}

/-- What becomes of an index when a text of a file is processed. -/
inductive IndexFollows (lang : Bytes → Language) (stored : Bytes → Option Bytes) (f t : Bytes)
    (x : SearchIndex) : SearchIndex → Prop
  /-- The index has records of all chunks of the text, which was the last one stored. -/
  | kept (hstored : stored f = some t) (hcontains : x.containsAll (chunkText (lang f) f t)) :
    IndexFollows lang stored f t x x
  /-- The index is rebuilt for the file. -/
  | rebuilt : IndexFollows lang stored f t x (x.rebuildFile f (chunkText (lang f) f t)).1
  /-- The index has records of all chunks of the text stored last, and follows a diff from them. -/
  | patched {t' : Bytes} {d : ChunkDiff} (now : Int) (hstored : stored f = some t')
    (hcontains : x.containsAll (chunkText (lang f) f t'))
    (hd : d.Partitions (chunkText (lang f) f t') (chunkText (lang f) f t)) :
    IndexFollows lang stored f t x (x.applyDiff now d)

/-- Measuring changes what was measured, before and after. -/
theorem exists_timed_eq {α : Type} (p : Pipeline) (now : Int) (operation : String)
    (g : Pipeline → Pipeline × α) : ∃ m m', p.timed now operation g =
      ({ (g { p with monitor := m }).1 with monitor := m' }, (g { p with monitor := m }).2) :=
  ⟨_, _, rfl⟩

/-! ## Answers from the caches -/

/-- Indexing chunks leaves the disk cache as it is. -/
theorem disk_ensureIndexed (p : Pipeline) (f : Bytes) (chunks : List Chunk) :
    (p.ensureIndexed f chunks).disk = p.disk := by
  unfold ensureIndexed
  split <;> rfl

/-- Indexing chunks leaves the memory as it is. -/
theorem memory_ensureIndexed (p : Pipeline) (f : Bytes) (chunks : List Chunk) :
    (p.ensureIndexed f chunks).memory = p.memory := by
  unfold ensureIndexed
  split <;> rfl

/-- An answer from a cache leaves the index alone or rebuilds it. -/
theorem indexFollows_ensureIndexed (hstored : stored f = some t) :
    IndexFollows lang stored f t p.index
      (p.ensureIndexed f (chunkText (lang f) f t)).index := by
  unfold ensureIndexed
  split
  · next hcontains => exact .kept hstored hcontains
  · exact .rebuilt

/-! ## Texts that are new -/

/-- The differences from the chunks of the text stored last are carried out. -/
theorem exists_update_eq (husage : Usage lang used) (ht : (f, t) ∈ used) {t' : Bytes}
    (hstored : stored f = some t') {e : CacheEntry} (he : e.chunks = chunkText (lang f) f t')
    (now : Int) : ∃ p' source, p.update now f t (lang f).name e =
        (p', .ok (chunkText (lang f) f t, source)) ∧
      p'.disk = p.disk ∧ p'.memory = p.memory ∧ IndexFollows lang stored f t p.index p'.index := by
  obtain ⟨m, m', htimed⟩ := p.exists_timed_eq now "incremental.diff" fun p =>
    (p, (Language.named (lang f).name).map fun l =>
      ChunkDiff.compute p.moveThreshold e.chunks t l f)
  have happly : (ChunkDiff.compute p.moveThreshold (chunkText (lang f) f t') t (lang f) f).apply
      (chunkText (lang f) f t') = chunkText (lang f) f t := by
    rw [ChunkDiff.compute, ChunkDiff.resolvePath_chunkText]
    exact ChunkDiff.apply_ofChunks _ _ (husage.nodup_ids f t ht)
  have hpartitions : (ChunkDiff.compute p.moveThreshold (chunkText (lang f) f t') t (lang f)
      f).Partitions (chunkText (lang f) f t') (chunkText (lang f) f t) :=
    ChunkDiff.partitions_compute_chunkText _ _ _ _ _
  rw [update, htimed]
  simp only [Language.named_name, Except.map, he, happly]
  split
  · exact ⟨_, _, rfl, rfl, rfl, .rebuilt⟩
  · next hpatch =>
    rw [Bool.or_eq_true, not_or, Bool.not_eq_true', Bool.not_eq_false] at hpatch
    exact ⟨_, _, rfl, rfl, rfl, .patched now hstored hpatch.2 hpartitions⟩

/-- Without regard to what came before the text is chunked and the file indexed anew. -/
theorem exists_chunkAnew_eq (lang : Bytes → Language) (stored : Bytes → Option Bytes)
    (p : Pipeline) (now : Int) (f t : Bytes) (found : CacheLookup) :
    ∃ p' source, p.chunkAnew now f t (lang f).name found =
        (p', .ok (chunkText (lang f) f t, source)) ∧
      p'.disk = p.disk ∧ p'.memory = p.memory ∧ IndexFollows lang stored f t p.index p'.index := by
  rw [chunkAnew, timed]
  simp only [Language.named_name]
  exact ⟨_, _, rfl, rfl, rfl, .rebuilt⟩

/-- The chunks of a text are remembered in both caches. -/
theorem exists_remember_eq (h : CachesHold lang used p.disk p.memory stored)
    (husage : Usage lang used) (ht : (f, t) ∈ used) (now : Int) :
    ∃ p', p.remember now f (Sha256.hexOf t) (lang f).name (chunkText (lang f) f t) = (p', .ok ()) ∧
      CachesHold lang used p'.disk p'.memory (Function.update stored f (some t)) ∧
      p'.index = p.index := by
  obtain ⟨disk', hstore, hcaches⟩ := h.store husage ht now
  rw [metadataOf] at hstore
  rw [remember, timed]
  simp only [keepInMemory, hstore, Except.map]
  exact ⟨_, rfl, hcaches, rfl⟩

/-- A text that neither cache has is chunked and remembered. -/
theorem exists_processNew_eq (h : CachesHold lang used p.disk p.memory stored)
    (husage : Usage lang used) (ht : (f, t) ∈ used) (now : Int) {found : CacheLookup}
    (hfound : found = .hashMismatch → ∃ t', stored f = some t') :
    ∃ p' r, p.processNew now f t (lang f).name (Sha256.hexOf t) found = (p', .ok r) ∧
      r.chunks = chunkText (lang f) f t ∧
      CachesHold lang used p'.disk p'.memory (Function.update stored f (some t)) ∧
      IndexFollows lang stored f t p.index p'.index := by
  by_cases hmismatch : found = .hashMismatch
  · obtain ⟨t', hstored⟩ := hfound hmismatch
    obtain ⟨e, he, hlookup⟩ := h.exists_lookup_eq hstored now none
    have hprevious : p.previous? now f found =
        ({ p with disk := (p.disk.retrieve now f none).1 }, some e) := by
      rw [previous?, if_pos hmismatch, lookUp, DiskCache.retrieve, hlookup]
      rfl
    obtain ⟨q, source, hupdate, hdisk, hmemory, hfollows⟩ := exists_update_eq
      (p := { p with disk := (p.disk.retrieve now f none).1 }) husage ht hstored he now
    obtain ⟨p', hremember, hcaches, hindex⟩ := exists_remember_eq (p := q)
      (by rw [hdisk, hmemory]; exact h.retrieve now f none) husage ht now
    refine ⟨p', ⟨chunkText (lang f) f t, Sha256.hexOf t, source⟩, ?_, rfl, hcaches,
      hindex ▸ hfollows⟩
    rw [processNew, hprevious]
    simp only [hupdate, hremember, Except.map]
  · have hprevious : p.previous? now f found = (p, none) := by
      rw [previous?, if_neg hmismatch]
    obtain ⟨q, source, hchunks, hdisk, hmemory, hfollows⟩ :=
      exists_chunkAnew_eq lang stored p now f t found
    obtain ⟨p', hremember, hcaches, hindex⟩ := exists_remember_eq (p := q)
      (by rw [hdisk, hmemory]; exact h) husage ht now
    refine ⟨p', ⟨chunkText (lang f) f t, Sha256.hexOf t, source⟩, ?_, rfl, hcaches,
      hindex ▸ hfollows⟩
    rw [processNew, hprevious]
    simp only [hchunks, hremember, Except.map]

/-! ## Any text -/

/-- A text is processed: the answer are its chunks, and the caches hold them. -/
theorem exists_processText_eq (h : CachesHold lang used p.disk p.memory stored)
    (husage : Usage lang used) (ht : (f, t) ∈ used) (now : Int) :
    ∃ p' r, p.processText now f t (lang f).name = (p', .ok r) ∧
      r.chunks = chunkText (lang f) f t ∧
      CachesHold lang used p'.disk p'.memory (Function.update stored f (some t)) ∧
      IndexFollows lang stored f t p.index p'.index := by
  obtain ⟨hcaches, hcached⟩ := h.getChunks husage ht now
  simp only [processText, timed]
  rcases hget : p.memory.getChunks now f (Sha256.hexOf t) with ⟨memory, cached⟩
  rw [hget] at hcaches hcached
  cases cached with
  | some chunks =>
    obtain ⟨hstored, rfl⟩ := hcached chunks rfl
    refine ⟨_, _, rfl, rfl, ?_, ?_⟩
    · simp only [disk_ensureIndexed, memory_ensureIndexed]
      rwa [Function.update_eq_self_iff.mpr hstored.symm]
    · exact indexFollows_ensureIndexed (p := { p with memory, monitor := _ }) hstored
  | none =>
    have hcaches' := hcaches.retrieve now f (some (Sha256.hexOf t))
    rcases hretrieve : p.disk.retrieve now f (some (Sha256.hexOf t)) with ⟨disk, found⟩
    rw [hretrieve] at hcaches'
    have hlookup : p.disk.lookup now f (some (Sha256.hexOf t)) = found :=
      congrArg Prod.snd hretrieve
    simp only [lookUp, hretrieve]
    by_cases hstored : stored f = some t
    · obtain ⟨e, he, heq⟩ := hcaches.exists_lookup_eq hstored now (some (Sha256.hexOf t))
      have hfound : found = .hit e := by
        rw [← hlookup, heq]
        simp
      simp only [hfound, CacheLookup.found?, he]
      refine ⟨_, _, rfl, rfl, ?_, ?_⟩
      · simp only [keepInMemory, disk_ensureIndexed, memory_ensureIndexed]
        rw [Function.update_eq_self_iff.mpr hstored.symm]
        exact hcaches'.putChunks hstored now
      · exact indexFollows_ensureIndexed (p := { p with memory, disk, monitor := _ }) hstored
    · obtain ⟨hmiss, hprevious⟩ := hcaches.found?_lookup_of_ne husage ht hstored now
      rw [hlookup] at hmiss hprevious
      simp only [hmiss]
      obtain ⟨p', r, hprocess, hchunks, hcaches, hfollows⟩ := exists_processNew_eq
        (p := { p with memory, disk, monitor := _ }) hcaches' husage ht now hprevious
      rw [hprocess]
      exact ⟨_, r, rfl, hchunks, hcaches, hfollows⟩

/-! ## Forgetting and opening -/

/-- A file is forgotten. -/
theorem exists_forget_eq (h : CachesHold lang used p.disk p.memory stored)
    (husage : Usage lang used) (f : Bytes) :
    ∃ p', p.forget f = (p', .ok ()) ∧
      CachesHold lang used p'.disk p'.memory (Function.update stored f none) ∧
      p'.index = (p.index.rebuildFile f []).1 := by
  obtain ⟨disk', n, hinvalidate, hcaches⟩ := h.invalidate husage f
  rw [forget, hinvalidate]
  exact ⟨_, rfl, hcaches, rfl⟩

/-- A pipeline is opened on the directory of another one. -/
theorem exists_openAt_eq (h : CachesHold lang used p.disk p.memory stored) (s : Settings) :
    ∃ p', openAt p.disk.files { s with cacheDirectory := p.disk.directory } =
        (p.disk.files, .ok p') ∧
      CachesHold lang used p'.disk p'.memory stored ∧ p'.index = .empty := by
  obtain ⟨disk', hopen, hcaches⟩ := h.openAt { s with cacheDirectory := p.disk.directory }
  rw [openAt, hopen]
  exact ⟨_, rfl, hcaches, rfl⟩

/-- What is opened is the disk cache, and memory and the index are empty. -/
theorem of_openAt {files files' : FileTree} {s : Settings} (h : openAt files s = (files', .ok p)) :
    DiskCache.openAt files s.cacheDirectory = (files', .ok p.disk) ∧ p.memory = .new s ∧
      p.index = .empty := by
  rcases hdisk : DiskCache.openAt files s.cacheDirectory with ⟨files'', disk?⟩
  rw [openAt, hdisk] at h
  cases disk? with
  | error e => exact absurd (congrArg Prod.snd h) nofun
  | ok disk =>
    obtain rfl := congrArg Prod.fst h
    obtain rfl := Except.ok.inj (congrArg Prod.snd h)
    exact ⟨rfl, rfl, rfl⟩

/-- A pipeline that was opened on a directory without records. -/
def IsNew (p : Pipeline) : Prop :=
  ∃ files s files', openAt files s = (files', .ok p) ∧ p.disk.records = Dict.empty

/-- A new pipeline knows of no file, if the files of its disk cache can be written. -/
theorem IsNew.cachesHold (h : p.IsNew) (lang : Bytes → Language)
    (hwrite : ∀ n ∈ DiskCache.fileNames (Prod.fst '' used),
      p.disk.files.CanWrite p.disk.directory n) :
    CachesHold lang used p.disk p.memory (fun _ => none) ∧ p.index = .empty := by
  obtain ⟨files, s, files', hopen, hempty⟩ := h
  obtain ⟨hdisk, hmemory, hindex⟩ := of_openAt hopen
  exact ⟨hmemory ▸ cachesHold_of_openAt s hdisk hempty hwrite, hindex⟩

/-- It has no chunks in memory. -/
theorem IsNew.getChunks_eq_none (h : p.IsNew) (now : Int) (f contentHash : Bytes) :
    (p.memory.getChunks now f contentHash).2 = none := by
  rw [Option.eq_none_iff_forall_ne_some]
  intro cs hcs
  obtain ⟨value, hvalue, -⟩ := Option.bind_eq_some_iff.mp hcs
  obtain ⟨files, s, files', hopen, -⟩ := h
  have hhas := MemoryCache.has_of_get_eq_some hvalue
  rw [(of_openAt hopen).2.1] at hhas
  exact MemoryCache.not_has_new s hhas

end Pipeline

end SourceChunks
