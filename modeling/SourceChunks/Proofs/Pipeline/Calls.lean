import SourceChunks.Proofs.DiskCache.Soundness
import SourceChunks.Proofs.Json.Writable
import SourceChunks.Proofs.Pipeline.Processing

/-!
# How the processing of a text ends

Whatever a pipeline has in its caches, there are four ways in which the processing of a text ends.
The chunks come from memory, they come from disk, the language is refused, or the text is chunked:
then the index takes the chunks, memory keeps them, and they are stored on disk at last. It is the
store that decides whether the chunks are answered.
-/

namespace SourceChunks

/-! ## Results that are passed on -/

section Map

variable {α β : Type} {x : Except Failure α} {f : α → β}

/-- What is answered after a step is made from what the step answered. -/
theorem Failure.exists_of_map_eq_ok {b : β} (h : x.map f = .ok b) : ∃ a, x = .ok a ∧ f a = b := by
  cases x with
  | error e => exact absurd h nofun
  | ok a => exact ⟨a, rfl, Except.ok.inj h⟩

/-- A failure is passed on as it is. -/
theorem Failure.eq_error_of_map {e : Failure} (h : x.map f = .error e) : x = .error e := by
  cases x with
  | error e' => exact congrArg Except.error (Except.error.inj h)
  | ok a => exact absurd h nofun

/-- So a call whose failure is known ends like this. -/
theorem Failure.eq_mk_error_of_map {σ : Type} {y : σ × Except Failure α} {e : Failure}
    (h : y.2.map f = .error e) : y = (y.1, .error e) :=
  Prod.ext rfl (eq_error_of_map h)

end Map

/-! ## Chunks of a text -/

variable {l : Language} {f g t : Bytes}

/-- Chunks that were made from a text: chunks of it, and all of them if they have distinct ids. -/
structure MadeOf (l : Language) (g t : Bytes) (cs : List Chunk) : Prop where
  mem : ∀ c ∈ cs, c ∈ chunkText l g t
  length_le : cs.length ≤ (chunkText l g t).length
  eq_of_nodup : ((chunkText l g t).map Chunk.id).Nodup → cs = chunkText l g t

/-- All chunks of a text are made from it. -/
theorem madeOf_chunkText (l : Language) (g t : Bytes) : MadeOf l g t (chunkText l g t) :=
  ⟨fun _ => id, le_rfl, fun _ => rfl⟩

/-- A diff to the chunks of a text makes chunks from it, whatever they are made of otherwise. -/
theorem ChunkDiff.Partitions.madeOf {d : ChunkDiff} {old : List Chunk}
    (h : d.Partitions old (chunkText l g t)) : MadeOf l g t (d.apply old) := by
  have hperm := h.apply_perm
  have hsubset : firstOfEachId [] (chunkText l g t) ⊆ chunkText l g t :=
    fun c hc => List.mem_of_find?_eq_some (mem_firstOfEachId_iff.mp hc).2
  refine ⟨fun c hc => hsubset (hperm.mem_iff.mp hc), ?_, fun hids => ?_⟩
  · rw [hperm.length_eq]
    exact ((nodup_ids_firstOfEachId [] _).of_map Chunk.id).subperm hsubset |>.length_le
  · exact h.apply_eq hids (fun _ => chunkText_filePath) (pairwise_startLine_chunkText l g t)

/-- Languages have different names. -/
theorem Language.name_injective : Function.Injective Language.name := by
  intro l l' h
  have hname := ofName?_name l
  rw [h, ofName?_name] at hname
  exact (Option.some.inj hname).symm

/-- A name of no language is refused as unsupported. -/
theorem Language.named_of_ofName?_eq_none {name : Bytes} (h : ofName? name = none) :
    named name = .error (.unsupportedLanguage name) := by
  rw [named, h]

namespace Pipeline

variable {p p' : Pipeline} {now : Int} {language : Bytes}

/-- If the entry for chunks of a text can be written at all it can be read back. -/
theorem legible_of_madeOf {cs : List Chunk} (h : MadeOf l g t cs) (ht : FitsFields t) (now : Int)
    (f : Bytes) :
    (CacheEntry.ofChunks now f cs (Sha256.hexOf t) (metadataOf l.name)).Legible := by
  intro hwritten
  obtain ⟨hpath, hchunks⟩ := CacheEntry.isUtf8_of_writable (Json.writable_of_compact? hwritten)
  have hcount := h.length_le
  have hlength := length_chunkText_le l g t
  have hlines := ht.lines_lt
  have hsize : UInt32.size < UInt64.size := by decide
  refine storable_of_chunks hpath (Sha256.ascii_hexOf t) (fun c hc => ?_) (by omega) now
  obtain ⟨hpath', hcontent⟩ := hchunks c hc
  rw [chunkText_filePath (h.mem c hc)] at hpath'
  exact ⟨ht.storable (h.mem c hc) hpath' hcontent, chunkText_language (h.mem c hc)⟩

/-- An index takes chunks that were made from a text: it is rebuilt for their file, or it follows a
diff from chunks of which it has records. -/
inductive IndexTakes (l : Language) (f g t : Bytes) (x : SearchIndex) :
    List Chunk → SearchIndex → Prop
  | rebuilt {cs : List Chunk} (hmade : MadeOf l g t cs) :
    IndexTakes l f g t x cs (x.rebuildFile f cs).1
  | patched {old : List Chunk} {d : ChunkDiff} (now : Int) (hcontains : x.containsAll old)
    (hd : d.Partitions old (chunkText l g t)) :
    IndexTakes l f g t x (d.apply old) (x.applyDiff now d)

/-- What an index takes was made from the text. -/
theorem IndexTakes.madeOf {x x' : SearchIndex} {cs : List Chunk}
    (h : IndexTakes l f g t x cs x') : MadeOf l g t cs := by
  cases h with
  | rebuilt hmade => exact hmade
  | patched _ _ hd => exact hd.madeOf

/-- How the chunking of a text ends. The caches are left alone. -/
inductive Chunked (p : Pipeline) (f t language : Bytes) :
    Pipeline → Except Failure (List Chunk × ChunkSource) → Prop
  /-- There is no such language, and nothing happens. -/
  | refused {p' : Pipeline} (hlanguage : Language.ofName? language = none)
    (hdisk : p'.disk = p.disk) (hmemory : p'.memory = p.memory) (hindex : p'.index = p.index) :
    Chunked p f t language p' (.error (.unsupportedLanguage language))
  /-- The index takes the chunks. A text without a path may take that of its previous chunks. -/
  | indexed {p' : Pipeline} {l : Language} {g : Bytes} {cs : List Chunk} (source : ChunkSource)
    (hlanguage : language = l.name) (hpath : g = f ∨ f = []) (hdisk : p'.disk = p.disk)
    (hmemory : p'.memory = p.memory) (hindex : IndexTakes l f g t p.index cs p'.index) :
    Chunked p f t language p' (.ok (cs, source))

/-- The differences from any previous chunks are carried out, if the language is known. -/
theorem chunked_update (p : Pipeline) (now : Int) (f t language : Bytes) (previous : CacheEntry) :
    p.Chunked f t language (p.update now f t language previous).1
      (p.update now f t language previous).2 := by
  obtain ⟨m, m', htimed⟩ := p.exists_timed_eq now "incremental.diff" fun p =>
    (p, (Language.named language).map fun l =>
      ChunkDiff.compute p.moveThreshold previous.chunks t l f)
  rw [update, htimed]
  cases hname : Language.ofName? language with
  | none =>
    simp only [Language.named_of_ofName?_eq_none hname, Except.map]
    exact .refused hname rfl rfl rfl
  | some l =>
    obtain rfl := Language.ofName?_eq_some_iff.mp hname
    have hpath : ChunkDiff.resolvePath f previous.chunks = f ∨ f = [] := by
      unfold ChunkDiff.resolvePath
      split
      · next hempty => exact Or.inr (List.isEmpty_iff.mp hempty)
      · exact Or.inl rfl
    have hpartitions := ChunkDiff.partitions_ofChunks p.moveThreshold previous.chunks
      (chunkText l (ChunkDiff.resolvePath f previous.chunks) t)
    simp only [Language.named_name, Except.map]
    split
    · exact .indexed _ rfl hpath rfl rfl (.rebuilt hpartitions.madeOf)
    · next hpatch =>
      rw [Bool.or_eq_true, not_or, Bool.not_eq_true', Bool.not_eq_false] at hpatch
      exact .indexed _ rfl hpath rfl rfl (.patched now hpatch.2 hpartitions)

/-- Without regard to what came before the text is chunked, if the language is known. -/
theorem chunked_chunkAnew (p : Pipeline) (now : Int) (f t language : Bytes) (found : CacheLookup) :
    p.Chunked f t language (p.chunkAnew now f t language found).1
      (p.chunkAnew now f t language found).2 := by
  rw [chunkAnew, timed]
  cases hname : Language.ofName? language with
  | none =>
    simp only [Language.named_of_ofName?_eq_none hname]
    exact .refused hname rfl rfl rfl
  | some l =>
    obtain rfl := Language.ofName?_eq_some_iff.mp hname
    simp only [Language.named_name]
    exact .indexed _ rfl (Or.inl rfl) rfl rfl (.rebuilt (madeOf_chunkText l f t))

/-- Looking for the chunks of the previous content changes the counts of the disk at most. -/
theorem exists_previous?_eq (p : Pipeline) (now : Int) (f : Bytes) (found : CacheLookup) :
    ∃ counts e?, p.previous? now f found = ({ p with disk := { p.disk with counts } }, e?) := by
  unfold previous?
  split
  · exact ⟨_, _, rfl⟩
  · exact ⟨p.disk.counts, none, rfl⟩

/-- Remembering chunks leaves the index alone, and ends as storing them does. -/
theorem exists_remember_eq_store (p : Pipeline) (now : Int) (f h language : Bytes)
    (cs : List Chunk) : ∃ p', p.remember now f h language cs =
        (p', (p.disk.store now f cs h (metadataOf language)).2.map fun _ => ()) ∧
      p'.disk = (p.disk.store now f cs h (metadataOf language)).1 ∧
      p'.memory = (p.memory.invalidateFile f).1.putChunks now f h cs ∧ p'.index = p.index := by
  rw [remember, timed, metadataOf]
  exact ⟨_, rfl, rfl, rfl, rfl⟩

/-- How the processing of a text ends that neither cache has. -/
inductive ProcessedNew (p : Pipeline) (now : Int) (f t language : Bytes) :
    Pipeline → Except Failure ProcessedFile → Prop
  /-- There is no such language, and nothing happens but that something is counted. -/
  | refused {p' : Pipeline} (counts : CacheCounts)
    (hlanguage : Language.ofName? language = none) (hdisk : p'.disk = { p.disk with counts })
    (hmemory : p'.memory = p.memory) (hindex : p'.index = p.index) :
    ProcessedNew p now f t language p' (.error (.unsupportedLanguage language))
  /-- The text is chunked. The index takes the chunks, memory keeps them in place of all else that
  it has of the file, and the last step is to store them. -/
  | stored {p' : Pipeline} {l : Language} {g : Bytes} {cs : List Chunk} (counts : CacheCounts)
    (source : ChunkSource) (hlanguage : language = l.name) (hpath : g = f ∨ f = [])
    (hdisk : p'.disk = (DiskCache.store { p.disk with counts } now f cs (Sha256.hexOf t)
      (metadataOf l.name)).1)
    (hmemory : p'.memory = (p.memory.invalidateFile f).1.putChunks now f (Sha256.hexOf t) cs)
    (hindex : IndexTakes l f g t p.index cs p'.index) :
    ProcessedNew p now f t language p' ((DiskCache.store { p.disk with counts } now f cs
      (Sha256.hexOf t) (metadataOf l.name)).2.map fun _ => ⟨cs, Sha256.hexOf t, source⟩)

/-- Measuring makes no difference to it. -/
theorem ProcessedNew.with_monitor {r : Except Failure ProcessedFile}
    (h : p.ProcessedNew now f t language p' r) (monitor : Monitor Float) :
    p.ProcessedNew now f t language { p' with monitor } r := by
  cases h with
  | refused counts hlanguage hdisk hmemory hindex =>
    exact .refused counts hlanguage hdisk hmemory hindex
  | stored counts source hlanguage hpath hdisk hmemory hindex =>
    exact .stored counts source hlanguage hpath hdisk hmemory hindex

/-- What was chunked is remembered, and what was refused is not. -/
theorem Chunked.processedNew {q q' : Pipeline} {r : Except Failure (List Chunk × ChunkSource)}
    {counts : CacheCounts} (hq : q = { p with disk := { p.disk with counts } }) :
    let x : Pipeline × Except Failure ProcessedFile := match r with
      | .error e => (q', .error e)
      | .ok (cs, source) =>
        let (p', stored) := q'.remember now f (Sha256.hexOf t) language cs
        (p', stored.map fun () => ⟨cs, Sha256.hexOf t, source⟩)
    q.Chunked f t language q' r → p.ProcessedNew now f t language x.1 x.2 := by
  intro x h
  cases h with
  | refused hlanguage hdisk hmemory hindex =>
    rw [hq] at hdisk hmemory hindex
    exact .refused counts hlanguage hdisk hmemory hindex
  | @indexed l g cs source hlanguage hpath hdisk hmemory hindex =>
    obtain ⟨p', hremember, hdisk', hmemory', hindex'⟩ :=
      q'.exists_remember_eq_store now f (Sha256.hexOf t) language cs
    rw [hdisk, hq, hlanguage] at hremember hdisk'
    rw [hmemory, hq] at hmemory'
    rw [← hindex', hq] at hindex
    have hresult (stored : Except Failure Bool) :
        (stored.map fun _ => ()).map (fun () => (⟨cs, Sha256.hexOf t, source⟩ : ProcessedFile)) =
          stored.map fun _ => ⟨cs, Sha256.hexOf t, source⟩ := by
      cases stored <;> rfl
    simp only [x, hremember, hlanguage, hresult]
    exact .stored counts source rfl hpath hdisk' hmemory' hindex

/-- A text that neither cache has is chunked in one of two ways, and remembered. -/
theorem processedNew_processNew (p : Pipeline) (now : Int) (f t language : Bytes)
    (found : CacheLookup) :
    p.ProcessedNew now f t language (p.processNew now f t language (Sha256.hexOf t) found).1
      (p.processNew now f t language (Sha256.hexOf t) found).2 := by
  obtain ⟨counts, e?, hprevious⟩ := p.exists_previous?_eq now f found
  rw [processNew, hprevious]
  cases e? with
  | some e => exact Chunked.processedNew rfl (chunked_update _ now f t language e)
  | none => exact Chunked.processedNew rfl (chunked_chunkAnew _ now f t language found)

/-- How the processing of a text ends. -/
inductive Processed (p : Pipeline) (now : Int) (f t language : Bytes) :
    Pipeline → Except Failure ProcessedFile → Prop
  /-- Memory has chunks for the content. -/
  | recalled {p' : Pipeline} {cs : List Chunk}
    (hcached : (p.memory.getChunks now f (Sha256.hexOf t)).2 = some cs)
    (hdisk : p'.disk = p.disk)
    (hmemory : p'.memory = (p.memory.getChunks now f (Sha256.hexOf t)).1) :
    Processed p now f t language p' (.ok ⟨cs, Sha256.hexOf t, .memory⟩)
  /-- The disk has chunks for the content, which memory keeps from then on. -/
  | found {p' : Pipeline} {e : CacheEntry} (counts : CacheCounts)
    (hcached : (p.memory.getChunks now f (Sha256.hexOf t)).2 = none)
    (hfound : (p.disk.lookup now f (some (Sha256.hexOf t))).found? = some e)
    (hdisk : p'.disk = { p.disk with counts })
    (hmemory : p'.memory =
      (p.memory.getChunks now f (Sha256.hexOf t)).1.putChunks now f (Sha256.hexOf t) e.chunks) :
    Processed p now f t language p' (.ok ⟨e.chunks, Sha256.hexOf t, .disk⟩)
  /-- Neither cache has chunks. -/
  | new {q p' : Pipeline} {r : Except Failure ProcessedFile} (counts : CacheCounts)
    (hcached : (p.memory.getChunks now f (Sha256.hexOf t)).2 = none)
    (hfound : (p.disk.lookup now f (some (Sha256.hexOf t))).found? = none)
    (hdisk : q.disk = { p.disk with counts })
    (hmemory : q.memory = (p.memory.getChunks now f (Sha256.hexOf t)).1)
    (hindex : q.index = p.index) (hnew : q.ProcessedNew now f t language p' r) :
    Processed p now f t language p' r

/-- The processing of any text by any pipeline ends in one of these ways. -/
theorem processed_processText (p : Pipeline) (now : Int) (f t language : Bytes) :
    p.Processed now f t language (p.processText now f t language).1
      (p.processText now f t language).2 := by
  simp only [processText, timed]
  rcases hget : p.memory.getChunks now f (Sha256.hexOf t) with ⟨memory, cached⟩
  have hmemory : (p.memory.getChunks now f (Sha256.hexOf t)).1 = memory := by rw [hget]
  have hcached : (p.memory.getChunks now f (Sha256.hexOf t)).2 = cached := by rw [hget]
  cases cached with
  | some cs =>
    refine .recalled hcached ?_ ?_
    · rw [disk_ensureIndexed]
    · rw [memory_ensureIndexed, hmemory]
  | none =>
    simp only [lookUp, DiskCache.retrieve]
    cases hfound : (p.disk.lookup now f (some (Sha256.hexOf t))).found? with
    | some e =>
      refine .found ((p.disk.lookup now f (some (Sha256.hexOf t))).count p.disk.counts) hcached
        hfound ?_ ?_
      · simp only [keepInMemory, disk_ensureIndexed]
      · simp only [keepInMemory, memory_ensureIndexed, hmemory]
    | none =>
      dsimp only
      refine .new ((p.disk.lookup now f (some (Sha256.hexOf t))).count p.disk.counts) hcached
        hfound ?_ ?_ ?_ ((processedNew_processNew _ now f t language _).with_monitor _)
      · rfl
      · exact hmemory.symm
      · rfl

end Pipeline

end SourceChunks
