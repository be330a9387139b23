import SourceChunks.Pipeline
import SourceChunks.Proofs.Chunk.Naming
import SourceChunks.Proofs.DiskCache.Refinement
import SourceChunks.Proofs.MemoryCache

/-!
# What the caches of a pipeline hold

Both caches of a pipeline hold chunks of the last text of a file that was stored, and of no other
text. The disk has them for every such file, memory for some. As hashes do not collide on the texts
that are used, what either cache answers for a text are its chunks.
-/

namespace SourceChunks

/-- The chunks of a text carry the name of the language it was chunked for. -/
theorem chunkText_language {language : Language} {filePath text : Bytes} {c : Chunk}
    (h : c ∈ chunkText language filePath text) : c.language = language.name := by
  obtain ⟨block, -, rfl⟩ := mem_chunkText_iff.mp h
  rfl

/-- No language has the empty name. -/
theorem Language.name_ne_nil (l : Language) : l.name ≠ [] := by
  cases l <;> decide

/-- The chunks of a text lack neither a language nor a path, unless there is none to be had. -/
theorem CacheEntry.complete_of_mem_chunkText {l : Language} {filePath path text language : Bytes}
    {c : Chunk} (hpath : path = filePath ∨ filePath = []) (h : c ∈ chunkText l path text) :
    complete filePath language c = c := by
  have hfilePath : (if c.filePath.isEmpty then filePath else c.filePath) = c.filePath := by
    split
    · next hempty =>
      have hnil : c.filePath = [] := List.isEmpty_iff.mp hempty
      rcases hpath with rfl | rfl
      · exact (chunkText_filePath h).symm
      · exact hnil.symm
    · rfl
  have hlanguage : (if c.language.isEmpty then language else c.language) = c.language := by
    rw [chunkText_language h, if_neg fun hempty => l.name_ne_nil (List.isEmpty_iff.mp hempty)]
  rw [complete, hfilePath, hlanguage]

namespace Pipeline

/-- What a pipeline stores beside the chunks of a file. -/
def metadataOf (language : Bytes) : Json := Json.ofMembers [(bytes "language", .string language)]

/-- An entry of storable chunks of one language can be stored under a well-formed path. -/
theorem storable_of_chunks {language : Language} {filePath contentHash : Bytes} {cs : List Chunk}
    (hpath : Bytes.isUtf8 filePath) (hhash : Bytes.Ascii contentHash)
    (hchunks : ∀ c ∈ cs, c.Storable ∧ c.language = language.name) (hcount : cs.length < UInt64.size)
    (now : Int) :
    (CacheEntry.ofChunks now filePath cs contentHash (metadataOf language.name)).Storable := by
  have hmetadata : Json.Faithful (metadataOf language.name) := by
    refine Json.faithful_ofMembers ?_
    simp only [List.forall_mem_singleton]
    exact ⟨by decide, .string language.isUtf8_name⟩
  exact {
    filePath_utf8 := hpath
    contentHash_utf8 := hhash.isUtf8
    language_utf8 := by
      show Bytes.isUtf8 ((cs.head?.map Chunk.language).getD [])
      cases hhead : cs.head? with
      | none => rfl
      | some c =>
        rw [Option.map_some, Option.getD_some, (hchunks c (List.mem_of_head? hhead)).2]
        exact language.isUtf8_name
    metadata_faithful := by
      unfold CacheEntry.ofChunks
      split
      · exact hmetadata
      · exact .object List.Pairwise.nil nofun nofun
    chunks_storable := fun c hc => (hchunks c hc).1
    chunkCount_lt := hcount }

/-- The entry that is stored for a text of a file can be written. -/
theorem storable_ofChunks {language : Language} {filePath text : Bytes}
    (h : Processable filePath text) (now : Int) :
    (CacheEntry.ofChunks now filePath (chunkText language filePath text) (Sha256.hexOf text)
      (metadataOf language.name)).Storable := by
  have hcount := length_chunkText_le language filePath text
  have hlines := h.lines_lt
  have hsize : UInt32.size < UInt64.size := by decide
  exact storable_of_chunks h.filePath_utf8 (Sha256.ascii_hexOf text)
    (fun c hc => ⟨h.storable hc, chunkText_language hc⟩) (by omega) now

/-- Files and texts that a pipeline may be used for: all of them can be written, the blobs of the
files and the hashes of the texts are distinct, and so are the ids of the chunks of each text. -/
structure Usage (lang : Bytes → Language) (used : Set (Bytes × Bytes)) : Prop where
  processable : ∀ f t, (f, t) ∈ used → Processable f t
  blobName_injOn : Set.InjOn CacheEntry.blobName (Prod.fst '' used)
  hexOf_injOn : Set.InjOn Sha256.hexOf (Prod.snd '' used)
  nodup_ids : ∀ f t, (f, t) ∈ used → ((chunkText (lang f) f t).map Chunk.id).Nodup

/-- The caches hold chunks of the text of each file that was stored last, if there is one. -/
structure CachesHold (lang : Bytes → Language) (used : Set (Bytes × Bytes)) (disk : DiskCache)
    (memory : MemoryCache) (stored : Bytes → Option Bytes) : Prop where
  /-- What was stored is used. -/
  mem_used : ∀ f t, stored f = some t → (f, t) ∈ used
  /-- On disk are the chunks of all texts that were stored. -/
  disk : ∃ m, disk.Represents (Prod.fst '' used) m ∧
    ∀ f, (m f).map (fun e => (e.contentHash, e.chunks)) =
      (stored f).map fun t => (Sha256.hexOf t, chunkText (lang f) f t)
  /-- In memory are chunks of texts that were stored. -/
  memory : ∀ key value, memory.Has key value → ∃ f t, stored f = some t ∧
    key = MemoryCache.chunksKey f (Sha256.hexOf t) ∧ value = .chunks (chunkText (lang f) f t)

variable {lang : Bytes → Language} {used : Set (Bytes × Bytes)} {disk : DiskCache}
  {memory : MemoryCache} {stored : Bytes → Option Bytes} {f t : Bytes}

/-- Of the texts that a pipeline is used for no two have the same hash. -/
theorem Usage.eq_of_hexOf_eq (h : Usage lang used) {f' t' : Bytes} (ht : (f, t) ∈ used)
    (ht' : (f', t') ∈ used) (heq : Sha256.hexOf t = Sha256.hexOf t') : t = t' :=
  h.hexOf_injOn (Set.mem_image_of_mem Prod.snd ht) (Set.mem_image_of_mem Prod.snd ht') heq

namespace CachesHold

/-! ## Memory -/

/-- Memory may lose entries. -/
theorem of_memory (h : CachesHold lang used disk memory stored) {memory' : MemoryCache}
    (hmemory : ∀ key value, memory'.Has key value → memory.Has key value) :
    CachesHold lang used disk memory' stored :=
  ⟨h.mem_used, h.disk, fun key value hhas => h.memory key value (hmemory key value hhas)⟩

/-- What is read for the hash of a text are its chunks, and the text was the last one stored. -/
theorem getChunks (h : CachesHold lang used disk memory stored) (husage : Usage lang used)
    (ht : (f, t) ∈ used) (now : Int) :
    CachesHold lang used disk (memory.getChunks now f (Sha256.hexOf t)).1 stored ∧
      ∀ cs, (memory.getChunks now f (Sha256.hexOf t)).2 = some cs →
        stored f = some t ∧ cs = chunkText (lang f) f t := by
  refine ⟨h.of_memory fun key value hhas => hhas.of_get, ?_⟩
  intro cs hcs
  obtain ⟨value, hvalue, hcs⟩ := Option.bind_eq_some_iff.mp hcs
  obtain ⟨f', t', hstored, hkey, rfl⟩ := h.memory _ _ (MemoryCache.has_of_get_eq_some hvalue)
  obtain ⟨rfl, hhash⟩ := MemoryCache.chunksKey_hexOf_injective hkey
  obtain rfl := husage.eq_of_hexOf_eq ht (h.mem_used _ _ hstored) hhash
  exact ⟨hstored, (Option.some.inj hcs).symm⟩

/-- The chunks of the text that was stored last may be put into memory. -/
theorem putChunks (h : CachesHold lang used disk memory stored) (hstored : stored f = some t)
    (now : Int) : CachesHold lang used disk
      (memory.putChunks now f (Sha256.hexOf t) (chunkText (lang f) f t)) stored := by
  refine ⟨h.mem_used, h.disk, ?_⟩
  intro key value hhas
  rcases hhas.of_put with ⟨rfl, rfl⟩ | hhas
  · exact ⟨f, t, hstored, rfl, rfl⟩
  · exact h.memory key value hhas

/-- What is left in memory after a file was dropped is of other files. -/
theorem ne_of_has_invalidateFile (h : CachesHold lang used disk memory stored)
    {key : Bytes} {value : Cached} (hhas : (memory.invalidateFile f).1.Has key value) :
    ∃ f' t', f' ≠ f ∧ stored f' = some t' ∧
      key = MemoryCache.chunksKey f' (Sha256.hexOf t') ∧
      value = .chunks (chunkText (lang f') f' t') := by
  obtain ⟨hhas, hkey⟩ := hhas.of_invalidateFile
  obtain ⟨f', t', hstored, rfl, hvalue⟩ := h.memory key value hhas
  refine ⟨f', t', ?_, hstored, rfl, hvalue⟩
  rintro rfl
  exact hkey t' rfl

/-! ## Disk -/

/-- Without a stored text the disk has nothing of a file. -/
theorem lookup_of_none (h : CachesHold lang used disk memory stored) (hstored : stored f = none)
    (now : Int) (contentHash : Option Bytes) :
    disk.lookup now f contentHash = .notFound := by
  obtain ⟨m, hm, hentries⟩ := h.disk
  have hentry := hentries f
  rw [hstored, Option.map_none, Option.map_eq_none_iff] at hentry
  rw [hm.lookup_eq, hentry]

/-- The entry of the stored text is found unless another hash is asked for. -/
theorem exists_lookup_eq (h : CachesHold lang used disk memory stored) (hstored : stored f = some t)
    (now : Int) (contentHash : Option Bytes) :
    ∃ e : CacheEntry, e.chunks = chunkText (lang f) f t ∧ disk.lookup now f contentHash =
      if contentHash.any (· ≠ Sha256.hexOf t) then .hashMismatch else .hit e := by
  obtain ⟨m, hm, hentries⟩ := h.disk
  have hentry := hentries f
  rw [hstored, Option.map_some] at hentry
  obtain ⟨e, he, hfields⟩ := Option.map_eq_some_iff.mp hentry
  obtain ⟨hhash, hchunks⟩ := Prod.mk.inj hfields
  obtain ⟨-, hpath, -⟩ := hm.entry f e he
  refine ⟨e.restored now, ?_, ?_⟩
  · show e.chunks.map (CacheEntry.complete e.filePath e.language) = _
    rw [hchunks, hpath]
    refine (List.map_congr_left fun c hc => ?_).trans (List.map_id' _)
    exact CacheEntry.complete_of_mem_chunkText (Or.inl rfl) hc
  · rw [hm.lookup_eq, he]
    simp only [hhash]

/-- A text that is not the one stored is not found, and another one is told to be there only if it
is. -/
theorem found?_lookup_of_ne (h : CachesHold lang used disk memory stored)
    (husage : Usage lang used) (ht : (f, t) ∈ used) (hstored : stored f ≠ some t) (now : Int) :
    (disk.lookup now f (some (Sha256.hexOf t))).found? = none ∧
      (disk.lookup now f (some (Sha256.hexOf t)) = .hashMismatch → ∃ t', stored f = some t') := by
  cases hprevious : stored f with
  | none =>
    rw [h.lookup_of_none hprevious]
    exact ⟨rfl, nofun⟩
  | some t' =>
    obtain ⟨e, -, hlookup⟩ := h.exists_lookup_eq hprevious now (some (Sha256.hexOf t))
    have hne : Sha256.hexOf t ≠ Sha256.hexOf t' := fun hhash => hstored <| by
      rw [hprevious, husage.eq_of_hexOf_eq ht (h.mem_used f t' hprevious) hhash]
    rw [hlookup, if_pos (by simpa using hne)]
    exact ⟨rfl, fun _ => ⟨t', rfl⟩⟩

/-- Looking up changes nothing but counts. -/
theorem retrieve (h : CachesHold lang used disk memory stored) (now : Int) (f : Bytes)
    (contentHash : Option Bytes) :
    CachesHold lang used (disk.retrieve now f contentHash).1 memory stored := by
  obtain ⟨m, hm, hentries⟩ := h.disk
  exact ⟨h.mem_used, ⟨m, hm.with_counts _, hentries⟩, h.memory⟩

/-! ## Changes -/

/-- What the caches hold when the entry of one file changes on disk, and memory keeps nothing else
of the file. -/
theorem update (h : CachesHold lang used disk memory stored) {disk' : DiskCache}
    {memory' : MemoryCache} {m : Bytes → Option CacheEntry} {e? : Option CacheEntry}
    {text? : Option Bytes} (hm : disk'.Represents (Prod.fst '' used) (Function.update m f e?))
    (hentries : ∀ g, (m g).map (fun e => (e.contentHash, e.chunks)) =
      (stored g).map fun t => (Sha256.hexOf t, chunkText (lang g) g t))
    (hused : ∀ t, text? = some t → (f, t) ∈ used)
    (hentry : e?.map (fun e => (e.contentHash, e.chunks)) =
      text?.map fun t => (Sha256.hexOf t, chunkText (lang f) f t))
    (hmemory : ∀ key value, memory'.Has key value → (memory.invalidateFile f).1.Has key value ∨
      ∃ t, text? = some t ∧ key = MemoryCache.chunksKey f (Sha256.hexOf t) ∧
        value = .chunks (chunkText (lang f) f t)) :
    CachesHold lang used disk' memory' (Function.update stored f text?) where
  mem_used := by
    intro g t hg
    by_cases hgf : g = f
    · subst hgf
      rw [Function.update_self] at hg
      exact hused t hg
    · rw [Function.update_of_ne hgf] at hg
      exact h.mem_used g t hg
  disk := by
    refine ⟨_, hm, ?_⟩
    intro g
    by_cases hgf : g = f
    · subst hgf
      rw [Function.update_self, Function.update_self]
      exact hentry
    · rw [Function.update_of_ne hgf, Function.update_of_ne hgf]
      exact hentries g
  memory := by
    intro key value hhas
    rcases hmemory key value hhas with hhas | ⟨t, rfl, hkey⟩
    · obtain ⟨f', t', hne, hstored, hkey⟩ := h.ne_of_has_invalidateFile hhas
      have htext : Function.update stored f text? f' = some t' := by
        rw [Function.update_of_ne hne]
        exact hstored
      exact ⟨f', t', htext, hkey⟩
    · exact ⟨f, t, Function.update_self .., hkey⟩

/-- The chunks of a text take the place of all that the caches hold of the file. -/
theorem store (h : CachesHold lang used disk memory stored) (husage : Usage lang used)
    (ht : (f, t) ∈ used) (now : Int) :
    ∃ disk', disk.store now f (chunkText (lang f) f t) (Sha256.hexOf t)
        (metadataOf (lang f).name) = (disk', .ok true) ∧
      CachesHold lang used disk' ((memory.invalidateFile f).1.putChunks now f (Sha256.hexOf t)
        (chunkText (lang f) f t)) (Function.update stored f (some t)) := by
  obtain ⟨m, hm, hentries⟩ := h.disk
  obtain ⟨disk', hstore, -, hm'⟩ := hm.store husage.blobName_injOn now
    (Set.mem_image_of_mem Prod.fst ht) (storable_ofChunks (husage.processable f t ht) now)
  refine ⟨disk', hstore, h.update hm' hentries ?_ rfl ?_⟩
  · rintro _ ⟨⟩
    exact ht
  · intro key value hhas
    exact hhas.of_put.symm.imp_right fun hnew => ⟨t, rfl, hnew⟩

/-- After a file was dropped the caches hold nothing of it. -/
theorem invalidate (h : CachesHold lang used disk memory stored) (husage : Usage lang used)
    (f : Bytes) : ∃ disk' n, disk.invalidate f = (disk', .ok n) ∧
      CachesHold lang used disk' (memory.invalidateFile f).1 (Function.update stored f none) := by
  obtain ⟨m, hm, hentries⟩ := h.disk
  obtain ⟨disk', n, hinvalidate, -, hm'⟩ := hm.invalidate husage.blobName_injOn f
  exact ⟨disk', n, hinvalidate, h.update hm' hentries nofun rfl fun _ _ => Or.inl⟩

/-! ## Opening -/

/-- The disk is opened again as it was, with an empty memory. -/
theorem openAt (h : CachesHold lang used disk memory stored) (s : Settings) :
    ∃ disk', DiskCache.openAt disk.files disk.directory = (disk.files, .ok disk') ∧
      CachesHold lang used disk' (.new s) stored := by
  obtain ⟨m, hm, hentries⟩ := h.disk
  have htakes (n : Bytes) (_ : n ∈ DiskCache.fileNames (Prod.fst '' used)) (text : Bytes) :
      FileTree.Device.roomy (Path.join disk.directory n) text = .whole := rfl
  obtain ⟨disk', hopen, -, -, hm'⟩ := hm.openAt htakes
  exact ⟨disk', hopen, h.mem_used, ⟨m, hm', hentries⟩,
    fun _ _ hhas => absurd hhas (MemoryCache.not_has_new s)⟩

end CachesHold

/-- At first the caches hold nothing, if the disk has no records. -/
theorem cachesHold_of_openAt {files files' : FileTree} {directory : Bytes} (s : Settings)
    (hopen : DiskCache.openAt files directory = (files', .ok disk))
    (hempty : disk.records = Dict.empty)
    (hwrite : ∀ n ∈ DiskCache.fileNames (Prod.fst '' used),
      disk.files.CanWrite disk.directory n) :
    CachesHold lang used disk (.new s) fun _ => none :=
  ⟨nofun, ⟨_, DiskCache.represents_of_openAt hopen hempty hwrite, fun _ => rfl⟩,
    fun _ _ hhas => absurd hhas (MemoryCache.not_has_new s)⟩

end Pipeline

end SourceChunks
