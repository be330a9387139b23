import SourceChunks.Proofs.DiskCache.Gate
import SourceChunks.Proofs.Pipeline.Calls

/-!
# Histories of a pipeline

A pipeline is used for any texts of any files in any languages, whether or not the calls succeed.
Between the calls entries may go from memory, files may be removed from the disk cache, what that
has on disk may be lost or damaged, and the pipeline may be opened anew. In every such history what
the disk cache has records of was made from texts of earlier calls, under their paths and hashes. As
long as the directory is not opened while its index is behind, this holds of all that the caches
answer.
-/

namespace SourceChunks.Pipeline

/-- A text of a file is to be processed in some language, which need not be supported. -/
structure Call where
  filePath : Bytes
  text : Bytes
  language : Bytes

namespace Call

/-- Chunks that can be made for a call. A text without a path may have taken another one. -/
def Makes (x : Call) (cs : List Chunk) : Prop :=
  ∃ l g, x.language = l.name ∧ (g = x.filePath ∨ x.filePath = []) ∧ MadeOf l g x.text cs

/-- The paths of some calls. -/
def paths (calls : List Call) : Set Bytes := {f | ∃ x ∈ calls, x.filePath = f}

/-- The entries that can have been stored for some calls. -/
def entries (calls : List Call) : Set CacheEntry :=
  {e | ∃ x ∈ calls, ∃ now cs, x.Makes cs ∧
    e = .ofChunks now x.filePath cs (Sha256.hexOf x.text) (metadataOf x.language)}

variable {x : Call} {calls calls' : List Call} {cs : List Chunk}

/-- More calls have more paths. -/
theorem paths_mono (h : calls ⊆ calls') : paths calls ⊆ paths calls' := by
  rintro f ⟨x, hx, rfl⟩
  exact ⟨x, h hx, rfl⟩

/-- More calls have more entries. -/
theorem entries_mono (h : calls ⊆ calls') : entries calls ⊆ entries calls' := by
  rintro e ⟨x, hx, hentry⟩
  exact ⟨x, h hx, hentry⟩

/-- The entries of calls have the paths of the calls. -/
theorem filePath_entries_subset (calls : List Call) :
    CacheEntry.filePath '' entries calls ⊆ paths calls := by
  rintro f ⟨e, ⟨x, hx, now, cs, -, rfl⟩, rfl⟩
  exact ⟨x, hx, rfl⟩

/-- The blobs of paths that do not collide have different names. -/
theorem injOn_blobName_entries (h : Set.InjOn Sha256.hexOf (paths calls)) :
    Set.InjOn CacheEntry.blobName (CacheEntry.filePath '' entries calls) :=
  (DiskCache.injOn_blobName h).mono (filePath_entries_subset calls)

/-- If the entry for chunks of a call can be written at all it can be read back. -/
theorem Makes.legible (h : x.Makes cs) (ht : FitsFields x.text) (now : Int) :
    (CacheEntry.ofChunks now x.filePath cs (Sha256.hexOf x.text)
      (metadataOf x.language)).Legible := by
  obtain ⟨l, g, hlanguage, -, hmade⟩ := h
  rw [hlanguage]
  exact legible_of_madeOf hmade ht now x.filePath

/-- Reading back changes no chunk that was made for a call. -/
theorem Makes.map_complete (h : x.Makes cs) (language : Bytes) :
    cs.map (CacheEntry.complete x.filePath language) = cs := by
  obtain ⟨l, g, -, hpath, hmade⟩ := h
  refine (List.map_congr_left fun c hc => ?_).trans (List.map_id cs)
  exact CacheEntry.complete_of_mem_chunkText hpath (hmade.mem c hc)

end Call

variable {p p' p₀ : Pipeline} {calls : List Call} {gated : Prop}

/-! ## What holds after every call -/

/-- What is told about a gated history is told under the condition that paths do not collide. -/
def Gates (gated : Prop) (calls : List Call) : Prop :=
  gated ∧ Set.InjOn Sha256.hexOf (Call.paths calls)

/-- Fewer calls are gated under the same condition. -/
theorem Gates.mono {calls' : List Call} (h : Gates gated calls') (hcalls : calls ⊆ calls') :
    Gates gated calls :=
  ⟨h.1, h.2.mono (Call.paths_mono hcalls)⟩

/-- The caches of a pipeline stem from some calls: the records of the disk cache are those of
entries for the calls, and if the caches gate, so are the blobs, and all that memory has are chunks
made for the calls. -/
structure StemsFrom (p : Pipeline) (calls : List Call) (gated : Prop) : Prop where
  disk : p.disk.Sound (Call.entries calls) (Gates gated calls)
  memory : Gates gated calls → ∀ key value, p.memory.Has key value → ∃ x ∈ calls, ∃ cs,
    x.Makes cs ∧ key = MemoryCache.chunksKey x.filePath (Sha256.hexOf x.text) ∧ value = .chunks cs

namespace StemsFrom

variable {f t language : Bytes} {now : Int}

/-- Caches that stem from some calls stem from more calls. -/
theorem mono (h : p.StemsFrom calls gated) {calls' : List Call} (hcalls : calls ⊆ calls') :
    p.StemsFrom calls' gated where
  disk := h.disk.mono (Call.entries_mono hcalls) fun hgates => hgates.mono hcalls
  memory hgates key value hhas := by
    obtain ⟨x, hx, hentry⟩ := h.memory (hgates.mono hcalls) key value hhas
    exact ⟨x, hcalls hx, hentry⟩

/-- Chunks that memory has for a content were made for a call with it. -/
theorem exists_of_getChunks (h : p.StemsFrom calls gated) (hgates : Gates gated calls)
    {cs : List Chunk} (hcs : (p.memory.getChunks now f (Sha256.hexOf t)).2 = some cs) :
    ∃ x ∈ calls, x.filePath = f ∧ Sha256.hexOf x.text = Sha256.hexOf t ∧ x.Makes cs := by
  obtain ⟨value, hvalue, hchunks⟩ := Option.bind_eq_some_iff.mp hcs
  obtain ⟨x, hx, cs', hmakes, hkey, rfl⟩ :=
    h.memory hgates _ _ (MemoryCache.has_of_get_eq_some hvalue)
  obtain ⟨hpath, hhash⟩ := MemoryCache.chunksKey_hexOf_injective hkey
  obtain rfl := Option.some.inj hchunks
  exact ⟨x, hx, hpath.symm, hhash.symm, hmakes⟩

/-- So were those that the disk has for it. -/
theorem exists_of_lookup (h : p.StemsFrom calls gated) (hgates : Gates gated calls)
    {e : CacheEntry} (he : (p.disk.lookup now f (some (Sha256.hexOf t))).found? = some e) :
    ∃ x ∈ calls, x.filePath = f ∧ Sha256.hexOf x.text = Sha256.hexOf t ∧ x.Makes e.chunks := by
  obtain ⟨e', ⟨x, hx, now', cs, hmakes, rfl⟩, rfl, hhash, rfl⟩ :=
    h.disk.exists_of_lookup_eq_hit hgates (CacheLookup.eq_hit_of_found? he)
  refine ⟨x, hx, rfl, hhash _ rfl, ?_⟩
  show x.Makes (cs.map (CacheEntry.complete x.filePath _))
  rwa [hmakes.map_complete]

/-- Entries may go from memory. -/
theorem of_le (h : p.StemsFrom calls gated)
    (hdisk : p'.disk.Sound (Call.entries calls) (Gates gated calls))
    (hmemory : ∀ key value, p'.memory.Has key value → p.memory.Has key value) :
    p'.StemsFrom calls gated :=
  ⟨hdisk, fun hgates key value hhas => h.memory hgates key value (hmemory key value hhas)⟩

/-- Memory may keep chunks that were made for a call, and lose other entries. -/
theorem putChunks (h : p.StemsFrom calls gated)
    (hdisk : p'.disk.Sound (Call.entries calls) (Gates gated calls)) {memory : MemoryCache}
    (hle : ∀ key value, memory.Has key value → p.memory.Has key value) {cs : List Chunk}
    (hcs : Gates gated calls → ∃ x ∈ calls, x.filePath = f ∧
      Sha256.hexOf x.text = Sha256.hexOf t ∧ x.Makes cs)
    (hmemory : p'.memory = memory.putChunks now f (Sha256.hexOf t) cs) :
    p'.StemsFrom calls gated := by
  refine ⟨hdisk, fun hgates key value hhas => ?_⟩
  rw [hmemory] at hhas
  rcases hhas.of_put with ⟨rfl, rfl⟩ | hold
  · obtain ⟨x, hx, rfl, hhash, hmakes⟩ := hcs hgates
    exact ⟨x, hx, cs, hmakes, by rw [hhash], rfl⟩
  · exact h.memory hgates key value (hle key value hold)

/-- What is made for a call may be stored, whether or not that succeeds. -/
theorem store (h : p.StemsFrom calls gated) (hzero : 0 ∉ p.disk.directory) {x : Call}
    (hx : x ∈ calls) {cs : List Chunk} (hcs : x.Makes cs) (ht : FitsFields x.text)
    (counts : CacheCounts) (now : Int) :
    let disk := (DiskCache.store { p.disk with counts } now x.filePath cs (Sha256.hexOf x.text)
      (metadataOf x.language)).1
    disk.directory = p.disk.directory ∧ disk.Sound (Call.entries calls) (Gates gated calls) := by
  have he : .ofChunks now x.filePath cs (Sha256.hexOf x.text) (metadataOf x.language) ∈
      Call.entries calls := ⟨x, hx, now, cs, hcs, rfl⟩
  obtain ⟨c', r, hstore, hdirectory, hsound, -⟩ := (h.disk.with_counts counts).store hzero
    (fun hgates => Call.injOn_blobName_entries hgates.2) he (hcs.legible ht now)
  rw [hstore]
  exact ⟨hdirectory, hsound⟩

/-- A call adds what is made for it at most. -/
theorem processed (h : p.StemsFrom calls gated) {r : Except Failure ProcessedFile}
    (hprocessed : p.Processed now f t language p' r) (hzero : 0 ∉ p.disk.directory)
    (ht : FitsFields t) :
    p'.disk.directory = p.disk.directory ∧ p'.StemsFrom (calls ++ [⟨f, t, language⟩]) gated := by
  have hlast : (⟨f, t, language⟩ : Call) ∈ calls ++ [⟨f, t, language⟩] :=
    List.mem_append_right _ (List.mem_singleton_self _)
  have h' := h.mono (List.subset_append_left calls [⟨f, t, language⟩])
  cases hprocessed with
  | recalled hcached hdisk hmemory =>
    refine ⟨by rw [hdisk], h'.of_le (hdisk ▸ h'.disk) fun key value hhas => ?_⟩
    rw [hmemory] at hhas
    exact hhas.of_get
  | found counts hcached hfound hdisk hmemory =>
    refine ⟨by rw [hdisk], h'.putChunks (hdisk ▸ h'.disk.with_counts counts)
      (fun key value hhas => hhas.of_get) (fun hgates => ?_) hmemory⟩
    exact h'.exists_of_lookup hgates hfound
  | @new q _ _ counts hcached hfound hdisk hmemory hindex hnew =>
    cases hnew with
    | refused counts' hlanguage hdisk' hmemory' hindex' =>
      rw [hdisk] at hdisk'
      refine ⟨by rw [hdisk'], h'.of_le (hdisk' ▸ h'.disk.with_counts counts') fun key value hhas =>
        ?_⟩
      rw [hmemory', hmemory] at hhas
      exact hhas.of_get
    | @stored l g cs counts' source hlanguage hpath hdisk' hmemory' hindex' =>
      have hmakes : Call.Makes ⟨f, t, language⟩ cs := ⟨l, g, hlanguage, hpath, hindex'.madeOf⟩
      obtain ⟨hdirectory, hsound⟩ := h'.store hzero hlast hmakes ht counts' now
      rw [hdisk, ← hlanguage] at hdisk'
      refine ⟨hdisk' ▸ hdirectory, h'.putChunks (hdisk' ▸ hsound) (fun key value hhas => ?_)
        (fun _ => ⟨_, hlast, rfl, rfl, hmakes⟩) hmemory'⟩
      rw [hmemory] at hhas
      exact hhas.of_invalidateFile.1.of_get

end StemsFrom

/-! ## Runs -/

/-- A pipeline is used for some time, for the calls of a list. If the run is gated, the pipeline is
opened anew only while the index on disk has no records but those in memory. -/
inductive Run (gated : Prop) (p₀ : Pipeline) : List Call → Pipeline → Prop
  /-- The pipeline was opened. -/
  | start : Run gated p₀ [] p₀
  /-- A text is processed, however that ends. -/
  | process {calls : List Call} {p : Pipeline} (h : Run gated p₀ calls p) (now : Int)
    (f t language : Bytes) :
    Run gated p₀ (calls ++ [⟨f, t, language⟩]) (p.processText now f t language).1
  /-- A file is forgotten, however that ends. -/
  | forget {calls : List Call} {p : Pipeline} (h : Run gated p₀ calls p) (f : Bytes) :
    Run gated p₀ calls (p.forget f).1
  /-- Files are removed from the disk cache, however that ends. -/
  | remove {calls : List Call} {p : Pipeline} (h : Run gated p₀ calls p) (fs : List Bytes) :
    Run gated p₀ calls { p with disk := (p.disk.removeAll fs).1 }
  /-- Memory loses entries, and the index and what was measured change in any way. -/
  | lose {calls : List Call} {p p' : Pipeline} (h : Run gated p₀ calls p)
    (hdisk : p'.disk = p.disk)
    (hmemory : ∀ key value, p'.memory.Has key value → p.memory.Has key value) :
    Run gated p₀ calls p'
  /-- Other files change, what the disk cache has is lost or damaged, and the disk takes more or
  less than before. No directory comes to lie where the cache reads a file. -/
  | disturb {calls : List Call} {p : Pipeline} (h : Run gated p₀ calls p) {files : FileTree}
    {device : FileTree.Device} (hspares : p.disk.Spares files)
    (hreads : DiskCache.ReadsFiles { p.disk with files, device }) :
    Run gated p₀ calls { p with disk := { p.disk with files, device } }
  /-- The pipeline is opened anew on its directory, with settings that may differ otherwise. -/
  | restart {calls : List Call} {p p' : Pipeline} (h : Run gated p₀ calls p)
    {settings : Settings} {files : FileTree} (hdir : p.disk.files.isDirectoryAt p.disk.directory)
    (hcurrent : gated → p.disk.Current)
    (hopen : openAt p.disk.files { settings with cacheDirectory := p.disk.directory } =
      (files, .ok p')) : Run gated p₀ calls p'

/-- The pipeline that a call leaves. -/
def Call.after (x : Call) (p : Pipeline) (now : Int) : Pipeline :=
  (p.processText now x.filePath x.text x.language).1

/-- A run goes on with a call. -/
theorem Run.call (h : Run gated p₀ calls p) (x : Call) (now : Int) :
    Run gated p₀ (calls ++ [x]) (x.after p now) :=
  .process h now x.filePath x.text x.language

/-- The disk cache of a new pipeline is new. -/
theorem IsNew.disk (h : p.IsNew) : p.disk.IsNew := by
  obtain ⟨files, s, files', hopen, hempty⟩ := h
  exact ⟨⟨files, s.cacheDirectory, files', (of_openAt hopen).1⟩, hempty⟩

/-- A new pipeline stems from no calls. -/
theorem IsNew.stemsFrom (h : p.IsNew) : p.StemsFrom [] gated := by
  refine ⟨h.disk.sound.1, fun _ key value hhas => ?_⟩
  obtain ⟨files, s, files', hopen, -⟩ := h
  rw [(of_openAt hopen).2.1] at hhas
  exact absurd hhas (MemoryCache.not_has_new s)

namespace StemsFrom

/-- Files may be removed from the disk cache. -/
theorem removeAll (h : p.StemsFrom calls gated) (hzero : 0 ∉ p.disk.directory) (fs : List Bytes) :
    (p.disk.removeAll fs).1.directory = p.disk.directory ∧
      (p.disk.removeAll fs).1.Sound (Call.entries calls) (Gates gated calls) := by
  obtain ⟨c', r, hremove, hdirectory, hsound, -⟩ := h.disk.removeAll hzero
    (fun hgates => Call.injOn_blobName_entries hgates.2) fs
  rw [hremove]
  exact ⟨hdirectory, hsound⟩

/-- A file may be forgotten. -/
theorem forget (h : p.StemsFrom calls gated) (hzero : 0 ∉ p.disk.directory) (f : Bytes) :
    (p.forget f).1.disk.directory = p.disk.directory ∧ (p.forget f).1.StemsFrom calls gated := by
  obtain ⟨hdirectory, hsound⟩ :=
    h.removeAll hzero (if p.disk.records.contains f then [f] else [])
  obtain ⟨hdisk, hmemory⟩ : (p.forget f).1.disk = (p.disk.invalidate f).1 ∧
      (p.forget f).1.memory = (p.memory.invalidateFile f).1 := by
    rcases hremoved : p.disk.invalidate f with ⟨disk, e | n⟩
    · simp only [Pipeline.forget, hremoved, and_self]
    · simp only [Pipeline.forget, hremoved, reindex, and_self]
  rw [← DiskCache.invalidate, ← hdisk] at hdirectory hsound
  refine ⟨hdirectory, h.of_le hsound fun key value hhas => ?_⟩
  rw [hmemory] at hhas
  exact hhas.of_invalidateFile.1

/-- The pipeline may be opened anew, in a gated run while the index on disk is current. -/
theorem openAt (h : p.StemsFrom calls gated) {settings : Settings} {files : FileTree}
    (hdir : p.disk.files.isDirectoryAt p.disk.directory) (hcurrent : gated → p.disk.Current)
    (hopen : Pipeline.openAt p.disk.files
      { settings with cacheDirectory := p.disk.directory } = (files, .ok p')) :
    p'.disk.directory = p.disk.directory ∧ p'.StemsFrom calls gated := by
  obtain ⟨hdisk, hmemory, -⟩ := of_openAt hopen
  -- The disk of the new pipeline takes all that is written to it.
  obtain ⟨c', r, hreopen, hdirectory, hsound, -⟩ :=
    (h.disk.with_device .roomy).reopen hdir fun hgates => hcurrent hgates.1
  have hsame : c' = p'.disk := by
    rw [DiskCache.reopen, hdisk] at hreopen
    exact (congrArg Prod.fst hreopen).symm
  rw [hsame] at hdirectory hsound
  refine ⟨hdirectory, h.of_le hsound fun key value hhas => ?_⟩
  rw [hmemory] at hhas
  exact absurd hhas (MemoryCache.not_has_new _)

end StemsFrom

/-- In any run of a new pipeline its caches stem from the calls. -/
theorem Run.stemsFrom (h : Run gated p₀ calls p) (hnew : p₀.IsNew) (hzero : 0 ∉ p₀.disk.directory)
    (hfits : ∀ x ∈ calls, FitsFields x.text) :
    p.disk.directory = p₀.disk.directory ∧ p.StemsFrom calls gated := by
  induction h with
  | start => exact ⟨rfl, hnew.stemsFrom⟩
  | @process calls p h now f t language ih =>
    obtain ⟨hdirectory, hstems⟩ := ih fun x hx => hfits x (List.mem_append_left _ hx)
    have ht : FitsFields t := hfits ⟨f, t, language⟩ (List.mem_append_right _ (by simp))
    obtain ⟨hdirectory', hstems'⟩ := hstems.processed (p.processed_processText now f t language)
      (hdirectory ▸ hzero) ht
    exact ⟨hdirectory'.trans hdirectory, hstems'⟩
  | forget h f ih =>
    obtain ⟨hdirectory, hstems⟩ := ih hfits
    obtain ⟨hdirectory', hstems'⟩ := hstems.forget (hdirectory ▸ hzero) f
    exact ⟨hdirectory'.trans hdirectory, hstems'⟩
  | remove h fs ih =>
    obtain ⟨hdirectory, hstems⟩ := ih hfits
    obtain ⟨hdirectory', hsound⟩ := hstems.removeAll (hdirectory ▸ hzero) fs
    exact ⟨hdirectory'.trans hdirectory, hsound, hstems.memory⟩
  | lose h hdisk hmemory ih =>
    obtain ⟨hdirectory, hstems⟩ := ih hfits
    exact ⟨hdisk ▸ hdirectory, hstems.of_le (hdisk ▸ hstems.disk) hmemory⟩
  | disturb h hspares _ ih =>
    obtain ⟨hdirectory, hstems⟩ := ih hfits
    exact ⟨hdirectory, hstems.disk.of_spares hspares _, hstems.memory⟩
  | restart h hdir hcurrent hopen ih =>
    obtain ⟨hdirectory, hstems⟩ := ih hfits
    obtain ⟨hdirectory', hstems'⟩ := hstems.openAt hdir hcurrent hopen
    exact ⟨hdirectory'.trans hdirectory, hstems'⟩

end SourceChunks.Pipeline
