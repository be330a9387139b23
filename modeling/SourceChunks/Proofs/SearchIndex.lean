import Mathlib.Data.List.Infix
import Mathlib.Data.Set.Basic
import SourceChunks.Proofs.ChunkDiff.Application
import SourceChunks.SearchIndex

/-!
# What the search index lists

An index lists a set of chunks if it has the record of each of them under its id and no other
record. To put the chunks of a file in place of its old ones, the index may be rebuilt for the file
or follow a diff from the old ones; both ways it then lists the new chunks of the file beside the
chunks of the other files. This takes that an id tells the record.
-/

namespace SourceChunks

/-- A text occurs in another one as one run exactly if the search for it says so. -/
theorem Bytes.hasInfix_iff {needle t : Bytes} : hasInfix needle t = true ↔ needle <:+: t := by
  induction t with
  | nil => simp [hasInfix]
  | cons b rest ih => rw [hasInfix, Bool.or_eq_true, ih, List.isPrefixOf_iff_prefix,
      List.infix_cons_iff]

namespace SearchIndex

variable {x : SearchIndex} {s all : Set Chunk} {chunks old : List Chunk} {f : Bytes}

/-- An index has the records of some chunks and no others. -/
def Lists (x : SearchIndex) (s : Set Chunk) : Prop :=
  ∀ id r, x.get? id = some r ↔ ∃ c ∈ s, c.id = id ∧ IndexRecord.ofChunk c = r

/-- Chunks of one id among these have one record. -/
def IdsTell (all : Set Chunk) : Prop :=
  ∀ c ∈ all, ∀ c' ∈ all, c.id = c'.id → IndexRecord.ofChunk c = IndexRecord.ofChunk c'

/-- The chunks of all files when those of one file become these. -/
def replaceFile (s : Set Chunk) (f : Bytes) (chunks : List Chunk) : Set Chunk :=
  {c | c ∈ s ∧ c.filePath ≠ f ∨ c ∈ chunks}

/-- What is recorded of a chunk that is found by its id is what there is to record of any chunk of
this id. -/
theorem IdsTell.map_findId? (hall : IdsTell all) (hchunks : ∀ c ∈ chunks, c ∈ all) {c : Chunk}
    (hc : c ∈ all) (hid : c.id ∈ chunks.map Chunk.id) :
    (ChunkDiff.findId? c.id chunks).map IndexRecord.ofChunk = some (.ofChunk c) := by
  obtain ⟨c', hfind⟩ := ChunkDiff.exists_findId?_iff.mpr hid
  have hmem := hchunks c' (List.mem_of_find?_eq_some hfind)
  rw [hfind, Option.map_some, hall c' hmem c hc (ChunkDiff.id_of_findId? hfind)]

/-- An index that answers for the ids of a file as its chunks want it, and for all other ids as
before without the chunks of the file, lists the chunks of the file in place of the old ones. -/
theorem Lists.replaceFile {x' : SearchIndex} (h : x.Lists s) (hall : IdsTell all)
    (hs : s ⊆ all) (hchunks : ∀ c ∈ chunks, c ∈ all ∧ c.filePath = f)
    (hsettled : ∀ id ∈ chunks.map Chunk.id,
      x'.get? id = (ChunkDiff.findId? id chunks).map IndexRecord.ofChunk)
    (hother : ∀ id ∉ chunks.map Chunk.id, x'.get? id =
      (x.get? id).filter fun r => r.filePath != f) :
    x'.Lists (SearchIndex.replaceFile s f chunks) := by
  intro id r
  by_cases hid : id ∈ chunks.map Chunk.id
  · obtain ⟨c, hc, rfl⟩ := List.mem_map.mp hid
    have hrecord := hall.map_findId? (fun c hc => (hchunks c hc).1) (hchunks c hc).1 hid
    rw [hsettled _ hid, hrecord, Option.some.injEq]
    constructor
    · exact fun hr => ⟨c, Or.inr hc, rfl, hr⟩
    · rintro ⟨c', ⟨hc', -⟩ | hc', heq, rfl⟩
      · exact (hall c' (hs hc') c (hchunks c hc).1 heq).symm
      · exact (hall c' (hchunks c' hc').1 c (hchunks c hc).1 heq).symm
  · rw [hother id hid, Option.filter_eq_some_iff, h id r, bne_iff_ne]
    constructor
    · rintro ⟨⟨c, hc, rfl, rfl⟩, hpath⟩
      exact ⟨c, Or.inl ⟨hc, hpath⟩, rfl, rfl⟩
    · rintro ⟨c, ⟨hc, hpath⟩ | hc, rfl, rfl⟩
      · exact ⟨⟨c, hc, rfl, rfl⟩, hpath⟩
      · exact absurd (List.mem_map_of_mem hc) hid

/-- After a file is rebuilt the ids of its chunks have their records, and other ids have none of the
file. -/
theorem get?_rebuildFile (hall : IdsTell all) (hchunks : ∀ c ∈ chunks, c ∈ all) (id : Bytes) :
    (x.rebuildFile f chunks).1.get? id =
      if id ∈ chunks.map Chunk.id then (ChunkDiff.findId? id chunks).map IndexRecord.ofChunk
      else (x.get? id).filter fun r => r.filePath != f := by
  split
  · next hid =>
    have htouched : ∃ c ∈ chunks, c.id = id := List.mem_map.mp hid
    refine ChunkDiff.foldl_settles (ChunkDiff.Settled IndexRecord.ofChunk chunks · id)
      (fun c => c.id = id) ?_ (Or.inr htouched)
    intro c hc d
    have hrecord := hall.map_findId? hchunks (hchunks c hc) (List.mem_map_of_mem hc)
    exact ChunkDiff.settled_insert hrecord
  · next hid =>
    have hkept := ChunkDiff.get?_foldl_insert_of_not_mem IndexRecord.ofChunk
      (d := x.records.filter fun _ r => r.filePath != f) hid
    exact hkept.trans (Dict.get?_filter ..)

/-- A file is rebuilt. -/
theorem Lists.rebuildFile (h : x.Lists s) (hall : IdsTell all) (hs : s ⊆ all)
    (hchunks : ∀ c ∈ chunks, c ∈ all ∧ c.filePath = f) :
    (x.rebuildFile f chunks).1.Lists (SearchIndex.replaceFile s f chunks) := by
  have hget (id : Bytes) :=
    get?_rebuildFile (x := x) (f := f) hall (fun c hc => (hchunks c hc).1) id
  refine h.replaceFile hall hs hchunks ?_ ?_
  · intro id hid
    rw [hget, if_pos hid]
  · intro id hid
    rw [hget, if_neg hid]

/-- The updates of a diff are exchanges of records. -/
theorem records_applyDiff (x : SearchIndex) (now : Int) (diff : ChunkDiff) :
    (x.applyDiff now diff).records = diff.changes.foldl
      (fun d change => ChunkDiff.exchange IndexRecord.ofChunk d change.old change.new)
        x.records := by
  rw [applyDiff]
  induction diff.changes generalizing x with
  | nil => rfl
  | cons change rest ih =>
    rw [List.foldl_cons, List.foldl_cons, ih]
    obtain ⟨cid, kind, o?, n?, lines⟩ := change
    cases o? <;> cases n? <;> rfl

/-- Old chunks of the file make no difference once its chunks have become these. -/
theorem replaceFile_replaceFile (hold : ∀ c ∈ old, c.filePath = f) :
    replaceFile (replaceFile s f old) f chunks = replaceFile s f chunks := by
  ext c
  constructor
  · rintro (⟨hc | hc, hpath⟩ | hc)
    · exact Or.inl hc
    · exact absurd (hold c hc) hpath
    · exact Or.inr hc
  · exact Or.imp_left fun hc => ⟨Or.inl hc, hc.2⟩

/-- After a diff from chunks that have their records the ids of both sides have the records of the
new chunks, and no record changes under other ids. -/
theorem get?_applyDiff {d : ChunkDiff} (hall : IdsTell all) (hold : ∀ c ∈ old, c ∈ all)
    (hchunks : ∀ c ∈ chunks, c ∈ all) (hrecords : ∀ o ∈ old, x.get? o.id = some (.ofChunk o))
    (hd : d.Partitions old chunks) (now : Int) (id : Bytes) :
    (x.applyDiff now d).get? id =
      if id ∈ old.map Chunk.id ∨ id ∈ chunks.map Chunk.id then
        (ChunkDiff.findId? id chunks).map IndexRecord.ofChunk
      else x.get? id := by
  rw [get?, records_applyDiff]
  refine hd.get?_foldl_exchange id ?_
  -- What does not change has its record already.
  rintro n hn rfl
  obtain ⟨o, hfind, hfind', -⟩ := (hd.unchanged n).mp hn
  have hmem : o ∈ old := List.mem_of_find?_eq_some hfind
  have hmem' : n ∈ chunks := List.mem_of_find?_eq_some hfind'
  have hid : o.id = n.id := ChunkDiff.id_of_findId? hfind
  have hrecord : IndexRecord.ofChunk o = IndexRecord.ofChunk n :=
    hall o (hold o hmem) n (hchunks n hmem') hid
  rw [ChunkDiff.Settled, hfind', Option.map_some, ← hid, ← hrecord]
  exact hrecords o hmem

/-- The records of a file are those of some chunks and no others, whatever there is of other
files. -/
def ListsFile (x : SearchIndex) (f : Bytes) (chunks : List Chunk) : Prop :=
  ∀ id r, (x.get? id = some r ∧ r.filePath = f) ↔
    ∃ c ∈ chunks, c.id = id ∧ IndexRecord.ofChunk c = r

/-- To follow a diff from the chunks that are listed of a file is to rebuild the file: the records
are the same then, also those of other files. -/
theorem ListsFile.records_applyDiff_eq {d : ChunkDiff} (h : x.ListsFile f old) (hall : IdsTell all)
    (hold : ∀ c ∈ old, c ∈ all) (hchunks : ∀ c ∈ chunks, c ∈ all) (hd : d.Partitions old chunks)
    (now : Int) : (x.applyDiff now d).records = (x.rebuildFile f chunks).1.records := by
  have hrecords : ∀ o ∈ old, x.get? o.id = some (.ofChunk o) :=
    fun o ho => ((h _ _).mpr ⟨o, ho, rfl, rfl⟩).1
  have hpath : ∀ o ∈ old, o.filePath = f :=
    fun o ho => ((h _ _).mpr ⟨o, ho, rfl, rfl⟩).2
  apply Dict.ext_get?
  intro id
  have hpatched := get?_applyDiff hall hold hchunks hrecords hd now id
  have hrebuilt := get?_rebuildFile (x := x) (f := f) hall hchunks id
  refine hpatched.trans (Eq.trans ?_ hrebuilt.symm)
  by_cases hnew : id ∈ chunks.map Chunk.id
  · rw [if_pos (Or.inr hnew), if_pos hnew]
  rw [if_neg hnew]
  split
  · next hmem =>
    -- An id of an old chunk only is not recorded any more, and it was recorded for this file.
    obtain ⟨o, ho, rfl⟩ := List.mem_map.mp (hmem.resolve_right hnew)
    have hdropped : ¬ ((IndexRecord.ofChunk o).filePath != f) = true := by
      rw [bne_iff_ne, not_not]
      exact hpath o ho
    rw [ChunkDiff.findId?_eq_none_iff.mpr hnew, hrecords o ho]
    exact (if_neg hdropped).symm
  · next hmem =>
    -- An id on neither side is not recorded for this file.
    cases hr : x.get? id with
    | none => rfl
    | some r =>
      have hkept : (r.filePath != f) = true := by
        rw [bne_iff_ne]
        intro hfile
        obtain ⟨o, ho, rfl, -⟩ := (h id r).mp ⟨hr, hfile⟩
        exact hmem (Or.inl (List.mem_map_of_mem ho))
      exact (if_pos hkept).symm

/-- What is listed of a file whose chunks were replaced are the chunks that were put in. -/
theorem Lists.listsFile (h : x.Lists (SearchIndex.replaceFile s f chunks))
    (hpath : ∀ c ∈ chunks, c.filePath = f) : x.ListsFile f chunks := by
  intro id r
  rw [h id r]
  constructor
  · rintro ⟨⟨c, ⟨-, hne⟩ | hc, rfl, rfl⟩, hfile⟩
    · exact absurd hfile hne
    · exact ⟨c, hc, rfl, rfl⟩
  · rintro ⟨c, hc, rfl, rfl⟩
    exact ⟨⟨c, Or.inr hc, rfl, rfl⟩, hpath c hc⟩

/-- A file that was rebuilt is listed with its chunks, whatever the index was before. -/
theorem listsFile_rebuildFile (hall : IdsTell all)
    (hchunks : ∀ c ∈ chunks, c ∈ all ∧ c.filePath = f) :
    (x.rebuildFile f chunks).1.ListsFile f chunks := by
  have hmem : ∀ c ∈ chunks, c ∈ all := fun c hc => (hchunks c hc).1
  intro id r
  rw [get?_rebuildFile hall hmem]
  split
  · next hid =>
    obtain ⟨c, hc, rfl⟩ := List.mem_map.mp hid
    rw [hall.map_findId? hmem (hmem c hc) hid, Option.some.injEq]
    constructor
    · rintro ⟨hr, -⟩
      exact ⟨c, hc, rfl, hr⟩
    · rintro ⟨c', hc', heq, rfl⟩
      exact ⟨(hall c' (hmem c' hc') c (hmem c hc) heq).symm, (hchunks c' hc').2⟩
  · next hid =>
    rw [Option.filter_eq_some_iff, bne_iff_ne]
    constructor
    · rintro ⟨⟨-, hne⟩, hfile⟩
      exact absurd hfile hne
    · rintro ⟨c, hc, rfl, -⟩
      exact absurd (List.mem_map_of_mem hc) hid

/-- A diff from the chunks that are listed of a file is followed. -/
theorem Lists.applyDiff {d : ChunkDiff} (h : x.Lists (SearchIndex.replaceFile s f old))
    (hall : IdsTell all) (hs : s ⊆ all) (hold : ∀ c ∈ old, c ∈ all ∧ c.filePath = f)
    (hchunks : ∀ c ∈ chunks, c ∈ all ∧ c.filePath = f) (hd : d.Partitions old chunks) (now : Int) :
    (x.applyDiff now d).Lists (SearchIndex.replaceFile s f chunks) := by
  have hs' : SearchIndex.replaceFile s f old ⊆ all := by
    rintro c (⟨hc, -⟩ | hc)
    · exact hs hc
    · exact (hold c hc).1
  have hrebuilt := h.rebuildFile hall hs' hchunks
  rw [replaceFile_replaceFile fun c hc => (hold c hc).2] at hrebuilt
  have hrecords := (h.listsFile fun c hc => (hold c hc).2).records_applyDiff_eq hall
    (fun c hc => (hold c hc).1) (fun c hc => (hchunks c hc).1) hd now
  intro id r
  rw [get?, hrecords]
  exact hrebuilt id r

/-- An index that has records of all chunks of a file lists these, unless it lists others of the
file. -/
theorem Lists.of_containsAll (h : x.Lists s) (hall : IdsTell all) (hs : s ⊆ all)
    (hchunks : ∀ c ∈ chunks, c ∈ all ∧ c.filePath = f)
    (hfile : ∀ c ∈ s, c.filePath = f → c ∈ chunks) (hcontains : x.containsAll chunks) :
    x.Lists (SearchIndex.replaceFile s f chunks) := by
  have hlisted : ∀ c ∈ chunks, ∃ c' ∈ s, c'.id = c.id := by
    intro c hc
    obtain ⟨r, hr⟩ := Option.isSome_iff_exists.mp (List.all_eq_true.mp hcontains c hc)
    obtain ⟨c', hc', hid, -⟩ := (h c.id r).mp hr
    exact ⟨c', hc', hid⟩
  intro id r
  rw [h id r]
  constructor
  · rintro ⟨c, hc, hid⟩
    by_cases hpath : c.filePath = f
    · exact ⟨c, Or.inr (hfile c hc hpath), hid⟩
    · exact ⟨c, Or.inl ⟨hc, hpath⟩, hid⟩
  · rintro ⟨c, ⟨hc, -⟩ | hc, rfl, rfl⟩
    · exact ⟨c, hc, rfl, rfl⟩
    · obtain ⟨c', hc', hid⟩ := hlisted c hc
      exact ⟨c', hc', hid, hall c' (hs hc') c (hchunks c hc).1 hid⟩

/-! ## What is told of the index -/

/-- A search tells the ids of the chunks that have the text in them in any case. -/
theorem Lists.mem_search_iff (h : x.Lists s) {query id : Bytes} :
    id ∈ x.search query ↔
      ∃ c ∈ s, c.id = id ∧ Bytes.lowercase query <:+: Bytes.lowercase c.content := by
  rw [search, Dict.mem_keys_iff]
  simp only [Dict.get?_filter, Option.filter_eq_some_iff, Bytes.hasInfix_iff]
  constructor
  · rintro ⟨r, hr, hinfix⟩
    obtain ⟨c, hc, hid, rfl⟩ := (h id r).mp hr
    exact ⟨c, hc, hid, hinfix⟩
  · rintro ⟨c, hc, hid, hinfix⟩
    exact ⟨.ofChunk c, (h id _).mpr ⟨c, hc, hid, rfl⟩, hinfix⟩

/-- The records of other files are left when the chunks of a file are replaced. -/
theorem Lists.get?_eq_some_iff_of_ne {x' : SearchIndex} (h : x.Lists s)
    (h' : x'.Lists (SearchIndex.replaceFile s f chunks)) (hpath : ∀ c ∈ chunks, c.filePath = f)
    {id : Bytes} {r : IndexRecord} (hr : r.filePath ≠ f) :
    x'.get? id = some r ↔ x.get? id = some r := by
  rw [h id r, h' id r]
  constructor
  · rintro ⟨c, ⟨hc, -⟩ | hc, rfl, rfl⟩
    · exact ⟨c, hc, rfl, rfl⟩
    · exact absurd (hpath c hc) hr
  · rintro ⟨c, hc, rfl, rfl⟩
    exact ⟨c, Or.inl ⟨hc, hr⟩, rfl, rfl⟩

/-- The records of a file are those of its chunks, one for each. -/
theorem Lists.records_perm (h : x.Lists (SearchIndex.replaceFile s f chunks))
    (hids : (chunks.map Chunk.id).Nodup) (hpath : ∀ c ∈ chunks, c.filePath = f) :
    (x.records.filter fun _ r => r.filePath = f).entries.Perm
      (chunks.map fun c => (c.id, IndexRecord.ofChunk c)) := by
  have hrecords := (x.records.filter fun _ r => r.filePath = f).sorted.nodup_keys.of_map
  have hchunks : (chunks.map fun c => (c.id, IndexRecord.ofChunk c)).Nodup :=
    List.Nodup.of_map Prod.fst (by rwa [List.map_map])
  rw [List.perm_ext_iff_of_nodup hrecords hchunks]
  rintro ⟨id, r⟩
  rw [← Dict.get?_eq_some_iff, Dict.get?_filter, Option.filter_eq_some_iff, decide_eq_true_eq]
  constructor
  · rintro ⟨hr, hfile⟩
    obtain ⟨c, ⟨-, hne⟩ | hc, rfl, rfl⟩ := (h id r).mp hr
    · exact absurd hfile hne
    · exact List.mem_map.mpr ⟨c, hc, rfl⟩
  · intro hmem
    obtain ⟨c, hc, heq⟩ := List.mem_map.mp hmem
    obtain ⟨rfl, rfl⟩ := Prod.mk.inj heq
    exact ⟨(h _ _).mpr ⟨c, Or.inr hc, rfl, rfl⟩, hpath c hc⟩

end SearchIndex

end SourceChunks
