import SourceChunks.Proofs.ChunkDiff.Matching
import SourceChunks.Proofs.ChunkDiff.Selection

/-!
# A diff partitions the ids

Every chunk id of the old or of the new list has exactly one place in a diff: it is added, deleted,
unchanged, modified, or one side of a move. This holds for any two lists, also if ids are repeated
or do not fit their contents, and for any threshold and any kind of number to score in. The changes
and the summary then tell nothing but these places.
-/

namespace SourceChunks.ChunkDiff

/-- The ids of a diff, once for each place in which a chunk stands. The two sides of a modified
chunk are one place, as they share their id. -/
def placedIds (d : ChunkDiff) : List Bytes :=
  d.added.map Chunk.id ++ d.deleted.map Chunk.id ++ d.unchanged.map Chunk.id ++
    d.modified.map (fun m => m.2.id) ++ d.moved.map (fun m => m.1.id) ++
    d.moved.map (fun m => m.2.id)

/-- A diff of two chunk lists that accounts for every id of either list exactly once. -/
structure Partitions (d : ChunkDiff) (old new : List Chunk) : Prop where
  /-- An id has one place if it occurs on either side, and none if it does not. -/
  count_placedIds : ∀ id, d.placedIds.count id =
    if id ∈ old.map Chunk.id ∨ id ∈ new.map Chunk.id then 1 else 0
  /-- Added chunks are the first new ones of ids that no old chunk has. -/
  added : ∀ c ∈ d.added, findId? c.id new = some c ∧ c.id ∉ old.map Chunk.id
  /-- Deleted chunks are the first old ones of ids that no new chunk has. -/
  deleted : ∀ c ∈ d.deleted, findId? c.id old = some c ∧ c.id ∉ new.map Chunk.id
  /-- The old side of a move is old only. -/
  movedOld : ∀ m ∈ d.moved, findId? m.1.id old = some m.1 ∧ m.1.id ∉ new.map Chunk.id
  /-- The new side of a move is new only. -/
  movedNew : ∀ m ∈ d.moved, findId? m.2.id new = some m.2 ∧ m.2.id ∉ old.map Chunk.id
  /-- Unchanged chunks are the new ones of ids on both sides whose first chunks have one content. -/
  unchanged : ∀ n, n ∈ d.unchanged ↔
    ∃ o, findId? n.id old = some o ∧ findId? n.id new = some n ∧ o.content = n.content
  /-- Modified chunks are the ones of ids on both sides whose first chunks differ in content. -/
  modified : ∀ m, m ∈ d.modified ↔ m.1.id = m.2.id ∧
    findId? m.2.id old = some m.1 ∧ findId? m.2.id new = some m.2 ∧ m.1.content ≠ m.2.content
  /-- The changes are one for each chunk added, deleted, modified and moved, in this order. -/
  changes : d.changes.map (fun c => (c.id, c.kind, c.old, c.new)) =
    d.added.map (fun c => (c.id, .added, none, some c)) ++
      d.deleted.map (fun c => (c.id, .deleted, some c, none)) ++
      d.modified.map (fun m => (m.2.id, .modified, some m.1, some m.2)) ++
      d.moved.map (fun m => (m.2.id, .moved, some m.1, some m.2))
  /-- The summary has the lengths of the lists. -/
  summary : d.summary =
    [(bytes "total_old_chunks", old.length), (bytes "total_new_chunks", new.length),
      (bytes "added", d.added.length), (bytes "deleted", d.deleted.length),
      (bytes "modified", d.modified.length), (bytes "moved", d.moved.length),
      (bytes "unchanged", d.unchanged.length)]

/-! ## Matching new chunks with old ones -/

namespace Match

/-- The new chunk of a match. -/
def new : Match → Chunk
  | .added n | .unchanged n | .modified _ n => n

/-- The chunk of a match that has no old side. -/
def added? : Match → Option Chunk
  | .added n => some n
  | _ => none

/-- The chunk of a match whose two sides agree. -/
def unchanged? : Match → Option Chunk
  | .unchanged n => some n
  | _ => none

/-- The chunks of a match whose two sides differ. -/
def modified? : Match → Option (Chunk × Chunk)
  | .modified o n => some (o, n)
  | _ => none

/-- A match is about the chunk that was compared. -/
theorem new_of (old : List Chunk) (c : Chunk) : (Match.of old c).new = c := by
  unfold Match.of
  split
  · rfl
  · split <;> rfl

/-- A chunk is matched as added if its id is not among the old ones. -/
theorem added?_of_eq_some_iff {old : List Chunk} {c n : Chunk} :
    (Match.of old c).added? = some n ↔ c = n ∧ c.id ∉ old.map Chunk.id := by
  rw [← findId?_eq_none_iff]
  unfold Match.of
  cases findId? c.id old with
  | none => simp [added?]
  | some o => by_cases hcontent : o.content = c.content <;> simp [added?, hcontent]

/-- A chunk is matched as unchanged if the first old chunk of its id has its content. -/
theorem unchanged?_of_eq_some_iff {old : List Chunk} {c n : Chunk} :
    (Match.of old c).unchanged? = some n ↔
      c = n ∧ ∃ o, findId? c.id old = some o ∧ o.content = c.content := by
  unfold Match.of
  cases findId? c.id old with
  | none => simp [unchanged?]
  | some o => by_cases hcontent : o.content = c.content <;> simp [unchanged?, hcontent]

/-- A chunk is matched as modified if the first old chunk of its id has another content. -/
theorem modified?_of_eq_some_iff {old : List Chunk} {c : Chunk} {m : Chunk × Chunk} :
    (Match.of old c).modified? = some m ↔
      c = m.2 ∧ findId? c.id old = some m.1 ∧ m.1.content ≠ c.content := by
  unfold Match.of
  cases findId? c.id old with
  | none => simp [modified?]
  | some o => by_cases hcontent : o.content = c.content <;> grind [modified?]

/-- Each match is of one kind, so sorting matches by kind only rearranges their new chunks. -/
theorem perm_map_new (ms : List Match) :
    (ms.filterMap added? ++ ms.filterMap unchanged? ++ (ms.filterMap modified?).map Prod.snd).Perm
      (ms.map new) := by
  induction ms with
  | nil => exact List.Perm.refl _
  | cons m rest ih =>
    cases m with
    | added n => exact ih.cons n
    | unchanged n =>
      simp only [List.filterMap_cons, added?, unchanged?, modified?, List.append_assoc,
        List.cons_append, List.map_cons, new] at ih ⊢
      exact List.perm_middle.trans (ih.cons n)
    | modified o n =>
      simp only [List.filterMap_cons, added?, unchanged?, modified?, List.append_assoc,
        List.map_cons, new] at ih ⊢
      rw [← List.append_assoc] at ih ⊢
      exact List.perm_middle.trans (ih.cons n)

end Match

/-! ## The parts of a diff -/

section Parts

variable {α : Type} [Scalar α] (threshold : α) (old new : List Chunk)

/-- The new chunks without a counterpart, those included that turn out to have moved. -/
def unmatchedNew : List Chunk := ((firstOfEachId [] new).map (Match.of old)).filterMap Match.added?

/-- The old chunks without a counterpart, those included that turn out to have moved. -/
def unmatchedOld : List Chunk := firstOfEachId (new.map Chunk.id) old

/-- The unchanged chunks are those that the matches of the new chunks give. -/
theorem unchanged_ofChunks :
    (ofChunks threshold old new).unchanged =
      ((firstOfEachId [] new).map (Match.of old)).filterMap Match.unchanged? := rfl

/-- The modified chunks are those that the matches of the new chunks give. -/
theorem modified_ofChunks :
    (ofChunks threshold old new).modified =
      ((firstOfEachId [] new).map (Match.of old)).filterMap Match.modified? := rfl

/-- The list of changes is made of the four lists of the diff. -/
theorem changes_ofChunks :
    (ofChunks threshold old new).changes =
      changesOf (ofChunks threshold old new).added (ofChunks threshold old new).deleted
        (ofChunks threshold old new).modified (ofChunks threshold old new).moved := rfl

/-- An unmatched new chunk is the first new one of an id that no old chunk has. -/
theorem mem_unmatchedNew_iff {c : Chunk} :
    c ∈ unmatchedNew old new ↔ findId? c.id new = some c ∧ c.id ∉ old.map Chunk.id := by
  simp only [unmatchedNew, List.filterMap_map, List.mem_filterMap, Function.comp_apply,
    mem_firstOfEachId_iff, Match.added?_of_eq_some_iff]
  constructor
  · rintro ⟨c, ⟨-, hfind⟩, rfl, hold⟩
    exact ⟨hfind, hold⟩
  · rintro ⟨hfind, hold⟩
    exact ⟨c, ⟨List.not_mem_nil, hfind⟩, rfl, hold⟩

/-- An unmatched old chunk is the first old one of an id that no new chunk has. -/
theorem mem_unmatchedOld_iff {c : Chunk} :
    c ∈ unmatchedOld old new ↔ findId? c.id old = some c ∧ c.id ∉ new.map Chunk.id := by
  rw [unmatchedOld, mem_firstOfEachId_iff]
  exact and_comm

/-- The new chunks without a counterpart, the unchanged and the modified ones are together the first
new chunk of each id. -/
theorem unmatchedNew_append_perm :
    (unmatchedNew old new ++ (ofChunks threshold old new).unchanged ++
      (ofChunks threshold old new).modified.map Prod.snd).Perm (firstOfEachId [] new) := by
  have hperm := Match.perm_map_new ((firstOfEachId [] new).map (Match.of old))
  have hnew : ((firstOfEachId [] new).map (Match.of old)).map Match.new = firstOfEachId [] new := by
    simp [Function.comp_def, Match.new_of]
  rwa [hnew] at hperm

/-- No id is repeated among the new chunks without a counterpart. -/
theorem nodup_ids_unmatchedNew : ((unmatchedNew old new).map Chunk.id).Nodup := by
  have hnodup := ((unmatchedNew_append_perm (0 : Rat) old new).map Chunk.id).nodup_iff.mpr
    (nodup_ids_firstOfEachId [] new)
  rw [List.append_assoc, List.map_append] at hnodup
  exact hnodup.of_append_left

/-- Moving chunks out of the unmatched new ones leaves the added ones. -/
theorem unmatchedNew_perm :
    (unmatchedNew old new).Perm ((ofChunks threshold old new).moved.map Prod.snd ++
      (ofChunks threshold old new).added) := by
  have hperm := perm_append_withoutIds (nodup_ids_unmatchedNew old new)
    (snd_detectMoves_subperm threshold (unmatchedOld old new) (unmatchedNew old new))
  rwa [List.map_map] at hperm

/-- Moving chunks out of the unmatched old ones leaves the deleted ones. -/
theorem unmatchedOld_perm :
    (unmatchedOld old new).Perm ((ofChunks threshold old new).moved.map Prod.fst ++
      (ofChunks threshold old new).deleted) := by
  have hperm := perm_append_withoutIds (nodup_ids_firstOfEachId (new.map Chunk.id) old)
    (fst_detectMoves_subperm threshold (unmatchedOld old new) (unmatchedNew old new))
  rwa [List.map_map] at hperm

/-- Each part of the diff takes its ids from one of two lists without common ids: the first new
chunks, and the old chunks of ids that no new chunk has. -/
theorem count_placedIds_ofChunks (id : Bytes) :
    (ofChunks threshold old new).placedIds.count id =
      if id ∈ old.map Chunk.id ∨ id ∈ new.map Chunk.id then 1 else 0 := by
  have hfirst := ((unmatchedNew_append_perm threshold old new).map Chunk.id).count_eq id
  have hnew := ((unmatchedNew_perm threshold old new).map Chunk.id).count_eq id
  have hold := ((unmatchedOld_perm threshold old new).map Chunk.id).count_eq id
  simp only [List.map_append, List.map_map, List.count_append, Function.comp_def]
    at hfirst hnew hold
  have hplaced : (ofChunks threshold old new).placedIds.count id =
      ((firstOfEachId [] new).map Chunk.id).count id +
        ((unmatchedOld old new).map Chunk.id).count id := by
    simp only [placedIds, List.count_append]
    omega
  have hcountNew : ((firstOfEachId [] new).map Chunk.id).count id =
      if id ∈ new.map Chunk.id then 1 else 0 := by
    rw [(nodup_ids_firstOfEachId [] new).count]
    simp only [mem_ids_firstOfEachId_iff, List.not_mem_nil, not_false_eq_true, true_and]
  have hcountOld : ((unmatchedOld old new).map Chunk.id).count id =
      if id ∉ new.map Chunk.id ∧ id ∈ old.map Chunk.id then 1 else 0 := by
    rw [unmatchedOld, (nodup_ids_firstOfEachId _ old).count]
    simp only [mem_ids_firstOfEachId_iff]
  rw [hplaced, hcountNew, hcountOld]
  by_cases hn : id ∈ new.map Chunk.id <;> by_cases ho : id ∈ old.map Chunk.id <;> simp [hn, ho]

end Parts

/-- The diff of two chunk lists accounts for every id of either list exactly once. -/
theorem partitions_ofChunks {α : Type} [Scalar α] (threshold : α) (old new : List Chunk) :
    (ofChunks threshold old new).Partitions old new where
  count_placedIds := count_placedIds_ofChunks threshold old new
  added c hc := (mem_unmatchedNew_iff old new).mp (List.mem_of_mem_filter hc)
  deleted c hc := (mem_unmatchedOld_iff old new).mp (List.mem_of_mem_filter hc)
  movedOld m hm := by
    have hmem := (fst_detectMoves_subperm threshold (unmatchedOld old new)
      (unmatchedNew old new)).subset (List.mem_map_of_mem (f := Prod.fst) hm)
    exact (mem_unmatchedOld_iff old new).mp hmem
  movedNew m hm := by
    have hmem := (snd_detectMoves_subperm threshold (unmatchedOld old new)
      (unmatchedNew old new)).subset (List.mem_map_of_mem (f := Prod.snd) hm)
    exact (mem_unmatchedNew_iff old new).mp hmem
  unchanged n := by
    simp only [unchanged_ofChunks, List.filterMap_map, List.mem_filterMap, Function.comp_apply,
      mem_firstOfEachId_iff, Match.unchanged?_of_eq_some_iff]
    constructor
    · rintro ⟨c, ⟨-, hnew⟩, rfl, o, hold, hcontent⟩
      exact ⟨o, hold, hnew, hcontent⟩
    · rintro ⟨o, hold, hnew, hcontent⟩
      exact ⟨n, ⟨List.not_mem_nil, hnew⟩, rfl, o, hold, hcontent⟩
  modified m := by
    simp only [modified_ofChunks, List.filterMap_map, List.mem_filterMap, Function.comp_apply,
      mem_firstOfEachId_iff, Match.modified?_of_eq_some_iff]
    constructor
    · rintro ⟨c, ⟨-, hnew⟩, rfl, hold, hcontent⟩
      exact ⟨id_of_findId? hold, hold, hnew, hcontent⟩
    · rintro ⟨-, hold, hnew, hcontent⟩
      exact ⟨m.2, ⟨List.not_mem_nil, hnew⟩, rfl, hold, hcontent⟩
  changes := by
    rw [changes_ofChunks]
    simp only [changesOf, List.map_append, List.map_map, Function.comp_def]
  summary := rfl

/-- A chunk list and a new text of the file are compared so that every id of the old chunks and of
the chunks of the text is accounted for exactly once. -/
theorem compute_partitions {α : Type} [Scalar α] (threshold : α) (old : List Chunk) (text : Bytes)
    (language : Language) (filePath : Bytes) :
    (compute threshold old text language filePath).Partitions old
      (chunkText language (resolvePath filePath old) text) :=
  partitions_ofChunks threshold old _

end SourceChunks.ChunkDiff
