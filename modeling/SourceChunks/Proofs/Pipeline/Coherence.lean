import SourceChunks.Proofs.Pipeline.Session

/-!
# The index follows the texts

After every event of a session the index has one record for each chunk of the files that were
processed since the pipeline was opened and not forgotten, and no others. Chunks that a cache
answers are not compared with the records of their file, and a diff starts from what the disk has
rather than from what is indexed, so this rests on what a session holds in all its parts.
-/

namespace SourceChunks.Session

variable {lang : Bytes → Language}

/-- Chunks of one id are of one file, have the same lines and the same content. -/
def IdsDistinguish (all : Set Chunk) : Prop :=
  ∀ c ∈ all, ∀ c' ∈ all, c.id = c'.id → c.filePath = c'.filePath ∧ c.startLine = c'.startLine ∧
    c.endLine = c'.endLine ∧ c.content = c'.content

/-- The kind of a chunk is known from its file and its content, so its id tells its record. -/
theorem IdsDistinguish.idsTell {used : Set (Bytes × Bytes)}
    (h : IdsDistinguish (chunksOf lang used)) : SearchIndex.IdsTell (chunksOf lang used) := by
  intro c hc c' hc' hid
  obtain ⟨hpath, hstart, hend, hcontent⟩ := h c hc c' hc' hid
  have hnodeType : c.nodeType = c'.nodeType := by
    obtain ⟨⟨f, t⟩, -, hmem⟩ := hc
    obtain ⟨⟨f', t'⟩, -, hmem'⟩ := hc'
    obtain rfl : f = f' :=
      (chunkText_filePath hmem).symm.trans (hpath.trans (chunkText_filePath hmem'))
    rw [chunkText_nodeType hmem, chunkText_nodeType hmem', hcontent]
  rw [IndexRecord.ofChunk, IndexRecord.ofChunk, hcontent, hnodeType, hpath, hstart, hend]

/-- Chunks of one text begin on different lines, so they have different ids. -/
theorem IdsDistinguish.nodup_ids {used : Set (Bytes × Bytes)}
    (h : IdsDistinguish (chunksOf lang used)) {f t : Bytes} (ht : (f, t) ∈ used) :
    ((chunkText (lang f) f t).map Chunk.id).Nodup := by
  refine List.pairwise_map.mpr
    ((pairwise_startLine_chunkText (lang f) f t).imp_of_mem fun hc hc' hlt hid => ?_)
  have hstart := (h _ ⟨(f, t), ht, hc⟩ _ ⟨(f, t), ht, hc'⟩ hid).2.1
  omega

/-- Where hashes do not collide, ids distinguish the chunks of one file. -/
theorem idsDistinguish_of_injOn {used : Set (Bytes × Bytes)} {f : Bytes}
    (hfile : ∀ x ∈ used, x.1 = f)
    (hhash : Set.InjOn Sha256.hexOf (Chunk.hashedText '' chunksOf lang used)) :
    IdsDistinguish (chunksOf lang used) := by
  rintro c ⟨x, hx, hc⟩ c' ⟨x', hx', hc'⟩ hid
  have hpath : c.filePath = c'.filePath := by
    rw [chunkText_filePath hc, chunkText_filePath hc', hfile x hx, hfile x' hx']
  rw [chunkText_id_eq_hexOf hc, chunkText_id_eq_hexOf hc'] at hid
  have htext := hhash ⟨c, ⟨x, hx, hc⟩, rfl⟩ ⟨c', ⟨x', hx', hc'⟩, rfl⟩ hid
  rw [Chunk.hashedText, Chunk.hashedText, hpath] at htext
  exact ⟨hpath, Chunk.idText_injective htext⟩

/-- What an event does to the index, and what the index is like after it. -/
structure Follows (lang : Bytes → Language) (events : List Event) (e : Event)
    (before after : SearchIndex) : Prop where
  /-- The records of a file that was processed are those of its chunks, one for each. -/
  process : ∀ f t, e = .process f t → (after.records.filter fun _ r => r.filePath = f).entries.Perm
    ((chunkText (lang f) f t).map fun c =>
      (c.id, ⟨Bytes.lowercase c.content, c.nodeType, c.filePath, ⟨c.startLine, c.endLine⟩⟩))
  /-- A file that was forgotten has no records. -/
  forget : ∀ f, e = .forget f → ∀ id r, after.get? id = some r → r.filePath ≠ f
  /-- The records of other files are the same as before. -/
  others : ∀ f, (∃ t, e = .process f t) ∨ e = .forget f → ∀ id r, r.filePath ≠ f →
    (after.get? id = some r ↔ before.get? id = some r)
  /-- A search lists ids in increasing order. -/
  sorted : ∀ query, (after.search query).Pairwise (· < ·)
  /-- It finds the chunks of the current texts that have the query in them in any case. -/
  search : ∀ query id, id ∈ after.search query ↔
    ∃ f t, Event.current (events ++ [e]) f = some t ∧ ∃ c ∈ chunkText (lang f) f t, c.id = id ∧
      Bytes.lowercase query <:+: Bytes.lowercase c.content

/-- The index of a session follows an event that leads to a session which holds what it should. -/
theorem Holds.follows {used : Set (Bytes × Bytes)} {events : List Event} {e : Event}
    {s s' : Session}
    {stored stored' : Bytes → Option Bytes} (h : s.Holds lang used stored (Event.current events))
    (hids : IdsDistinguish (chunksOf lang used)) (he : ∀ f t, e = .process f t → (f, t) ∈ used)
    (h' : s'.Holds lang used stored' (e.indexedAfter (Event.current events))) :
    Follows lang events e s.pipeline.index s'.pipeline.index := by
  have hlists := h.lists hids.idsTell
  have hlists' := h'.lists hids.idsTell
  -- What is listed of a file is replaced by the chunks of its text, or by nothing.
  have hprocess {f t : Bytes} (heq : e = .process f t) : s'.pipeline.index.Lists
      (SearchIndex.replaceFile (chunksOf lang (graph (Event.current events))) f
        (chunkText (lang f) f t)) := by
    rw [heq, Event.indexedAfter, chunksOf_graph_update] at hlists'
    exact hlists'
  have hforget {f : Bytes} (heq : e = .forget f) : s'.pipeline.index.Lists
      (SearchIndex.replaceFile (chunksOf lang (graph (Event.current events))) f []) := by
    rw [heq, Event.indexedAfter, chunksOf_graph_update] at hlists'
    exact hlists'
  exact {
    process := by
      intro f t heq
      exact (hprocess heq).records_perm (hids.nodup_ids (he f t heq)) fun _ => chunkText_filePath
    forget := by
      intro f heq id r hr
      obtain ⟨c, ⟨-, hpath⟩ | hc, -, rfl⟩ := (hforget heq id r).mp hr
      · exact hpath
      · exact absurd hc List.not_mem_nil
    others := by
      rintro f (⟨t, heq⟩ | heq) id r hr
      · exact hlists.get?_eq_some_iff_of_ne (hprocess heq) (fun _ => chunkText_filePath) hr
      · exact hlists.get?_eq_some_iff_of_ne (hforget heq) (List.forall_mem_nil _) hr
    sorted := fun query => Dict.pairwise_keys _
    search := by
      intro query id
      have hcurrent : Event.current (events ++ [e]) = e.indexedAfter (Event.current events) :=
        List.foldl_append ..
      rw [hlists'.mem_search_iff, hcurrent]
      constructor
      · rintro ⟨c, ⟨⟨f, t⟩, hft, hc⟩, hfound⟩
        exact ⟨f, t, hft, c, hc, hfound⟩
      · rintro ⟨f, t, hft, c, hc, hfound⟩
        exact ⟨c, ⟨(f, t), hft, hc⟩, hfound⟩ }

/-- In any session without collisions of hashes or ids no event fails, and the index follows every
one of them. -/
theorem exists_step_follows {p : Pipeline} {events : List Event} {e : Event}
    (huse : NormalUse p (events ++ [e]))
    (hpaths : Set.InjOn Sha256.hexOf (Prod.fst '' Event.used (events ++ [e])))
    (htexts : Set.InjOn Sha256.hexOf (Prod.snd '' Event.used (events ++ [e])))
    (hids : IdsDistinguish (chunksOf lang (Event.used (events ++ [e])))) (now : Int) :
    ∃ s s', run lang ⟨p, now⟩ events = .ok s ∧ step lang s e = .ok s' ∧
      Follows lang events e s.pipeline.index s'.pipeline.index := by
  have husage : Pipeline.Usage lang (Event.used (events ++ [e])) :=
    huse.usage hpaths htexts fun f t ht => hids.nodup_ids ht
  obtain ⟨s, hrun, hholds⟩ := huse.exists_run_eq husage now
  have he : ∀ f t, e = .process f t → (f, t) ∈ Event.used (events ++ [e]) := by
    rintro f t rfl
    exact List.mem_append_right _ (List.mem_singleton_self _)
  obtain ⟨s', hstep, hholds'⟩ := hholds.exists_step_eq husage he
  exact ⟨s, s', hrun, hstep, hholds.follows hids he hholds'⟩

/-- After an edit and a restart the index follows the first text again. -/
theorem exists_step_follows_undo :
    NormalUse fresh (editAndRestart ++ [undo]) ∧
    Set.InjOn Sha256.hexOf (Prod.fst '' Event.used (editAndRestart ++ [undo])) ∧
    Set.InjOn Sha256.hexOf (Prod.snd '' Event.used (editAndRestart ++ [undo])) ∧
    IdsDistinguish (chunksOf (fun _ => .c) (Event.used (editAndRestart ++ [undo]))) ∧
    ∃ s s', run (fun _ => .c) ⟨fresh, 0⟩ editAndRestart = .ok s ∧
      step (fun _ => .c) s undo = .ok s' ∧
      Follows (fun _ => .c) editAndRestart undo s.pipeline.index s'.pipeline.index := by
  have hpaths := injOn_hashed_undo.mono fun s hs => Or.inl (Or.inl hs)
  have htexts := injOn_hashed_undo.mono fun s hs => Or.inl (Or.inr hs)
  have hids : IdsDistinguish (chunksOf (fun _ => .c) (Event.used (editAndRestart ++ [undo]))) :=
    idsDistinguish_of_injOn (fun x hx => (mem_used_undo hx).1)
      (injOn_hashed_undo.mono fun s hs => Or.inr hs)
  exact ⟨normalUse_fresh, hpaths, htexts, hids,
    exists_step_follows normalUse_fresh hpaths htexts hids 0⟩

end SourceChunks.Session
