import SourceChunks.Proofs.Pipeline.Session

/-!
# The caches cannot be seen in the chunks

Whatever happened in a session before, processing a text of a file answers exactly the chunks of the
text. It makes no difference whether the answer comes from memory, from disk, from a diff with the
text stored last or from the text itself.
-/

namespace SourceChunks.Session

variable {lang : Bytes → Language}

/-- Where hashes do not collide, a pipeline in normal use may be used for its texts. -/
theorem NormalUse.usage_of_injOn {p : Pipeline} {events : List Event} (h : NormalUse p events)
    (hhash : Set.InjOn Sha256.hexOf (hashed lang (Event.used events))) :
    Pipeline.Usage lang (Event.used events) := by
  have hpaths : Set.InjOn Sha256.hexOf (Prod.fst '' Event.used events) :=
    hhash.mono fun s hs => Or.inl (Or.inl hs)
  have htexts : Set.InjOn Sha256.hexOf (Prod.snd '' Event.used events) :=
    hhash.mono fun s hs => Or.inl (Or.inr hs)
  refine h.usage hpaths htexts ?_
  intro f t ht
  have hhashed : ∀ c ∈ chunkText (lang f) f t, c.hashedText ∈ hashed lang (Event.used events) :=
    fun c hc => Or.inr ⟨c, ⟨(f, t), ht, hc⟩, rfl⟩
  apply nodup_ids_chunkText
  intro c hc c' hc' heq
  exact hhash (hhashed c hc) (hhashed c' hc') heq

/-- In any session without hash collisions that processes a text of a file after some events, the
events do not fail and processing the text answers its chunks, in order and with all their
fields. -/
theorem exists_processText_chunks {p : Pipeline} {events : List Event} {f t : Bytes}
    (huse : NormalUse p (events ++ [.process f t]))
    (hhash : Set.InjOn Sha256.hexOf (hashed lang (Event.used (events ++ [.process f t]))))
    (now : Int) :
    ∃ s, run lang ⟨p, now⟩ events = .ok s ∧ ∃ p' r,
      s.pipeline.processText s.now f t (lang f).name = (p', .ok r) ∧
        r.chunks = chunkText (lang f) f t := by
  have husage := huse.usage_of_injOn hhash
  obtain ⟨s, hrun, hholds⟩ := huse.exists_run_eq husage now
  have ht : (f, t) ∈ Event.used (events ++ [.process f t]) :=
    List.mem_append_right _ (List.mem_singleton_self _)
  obtain ⟨p', r, hprocess, hchunks, -⟩ :=
    Pipeline.exists_processText_eq hholds.caches husage ht s.now
  exact ⟨s, hrun, p', r, hprocess, hchunks⟩

/-- After an edit and a restart the first text has its chunks again. -/
theorem exists_processText_chunks_undo :
    NormalUse fresh (editAndRestart ++ [undo]) ∧
    Set.InjOn Sha256.hexOf (hashed (fun _ => .c) (Event.used (editAndRestart ++ [undo]))) ∧
    ∃ s, run (fun _ => .c) ⟨fresh, 0⟩ editAndRestart = .ok s ∧ ∃ p' r,
      s.pipeline.processText s.now (bytes "a") (bytes "a") (Language.name .c) = (p', .ok r) ∧
        r.chunks = chunkText .c (bytes "a") (bytes "a") :=
  ⟨normalUse_fresh, injOn_hashed_undo,
    exists_processText_chunks normalUse_fresh injOn_hashed_undo 0⟩

end SourceChunks.Session
