import SourceChunks.Proofs.Pipeline.Histories
import SourceChunks.Proofs.Pipeline.Session

/-!
# The language of a call

The caches know chunks by the path of a file and the hash of its content, not by their language. So
the language that a call asks for counts if neither cache has chunks for the content. Otherwise the
call answers the chunks of an earlier call with this content, in the language of that call, even if
there is no such language as it asks for.
-/

namespace SourceChunks

/-- A chunk is of a language and of the kind that the rules of the language tell from its first
line. -/
def Chunk.IsOf (l : Language) (c : Chunk) : Prop :=
  c.language = l.name ∧ c.nodeType = l.nodeType (c.content.takeWhile (· != Bytes.newline))

/-- Chunks made from a text are of its language. -/
theorem MadeOf.isOf {l : Language} {g t : Bytes} {cs : List Chunk} (h : MadeOf l g t cs) :
    ∀ c ∈ cs, c.IsOf l :=
  fun c hc => ⟨chunkText_language (h.mem c hc), chunkText_nodeType (h.mem c hc)⟩

namespace Pipeline

variable {p p₀ : Pipeline} {calls : List Call} {gated : Prop}
variable {f t language : Bytes} {now : Int} {cs : List Chunk}

/-- The chunks that the caches have for a content: those in memory, or else those on disk. -/
def cached? (p : Pipeline) (now : Int) (filePath contentHash : Bytes) : Option (List Chunk) :=
  (p.memory.getChunks now filePath contentHash).2.or
    ((p.disk.lookup now filePath (some contentHash)).found?.map CacheEntry.chunks)

/-- If the caches have chunks for the content, they are the answer in any language. -/
theorem exists_processText_of_cached (h : p.cached? now f (Sha256.hexOf t) = some cs)
    (language : Bytes) :
    ∃ r, (p.processText now f t language).2 = .ok r ∧ r.chunks = cs := by
  obtain ⟨r, hr⟩ : ∃ r, r = (p.processText now f t language).2 := ⟨_, rfl⟩
  have hprocessed := p.processed_processText now f t language
  rw [← hr] at hprocessed ⊢
  unfold cached? at h
  cases hprocessed with
  | recalled hcached =>
    rw [hcached, Option.some_or] at h
    exact ⟨_, rfl, Option.some.inj h⟩
  | found counts hcached hfound =>
    rw [hcached, hfound, Option.none_or] at h
    exact ⟨_, rfl, Option.some.inj h⟩
  | new counts hcached hfound =>
    rw [hcached, hfound] at h
    exact absurd h nofun

/-- If they have none, an unknown language is refused, and chunks in another one are of this
language. -/
theorem processText_of_not_cached (h : p.cached? now f (Sha256.hexOf t) = none) :
    (Language.ofName? language = none →
      (p.processText now f t language).2 = .error (.unsupportedLanguage language)) ∧
    ∀ l : Language, language = l.name → ∀ r, (p.processText now f t language).2 = .ok r →
      ∀ c ∈ r.chunks, c.IsOf l := by
  obtain ⟨r, hr⟩ : ∃ r, r = (p.processText now f t language).2 := ⟨_, rfl⟩
  have hprocessed := p.processed_processText now f t language
  rw [← hr] at hprocessed ⊢
  unfold cached? at h
  cases hprocessed with
  | recalled hcached =>
    rw [hcached] at h
    exact absurd h nofun
  | found counts hcached hfound =>
    rw [hcached, hfound] at h
    exact absurd h nofun
  | new counts hcached hfound hdisk hmemory hindex hnew =>
    cases hnew with
    | refused counts' hlanguage =>
      refine ⟨fun _ => rfl, ?_⟩
      rintro l rfl
      exact absurd (hlanguage.symm.trans l.ofName?_name) nofun
    | @stored l g cs counts' source hlanguage hpath hdisk' hmemory' hindex' =>
      subst hlanguage
      refine ⟨fun hnone => absurd (hnone.symm.trans l.ofName?_name) nofun, fun l' hl' r' hr' => ?_⟩
      obtain rfl := Language.name_injective hl'
      obtain ⟨-, -, rfl⟩ := Failure.exists_of_map_eq_ok hr'
      exact hindex'.madeOf.isOf

/-- What the caches have was made for an earlier call with the same content. -/
theorem StemsFrom.exists_of_cached (h : p.StemsFrom calls gated) (hgates : Gates gated calls)
    (hcached : p.cached? now f (Sha256.hexOf t) = some cs) :
    ∃ x ∈ calls, x.filePath = f ∧ Sha256.hexOf x.text = Sha256.hexOf t ∧ x.Makes cs := by
  rcases Option.or_eq_some_iff.mp hcached with hmemory | ⟨-, hdisk⟩
  · exact h.exists_of_getChunks hgates hmemory
  · obtain ⟨e, he, rfl⟩ := Option.map_eq_some_iff.mp hdisk
    exact h.exists_of_lookup hgates he

/-- After any run in which paths do not collide, a call whose content neither cache has refuses an
unknown language and answers only chunks in the language that it asks for. A call whose content a
cache has answers the chunks of an earlier call for the same path and content, which are in the
language of that call, whatever language it asks for itself. -/
theorem Run.processText_language (h : Run True p₀ calls p) (hnew : p₀.IsNew)
    (hzero : 0 ∉ p₀.disk.directory) (hfits : ∀ x ∈ calls, FitsFields x.text)
    (hpaths : Set.InjOn Sha256.hexOf (Call.paths calls)) :
    (p.cached? now f (Sha256.hexOf t) = none →
      (Language.ofName? language = none → Language.named language =
          .error (.unsupportedLanguage language) ∧
        (p.processText now f t language).2 = .error (.unsupportedLanguage language)) ∧
      ∀ l : Language, language = l.name → ∀ r, (p.processText now f t language).2 = .ok r →
        ∀ c ∈ r.chunks, c.IsOf l) ∧
    ∀ cs, p.cached? now f (Sha256.hexOf t) = some cs →
      (∃ r, (p.processText now f t language).2 = .ok r ∧ r.chunks = cs) ∧
      ∃ x ∈ calls, x.filePath = f ∧ Sha256.hexOf x.text = Sha256.hexOf t ∧
        ∃ l : Language, x.language = l.name ∧ ∀ c ∈ cs, c.IsOf l := by
  obtain ⟨-, hstems⟩ := h.stemsFrom hnew hzero hfits
  refine ⟨fun hnone => ?_, fun cs hcached => ?_⟩
  · obtain ⟨hrefused, hmade⟩ := processText_of_not_cached hnone
    exact ⟨fun hname => ⟨Language.named_of_ofName?_eq_none hname, hrefused hname⟩, hmade⟩
  · obtain ⟨x, hx, hpath, hhash, l, g, hlanguage, -, hmade⟩ :=
      hstems.exists_of_cached ⟨trivial, hpaths⟩ hcached
    exact ⟨exists_processText_of_cached hcached language, x, hx, hpath, hhash, l, hlanguage,
      hmade.isOf⟩

/-! ## A content in two languages -/

/-- A call for a text in Python. -/
def pythonCall : Call := ⟨bytes "a", bytes "x", Language.name .python⟩

/-- A pipeline after this call. -/
def afterPython : Pipeline :=
  (Session.fresh.processText 0 (bytes "a") (bytes "x") (Language.name .python)).1

/-- The pipeline after one call is reached by this call. -/
theorem run_afterPython : Run True Session.fresh [pythonCall] afterPython :=
  .call .start pythonCall 0

/-- When the same content is asked for in another language, the caches have a chunk in Python. -/
theorem exists_cached_afterPython :
    ∃ cs, afterPython.cached? 0 (bytes "a") (Sha256.hexOf (bytes "x")) = some cs ∧
      cs.map Chunk.language = [Language.name .python] := by
  have hlanguages : (afterPython.cached? 0 (bytes "a") (Sha256.hexOf (bytes "x"))).map
      (List.map Chunk.language) = some [Language.name .python] := by decide +kernel
  exact Option.map_eq_some_iff.mp hlanguages

/-- The answer then is that of the call in Python. -/
theorem processText_language_afterPython :
    Run True Session.fresh [pythonCall] afterPython ∧
    (∀ x ∈ [pythonCall], FitsFields x.text) ∧
    Set.InjOn Sha256.hexOf (Call.paths [pythonCall]) ∧
    ∃ r, (afterPython.processText 0 (bytes "a") (bytes "x") (Language.name .c)).2 = .ok r ∧
      ∃ x ∈ [pythonCall], ∃ l : Language, x.language = l.name ∧ ∀ c ∈ r.chunks, c.IsOf l := by
  have hfits : ∀ x ∈ [pythonCall], FitsFields x.text := by
    rw [List.forall_mem_singleton]
    constructor <;> decide +kernel
  have hpaths : Set.InjOn Sha256.hexOf (Call.paths [pythonCall]) := by
    rintro f ⟨x, hx, rfl⟩ g ⟨y, hy, rfl⟩ -
    rw [List.mem_singleton.mp hx, List.mem_singleton.mp hy]
  obtain ⟨cs, hcached, -⟩ := exists_cached_afterPython
  obtain ⟨⟨r, hr, rfl⟩, x, hx, -, -, hof⟩ := (Run.processText_language run_afterPython
    Session.isNew_fresh (by decide) hfits hpaths).2 cs hcached
  exact ⟨run_afterPython, hfits, hpaths, r, hr, x, hx, hof⟩

/-- This is so if the content is asked for in C, and also if there is no language of the name. -/
theorem exists_processText_of_other_language :
    Run True Session.fresh [pythonCall] afterPython ∧
    (∀ language ∈ [Language.name .c, bytes "nolang"], ∃ r,
      (afterPython.processText 0 (bytes "a") (bytes "x") language).2 = .ok r ∧
        r.chunks.map Chunk.language = [Language.name .python]) ∧
    Language.named (bytes "nolang") = .error (.unsupportedLanguage (bytes "nolang")) := by
  obtain ⟨cs, hcached, hcs⟩ := exists_cached_afterPython
  refine ⟨run_afterPython, fun language _ => ?_, by decide⟩
  obtain ⟨r, hr, rfl⟩ := exists_processText_of_cached hcached language
  exact ⟨r, hr, hcs⟩

end Pipeline

end SourceChunks
