import SourceChunks.Proofs.DiskCache.FailedStores
import SourceChunks.Proofs.Pipeline.Histories
import SourceChunks.Proofs.Pipeline.Session

/-!
# Calls that fail

A call that fails for its language has changed nothing that can be asked for. Any other failure is
one of the disk cache, which comes last: by then the index has taken the chunks of the text and
memory keeps them, as if the call had succeeded. On disk a failure changes nothing of other files.
-/

namespace SourceChunks.Pipeline

variable {p p' p₀ : Pipeline} {calls : List Call} {gated : Prop}
variable {f t language : Bytes} {now : Int} {e : Failure}

/-- Nothing is different for those who ask: the index is the same, and both caches answer as they
would have done. -/
structure SameForAll (p p' : Pipeline) (now : Int) : Prop where
  index : p'.index = p.index
  memory : ∀ now' key, now ≤ now' → (p'.memory.get now' key).2 = (p.memory.get now' key).2
  disk : ∀ g, p.disk.SameAnswers p'.disk g

/-- What a call has done that fails when the chunks of its text are stored. -/
structure FailsToStore (p p' : Pipeline) (now : Int) (f t : Bytes) (l : Language) (g : Bytes)
    (cs : List Chunk) (e : Failure) : Prop where
  /-- The disk cache could not store the chunks. -/
  failed : ∃ counts, DiskCache.store { p.disk with counts } now f cs (Sha256.hexOf t)
    (metadataOf l.name) = (p'.disk, .error e)
  /-- The index has taken them. -/
  index : IndexTakes l f g t p.index cs p'.index
  /-- Memory keeps them in place of all that it had of the file. -/
  memory : p'.memory = ((p.memory.getChunks now f (Sha256.hexOf t)).1.invalidateFile f).1.putChunks
    now f (Sha256.hexOf t) cs

/-- A call that fails does so for its language and has done nothing, or it fails to store the chunks
that it has made. -/
theorem error_cases (hfail : p.processText now f t language = (p', .error e)) :
    (Language.ofName? language = none ∧ e = .unsupportedLanguage language ∧
      p.SameForAll p' now) ∨
    ∃ l g cs, language = l.name ∧ (g = f ∨ f = []) ∧ MadeOf l g t cs ∧
      p.FailsToStore p' now f t l g cs e := by
  have hprocessed := p.processed_processText now f t language
  rw [hfail] at hprocessed
  obtain ⟨r, hr⟩ : ∃ r : Except Failure ProcessedFile, r = .error e := ⟨_, rfl⟩
  rw [← hr] at hprocessed
  cases hprocessed with
  | recalled | found => exact absurd hr nofun
  | new counts hcached hfound hdisk hmemory hindex hnew =>
    cases hnew with
    | refused counts' hlanguage hdisk' hmemory' hindex' =>
      left
      refine ⟨hlanguage, (Except.error.inj hr).symm, hindex'.trans hindex, ?_, fun g => ?_⟩
      · intro now' key hnow
        rw [hmemory', hmemory]
        exact MemoryCache.snd_get_get hnow p.memory _ key
      · rw [hdisk', hdisk]
        exact DiskCache.sameAnswers_with_counts counts' |>.1
    | @stored l g cs counts' source hlanguage hpath hdisk' hmemory' hindex' =>
      right
      rw [hindex] at hindex'
      rw [hdisk] at hdisk' hr
      refine ⟨l, g, cs, hlanguage, hpath, hindex'.madeOf, ⟨counts', ?_⟩, hindex', ?_⟩
      · exact Prod.ext hdisk'.symm (Failure.eq_error_of_map hr)
      · rw [hmemory', hmemory]

/-- Failing to store the chunks of one file makes no difference to the others on disk. -/
theorem FailsToStore.sameAnswers {l : Language} {g : Bytes} {cs : List Chunk}
    (h : p.FailsToStore p' now f t l g cs e) (hstems : p.StemsFrom calls gated)
    (hzero : 0 ∉ p.disk.directory) (hdir : p.disk.directory ≠ []) {f' : Bytes}
    (hf' : Sha256.hexOf f' ≠ Sha256.hexOf f) : p.disk.SameAnswers p'.disk f' := by
  obtain ⟨counts, hstore⟩ := h.failed
  have hname : CacheEntry.blobName f' ≠ CacheEntry.blobName f :=
    fun heq => hf' (List.append_cancel_right heq)
  have hcases := DiskCache.store_cases (c := { p.disk with counts }) hzero hdir now f cs
    (Sha256.hexOf t) (metadataOf l.name)
  rw [hstore] at hcases
  rcases hcases with hok | hnothing | ⟨c', e', herror, htouches⟩
  · exact absurd hok nofun
  · exact absurd (congrArg Prod.snd hnothing) nofun
  · obtain rfl := congrArg Prod.fst herror
    exact htouches.sameAnswers (hstems.disk.with_counts counts).memory hname

/-- After any run a call that fails has done nothing if its language is unknown. Otherwise it fails
to store the chunks that it has made, which the index has taken and memory keeps by then, and on
disk it makes no difference to other files. -/
theorem Run.processText_error (h : Run gated p₀ calls p) (hnew : p₀.IsNew)
    (hzero : 0 ∉ p₀.disk.directory) (hfits : ∀ x ∈ calls, FitsFields x.text)
    (hfail : p.processText now f t language = (p', .error e)) :
    (Language.ofName? language = none → e = .unsupportedLanguage language ∧
      p.SameForAll p' now) ∧
    ∀ l : Language, language = l.name → ∃ g cs, (g = f ∨ f = []) ∧ MadeOf l g t cs ∧
      p.FailsToStore p' now f t l g cs e ∧
      ∀ f', Sha256.hexOf f' ≠ Sha256.hexOf f → p.disk.SameAnswers p'.disk f' := by
  obtain ⟨hdirectory, hstems⟩ := h.stemsFrom hnew hzero hfits
  rcases error_cases hfail with
    ⟨hnone, he, hsame⟩ | ⟨l, g, cs, rfl, hpath, hmade, hfails⟩
  · refine ⟨fun _ => ⟨he, hsame⟩, ?_⟩
    rintro l rfl
    exact absurd (hnone.symm.trans l.ofName?_name) nofun
  · refine ⟨fun hnone => absurd (hnone.symm.trans l.ofName?_name) nofun, fun l' hl' => ?_⟩
    obtain rfl := Language.name_injective hl'
    refine ⟨g, cs, hpath, hmade, hfails, fun f' hf' => ?_⟩
    exact hfails.sameAnswers hstems (hdirectory ▸ hzero)
      (hdirectory ▸ hnew.disk.directory_ne_nil) hf'

/-! ## Failing to store -/

/-- A text of one byte that is no character: no document can hold it. -/
def noCharacter : Bytes := [0xFF]

/-- A call for another file. -/
def otherCall : Call := ⟨bytes "b", bytes "x", Language.name .python⟩

/-- A pipeline after this call. -/
def afterOther : Pipeline :=
  (Session.fresh.processText 0 (bytes "b") (bytes "x") (Language.name .python)).1

/-- A call for a text that cannot be written out fails, and the other file is found on disk as
before. -/
theorem processText_error_noCharacter :
    Run False Session.fresh [otherCall] afterOther ∧ (∀ x ∈ [otherCall], FitsFields x.text) ∧
    ∃ p', afterOther.processText 0 (bytes "a") noCharacter (Language.name .python) =
        (p', .error .malformedDocument) ∧ afterOther.disk.SameAnswers p'.disk (bytes "b") := by
  have hrun : Run False Session.fresh [otherCall] afterOther := .call .start otherCall 0
  have hfits : ∀ x ∈ [otherCall], FitsFields x.text := by
    rw [List.forall_mem_singleton]
    constructor <;> decide +kernel
  have hmalformed : ((afterOther.processText 0 (bytes "a") noCharacter
      (Language.name .python)).2.map fun _ => ()) = .error .malformedDocument := by decide +kernel
  have hhash : Sha256.hexOf (bytes "b") ≠ Sha256.hexOf (bytes "a") := by decide +kernel
  have hfail : afterOther.processText 0 (bytes "a") noCharacter (Language.name .python) =
      (_, .error .malformedDocument) := Failure.eq_mk_error_of_map hmalformed
  obtain ⟨-, hknown⟩ := Run.processText_error hrun Session.isNew_fresh (by decide) hfits hfail
  obtain ⟨g, cs, -, -, -, hother⟩ := hknown .python rfl
  exact ⟨hrun, hfits, _, hfail, hother _ hhash⟩

/-- A new pipeline with a directory at the path of the draft of its index, which therefore cannot be
written. -/
def obstructed : Pipeline := { Session.fresh with
  disk.files := Session.fresh.disk.files.put
    [Settings.defaults.cacheDirectory, DiskCache.draftName] .empty }

/-- The pipeline with a directory in its way is a new one. -/
theorem isNew_obstructed : obstructed.IsNew :=
  ⟨obstructed.disk.files, Settings.defaults, _, rfl, rfl⟩

/-- A call then fails, but the chunk of its text is in the index and in memory, where it was not
before. -/
theorem exists_processText_error_and_indexed :
    obstructed.IsNew ∧ ∃ p', obstructed.processText 0 (bytes "a") (bytes "x")
        (Language.name .python) = (p', .error (.unwritableIndex
          ⟨Path.join Settings.defaults.cacheDirectory DiskCache.draftName, false⟩)) ∧
      obstructed.index.size = 0 ∧ p'.index.size = 1 ∧
      (obstructed.memory.getChunks 0 (bytes "a") (Sha256.hexOf (bytes "x"))).2 = none ∧
      (p'.memory.getChunks 0 (bytes "a") (Sha256.hexOf (bytes "x"))).2.isSome := by
  -- One evaluation of the call for all that it shows.
  have hcall : ((obstructed.processText 0 (bytes "a") (bytes "x")
        (Language.name .python)).2.map fun _ => ()) = .error (.unwritableIndex
          ⟨Path.join Settings.defaults.cacheDirectory DiskCache.draftName, false⟩) ∧
      (obstructed.processText 0 (bytes "a") (bytes "x")
        (Language.name .python)).1.index.size = 1 ∧
      ((obstructed.processText 0 (bytes "a") (bytes "x") (Language.name .python)).1.memory.getChunks
        0 (bytes "a") (Sha256.hexOf (bytes "x"))).2.isSome := by
    decide +kernel
  obtain ⟨hunwritable, hsize, hsome⟩ := hcall
  exact ⟨isNew_obstructed, _, Failure.eq_mk_error_of_map hunwritable, rfl, hsize,
    isNew_obstructed.getChunks_eq_none _ _ _, hsome⟩

end SourceChunks.Pipeline
