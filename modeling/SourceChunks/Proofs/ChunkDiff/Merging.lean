import SourceChunks.ChunkDiff.Apply
import SourceChunks.Proofs.Chunk.Fate
import SourceChunks.Proofs.Chunk.Position

/-!
# Merging the chunks of changed regions

The chunks of changed regions take the place of whatever the whole file has there. Of its other
chunks those stay whose id is new, and of several with one id the first. A chunk that stays has no
line in a region, so it has none in common with a chunk that lies within one.
-/

namespace SourceChunks

namespace Chunk

variable {a b c : Chunk} {r : LineRange} {n : Int}

/-- No line belongs to both chunks. -/
def Apart (a b : Chunk) : Prop := ∀ n, ¬ (a.HasLine n ∧ b.HasLine n)

/-- No line of a file belongs to both chunks. -/
def ApartInFile (a b : Chunk) : Prop := a.filePath = b.filePath → a.Apart b

/-- Being apart does not depend on the order of the two chunks. -/
theorem Apart.symm (h : a.Apart b) : b.Apart a := fun n hn => h n hn.symm

/-- Being apart within a file does not depend on the order of the two chunks. -/
theorem ApartInFile.symm (h : a.ApartInFile b) : b.ApartInFile a := fun hpath => (h hpath.symm).symm

/-- Chunks that follow each other are apart. -/
theorem apart_of_lt (h : a.endLine < b.startLine) : a.Apart b := by
  rintro n ⟨⟨-, hlast⟩, hfirst, -⟩
  omega

/-- The lines of a chunk are lines of a range. -/
def LiesWithin (c : Chunk) (r : LineRange) : Prop := ∀ n, c.HasLine n → n ∈ r.lines

/-- A chunk overlaps a region when neither ends before the other begins. -/
theorem overlaps_iff : c.overlaps r ↔ c.startLine ≤ r.last ∧ r.first ≤ c.endLine := by
  simp [overlaps]

/-- A chunk outside a range has no line in common with one that lies within it. -/
theorem LiesWithin.apart (h : a.LiesWithin r) (hb : ¬ b.overlaps r) : a.Apart b := by
  rintro n ⟨hn, hfirst, hlast⟩
  obtain ⟨hfirst', hlast'⟩ := LineRange.mem_lines.mp (h n hn)
  exact hb (overlaps_iff.mpr ⟨hfirst.trans hlast', hfirst'.trans hlast⟩)

end Chunk

variable {full incremental rest : List Chunk} {regions : List LineRange} {ids : List Bytes}
  {c : Chunk} {k : ℕ}

/-! ## The chunks that stay -/

/-- A chunk overlaps none of the regions and has an id that is new. -/
structure Stays (regions : List LineRange) (ids : List Bytes) (c : Chunk) : Prop where
  outside : ∀ r ∈ regions, ¬ (c.startLine ≤ r.last ∧ r.first ≤ c.endLine)
  id_notMem : c.id ∉ ids

/-- The chunk at a place of a list is the first one with its id that can stay. -/
def StaysAt (regions : List LineRange) (ids : List Bytes) (full : List Chunk) (k : ℕ) : Prop :=
  ∃ c, full[k]? = some c ∧ Stays regions ids c ∧
    ∀ d ∈ full.take k, Stays regions ids d → d.id ≠ c.id

/-- The first chunk of a list is kept when it can stay. -/
theorem staysAt_zero : StaysAt regions ids (c :: rest) 0 ↔ Stays regions ids c := by
  simp [StaysAt]

/-- A chunk that does not stay makes no difference to those behind it. -/
theorem staysAt_succ_of_not (hc : ¬ Stays regions ids c) :
    StaysAt regions ids (c :: rest) (k + 1) ↔ StaysAt regions ids rest k := by
  simp [StaysAt, hc]

/-- A chunk that stays takes its id from those behind it. -/
theorem staysAt_succ (hc : Stays regions ids c) :
    StaysAt regions ids (c :: rest) (k + 1) ↔ StaysAt regions (c.id :: ids) rest k := by
  have hnew (d : Chunk) : Stays regions (c.id :: ids) d ↔ Stays regions ids d ∧ d.id ≠ c.id := by
    constructor
    · rintro ⟨houtside, hid⟩
      rw [List.mem_cons, not_or] at hid
      exact ⟨⟨houtside, hid.2⟩, hid.1⟩
    · rintro ⟨⟨houtside, hid⟩, hne⟩
      exact ⟨houtside, fun hmem => (List.mem_cons.mp hmem).elim hne hid⟩
  simp only [StaysAt, List.getElem?_cons_succ, List.take_succ_cons, List.forall_mem_cons, hnew]
  constructor
  · rintro ⟨e, he, hstays, hne, hfirst⟩
    exact ⟨e, he, ⟨hstays, (hne hc).symm⟩, fun d hd hstays => hfirst d hd hstays.1⟩
  · rintro ⟨e, he, ⟨hstays, hne⟩, hfirst⟩
    refine ⟨e, he, hstays, fun _ => hne.symm, fun d hd hstays heq => ?_⟩
    exact hfirst d hd ⟨hstays, heq ▸ hne⟩ heq

/-- The test of the program finds the chunks that can stay. -/
theorem stays_iff :
    Stays regions ids c ↔ (ids.contains c.id || regions.any c.overlaps) = false := by
  simp only [Bool.or_eq_false_iff, List.contains_eq_mem, decide_eq_false_iff_not,
    List.any_eq_false, Chunk.overlaps_iff]
  exact ⟨fun h => ⟨h.id_notMem, h.outside⟩, fun h => ⟨h.2, h.1⟩⟩

/-- The chunks that stay are the first ones of their ids, in their order. -/
theorem exists_keepOutside_eq (regions : List LineRange) (ids : List Bytes) (full : List Chunk) :
    ∃ places : List ℕ, places.Pairwise (· < ·) ∧
      (∀ k, k ∈ places ↔ StaysAt regions ids full k) ∧
      keepOutside regions ids full = places.filterMap (full[·]?) := by
  have hnext {places : List ℕ} (h : places.Pairwise (· < ·)) :
      (places.map (· + 1)).Pairwise (· < ·) :=
    List.pairwise_map.mpr (h.imp Nat.succ_lt_succ)
  induction full generalizing ids with
  | nil => exact ⟨[], .nil, by simp [StaysAt], rfl⟩
  | cons c rest ih =>
    rw [keepOutside]
    split
    · next hskip =>
      have hnot : ¬ Stays regions ids c := by
        rw [stays_iff, hskip]
        nofun
      obtain ⟨places, hordered, hmem, hkept⟩ := ih ids
      refine ⟨places.map (· + 1), hnext hordered, fun k => ?_, ?_⟩
      · cases k with
        | zero => simpa [staysAt_zero] using hnot
        | succ k => simp [staysAt_succ_of_not hnot, hmem]
      · rw [hkept, List.filterMap_map]
        rfl
    · next hkeep =>
      have hstays : Stays regions ids c := stays_iff.mpr (Bool.eq_false_iff.mpr hkeep)
      obtain ⟨places, hordered, hmem, hkept⟩ := ih (c.id :: ids)
      refine ⟨0 :: places.map (· + 1), List.pairwise_cons.mpr ⟨by simp, hnext hordered⟩,
        fun k => ?_, ?_⟩
      · cases k with
        | zero => simpa [staysAt_zero] using hstays
        | succ k => simp [staysAt_succ hstays, hmem]
      · rw [hkept, List.filterMap_cons, List.filterMap_map]
        rfl

/-- What stays of the whole file is in its old order. -/
theorem keepOutside_sublist (regions : List LineRange) (ids : List Bytes) (full : List Chunk) :
    (keepOutside regions ids full).Sublist full := by
  fun_induction keepOutside regions ids full with
  | case1 => exact .slnil
  | case2 ids c rest _ ih => exact ih.cons c
  | case3 ids c rest _ ih => exact ih.cons_cons c

/-- No chunk that stays overlaps a changed region. -/
theorem not_overlaps_of_mem_keepOutside (hc : c ∈ keepOutside regions ids full) {r : LineRange}
    (hr : r ∈ regions) : ¬ c.overlaps r := by
  obtain ⟨places, -, hmem, hkept⟩ := exists_keepOutside_eq regions ids full
  rw [hkept, List.mem_filterMap] at hc
  obtain ⟨k, hk, hplace⟩ := hc
  obtain ⟨d, hd, hstays, -⟩ := (hmem k).mp hk
  obtain rfl : d = c := Option.some.inj (hd.symm.trans hplace)
  exact fun hoverlaps => hstays.outside r hr (Chunk.overlaps_iff.mp hoverlaps)

/-! ## The merged list -/

/-- A list holds the chunks of the changed regions and those of the whole file that stay, which are
at the given places. It is in order, and at one position the chunks of the regions come first. -/
structure IsMerge (full incremental : List Chunk) (regions : List LineRange) (places : List ℕ)
    (merged : List Chunk) : Prop where
  increasing : places.Pairwise (· < ·)
  mem_places_iff : ∀ k, k ∈ places ↔ StaysAt regions (incremental.map Chunk.id) full k
  perm : merged.Perm (incremental ++ places.filterMap (full[·]?))
  ordered : merged.Pairwise fun a b =>
    a.filePath < b.filePath ∨ a.filePath = b.filePath ∧ a.startLine ≤ b.startLine
  stable : ∀ filePath line, merged.filter (Chunk.standsAt filePath line) =
    incremental.filter (Chunk.standsAt filePath line) ++
      (places.filterMap (full[·]?)).filter (Chunk.standsAt filePath line)

/-- The merged list takes the chunks that stay from some places of the whole file. -/
theorem exists_isMerge_mergeChunks (full incremental : List Chunk) (regions : List LineRange) :
    ∃ places, IsMerge full incremental regions places
      (mergeChunks full incremental regions) := by
  obtain ⟨places, hordered, hmem, hkept⟩ :=
    exists_keepOutside_eq regions (incremental.map Chunk.id) full
  rw [mergeChunks, hkept]
  refine ⟨places, hordered, hmem, Chunk.sortByPosition_perm _, ?_, fun filePath line => ?_⟩
  · exact (Chunk.pairwise_sortByPosition _).imp Chunk.positionLe_iff.mp
  · rw [Chunk.filter_standsAt_sortByPosition, List.filter_append]

/-- What holds between any two chunks on either side, and between chunks without a line in common,
holds between any two chunks of the merged list. -/
theorem pairwise_mergeChunks {R : Chunk → Chunk → Prop} (hsymm : ∀ {a b}, R a b → R b a)
    (hapart : ∀ {a b}, a.Apart b → R a b) (hfull : full.Pairwise R)
    (hincremental : incremental.Pairwise R)
    (hwithin : ∀ c ∈ incremental, ∃ r ∈ regions, c.LiesWithin r) :
    (mergeChunks full incremental regions).Pairwise R := by
  refine ((Chunk.sortByPosition_perm _).pairwise_iff hsymm).mpr (List.pairwise_append.mpr ?_)
  refine ⟨hincremental, hfull.sublist (keepOutside_sublist _ _ _), ?_⟩
  intro a ha b hb
  obtain ⟨r, hr, hlies⟩ := hwithin a ha
  exact hapart (hlies.apart (not_overlaps_of_mem_keepOutside hb hr))

/-- Merging puts the chunks of changed regions together with the chunks of the whole file that stay:
those that overlap no region, have a new id and are the first of several with this id. The result is
in order, and chunks at one position keep theirs, those of the regions in front. If no two chunks of
either list have a line in common and those of the regions lie within them, no two chunks of the
result have one; if the lists hold several files, this is true of each file. -/
theorem mergeChunks_keeps (full incremental : List Chunk) (regions : List LineRange) :
    (∃ places, IsMerge full incremental regions places
      (mergeChunks full incremental regions)) ∧
    ((∀ c ∈ incremental, ∃ r ∈ regions, c.LiesWithin r) →
      (full.Pairwise Chunk.Apart → incremental.Pairwise Chunk.Apart →
        (mergeChunks full incremental regions).Pairwise Chunk.Apart) ∧
      (full.Pairwise Chunk.ApartInFile → incremental.Pairwise Chunk.ApartInFile →
        (mergeChunks full incremental regions).Pairwise Chunk.ApartInFile)) := by
  refine ⟨exists_isMerge_mergeChunks full incremental regions, fun hwithin => ⟨?_, ?_⟩⟩
  · intro hfull hincremental
    exact pairwise_mergeChunks Chunk.Apart.symm id hfull hincremental hwithin
  · intro hfull hincremental
    exact pairwise_mergeChunks Chunk.ApartInFile.symm (fun hapart _ => hapart) hfull hincremental
      hwithin

/-- A chunk with nothing but lines and an id. -/
def spanning (startLine endLine : Int) (id : Bytes) : Chunk :=
  { (default : Chunk) with startLine, endLine, id }

/-- The chunks of a file before an edit. -/
def wholeFile : List Chunk :=
  [spanning 1 3 (bytes "a"), spanning 5 8 (bytes "b"), spanning 11 12 (bytes "c")]

/-- The chunks that an edit of lines five to nine makes, one of which is moved up. -/
def editedPart : List Chunk := [spanning 7 9 (bytes "c"), spanning 5 6 (bytes "d")]

/-- The chunks of the file after the edit. -/
def editedFile : List Chunk :=
  [spanning 1 3 (bytes "a"), spanning 5 6 (bytes "d"), spanning 7 9 (bytes "c")]

/-- A chunk in the region and one whose id comes back are replaced, and no line is in two chunks of
the result. -/
theorem mergeChunks_keeps_edit :
    (∀ c ∈ editedPart, ∃ r ∈ [⟨5, 9⟩], c.LiesWithin r) ∧ wholeFile.Pairwise Chunk.Apart ∧
      editedPart.Pairwise Chunk.Apart ∧
      mergeChunks wholeFile editedPart [⟨5, 9⟩] = editedFile ∧
      (mergeChunks wholeFile editedPart [⟨5, 9⟩]).Pairwise Chunk.Apart := by
  have hwithin : ∀ c ∈ editedPart, ∃ r ∈ [⟨5, 9⟩], c.LiesWithin r := by
    intro c hc
    have hlines : 5 ≤ c.startLine ∧ c.endLine ≤ 9 := by
      rcases List.mem_pair.mp hc with rfl | rfl <;> decide
    refine ⟨_, List.mem_singleton_self _, fun n hn => LineRange.mem_lines.mpr ?_⟩
    exact ⟨hlines.1.trans hn.1, hn.2.trans hlines.2⟩
  have hwhole : wholeFile.Pairwise Chunk.Apart := by
    have hordered : wholeFile.Pairwise fun a b => a.endLine < b.startLine := by decide
    exact hordered.imp Chunk.apart_of_lt
  have hedited : editedPart.Pairwise Chunk.Apart := by
    have hordered : editedPart.Pairwise fun a b => b.endLine < a.startLine := by decide
    exact hordered.imp fun h => (Chunk.apart_of_lt h).symm
  have hmerged : mergeChunks wholeFile editedPart [⟨5, 9⟩] = editedFile := by
    have hpath : ∀ c ∈ editedFile, c.filePath = [] := by decide
    exact Chunk.sortByPosition_eq_of_perm hpath (by decide) (by decide +kernel)
  exact ⟨hwithin, hwhole, hedited, hmerged,
    ((mergeChunks_keeps wholeFile editedPart [⟨5, 9⟩]).2 hwithin).1 hwhole hedited⟩

end SourceChunks
