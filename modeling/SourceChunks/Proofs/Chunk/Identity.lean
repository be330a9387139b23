import SourceChunks.Proofs.Chunk.Naming
import SourceChunks.Proofs.SearchIndex

/-!
# Chunks of different files

The text that is hashed for the id of a chunk begins with the path of the file, and a path may have
colons in it. So the text does not always tell where the path ends: it may be that of another chunk,
of a file whose path goes on with the line numbers that follow the path of the first one. This is
the only way for chunks of two files to be hashed alike. Where it is excluded, and the hash does not
collide, what is done to the records of one file leaves those of the other one.
-/

namespace SourceChunks

namespace Chunk

variable {c c' : Chunk} {f f' : Bytes}

/-- The chunk is one of the file, whatever the text and the language of the file are. -/
def OfFile (f : Bytes) (c : Chunk) : Prop := ∃ language text, c ∈ chunkText language f text

/-- The path goes on from that of the chunk as the text does that is hashed for the chunk: with the
first line, with the last line after it, or with anything after both. -/
def Foreruns (c : Chunk) (path : Bytes) : Prop :=
  let first := c.filePath ++ bytes ":" ++ Bytes.ofInt c.startLine
  let last := first ++ bytes ":" ++ Bytes.ofInt c.endLine
  path = first ∨ path = last ∨ last ++ bytes ":" <+: path

instance (c : Chunk) (path : Bytes) : Decidable (c.Foreruns path) :=
  inferInstanceAs (Decidable (_ ∨ _ ∨ _))

/-- A chunk of a file carries the file's path. -/
theorem OfFile.filePath_eq (h : c.OfFile f) : c.filePath = f := by
  obtain ⟨language, text, hc⟩ := h
  exact chunkText_filePath hc

/-- A chunk's id is the digest of its hashed text. -/
theorem OfFile.id_eq (h : c.OfFile f) : c.id = Sha256.hexOf c.hashedText := by
  obtain ⟨language, text, hc⟩ := h
  exact chunkText_id_eq_hexOf hc

/-- What is hashed for a chunk after the path of its file. -/
theorem hashedText_eq (c : Chunk) :
    c.hashedText = c.filePath ++ 0x3A ::
      (Bytes.ofInt c.startLine ++ 0x3A :: (Bytes.ofInt c.endLine ++ 0x3A :: c.content)) := by
  have hcolon : bytes ":" = [0x3A] := rfl
  simp only [hashedText, idText, hcolon, List.append_assoc, List.cons_append, List.nil_append]

/-- A path that goes on within what is hashed for a chunk, up to a colon, goes on with its lines. -/
theorem foreruns_of_append_eq {q t : Bytes} (hne : q ≠ [])
    (h : q ++ 0x3A :: t =
      0x3A :: (Bytes.ofInt c.startLine ++ 0x3A :: (Bytes.ofInt c.endLine ++ 0x3A :: c.content))) :
    c.Foreruns (c.filePath ++ q) := by
  have hcolon : bytes ":" = [0x3A] := rfl
  simp only [Foreruns, hcolon, List.append_assoc, List.cons_append, List.nil_append,
    List.append_cancel_left_eq, List.prefix_append_right_inj]
  obtain ⟨hnil, -⟩ | ⟨q₁, rfl, h₁⟩ := Bytes.eq_or_exists_of_append_cons_eq (s := []) nofun h
  · exact absurd hnil hne
  obtain ⟨rfl, -⟩ | ⟨q₂, rfl, h₂⟩ :=
    Bytes.eq_or_exists_of_append_cons_eq (colon_notMem_ofInt _) h₁.symm
  · exact .inl rfl
  obtain ⟨rfl, -⟩ | ⟨q₃, rfl, -⟩ :=
    Bytes.eq_or_exists_of_append_cons_eq (colon_notMem_ofInt _) h₂.symm
  · exact .inr (.inl rfl)
  · exact .inr (.inr ⟨q₃, by simp⟩)

/-- Chunks for which the same text is hashed are of one file, unless the path of one goes on with
the lines of the other. -/
theorem filePath_eq_or_foreruns (h : c.hashedText = c'.hashedText) :
    c.filePath = c'.filePath ∨ c.Foreruns c'.filePath ∨ c'.Foreruns c.filePath := by
  rw [hashedText_eq, hashedText_eq] at h
  obtain ⟨q, hpath, htail⟩ | ⟨q, hpath, htail⟩ := List.append_eq_append_iff.mp h
  · by_cases hq : q = []
    · exact .inl (by rw [hpath, hq, List.append_nil])
    · rw [hpath]
      exact .inr (.inl (foreruns_of_append_eq hq htail.symm))
  · by_cases hq : q = []
    · exact .inl (by rw [hpath, hq, List.append_nil])
    · rw [hpath]
      exact .inr (.inr (foreruns_of_append_eq hq htail.symm))

end Chunk

/-! ## Records of other files -/

namespace SearchIndex

variable {x : SearchIndex} {old new : List Chunk} {f id : Bytes} {r : IndexRecord}

/-- Rebuilding a file leaves the records of other files under ids that its chunks do not have. -/
theorem get?_rebuildFile_of_notMem (hr : x.get? id = some r) (hfile : r.filePath ≠ f)
    (hid : id ∉ new.map Chunk.id) : (x.rebuildFile f new).1.get? id = some r := by
  have hkept := ChunkDiff.get?_foldl_insert_of_not_mem IndexRecord.ofChunk
    (d := x.records.filter fun _ r => r.filePath != f) hid
  refine hkept.trans ((Dict.get?_filter ..).trans ?_)
  change (x.get? id).filter _ = some r
  rw [hr, Option.filter_some, if_pos (bne_iff_ne.mpr hfile)]

/-- Following a diff leaves the records under ids that are not of its chunks. -/
theorem get?_applyDiff_of_notMem {d : ChunkDiff} (hd : d.Partitions old new) (now : Int)
    (hold : id ∉ old.map Chunk.id) (hnew : id ∉ new.map Chunk.id) :
    (x.applyDiff now d).get? id = x.get? id := by
  rw [get?, records_applyDiff]
  have hout : ¬ (id ∈ old.map Chunk.id ∨ id ∈ new.map Chunk.id) := not_or.mpr ⟨hold, hnew⟩
  refine (hd.get?_foldl_exchange id ?_).trans (if_neg hout)
  rintro n hn rfl
  obtain ⟨-, -, hfind, -⟩ := (hd.unchanged n).mp hn
  exact absurd (List.mem_map_of_mem (List.mem_of_find?_eq_some hfind)) hnew

end SearchIndex

namespace Chunk

variable {c c' : Chunk} {f f' : Bytes}

/-- Chunks of two files of which neither path goes on with the lines of a chunk of the other are
hashed from different texts if they differ in their file, lines or content. And then, unless the
hash collides, replacing the chunks of one file in the index or following a diff between chunks of
this file leaves the record of any chunk of the other file. -/
theorem hashedText_ne_and_get?_eq (hc' : c'.OfFile f') (hfore' : ¬ c'.Foreruns f) :
    (∀ c : Chunk, c.OfFile f → ¬ c.Foreruns f' →
      (c.filePath, c.startLine, c.endLine, c.content) ≠
        (c'.filePath, c'.startLine, c'.endLine, c'.content) →
      c.id = Sha256.hexOf c.hashedText ∧ c'.id = Sha256.hexOf c'.hashedText ∧
        c.hashedText ≠ c'.hashedText) ∧
    (f ≠ f' → ∀ old new : List Chunk,
      (∀ c ∈ old ++ new, c.OfFile f ∧ ¬ c.Foreruns f' ∧
        (Sha256.hexOf c.hashedText = Sha256.hexOf c'.hashedText →
          c.hashedText = c'.hashedText)) →
      ∀ x : SearchIndex, x.get? c'.id = some (.ofChunk c') →
        (x.rebuildFile f new).1.get? c'.id = some (.ofChunk c') ∧
        ∀ (d : ChunkDiff) (now : Int), d.Partitions old new →
          (x.applyDiff now d).get? c'.id = some (.ofChunk c')) := by
  have hapart (c : Chunk) (hc : c.OfFile f) (hfore : ¬ c.Foreruns f')
      (htext : c.hashedText = c'.hashedText) : f = f' ∧ c.startLine = c'.startLine ∧
        c.endLine = c'.endLine ∧ c.content = c'.content := by
    obtain hpath | hfore | hfore := filePath_eq_or_foreruns htext
    · rw [hashedText, hashedText, hpath] at htext
      exact ⟨by rw [← hc.filePath_eq, ← hc'.filePath_eq, hpath], idText_injective htext⟩
    · rw [hc'.filePath_eq] at hfore
      contradiction
    · rw [hc.filePath_eq] at hfore
      contradiction
  constructor
  · intro c hc hfore hdiffer
    refine ⟨hc.id_eq, hc'.id_eq, fun htext => hdiffer ?_⟩
    obtain ⟨rfl, hstart, hend, hcontent⟩ := hapart c hc hfore htext
    rw [hc.filePath_eq, hc'.filePath_eq, hstart, hend, hcontent]
  · intro hne old new hchunks x hrecord
    have hid (c : Chunk) (hc : c ∈ old ++ new) : c.id ≠ c'.id := by
      obtain ⟨hfile, hfore, hhash⟩ := hchunks c hc
      rw [hfile.id_eq, hc'.id_eq]
      intro h
      exact hne (hapart c hfile hfore (hhash h)).1
    have hold : c'.id ∉ old.map Chunk.id := fun h => by
      obtain ⟨c, hc, heq⟩ := List.mem_map.mp h
      exact hid c (List.mem_append_left _ hc) heq
    have hnew : c'.id ∉ new.map Chunk.id := fun h => by
      obtain ⟨c, hc, heq⟩ := List.mem_map.mp h
      exact hid c (List.mem_append_right _ hc) heq
    have hfile : (IndexRecord.ofChunk c').filePath ≠ f := by
      change c'.filePath ≠ f
      rw [hc'.filePath_eq]
      exact hne.symm
    refine ⟨SearchIndex.get?_rebuildFile_of_notMem hrecord hfile hnew, fun d now hd => ?_⟩
    rw [SearchIndex.get?_applyDiff_of_notMem hd now hold hnew, hrecord]

/-- A path that goes on with a colon but not with lines: the record of a chunk of `a:b` is left when
`a` is indexed. -/
theorem hashedText_ne_and_get?_eq_colon :
    let c' := (chunkText .python (bytes "a:b") (bytes "x")).head (by decide +kernel)
    let x := (SearchIndex.empty.rebuildFile (bytes "a:b") [c']).1
    c'.OfFile (bytes "a:b") ∧ ¬ c'.Foreruns (bytes "a") ∧
      (x.rebuildFile (bytes "a") (chunkText .python (bytes "a") (bytes "1:x"))).1.get? c'.id =
        some (.ofChunk c') := by
  intro c' x
  have hfile : c'.OfFile (bytes "a:b") := ⟨.python, bytes "x", List.head_mem _⟩
  have hfore : ¬ c'.Foreruns (bytes "a") := by decide +kernel
  have happart : ∀ c ∈ chunkText .python (bytes "a") (bytes "1:x"), ¬ c.Foreruns (bytes "a:b") ∧
      (Sha256.hexOf c.hashedText = Sha256.hexOf c'.hashedText → c.hashedText = c'.hashedText) := by
    decide +kernel
  refine ⟨hfile, hfore, ?_⟩
  have hkept := (hashedText_ne_and_get?_eq hfile hfore).2 (by decide) []
    (chunkText .python (bytes "a") (bytes "1:x")) (fun c hc => ⟨⟨_, _, hc⟩, happart c hc⟩) x
    (by decide +kernel)
  exact hkept.1

/-- A path that goes on with a line number: the chunks of `a` with the text `1:x` and of `a:1` with
the text `x` are hashed from one text, and the index loses one of them. -/
theorem exists_hashedText_eq_of_filePath_ne :
    ∃ c ∈ chunkText .python (bytes "a") (bytes "1:x"),
      ∃ c' ∈ chunkText .python (bytes "a:1") (bytes "x"),
        c.filePath ≠ c'.filePath ∧ c.hashedText = c'.hashedText ∧
        ((SearchIndex.empty.rebuildFile (bytes "a") [c]).1.rebuildFile (bytes "a:1") [c']).1.size =
          1 := by
  decide +kernel

end Chunk

end SourceChunks
