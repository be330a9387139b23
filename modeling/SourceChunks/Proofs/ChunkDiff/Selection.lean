import Mathlib.Data.List.Nodup
import Mathlib.Data.List.Perm.Subperm
import SourceChunks.ChunkDiff.Compute

/-!
# Choosing chunks by id

A comparison looks at the first chunk of each id on either side, and takes chunks that moved out of
what was added and deleted. Neither loses an id nor counts one twice: the first chunks have the ids
of the whole list once each, the pairs of moved chunks use every chunk at most once, and what is
taken out and what is left are a rearrangement of what was there.
-/

namespace SourceChunks.ChunkDiff

/-- A search looks at the head first. -/
theorem findId?_cons (id : Bytes) (c : Chunk) (rest : List Chunk) :
    findId? id (c :: rest) = if c.id = id then some c else findId? id rest := by
  simp only [findId?, List.find?_cons, beq_eq_decide]
  split <;> simp_all

/-- A chunk that is found has the id that was asked for. -/
theorem id_of_findId? {id : Bytes} {cs : List Chunk} {c : Chunk} (h : findId? id cs = some c) :
    c.id = id := by
  simpa using List.find?_some h

/-- A search finds nothing exactly if no chunk has the id. -/
theorem findId?_eq_none_iff {id : Bytes} {cs : List Chunk} :
    findId? id cs = none ↔ id ∉ cs.map Chunk.id := by
  simp [findId?]

/-- A search finds a chunk exactly if one has the id. -/
theorem exists_findId?_iff {id : Bytes} {cs : List Chunk} :
    (∃ c, findId? id cs = some c) ↔ id ∈ cs.map Chunk.id := by
  rw [← Option.isSome_iff_exists, ← Option.ne_none_iff_isSome, ne_eq, findId?_eq_none_iff, not_not]

/-- Where ids are not repeated, each chunk is the one found under its id. -/
theorem findId?_eq_some_iff_mem {cs : List Chunk} (h : (cs.map Chunk.id).Nodup) {id : Bytes}
    {c : Chunk} : findId? id cs = some c ↔ c ∈ cs ∧ c.id = id := by
  constructor
  · intro hc
    exact ⟨List.mem_of_find?_eq_some hc, id_of_findId? hc⟩
  · rintro ⟨hmem, rfl⟩
    obtain ⟨c', hc'⟩ := exists_findId?_iff.mpr (List.mem_map_of_mem (f := Chunk.id) hmem)
    have heq := List.inj_on_of_nodup_map h (List.mem_of_find?_eq_some hc') hmem (id_of_findId? hc')
    rwa [heq] at hc'

/-! ## The first chunk of each id -/

/-- The chunks kept are the ones that a search by their id finds, apart from the ids left out. -/
theorem mem_firstOfEachId_iff {seen : List Bytes} {cs : List Chunk} {c : Chunk} :
    c ∈ firstOfEachId seen cs ↔ c.id ∉ seen ∧ findId? c.id cs = some c := by
  fun_induction firstOfEachId seen cs with
  | case1 seen => simp [findId?]
  | case2 seen c' rest hseen ih =>
    have hseen : c'.id ∈ seen := by simpa using hseen
    rw [ih, findId?_cons]
    apply and_congr_right
    intro hc
    have hne : c'.id ≠ c.id := fun h => hc (h ▸ hseen)
    rw [if_neg hne]
  | case3 seen c' rest hseen ih =>
    have hseen : c'.id ∉ seen := by simpa using hseen
    rw [List.mem_cons, ih, findId?_cons, List.mem_cons, not_or]
    by_cases hid : c'.id = c.id
    · rw [if_pos hid, Option.some.injEq]
      constructor
      · rintro (rfl | ⟨⟨hne, -⟩, -⟩)
        · exact ⟨hseen, rfl⟩
        · exact absurd hid.symm hne
      · rintro ⟨-, rfl⟩
        exact Or.inl rfl
    · rw [if_neg hid]
      constructor
      · rintro (rfl | ⟨⟨-, hc⟩, hfind⟩)
        · exact absurd rfl hid
        · exact ⟨hc, hfind⟩
      · rintro ⟨hc, hfind⟩
        exact Or.inr ⟨⟨Ne.symm hid, hc⟩, hfind⟩

/-- The ids kept are those of the list apart from the ones left out. -/
theorem mem_ids_firstOfEachId_iff {seen : List Bytes} {cs : List Chunk} {id : Bytes} :
    id ∈ (firstOfEachId seen cs).map Chunk.id ↔ id ∉ seen ∧ id ∈ cs.map Chunk.id := by
  rw [List.mem_map]
  constructor
  · rintro ⟨c, hc, rfl⟩
    obtain ⟨hseen, hfind⟩ := mem_firstOfEachId_iff.mp hc
    exact ⟨hseen, exists_findId?_iff.mp ⟨c, hfind⟩⟩
  · rintro ⟨hseen, hmem⟩
    obtain ⟨c, hc⟩ := exists_findId?_iff.mpr hmem
    obtain rfl := id_of_findId? hc
    exact ⟨c, mem_firstOfEachId_iff.mpr ⟨hseen, hc⟩, rfl⟩

/-- No id is kept twice, since each chunk that is kept joins the ids left out. -/
theorem nodup_ids_firstOfEachId (seen : List Bytes) (cs : List Chunk) :
    ((firstOfEachId seen cs).map Chunk.id).Nodup := by
  fun_induction firstOfEachId seen cs with
  | case1 => exact List.nodup_nil
  | case2 seen c rest hseen ih => exact ih
  | case3 seen c rest hseen ih =>
    rw [List.map_cons, List.nodup_cons]
    refine ⟨fun hmem => ?_, ih⟩
    exact (mem_ids_firstOfEachId_iff.mp hmem).1 (List.mem_cons_self ..)

/-! ## Taking chunks out -/

/-- Chunks without repeated ids are a rearrangement of some of them and of those with other ids. -/
theorem perm_append_withoutIds {taken cs : List Chunk} (hids : (cs.map Chunk.id).Nodup)
    (htaken : taken.Subperm cs) : cs.Perm (taken ++ withoutIds (taken.map Chunk.id) cs) := by
  have hcs := hids.of_map Chunk.id
  have hsub := htaken.subset
  have htakenNodup : taken.Nodup := by
    obtain ⟨l, hperm, hl⟩ := htaken
    exact hperm.nodup_iff.mp (hcs.sublist hl)
  have hmem (c : Chunk) : c ∈ withoutIds (taken.map Chunk.id) cs ↔
      c ∈ cs ∧ c.id ∉ taken.map Chunk.id := by
    rw [withoutIds, List.mem_filter, Bool.not_eq_true', List.contains_eq_mem,
      decide_eq_false_iff_not]
  have hnodup : (taken ++ withoutIds (taken.map Chunk.id) cs).Nodup := by
    apply List.Nodup.append htakenNodup (hcs.filter _)
    intro c hc hc'
    exact ((hmem c).mp hc').2 (List.mem_map_of_mem hc)
  rw [List.perm_ext_iff_of_nodup hcs hnodup]
  intro c
  rw [List.mem_append, hmem]
  constructor
  · intro hc
    by_cases hid : c.id ∈ taken.map Chunk.id
    · obtain ⟨c', hc', heq⟩ := List.mem_map.mp hid
      obtain rfl : c' = c := List.inj_on_of_nodup_map hids (hsub hc') hc heq
      exact Or.inl hc'
    · exact Or.inr ⟨hc, hid⟩
  · rintro (hc | hc)
    · exact hsub hc
    · exact hc.1

end SourceChunks.ChunkDiff
