import SourceChunks.ChunkDiff.Apply
import SourceChunks.Proofs.Chunk.Cutting
import SourceChunks.Proofs.Chunk.Position
import SourceChunks.Proofs.ChunkDiff.Partition
import SourceChunks.Proofs.Dict

/-!
# Carrying out a diff gives the new chunks

Whatever chunks a list starts from, carrying out its diff to the chunks of a text leaves exactly the
chunks of that text, in their order. Every change settles the ids that it names and spoils none that
is settled already, so the order of the changes does not matter for what is found in the end.
-/

namespace SourceChunks

namespace ChunkDiff

/-! ## Settling ids -/

/-- Steps that spoil nothing that is settled, and settle it where they touch it, leave it settled if
it was so before or one of them touches it. -/
theorem foldl_settles {σ β : Type} {step : σ → β → σ} (settled : σ → Prop) (touches : β → Prop)
    {steps : List β} (hstep : ∀ b ∈ steps, ∀ s, settled s ∨ touches b → settled (step s b)) {s : σ}
    (h : settled s ∨ ∃ b ∈ steps, touches b) : settled (steps.foldl step s) := by
  induction steps generalizing s with
  | nil =>
    rcases h with h | ⟨b, hb, -⟩
    · exact h
    · exact absurd hb List.not_mem_nil
  | cons b rest ih =>
    refine ih (fun b' hb' => hstep b' (List.mem_cons_of_mem _ hb')) ?_
    rcases h with h | ⟨b', hb', htouches⟩
    · exact Or.inl (hstep b (List.mem_cons_self ..) s (Or.inl h))
    · rcases List.mem_cons.mp hb' with rfl | hb'
      · exact Or.inl (hstep b' (List.mem_cons_self ..) s (Or.inr htouches))
      · exact Or.inr ⟨b', hb', htouches⟩

section Records

variable {α : Type} {record : Chunk → α} {old new : List Chunk} {d : Dict α} {id : Bytes}

/-- An id under which that is recorded which the new list has for it, or nothing if it has
nothing. -/
def Settled (record : Chunk → α) (new : List Chunk) (d : Dict α) (id : Bytes) : Prop :=
  d.get? id = (findId? id new).map record

/-- Take an old chunk out of what is recorded by id, and put a new one in. -/
def exchange (record : Chunk → α) (d : Dict α) (old new : Option Chunk) : Dict α :=
  let d := old.elim d fun c => d.erase c.id
  new.elim d fun c => d.insert c.id (record c)

/-- A change names the ids of its chunks. -/
def Names (change : ChunkChange) (id : Bytes) : Prop :=
  (∃ o, change.old = some o ∧ o.id = id) ∨ ∃ n, change.new = some n ∧ n.id = id

/-- A change that leads from the old list to the new one: the chunk it puts in is one of the new
list, and the one it takes out is one of the old list whose id is not of the new list, unless it
puts that id in again. -/
structure LeadsTo (old new : List Chunk) (change : ChunkChange) : Prop where
  /-- What is taken out is what the old list has. -/
  findId?_old : ∀ o, change.old = some o → findId? o.id old = some o
  /-- What is put in is what the new list has. -/
  findId?_new : ∀ n, change.new = some n → change.kind ≠ .deleted ∧ findId? n.id new = some n
  /-- What is taken out stays out only if the new list does not have it. -/
  not_mem_old : ∀ o, change.old = some o →
    o.id ∉ new.map Chunk.id ∨ ∃ n, change.new = some n ∧ n.id = o.id

/-- Carrying out a change that leads to the new list is an exchange of its chunks. -/
theorem LeadsTo.apply_eq {change : ChunkChange} (h : LeadsTo old new change) (byId : Dict Chunk) :
    change.apply byId = exchange (fun c => c) byId change.old change.new := by
  have hkind := h.findId?_new
  obtain ⟨cid, kind, o?, n?, lines⟩ := change
  unfold ChunkChange.apply exchange
  cases n? with
  | none => cases o? <;> rfl
  | some n =>
    simp only [if_neg (hkind n rfl).1]
    cases o? <;> rfl

/-- An exchange leaves the ids that the change does not name. -/
theorem get?_exchange_of_not_names {change : ChunkChange} (h : ¬ Names change id) :
    (exchange record d change.old change.new).get? id = d.get? id := by
  unfold Names at h
  unfold exchange
  obtain ⟨cid, kind, o?, n?, lines⟩ := change
  simp only [not_or, not_exists, not_and] at h
  have hold : (o?.elim d fun c => d.erase c.id).get? id = d.get? id := by
    cases o? with
    | none => rfl
    | some o => exact (Dict.get?_erase ..).trans (if_neg (Ne.symm (h.1 o rfl)))
  cases n? with
  | none => exact hold
  | some n => exact (Dict.get?_insert ..).trans ((if_neg (Ne.symm (h.2 n rfl))).trans hold)

/-- Recording a chunk settles its id if the new list has the same to record. -/
theorem settled_insert {c : Chunk} (h : (findId? c.id new).map record = some (record c))
    (hid : Settled record new d id ∨ c.id = id) :
    Settled record new (d.insert c.id (record c)) id := by
  unfold Settled at hid ⊢
  rw [Dict.get?_insert]
  split
  · next heq => rw [heq, h]
  · next hne => exact hid.resolve_right (Ne.symm hne)

/-- A change that leads to the new list settles the ids it names and spoils no other one. -/
theorem LeadsTo.settled_exchange {change : ChunkChange} (h : LeadsTo old new change)
    (hid : Settled record new d id ∨ Names change id) :
    Settled record new (exchange record d change.old change.new) id := by
  by_cases hnames : Names change id
  · obtain ⟨-, hnew, hold⟩ := h
    obtain ⟨cid, kind, o?, n?, lines⟩ := change
    unfold Names at hnames
    cases n? with
    | none =>
      obtain ⟨o, ho, rfl⟩ := hnames.resolve_right (by simp)
      have hgone : o.id ∉ new.map Chunk.id := (hold o ho).resolve_right (by simp)
      rw [Settled, findId?_eq_none_iff.mpr hgone]
      simp only at ho
      rw [ho]
      exact (Dict.get?_erase ..).trans (if_pos rfl)
    | some n =>
      refine settled_insert (by rw [(hnew n rfl).2]; rfl) ?_
      by_cases hn : n.id = id
      · exact Or.inr hn
      · obtain ⟨o, ho, rfl⟩ := hnames.resolve_right (by simpa using hn)
        have hgone : o.id ∉ new.map Chunk.id := (hold o ho).resolve_right (by simpa using hn)
        simp only at ho
        left
        rw [Settled, findId?_eq_none_iff.mpr hgone, ho]
        exact (Dict.get?_erase ..).trans (if_pos rfl)
  · rw [Settled, get?_exchange_of_not_names hnames]
    exact hid.resolve_right hnames

/-- Recording chunks leaves the ids that none of them has. -/
theorem get?_foldl_insert_of_not_mem (record : Chunk → α) {cs : List Chunk}
    (h : id ∉ cs.map Chunk.id) :
    (cs.foldl (fun d c => d.insert c.id (record c)) d).get? id = d.get? id := by
  induction cs generalizing d with
  | nil => rfl
  | cons c rest ih =>
    rw [List.map_cons, List.mem_cons, not_or] at h
    rw [List.foldl_cons, ih h.2, Dict.get?_insert, if_neg h.1]

end Records

/-! ## Changes of a partition -/

/-- The changes of a diff that accounts for both lists lead from the one to the other. -/
theorem Partitions.leadsTo {d : ChunkDiff} {old new : List Chunk} (h : d.Partitions old new)
    {change : ChunkChange} (hchange : change ∈ d.changes) : LeadsTo old new change := by
  have hmem := List.mem_map_of_mem
    (f := fun c : ChunkChange => (c.id, c.kind, c.old, c.new)) hchange
  rw [h.changes] at hmem
  simp only [List.mem_append, List.mem_map, Prod.mk.injEq] at hmem
  rcases hmem with ((⟨c, hc, -, hkind, ho, hn⟩ | ⟨c, hc, -, hkind, ho, hn⟩) |
    ⟨m, hm, -, hkind, ho, hn⟩) | ⟨m, hm, -, hkind, ho, hn⟩
  · have hfind := (h.added c hc).1
    constructor <;> simp [← hkind, ← ho, ← hn, hfind]
  · obtain ⟨hfind, hgone⟩ := h.deleted c hc
    constructor
    · simpa [← ho] using hfind
    · simp [← hn]
    · simpa [← ho, ← hn] using hgone
  · obtain ⟨hid, hfindOld, hfind, -⟩ := (h.modified m).mp hm
    constructor <;> simp [← hkind, ← ho, ← hn, hfindOld, hfind, hid]
  · have hfind := (h.movedNew m hm).1
    obtain ⟨hfindOld, hgone⟩ := h.movedOld m hm
    constructor
    · simpa [← ho] using hfindOld
    · simp [← hkind, ← hn, hfind]
    · simp only [← ho, Option.some.injEq, forall_eq']
      exact Or.inl hgone

/-- Every id of either list is that of an unchanged chunk or named by a change. -/
theorem Partitions.named {d : ChunkDiff} {old new : List Chunk} (h : d.Partitions old new)
    {id : Bytes} (hid : id ∈ old.map Chunk.id ∨ id ∈ new.map Chunk.id) :
    (∃ c ∈ d.unchanged, c.id = id) ∨ ∃ change ∈ d.changes, Names change id := by
  have hcount : 0 < d.placedIds.count id := by
    rw [h.count_placedIds, if_pos hid]
    exact Nat.one_pos
  have hchange : ∀ t, t ∈ d.changes.map (fun c => (c.id, c.kind, c.old, c.new)) →
      (∃ o, t.2.2.1 = some o ∧ o.id = id) ∨ (∃ n, t.2.2.2 = some n ∧ n.id = id) →
      ∃ change ∈ d.changes, Names change id := by
    intro t ht hnames
    obtain ⟨change, hmem, rfl⟩ := List.mem_map.mp ht
    exact ⟨change, hmem, hnames⟩
  have hmem := List.count_pos_iff.mp hcount
  simp only [placedIds, List.mem_append, List.mem_map] at hmem
  rw [h.changes] at hchange
  simp only [List.mem_append, List.mem_map] at hchange
  rcases hmem with ((((⟨c, hc, hid⟩ | ⟨c, hc, hid⟩) | ⟨c, hc, hid⟩) | ⟨m, hm, hid⟩) |
    ⟨m, hm, hid⟩) | ⟨m, hm, hid⟩
  · exact Or.inr (hchange _ (Or.inl (Or.inl (Or.inl ⟨c, hc, rfl⟩))) (Or.inr ⟨c, rfl, hid⟩))
  · exact Or.inr (hchange _ (Or.inl (Or.inl (Or.inr ⟨c, hc, rfl⟩))) (Or.inl ⟨c, rfl, hid⟩))
  · exact Or.inl ⟨c, hc, hid⟩
  · exact Or.inr (hchange _ (Or.inl (Or.inr ⟨m, hm, rfl⟩)) (Or.inr ⟨m.2, rfl, hid⟩))
  · exact Or.inr (hchange _ (Or.inr ⟨m, hm, rfl⟩) (Or.inl ⟨m.1, rfl, hid⟩))
  · exact Or.inr (hchange _ (Or.inr ⟨m, hm, rfl⟩) (Or.inr ⟨m.2, rfl, hid⟩))

/-- After the changes every id of the lists is settled that is not that of an unchanged chunk, and
so is that of an unchanged chunk that was settled before. Other ids are left. -/
theorem Partitions.get?_foldl_exchange {α : Type} {record : Chunk → α} {d : ChunkDiff}
    {old new : List Chunk} (h : d.Partitions old new) {r : Dict α} (id : Bytes)
    (hunchanged : ∀ c ∈ d.unchanged, c.id = id → Settled record new r id) :
    (d.changes.foldl (fun r change => exchange record r change.old change.new) r).get? id =
      if id ∈ old.map Chunk.id ∨ id ∈ new.map Chunk.id then (findId? id new).map record
      else r.get? id := by
  have hstep : ∀ change ∈ d.changes, ∀ r : Dict α, Settled record new r id ∨ Names change id →
      Settled record new (exchange record r change.old change.new) id :=
    fun change hchange r => (h.leadsTo hchange).settled_exchange
  split
  · next hmem =>
    refine foldl_settles (Settled record new · id) (Names · id) hstep ?_
    exact (h.named hmem).imp_left fun ⟨c, hc, hid⟩ => hunchanged c hc hid
  · next hmem =>
    rw [not_or] at hmem
    refine foldl_settles (fun r' : Dict α => r'.get? id = r.get? id) (fun _ => False)
      (fun change hchange r' hr' => ?_) (Or.inl rfl)
    refine (get?_exchange_of_not_names ?_).trans (hr'.resolve_right not_false)
    rintro (⟨o, ho, rfl⟩ | ⟨n, hn, rfl⟩)
    · exact hmem.1 (exists_findId?_iff.mp ⟨o, (h.leadsTo hchange).findId?_old o ho⟩)
    · exact hmem.2 (exists_findId?_iff.mp ⟨n, ((h.leadsTo hchange).findId?_new n hn).2⟩)

/-- After the changes and the unchanged chunks every id is settled. -/
theorem Partitions.settled {d : ChunkDiff} {old new : List Chunk} (h : d.Partitions old new)
    (id : Bytes) :
    Settled (fun c => c) new
      (d.unchanged.foldl (fun byId c => byId.insert c.id c)
        (d.changes.foldl ChunkChange.apply
          (old.foldl (fun byId c => byId.insert c.id c) Dict.empty))) id := by
  refine foldl_settles (Settled (fun c => c) new · id) (fun c => c.id = id)
    (fun c hc byId => ?_) ?_
  · obtain ⟨o, -, hfind, -⟩ := (h.unchanged c).mp hc
    exact settled_insert (by rw [hfind]; rfl)
  by_cases hid : ∃ c ∈ d.unchanged, c.id = id
  · exact Or.inr hid
  left
  have happly (byId : Dict Chunk) : d.changes.foldl ChunkChange.apply byId =
      d.changes.foldl (fun r change => exchange (fun c => c) r change.old change.new) byId :=
    List.foldl_ext _ _ _ fun r change hchange => (h.leadsTo hchange).apply_eq r
  rw [Settled, happly, h.get?_foldl_exchange id fun c hc hc' => absurd ⟨c, hc, hc'⟩ hid]
  split
  · rfl
  · next hmem =>
    rw [not_or] at hmem
    rw [findId?_eq_none_iff.mpr hmem.2]
    exact get?_foldl_insert_of_not_mem (fun c => c) hmem.1

/-- A diff that accounts for both lists makes the new list of the old one, where the new list is one
of a single file with increasing lines and without repeated ids. -/
theorem Partitions.apply_eq {d : ChunkDiff} {old new : List Chunk} {filePath : Bytes}
    (h : d.Partitions old new) (hids : (new.map Chunk.id).Nodup)
    (hpath : ∀ c ∈ new, c.filePath = filePath)
    (hlines : new.Pairwise fun a b => a.startLine < b.startLine) : d.apply old = new := by
  refine Chunk.sortByPosition_eq_of_perm hpath hlines (Dict.values_perm hids ?_)
  intro id c
  have hsettled := h.settled id
  rw [Settled, Option.map_id'] at hsettled
  rw [← findId?_eq_some_iff_mem hids, ← hsettled]

/-- In any case the first chunk of each id of the new list is left. -/
theorem Partitions.apply_perm {d : ChunkDiff} {old new : List Chunk} (h : d.Partitions old new) :
    (d.apply old).Perm (firstOfEachId [] new) := by
  refine (Chunk.sortByPosition_perm _).trans (Dict.values_perm (nodup_ids_firstOfEachId [] new) ?_)
  intro id c
  have hsettled := h.settled id
  rw [Settled, Option.map_id'] at hsettled
  rw [hsettled, mem_firstOfEachId_iff]
  constructor
  · intro hc
    exact ⟨⟨List.not_mem_nil, (id_of_findId? hc).symm ▸ hc⟩, id_of_findId? hc⟩
  · rintro ⟨⟨-, hc⟩, rfl⟩
    exact hc

/-- Carrying out the diff to the chunks of a text makes these chunks of any chunks. -/
theorem apply_ofChunks {α : Type} [Scalar α] (threshold : α) (old : List Chunk)
    {language : Language} {filePath text : Bytes}
    (hids : ((chunkText language filePath text).map Chunk.id).Nodup) :
    (ofChunks threshold old (chunkText language filePath text)).apply old =
      chunkText language filePath text :=
  (partitions_ofChunks threshold old _).apply_eq hids (fun _ => chunkText_filePath)
    (pairwise_startLine_chunkText language filePath text)

/-- Applying the diff of any chunk list with a text gives the chunks of the text in full, provided
that these have distinct ids. The old chunks may be of any file and language, repeat ids or have ids
that are not theirs. -/
theorem apply_compute {α : Type} [Scalar α] (threshold : α) (old : List Chunk) (text : Bytes)
    (language : Language) (filePath : Bytes)
    (hids : ((chunkText language (resolvePath filePath old) text).map Chunk.id).Nodup) :
    (compute threshold old text language filePath).apply old =
      chunkText language (resolvePath filePath old) text :=
  apply_ofChunks threshold old hids

/-- The chunk of another file in another language, twice over, becomes the two chunks of a text, for
which the path is taken from the first of them. -/
theorem apply_compute_repeated_foreign :
    ((chunkText .python (resolvePath []
      (chunkText .c (bytes "b.c") (bytes "x") ++ chunkText .c (bytes "b.c") (bytes "x")))
      (bytes "def f\n\ndef g\n")).map Chunk.id).Nodup ∧
    (compute (0.85 : Float)
      (chunkText .c (bytes "b.c") (bytes "x") ++ chunkText .c (bytes "b.c") (bytes "x"))
      (bytes "def f\n\ndef g\n") .python []).apply
      (chunkText .c (bytes "b.c") (bytes "x") ++ chunkText .c (bytes "b.c") (bytes "x")) =
    chunkText .python (resolvePath []
      (chunkText .c (bytes "b.c") (bytes "x") ++ chunkText .c (bytes "b.c") (bytes "x")))
      (bytes "def f\n\ndef g\n") := by
  have hids : ((chunkText .python (resolvePath []
      (chunkText .c (bytes "b.c") (bytes "x") ++ chunkText .c (bytes "b.c") (bytes "x")))
      (bytes "def f\n\ndef g\n")).map Chunk.id).Nodup := by
    decide +kernel
  exact ⟨hids, apply_compute _ _ _ _ _ hids⟩

end ChunkDiff

end SourceChunks
