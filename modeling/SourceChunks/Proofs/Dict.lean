import Mathlib.Data.List.Nodup
import Mathlib.Data.List.Perm.Basic
import SourceChunks.Dict

/-!
# Dictionaries as finite maps

A dictionary is known by its look-ups: an entry stands in its list exactly if a look-up finds it,
and two dictionaries that answer every look-up alike are one. What walks the entries of a
dictionary can therefore be told from look-ups alone.
-/

namespace SourceChunks

namespace Entries

variable {α : Type}

/-- No key of a sorted list comes before itself, so a head is not repeated further on. -/
theorem Sorted.head_ne {e e' : Bytes × α} {rest : Entries α} (h : Sorted (e :: rest))
    (he' : e' ∈ rest) : e'.1 ≠ e.1 := by
  intro heq
  have hlt := (List.pairwise_cons.mp h).1 e' he'
  exact List.lt_irrefl e.1 (heq ▸ hlt)

/-- If no key is repeated, an entry is what a look-up of its key finds, and conversely. -/
theorem get?_eq_some_iff {es : Entries α} (h : (es.map Prod.fst).Nodup) {k : Bytes} {v : α} :
    get? k es = some v ↔ (k, v) ∈ es := by
  induction es with
  | nil => simp [get?]
  | cons e rest ih =>
    rw [List.map_cons, List.nodup_cons] at h
    have ih := ih h.2
    by_cases hk : k = e.1
    · subst hk
      simp only [get?, if_true, Option.some.injEq, List.mem_cons]
      constructor
      · rintro rfl
        exact Or.inl rfl
      · rintro (hv | hv)
        · exact (congrArg Prod.snd hv).symm
        · exact absurd (List.mem_map_of_mem hv) h.1
    · simp only [get?, if_neg hk, ih, List.mem_cons]
      constructor
      · exact Or.inr
      · rintro (hv | hv)
        · exact absurd (congrArg Prod.fst hv) hk
        · exact hv

/-- The keys of a sorted list are distinct. -/
theorem Sorted.nodup_keys {es : Entries α} (h : Sorted es) : (es.map Prod.fst).Nodup := by
  refine List.pairwise_map.mpr (h.imp ?_)
  intro e e' hlt heq
  exact List.lt_irrefl _ (heq ▸ hlt)

/-- An entry of a sorted list is what a look-up of its key finds, and conversely. -/
theorem Sorted.get?_eq_some_iff {es : Entries α} (h : Sorted es) {k : Bytes} {v : α} :
    get? k es = some v ↔ (k, v) ∈ es := Entries.get?_eq_some_iff h.nodup_keys

/-- A sorted list is determined by its members, since they leave only one order. -/
theorem Sorted.eq_of_perm {es es' : Entries α} (h : Sorted es) (h' : Sorted es')
    (hperm : es.Perm es') : es = es' := by
  refine hperm.eq_of_pairwise ?_ h h'
  intro a b _ _ hab hba
  exact absurd (List.lt_trans hab hba) (List.lt_irrefl a.1)

/-- Sorted lists that answer every look-up alike are equal. -/
theorem Sorted.ext {es es' : Entries α} (h : Sorted es) (h' : Sorted es')
    (hget : ∀ k, get? k es = get? k es') : es = es' := by
  refine h.eq_of_perm h' ((List.perm_ext_iff_of_nodup ?_ ?_).mpr ?_)
  · exact h.nodup_keys.of_map _
  · exact h'.nodup_keys.of_map _
  · rintro ⟨k, v⟩
    rw [← h.get?_eq_some_iff, ← h'.get?_eq_some_iff, hget]

/-- A look-up among the entries that satisfy a test finds the entry if it satisfies the test. -/
theorem Sorted.get?_filter {es : Entries α} (h : Sorted es) (p : Bytes × α → Bool) (k : Bytes) :
    get? k (es.filter p) = (get? k es).filter fun v => p (k, v) := by
  have hfilter : Sorted (es.filter p) := h.sublist List.filter_sublist
  ext v
  rw [hfilter.get?_eq_some_iff, List.mem_filter, ← h.get?_eq_some_iff, Option.filter_eq_some_iff]

/-- A look-up finds something exactly under the keys. -/
theorem isSome_get?_iff {es : Entries α} {k : Bytes} :
    (get? k es).isSome ↔ k ∈ es.map Prod.fst := by
  induction es with
  | nil => simp [get?]
  | cons e rest ih =>
    rw [get?, List.map_cons, List.mem_cons, ← ih]
    split
    · next heq => exact iff_of_true rfl (Or.inl heq)
    · next hne => exact (or_iff_right hne).symm

/-- The values of a sorted list are the one under a key and those that stay without the key. -/
theorem Sorted.values_perm_erase {es : Entries α} (h : Sorted es) (k : Bytes) :
    (es.map Prod.snd).Perm ((get? k es).toList ++ (es.erase k).map Prod.snd) := by
  induction es with
  | nil => exact .refl _
  | cons e rest ih =>
    have ih := ih (List.pairwise_cons.mp h).2
    by_cases hk : k = e.1
    · subst hk
      have hrest : Entries.erase e.1 (e :: rest) = rest := by
        rw [Entries.erase, List.filter_cons_of_neg (by simp)]
        refine List.filter_eq_self.mpr ?_
        intro e' he'
        exact decide_eq_true (h.head_ne he')
      rw [hrest, get?, if_pos rfl]
      exact .refl _
    · have hrest : Entries.erase k (e :: rest) = e :: Entries.erase k rest :=
        List.filter_cons_of_pos (decide_eq_true (Ne.symm hk))
      rw [hrest, get?, if_neg hk]
      exact (ih.cons e.2).trans List.perm_middle.symm

/-- A key beyond all keys of a list is put at its end. -/
theorem insert_of_forall_lt {es : Entries α} {k : Bytes} (v : α) (h : ∀ e ∈ es, e.1 < k) :
    insert k v es = es ++ [(k, v)] := by
  induction es with
  | nil => rfl
  | cons e rest ih =>
    obtain ⟨hhead, hrest⟩ := List.forall_mem_cons.mp h
    have hgt : Bytes.order k e.1 = .gt := Bytes.order_eq_gt_iff.mpr hhead
    simp only [insert, hgt, ih hrest, List.cons_append]

/-- A sorted list comes back when its entries are put in one after another. -/
theorem Sorted.foldl_insert {es : Entries α} (h : Sorted es) :
    es.foldl (fun acc e => Entries.insert e.1 e.2 acc) [] = es := by
  have hgeneral (acc : Entries α) (hacc : Sorted (acc ++ es)) :
      es.foldl (fun acc e => Entries.insert e.1 e.2 acc) acc = acc ++ es := by
    clear h
    induction es generalizing acc with
    | nil => exact (List.append_nil acc).symm
    | cons e rest ih =>
      have hlt : ∀ a ∈ acc, a.1 < e.1 := fun a ha =>
        (List.pairwise_append.mp hacc).2.2 a ha e (List.mem_cons_self ..)
      rw [List.append_cons] at hacc ⊢
      rw [List.foldl_cons, insert_of_forall_lt e.2 hlt]
      exact ih _ hacc
  exact hgeneral [] h

end Entries

namespace Dict

variable {α : Type}

/-- Dictionaries that answer every look-up alike are equal. -/
theorem ext_get? {d d' : Dict α} (h : ∀ k, d.get? k = d'.get? k) : d = d' := by
  obtain ⟨es, hes⟩ := d
  obtain ⟨es', hes'⟩ := d'
  obtain rfl : es = es' := hes.ext hes' h
  rfl

/-- A look-up finds exactly the entries. -/
theorem get?_eq_some_iff {d : Dict α} {k : Bytes} {v : α} :
    d.get? k = some v ↔ (k, v) ∈ d.entries := d.sorted.get?_eq_some_iff

/-- After all entries of a sorted list have been put in, a look-up finds these first. -/
theorem get?_foldl_insert {es : Entries α} (h : Entries.Sorted es) (d : Dict α) (k : Bytes) :
    (es.foldl (fun d e => d.insert e.1 e.2) d).get? k = (Entries.get? k es).or (d.get? k) := by
  induction es generalizing d with
  | nil => rfl
  | cons e rest ih =>
    rw [List.foldl_cons, ih (List.pairwise_cons.mp h).2, get?_insert]
    simp only [Entries.get?]
    by_cases hk : k = e.1
    · have hnone : Entries.get? k rest = none := by
        by_contra hsome
        obtain ⟨e', he', hkey⟩ :=
          List.mem_map.mp (Entries.isSome_get?_iff.mp (Option.isSome_iff_ne_none.mpr hsome))
        exact h.head_ne he' (hkey.trans hk)
      rw [if_pos hk, if_pos hk, hnone, Option.none_or, Option.some_or]
    · rw [if_neg hk, if_neg hk]

/-- A dictionary comes back from its entries. -/
theorem ofList_entries (d : Dict α) : ofList d.entries = d := by
  apply ext_get?
  intro k
  rw [ofList, get?_foldl_insert d.sorted, get?_empty, Option.or_none]
  rfl

/-- The values are what look-ups find. -/
theorem mem_values_iff {d : Dict α} {v : α} : v ∈ d.values ↔ ∃ k, d.get? k = some v := by
  simp [values, get?_eq_some_iff]

/-- The keys are where look-ups find something. -/
theorem mem_keys_iff {d : Dict α} {k : Bytes} : k ∈ d.keys ↔ ∃ v, d.get? k = some v := by
  simp [keys, get?_eq_some_iff]

/-- A dictionary contains exactly its keys. -/
theorem contains_iff_mem_keys {d : Dict α} {k : Bytes} : d.contains k ↔ k ∈ d.keys := by
  rw [mem_keys_iff, contains, Option.isSome_iff_exists]

/-- An insertion adds its key and no other. -/
theorem contains_insert_iff {d : Dict α} {k k' : Bytes} {v : α} :
    (d.insert k v).contains k' ↔ k' = k ∨ d.contains k' := by
  rw [contains, get?_insert]
  split
  · next heq => exact iff_of_true rfl (.inl heq)
  · next hne => exact (or_iff_right hne).symm

/-- An erasure takes its key out and no other. -/
theorem contains_erase_iff {d : Dict α} {k k' : Bytes} :
    (d.erase k).contains k' ↔ d.contains k' ∧ k' ≠ k := by
  rw [contains, get?_erase]
  split
  · next heq => exact iff_of_false nofun fun h => h.2 heq
  · next hne => exact (and_iff_left hne).symm

/-- Putting something under the keys of a list adds these keys. -/
theorem contains_foldl_insert_iff {β : Type} {key : β → Bytes} {value : β → α} {l : List β}
    {d : Dict α} {k : Bytes} :
    (l.foldl (fun d x => d.insert (key x) (value x)) d).contains k ↔
      d.contains k ∨ k ∈ l.map key := by
  induction l generalizing d with
  | nil => simp
  | cons x rest ih =>
    rw [List.foldl_cons, ih, contains_insert_iff, List.map_cons, List.mem_cons, or_assoc,
      or_left_comm]

/-- Removing the keys of a list leaves the others. -/
theorem contains_foldl_erase_iff {β : Type} {key : β → Bytes} {l : List β} {d : Dict α}
    {k : Bytes} :
    (l.foldl (fun d x => d.erase (key x)) d).contains k ↔ d.contains k ∧ k ∉ l.map key := by
  induction l generalizing d with
  | nil => simp
  | cons x rest ih =>
    rw [List.foldl_cons, ih, contains_erase_iff, List.map_cons, List.mem_cons, not_or, and_assoc]

/-- A filter looks a key up and then tests what it finds. -/
theorem get?_filter (d : Dict α) (p : Bytes → α → Bool) (k : Bytes) :
    (d.filter p).get? k = (d.get? k).filter (p k) :=
  d.sorted.get?_filter (fun e => p e.1 e.2) k

/-- Keys come in strictly increasing order. -/
theorem pairwise_keys (d : Dict α) : d.keys.Pairwise (· < ·) := List.pairwise_map.mpr d.sorted

/-- Dictionaries with values under the same keys have the same list of keys. -/
theorem keys_eq_of_isSome {β : Type} {d : Dict α} {d' : Dict β}
    (h : ∀ k, (d.get? k).isSome = (d'.get? k).isSome) : d.keys = d'.keys := by
  have hperm : d.keys.Perm d'.keys := by
    refine (List.perm_ext_iff_of_nodup d.sorted.nodup_keys d'.sorted.nodup_keys).mpr ?_
    intro k
    rw [← keys, ← keys, mem_keys_iff, mem_keys_iff, ← Option.isSome_iff_exists, h k,
      Option.isSome_iff_exists]
  refine hperm.eq_of_pairwise ?_ d.pairwise_keys d'.pairwise_keys
  intro a b _ _ hab hba
  exact absurd (List.lt_trans hab hba) (List.lt_irrefl a)

/-- There are as many keys as entries. -/
theorem length_keys (d : Dict α) : d.keys.length = d.size := List.length_map _

/-- Without the keys of the entries that satisfy a test those are left that do not. -/
theorem get?_filter_not (d : Dict α) (p : α → Bool) (k : Bytes) :
    (d.filter fun _ v => !p v).get? k =
      if k ∈ (d.filter fun _ v => p v).keys then none else d.get? k := by
  simp only [mem_keys_iff, get?_filter, Option.filter_eq_some_iff]
  cases hk : d.get? k with
  | none => simp
  | some v => cases hp : p v <;> simp [hp]

/-- Where each value tells its key, the values are a rearrangement of any list without repeated keys
that look-ups find the elements of. -/
theorem values_perm {d : Dict α} {key : α → Bytes} {l : List α} (hl : (l.map key).Nodup)
    (hget : ∀ k v, d.get? k = some v ↔ v ∈ l ∧ key v = k) : d.values.Perm l := by
  have hkeys : d.values.map key = d.keys := by
    simp only [values, keys, List.map_map]
    apply List.map_congr_left
    intro e he
    exact ((hget e.1 e.2).mp (get?_eq_some_iff.mpr he)).2
  have hvalues : (d.values.map key).Nodup := by
    rw [hkeys]
    exact d.sorted.nodup_keys
  apply (List.perm_ext_iff_of_nodup (hvalues.of_map key) (hl.of_map key)).mpr
  intro v
  rw [mem_values_iff]
  constructor
  · rintro ⟨k, hk⟩
    exact ((hget k v).mp hk).1
  · intro hv
    exact ⟨key v, (hget _ v).mpr ⟨hv, rfl⟩⟩

/-- The values are the one under a key and those that stay without the key. -/
theorem values_perm_erase (d : Dict α) (k : Bytes) :
    d.values.Perm ((d.get? k).toList ++ (d.erase k).values) := d.sorted.values_perm_erase k

/-- A value that is put in comes to the others and replaces the one under its key. -/
theorem values_insert_perm (d : Dict α) (k : Bytes) (v : α) :
    ((d.get? k).toList ++ (d.insert k v).values).Perm (v :: d.values) := by
  have herase : (d.insert k v).erase k = d.erase k := by
    apply ext_get?
    intro k'
    rw [get?_erase, get?_erase, get?_insert]
    split <;> rfl
  have hnew := (d.insert k v).values_perm_erase k
  rw [get?_insert, if_pos rfl, herase] at hnew
  have hold := d.values_perm_erase k
  exact (hnew.append_left _).trans (List.perm_middle.trans (hold.symm.cons v))

end Dict

end SourceChunks
