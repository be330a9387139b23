import SourceChunks.Bytes.Order

/-!
# Dictionaries ordered by key

A dictionary from byte strings to values is the list of its entries in strictly increasing order of
their keys. Each finite map then has exactly one representation, so two dictionaries that answer
every look-up alike are equal, and walking one visits its keys in byte order.

Main statements: `get?_insert` and `get?_erase` say what a look-up finds after a change.
-/

namespace SourceChunks

/-- Keyed values, one after another. -/
abbrev Entries (α : Type) := List (Bytes × α)

namespace Entries

variable {α : Type}

/-- The first value under a key. -/
def get? (k : Bytes) : Entries α → Option α
  | [] => none
  | (k', v) :: rest => if k = k' then some v else get? k rest

/-- Put a value under a key, replacing the one that is there, and keep the order of the keys. -/
def insert (k : Bytes) (v : α) : Entries α → Entries α
  | [] => [(k, v)]
  | (k', v') :: rest =>
    match Bytes.order k k' with
    | .lt => (k, v) :: (k', v') :: rest
    | .eq => (k, v) :: rest
    | .gt => (k', v') :: insert k v rest

/-- Remove every value under a key. -/
def erase (k : Bytes) (es : Entries α) : Entries α := es.filter fun e => e.1 ≠ k

/-- The keys are strictly increasing. -/
def Sorted (es : Entries α) : Prop := es.Pairwise fun a b => a.1 < b.1

/-- An entry after an insertion is the new one or was there before. -/
theorem mem_insert {k : Bytes} {v : α} {es : Entries α} {e : Bytes × α}
    (h : e ∈ insert k v es) : e = (k, v) ∨ e ∈ es := by
  induction es with
  | nil => exact Or.inl (List.mem_singleton.mp h)
  | cons e' rest ih =>
    simp only [insert] at h
    split at h
    · simpa using h
    · rcases List.mem_cons.mp h with h | h
      · exact Or.inl h
      · exact Or.inr (List.mem_cons_of_mem _ h)
    · rcases List.mem_cons.mp h with h | h
      · exact Or.inr (List.mem_cons.mpr (Or.inl h))
      · exact (ih h).imp_right (List.mem_cons_of_mem _)

/-- Insertion keeps the keys strictly increasing. -/
theorem Sorted.insert {es : Entries α} (h : Sorted es) (k : Bytes) (v : α) :
    Sorted (es.insert k v) := by
  induction es with
  | nil => exact List.pairwise_singleton _ _
  | cons e rest ih =>
    obtain ⟨hhead, hrest⟩ := List.pairwise_cons.mp h
    simp only [Entries.insert]
    split
    · next hlt =>
      refine List.pairwise_cons.mpr ⟨?_, h⟩
      intro e' he'
      rcases List.mem_cons.mp he' with rfl | he'
      · exact Bytes.order_eq_lt_iff.mp hlt
      · exact List.lt_trans (Bytes.order_eq_lt_iff.mp hlt) (hhead e' he')
    · next heq =>
      obtain rfl := Bytes.order_eq_eq_iff.mp heq
      exact List.pairwise_cons.mpr ⟨hhead, hrest⟩
    · next hgt =>
      refine List.pairwise_cons.mpr ⟨?_, ih hrest⟩
      intro e' he'
      rcases mem_insert he' with rfl | he'
      · exact Bytes.order_eq_gt_iff.mp hgt
      · exact hhead e' he'

/-- Removal keeps the keys strictly increasing. -/
theorem Sorted.erase {es : Entries α} (h : Sorted es) (k : Bytes) : Sorted (es.erase k) :=
  h.sublist List.filter_sublist

/-- After an insertion a look-up finds the new value under its key and the old one elsewhere. -/
theorem get?_insert (es : Entries α) (k k' : Bytes) (v : α) :
    get? k' (insert k v es) = if k' = k then some v else get? k' es := by
  induction es with
  | nil => rfl
  | cons e rest ih =>
    simp only [insert]
    split
    · rfl
    · next heq =>
      obtain rfl := Bytes.order_eq_eq_iff.mp heq
      simp only [get?]
      split <;> rfl
    · next hgt =>
      have hne : k ≠ e.1 := fun hk => List.lt_irrefl k (by
        have := Bytes.order_eq_gt_iff.mp hgt
        rwa [← hk] at this)
      simp only [get?, ih]
      by_cases hk : k' = e.1
      · simp [hk, Ne.symm hne]
      · simp [hk]

/-- After a removal a look-up finds nothing under that key and the old value elsewhere. -/
theorem get?_erase (es : Entries α) (k k' : Bytes) :
    get? k' (erase k es) = if k' = k then none else get? k' es := by
  induction es with
  | nil => simp [erase, get?]
  | cons e rest ih =>
    simp only [erase, List.filter_cons]
    by_cases hk : e.1 = k
    · have htail : get? k' (List.filter (fun e => decide (e.1 ≠ k)) rest) =
          if k' = k then none else get? k' rest := ih
      simp only [hk, ne_eq, not_true_eq_false, decide_false, Bool.false_eq_true, if_false, htail,
        get?]
      split <;> rfl
    · have htail : get? k' (List.filter (fun e => decide (e.1 ≠ k)) rest) =
          if k' = k then none else get? k' rest := ih
      simp only [hk, ne_eq, not_false_eq_true, decide_true, if_true, get?, htail]
      by_cases hk' : k' = e.1
      · simp [hk', hk]
      · simp [hk']

end Entries

/-- A finite map from byte strings, listed in the order of its keys. -/
structure Dict (α : Type) where
  /-- The entries. -/
  entries : Entries α
  /-- Their keys are strictly increasing. -/
  sorted : entries.Sorted

namespace Dict

variable {α β : Type}

instance : Inhabited (Dict α) := ⟨⟨[], List.Pairwise.nil⟩⟩

instance [DecidableEq α] : DecidableEq (Dict α) := fun a b =>
  if h : a.entries = b.entries then isTrue (by cases a; cases b; simp_all)
  else isFalse (fun hab => h (hab ▸ rfl))

/-- The dictionary without entries. -/
def empty : Dict α := ⟨[], List.Pairwise.nil⟩

/-- The value under a key. -/
def get? (d : Dict α) (k : Bytes) : Option α := d.entries.get? k

/-- Whether a key has a value. -/
def contains (d : Dict α) (k : Bytes) : Bool := (d.get? k).isSome

/-- Put a value under a key. -/
def insert (d : Dict α) (k : Bytes) (v : α) : Dict α := ⟨d.entries.insert k v, d.sorted.insert k v⟩

/-- Remove a key. -/
def erase (d : Dict α) (k : Bytes) : Dict α := ⟨d.entries.erase k, d.sorted.erase k⟩

/-- Change the value under a key, starting from a default where there is none. -/
def modify (d : Dict α) (k : Bytes) (default : α) (f : α → α) : Dict α :=
  d.insert k (f ((d.get? k).getD default))

/-- Keep the entries that satisfy a test. -/
def filter (d : Dict α) (p : Bytes → α → Bool) : Dict α :=
  ⟨d.entries.filter fun e => p e.1 e.2, d.sorted.sublist List.filter_sublist⟩

/-- The number of keys. -/
def size (d : Dict α) : Nat := d.entries.length

/-- The keys in byte order. -/
def keys (d : Dict α) : List Bytes := d.entries.map Prod.fst

/-- The values in the byte order of their keys. -/
def values (d : Dict α) : List α := d.entries.map Prod.snd

/-- The dictionary of a list of entries; of two under one key the later one counts. -/
def ofList (es : List (Bytes × α)) : Dict α := es.foldl (fun d e => d.insert e.1 e.2) empty

/-- The empty dictionary holds no key. -/
@[simp] theorem get?_empty (k : Bytes) : (empty : Dict α).get? k = none := rfl

/-- An insertion sets the one key and leaves the others as they were. -/
theorem get?_insert (d : Dict α) (k k' : Bytes) (v : α) :
    (d.insert k v).get? k' = if k' = k then some v else d.get? k' :=
  Entries.get?_insert d.entries k k' v

/-- An erasure removes the one key and leaves the others as they were. -/
theorem get?_erase (d : Dict α) (k k' : Bytes) :
    (d.erase k).get? k' = if k' = k then none else d.get? k' :=
  Entries.get?_erase d.entries k k'

end Dict

end SourceChunks
