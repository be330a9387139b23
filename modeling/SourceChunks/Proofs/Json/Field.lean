import SourceChunks.Json.Field
import SourceChunks.Proofs.Json.RoundTrip

/-!
# Fields read back

A field that was written from a value that fits it is read as that value.
-/

namespace SourceChunks.Json

/-- A whole number of 32 bits with a sign. -/
structure IsInt32 (i : Int) : Prop where
  /-- It is not below the least one. -/
  low : -(UInt32.size : Int) ≤ i * 2
  /-- It is not above the greatest one. -/
  high : i * 2 < UInt32.size

/-- A number of 32 bits has 64 bits. -/
theorem IsInt32.faithful {i : Int} (h : IsInt32 i) : Faithful (.int i) := by
  obtain ⟨hlow, hhigh⟩ := h
  simp only [UInt32.size] at hlow hhigh
  exact .int (by simp only [UInt64.size]; omega) (by simp only [UInt64.size]; omega)

/-- A number without a sign that has 64 bits can be written. -/
theorem faithful_ofNat {n : Nat} (h : n < UInt64.size) : Faithful (.int n) :=
  .int (by omega) (Int.ofNat_lt.mpr h)

/-- The empty object can be written and read back. -/
theorem faithful_emptyObject : Faithful emptyObject := .object List.Pairwise.nil nofun nofun

/-- An array of well-formed texts can be written. -/
theorem faithful_texts {ts : List Bytes} (h : ∀ t ∈ ts, Bytes.isUtf8 t) :
    Faithful (.array (ts.map .string)) := by
  apply Faithful.array
  intro v hv
  obtain ⟨t, ht, rfl⟩ := List.mem_map.mp hv
  exact .string (h t ht)

/-- An integer of 32 bits is read as itself. -/
theorem int32?_int {i : Int} (h : IsInt32 i) : int32? (.int i) = some i :=
  congrArg some (Int.bmod_eq_of_le_mul_two h.low h.high)

/-- A natural number of 64 bits is read as itself. -/
theorem nat64?_int {n : Nat} (h : n < UInt64.size) : nat64? (.int n) = some n := by
  have hmod : (n : Int).emod UInt64.size = n :=
    Int.emod_eq_of_lt (Int.natCast_nonneg n) (Int.ofNat_lt.mpr h)
  simp only [nat64?, whole?, Option.map_some, hmod, Int.toNat_natCast]

/-- What is written for the elements of a list is read one by one. -/
theorem mapM_map_eq_some_map {α β γ : Type} {read : β → Option γ} {write : α → β} {back : α → γ}
    {l : List α} (h : ∀ a ∈ l, read (write a) = some (back a)) :
    (l.map write).mapM read = some (l.map back) := by
  induction l with
  | nil => rfl
  | cons a rest ih =>
    obtain ⟨hhead, hrest⟩ := List.forall_mem_cons.mp h
    rw [List.map_cons, List.mapM_cons, hhead, ih hrest]
    rfl

/-- A list whose elements can each be read back from what is written for them can be read back as a
whole. -/
theorem mapM_map_eq_some {α β : Type} {read : β → Option α} {write : α → β} {l : List α}
    (h : ∀ a ∈ l, read (write a) = some a) : (l.map write).mapM read = some l :=
  (mapM_map_eq_some_map h).trans (congrArg some (List.map_id' l))

/-- Each element of what is read of a list was read from an element of the list. -/
theorem exists_mem_of_mapM_eq_some {α β : Type} {read : β → Option α} {l : List β} {as : List α}
    (h : l.mapM read = some as) {a : α} (ha : a ∈ as) : ∃ b ∈ l, read b = some a := by
  induction l generalizing as with
  | nil =>
    obtain rfl := Option.some.inj h
    exact absurd ha List.not_mem_nil
  | cons b rest ih =>
    simp only [List.mapM_cons, Option.bind_eq_bind, Option.pure_def, Option.bind_eq_some_iff] at h
    obtain ⟨first, hfirst, others, hothers, heq⟩ := h
    obtain rfl := Option.some.inj heq
    rcases List.mem_cons.mp ha with rfl | ha
    · exact ⟨b, List.mem_cons_self, hfirst⟩
    · obtain ⟨b', hb', hread⟩ := ih hothers ha
      exact ⟨b', List.mem_cons_of_mem _ hb', hread⟩

/-- A list of texts is read as itself. -/
theorem texts?_array (ts : List Bytes) : texts? (.array (ts.map .string)) = some ts :=
  mapM_map_eq_some fun _ _ => rfl

/-! ## Members -/

/-- A look-up among members that were put in one after another finds the last one of its key. -/
theorem get?_foldl_insert_of_mem {ms : List (Bytes × Json)} (hkeys : (ms.map Prod.fst).Nodup)
    {k : Bytes} {v : Json} (h : (k, v) ∈ ms) (acc : Entries Json) :
    Entries.get? k (ms.foldl (fun acc m => Entries.insert m.1 m.2 acc) acc) = some v := by
  have hkeep (rest : List (Bytes × Json)) (acc : Entries Json) (hrest : k ∉ rest.map Prod.fst) :
      Entries.get? k (rest.foldl (fun acc m => Entries.insert m.1 m.2 acc) acc) =
        Entries.get? k acc := by
    induction rest generalizing acc with
    | nil => rfl
    | cons m rest ih =>
      rw [List.map_cons, List.mem_cons, not_or] at hrest
      rw [List.foldl_cons, ih _ hrest.2, Entries.get?_insert, if_neg hrest.1]
  induction ms generalizing acc with
  | nil => exact absurd h List.not_mem_nil
  | cons m rest ih =>
    obtain ⟨hm, hrest⟩ := List.nodup_cons.mp hkeys
    rcases List.mem_cons.mp h with rfl | h
    · rw [List.foldl_cons, hkeep rest _ hm, Entries.get?_insert, if_pos rfl]
    · exact ih hrest h _

/-- A member that an object is built of is found under its key, if no other member has that key. -/
theorem member?_ofMembers {ms : List (Bytes × Json)} (hkeys : (ms.map Prod.fst).Nodup) {k : Bytes}
    {v : Json} (h : (k, v) ∈ ms) : (ofMembers ms).member? k = some v :=
  get?_foldl_insert_of_mem hkeys h []

/-- An object that is built of members has each of them. -/
theorem forall_member?_ofMembers {ms : List (Bytes × Json)} (hkeys : (ms.map Prod.fst).Nodup) :
    ∀ m ∈ ms, (ofMembers ms).member? m.1 = some m.2 := fun _ hm => member?_ofMembers hkeys hm

/-- A required member that is there is read. -/
theorem required?_of_member? {α : Type} {doc v : Json} {key : String}
    (h : doc.member? (bytes key) = some v) (read? : Json → Option α) :
    doc.required? key read? = read? v := by
  rw [required?, h, Option.bind_some]

/-- An optional member that is there is read. -/
theorem optional?_of_member? {α : Type} {doc v : Json} {key : String}
    (h : doc.member? (bytes key) = some v) (read? : Json → Option α) (default : α) :
    doc.optional? key read? default = read? v := by
  have hobject : doc.isObject := by
    cases doc <;> first | rfl | exact absurd h nofun
  rw [optional?, if_pos hobject, h]

/-! ## What fields can be -/

/-- A member of a faithful document is faithful. -/
theorem Faithful.of_member? {doc v : Json} {k : Bytes} (h : Faithful doc)
    (hmember : doc.member? k = some v) : Faithful v := by
  cases h with
  | object sorted _ members_faithful =>
    exact members_faithful _ (sorted.get?_eq_some_iff.mp hmember)
  | null | bool | int | double | string | array => exact absurd hmember nofun

/-- What a walk through a faithful document meets is faithful. -/
theorem Faithful.of_mem_elements {doc v : Json} (h : Faithful doc) (hv : v ∈ doc.elements) :
    Faithful v := by
  cases h with
  | null => exact absurd hv List.not_mem_nil
  | bool b => exact List.mem_singleton.mp hv ▸ .bool b
  | int low high => exact List.mem_singleton.mp hv ▸ .int low high
  | double readsBack => exact List.mem_singleton.mp hv ▸ .double readsBack
  | string utf8 => exact List.mem_singleton.mp hv ▸ .string utf8
  | array items_faithful => exact items_faithful v hv
  | object _ _ members_faithful =>
    obtain ⟨m, hm, rfl⟩ := List.mem_map.mp hv
    exact members_faithful m hm

/-- What is read from each faithful value holds for what is read from a member that must be there.
-/
theorem Faithful.of_required? {α : Type} {p : α → Prop} {doc : Json} {key : String}
    {read? : Json → Option α} {a : α} (h : Faithful doc) (hread : doc.required? key read? = some a)
    (hp : ∀ v a, Faithful v → read? v = some a → p a) : p a := by
  obtain ⟨v, hmember, hv⟩ := Option.bind_eq_some_iff.mp hread
  exact hp v a (h.of_member? hmember) hv

/-- It holds for what is read from a member that may be missing, if it holds for the default. -/
theorem Faithful.of_optional? {α : Type} {p : α → Prop} {doc : Json} {key : String}
    {read? : Json → Option α} {default a : α} (h : Faithful doc)
    (hread : doc.optional? key read? default = some a)
    (hp : ∀ v a, Faithful v → read? v = some a → p a) (hdefault : p default) : p a := by
  unfold optional? at hread
  split at hread
  · split at hread
    · obtain rfl := Option.some.inj hread
      exact hdefault
    · next v hmember => exact hp v a (h.of_member? hmember) hread
  · exact absurd hread nofun

/-- The text of a faithful string is well-formed. -/
theorem isUtf8_of_text? (v : Json) (t : Bytes) (h : Faithful v) (hread : v.text? = some t) :
    Bytes.isUtf8 t := by
  cases h with
  | string utf8 =>
    obtain rfl := Option.some.inj hread
    exact utf8
  | null | bool | int | double | array | object => exact absurd hread nofun

/-- The texts of a faithful array are well-formed. -/
theorem isUtf8_of_texts? (v : Json) (ts : List Bytes) (h : Faithful v)
    (hread : v.texts? = some ts) :
    ∀ t ∈ ts, Bytes.isUtf8 t := by
  cases h with
  | @array items items_faithful =>
    intro t ht
    obtain ⟨v, hv, htext⟩ := exists_mem_of_mapM_eq_some hread ht
    exact isUtf8_of_text? v t (items_faithful v hv) htext
  | null | bool | int | double | string | object => exact absurd hread nofun

/-- A field of 32 bits with a sign has 32 bits. -/
theorem isInt32_of_int32? (v : Json) (i : Int) (hread : v.int32? = some i) : IsInt32 i := by
  have hwrap (n : Int) : IsInt32 (n.bmod UInt32.size) := by
    have hlow := Int.le_bmod (x := n) (m := UInt32.size) (by decide)
    have hhigh := Int.bmod_lt (x := n) (m := UInt32.size) (by decide)
    simp only [UInt32.size] at hlow hhigh ⊢
    constructor <;> simp only [UInt32.size] <;> omega
  cases v with
  | bool b =>
    obtain rfl := Option.some.inj hread
    cases b <;> constructor <;> decide
  | int n =>
    obtain rfl := Option.some.inj hread
    exact hwrap n
  | double x =>
    obtain rfl := Option.some.inj hread
    exact hwrap x.truncate
  | null | string | array | object => exact absurd hread nofun

/-- A field of 64 bits without a sign has 64 bits. -/
theorem lt_of_nat64? (v : Json) (n : Nat) (hread : v.nat64? = some n) : n < UInt64.size := by
  obtain ⟨i, -, rfl⟩ := Option.map_eq_some_iff.mp hread
  have hnonneg : 0 ≤ i.emod UInt64.size := Int.emod_nonneg i (by decide)
  exact (Int.toNat_lt hnonneg).mpr (Int.emod_lt_of_pos i (by decide))

end SourceChunks.Json
