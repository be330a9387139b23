import SourceChunks.Proofs.Dict
import SourceChunks.Proofs.Json.Tokens

/-!
# Documents read back

A document that is written in any layout is read back as the same document, provided that its texts
are well-formed, its whole numbers have 64 bits and its doubles come back from their digits. The
text of each value spells that value wherever it stands, so the texts of items and members can be
put together.
-/

namespace SourceChunks.Json

/-- A double that comes back from its digits. -/
def ReadsBack (x : Binary64) : Prop :=
  ∀ tail, EndsNumber tail → readNumber (doubleText x ++ tail) = some (.double x, tail)

/-- What is read as a number is the value of some parts of a number. -/
theorem exists_numberValue?_eq {t rest : Bytes} {v : Json} (h : readNumber t = some (v, rest)) :
    ∃ negative whole fraction exponent, numberValue? negative whole fraction exponent = some v := by
  have hmagnitude (negative : Bool) (t : Bytes) (h : readMagnitude negative t = some (v, rest)) :
      ∃ negative whole fraction exponent,
        numberValue? negative whole fraction exponent = some v := by
    obtain ⟨⟨whole, t⟩, -, h⟩ := Option.bind_eq_some_iff.mp h
    obtain ⟨-, h⟩ := Option.ite_none_left_eq_some.mp h
    obtain ⟨⟨fraction, t⟩, -, h⟩ := Option.bind_eq_some_iff.mp h
    obtain ⟨⟨exponent, t⟩, -, h⟩ := Option.bind_eq_some_iff.mp h
    obtain ⟨value, hvalue, h⟩ := Option.bind_eq_some_iff.mp h
    obtain ⟨rfl, -⟩ := Prod.mk.inj (Option.some.inj h)
    exact ⟨negative, whole, fraction, exponent, hvalue⟩
  unfold readNumber at h
  split at h
  · exact hmagnitude true _ h
  · exact hmagnitude false _ h

/-- A double that comes back from its digits is finite. -/
theorem ReadsBack.isFinite {x : Binary64} (h : ReadsBack x) : x.isFinite := by
  obtain ⟨negative, whole, fraction, exponent, hvalue⟩ :=
    exists_numberValue?_eq (h [] endsNumber_nil)
  unfold numberValue? at hvalue
  grind

/-- A document that can be written and read back. -/
inductive Faithful : Json → Prop where
  | null : Faithful .null
  | bool (b : Bool) : Faithful (.bool b)
  | int {i : Int} (low : -(2 * i) ≤ UInt64.size) (high : i < UInt64.size) : Faithful (.int i)
  | double {x : Binary64} (readsBack : ReadsBack x) : Faithful (.double x)
  | string {t : Bytes} (utf8 : Bytes.isUtf8 t) : Faithful (.string t)
  | array {items : List Json} (items_faithful : ∀ v ∈ items, Faithful v) : Faithful (.array items)
  | object {members : Entries Json} (sorted : members.Sorted)
      (keys_utf8 : ∀ m ∈ members, Bytes.isUtf8 m.1)
      (members_faithful : ∀ m ∈ members, Faithful m.2) : Faithful (.object members)

/-! ## White space -/

/-- White space as it stands between the parts of a document. -/
def Gap (t : Bytes) : Prop := ∀ b ∈ t, b = 0x20 ∨ b = Bytes.newline

/-- No white space is white space. -/
theorem gap_nil : Gap [] := nofun

/-- A line break of a layout is white space. -/
theorem gap_lineBreak (l : Layout) (level : Nat) : Gap (l.lineBreak level) := by
  unfold Layout.lineBreak
  split
  · exact gap_nil
  · exact List.forall_mem_cons.mpr ⟨Or.inr rfl, fun b hb => Or.inl (List.mem_replicate.mp hb).2⟩

/-- A gap is passed over. -/
theorem Gap.skipSpace_append {gap : Bytes} (h : Gap gap) (t : Bytes) :
    skipSpace (gap ++ t) = skipSpace t := by
  apply List.dropWhile_append_of_pos
  intro b hb
  rcases h b hb with rfl | rfl <;> rfl

/-- A gap ends a number if what follows it does. -/
theorem Gap.endsNumber_append {gap t : Bytes} (h : Gap gap) (ht : EndsNumber t) :
    EndsNumber (gap ++ t) := by
  cases gap with
  | nil => exact ht
  | cons b rest =>
    refine endsNumber_cons _ ?_
    rcases h b (List.mem_cons_self ..) with rfl | rfl <;> decide

/-- A value may stand behind a gap. -/
theorem Gap.readValue_append {gap : Bytes} (h : Gap gap) (fuel : Nat) (t : Bytes) :
    readValue fuel (gap ++ t) = readValue fuel t := by
  cases fuel with
  | zero => rfl
  | succ fuel => rw [readValue.eq_2, readValue.eq_2, h.skipSpace_append]

/-- Items may stand behind a gap. -/
theorem Gap.readItems_append {gap : Bytes} (h : Gap gap) (fuel : Nat) (t : Bytes) :
    readItems fuel (gap ++ t) = readItems fuel t := by
  cases fuel with
  | zero => rfl
  | succ fuel => rw [readItems.eq_2, readItems.eq_2, h.readValue_append]

/-- Members may stand behind a gap. -/
theorem Gap.readMembers_append {gap : Bytes} (h : Gap gap) (fuel : Nat) (t : Bytes) :
    readMembers fuel (gap ++ t) = readMembers fuel t := by
  cases fuel with
  | zero => rfl
  | succ fuel => rw [readMembers.eq_2, readMembers.eq_2, h.skipSpace_append]

/-! ## Texts of values -/

/-- A byte that the text of a value may begin with: no white space, no closing bracket and no byte
order mark. -/
def StartsValue (b : UInt8) : Prop :=
  b ≠ 0x20 ∧ b ≠ 0x09 ∧ b ≠ 0x0A ∧ b ≠ 0x0D ∧ b ≠ 0x5D ∧ b ≠ 0xEF

instance : DecidablePred StartsValue := fun b =>
  inferInstanceAs (Decidable (b ≠ 0x20 ∧ b ≠ 0x09 ∧ b ≠ 0x0A ∧ b ≠ 0x0D ∧ b ≠ 0x5D ∧ b ≠ 0xEF))

/-- A text that is read as a value wherever nothing follows that would go on a number. -/
structure Spells (text : Bytes) (v : Json) : Prop where
  /-- The text begins like one of a value. -/
  starts : ∃ b rest, text = b :: rest ∧ StartsValue b
  /-- Reading takes all of the text and nothing more. -/
  reads : ∀ fuel tail, text.length ≤ fuel → EndsNumber tail →
    readValue fuel (text ++ tail) = some (v, tail)

/-- A text that begins a value and is read as one with any fuel for what is left of it. -/
theorem Spells.of_readValue {b : UInt8} {rest : Bytes} {v : Json} (hstart : StartsValue b)
    (h : ∀ fuel tail, rest.length ≤ fuel → EndsNumber tail →
      readValue (fuel + 1) (b :: (rest ++ tail)) = some (v, tail)) : Spells (b :: rest) v where
  starts := ⟨b, rest, rfl, hstart⟩
  reads := by
    intro fuel tail hfuel htail
    rw [List.length_cons] at hfuel
    obtain ⟨fuel, rfl⟩ := Nat.exists_eq_add_of_le' (by omega : 1 ≤ fuel)
    exact h fuel tail (by omega) htail

/-- There is no white space before the text of a value. -/
theorem skipSpace_of_startsValue {b : UInt8} (h : StartsValue b) (t : Bytes) :
    skipSpace (b :: t) = b :: t := by
  obtain ⟨h20, h09, h0A, h0D, -, -⟩ := h
  exact List.dropWhile_cons_of_neg (by simp [h20, h09, h0A, h0D])

/-- A number begins with a minus sign or a digit. -/
theorem start_of_readNumber {t : Bytes} {r : Json × Bytes} (h : readNumber t = some r) :
    ∃ b rest, t = b :: rest ∧ (b = 0x2D ∨ Bytes.isDigit b) := by
  cases t with
  | nil =>
    have hnone : (none : Option (Json × Bytes)) = some r := h
    cases hnone
  | cons b rest =>
    refine ⟨b, rest, rfl, ?_⟩
    by_contra hstart
    rw [not_or] at hstart
    have hdigits : readDigits (b :: rest) = none := by
      rw [readDigits, List.takeWhile_cons_of_neg hstart.2]
      rfl
    rw [readNumber.eq_2 _ (fun _ heq => hstart.1 (List.cons.inj heq).1), readMagnitude,
      hdigits] at h
    cases h

/-- A number is a value. -/
theorem spells_of_readNumber {text : Bytes} {v : Json}
    (h : ∀ tail, EndsNumber tail → readNumber (text ++ tail) = some (v, tail)) :
    Spells text v := by
  have hnil := h [] endsNumber_nil
  rw [List.append_nil] at hnil
  obtain ⟨b, rest, rfl, hb⟩ := start_of_readNumber hnil
  have hstart : StartsValue b ∧ b ≠ 0x22 ∧ b ≠ 0x5B ∧ b ≠ 0x7B ∧ b ≠ 0x74 ∧
      b ≠ 0x66 ∧ b ≠ 0x6E := by
    unfold StartsValue
    refine ⟨⟨?_, ?_, ?_, ?_, ?_, ?_⟩, ?_, ?_, ?_, ?_, ?_, ?_⟩ <;>
      rintro rfl <;> revert hb <;> decide
  obtain ⟨hstart, h22, h5B, h7B, h74, h66, h6E⟩ := hstart
  refine .of_readValue hstart ?_
  intro fuel tail hfuel htail
  have htrue : Bytes.stripPrefix? (bytes "true") (b :: (rest ++ tail)) = none :=
    if_neg (Ne.symm h74)
  have hfalse : Bytes.stripPrefix? (bytes "false") (b :: (rest ++ tail)) = none :=
    if_neg (Ne.symm h66)
  have hnull : Bytes.stripPrefix? (bytes "null") (b :: (rest ++ tail)) = none :=
    if_neg (Ne.symm h6E)
  rw [readValue.eq_2, skipSpace_of_startsValue hstart]
  split
  · next heq => exact absurd (List.cons.inj heq).1 h22
  · next heq => exact absurd (List.cons.inj heq).1 h5B
  · next heq => exact absurd (List.cons.inj heq).1 h7B
  · rw [htrue, hfalse, hnull]
    exact h tail htail

/-- A string between quotes is a value. -/
theorem spells_string {t : Bytes} (ht : Bytes.isUtf8 t) :
    Spells (0x22 :: (t.flatMap escapeByte ++ [0x22])) (.string t) := by
  refine .of_readValue (by decide) ?_
  intro fuel tail hfuel htail
  rw [List.append_assoc, List.singleton_append, readValue.eq_2]
  change (readString (t.flatMap escapeByte ++ 0x22 :: tail)).map _ = _
  rw [readString_flatMap ht]
  rfl

/-- A text that is written for a value in a layout and spells it. -/
structure Prints (l : Layout) (level : Nat) (v : Json) (text : Bytes) : Prop where
  /-- The text spells the value. -/
  spells : Spells text v
  /-- It is written before whatever follows. -/
  writes : ∀ tail, write? l level v tail = some (text ++ tail)

/-! ## Arrays -/

/-- An item is read, and what stands after it tells whether there are more. -/
theorem readItems_append {text : Bytes} {v : Json} (hv : Spells text v) {fuel : Nat}
    (hfuel : text.length ≤ fuel) {t : Bytes} (ht : EndsNumber t) :
    (∀ rest, skipSpace t = 0x2C :: rest → readItems (fuel + 1) (text ++ t) =
      (readItems fuel rest).map fun r => (v :: r.1, r.2)) ∧
    ∀ after, skipSpace t = 0x5D :: after →
      readItems (fuel + 1) (text ++ t) = some ([v], after) := by
  rw [readItems.eq_2, hv.reads fuel t hfuel ht]
  simp only [Option.bind_eq_bind, Option.bind_some]
  constructor
  · intro rest hrest
    rw [hrest, Option.map_eq_bind]
    rfl
  · intro after hafter
    rw [hafter]
    rfl

/-- The rest of an array after an item: some more items and the closing bracket. -/
structure ClosesItems (l : Layout) (level : Nat) (gap : Bytes) (items : List Json) (more : Bytes) :
    Prop where
  /-- It is what is written for the items. -/
  writes : ∀ tail, writeItems? l level items (gap ++ 0x5D :: tail) = some (more ++ tail)
  /-- The items are read from it behind the item. -/
  reads : ∀ v text, Spells text v → ∀ fuel tail, text.length + more.length ≤ fuel →
    readItems fuel (text ++ (more ++ tail)) = some (v :: items, tail)

/-- The array is closed when no item is left. -/
theorem ClosesItems.nil {l : Layout} {level : Nat} {gap : Bytes} (hgap : Gap gap) :
    ClosesItems l level gap [] (gap ++ [0x5D]) where
  writes := by
    intro tail
    rw [List.append_assoc, List.singleton_append]
    rfl
  reads := by
    intro v text hv fuel tail hfuel
    rw [List.length_append, List.length_singleton] at hfuel
    obtain ⟨fuel, rfl⟩ := Nat.exists_eq_add_of_le' (by omega : 1 ≤ fuel)
    have hend : EndsNumber (gap ++ 0x5D :: tail) :=
      hgap.endsNumber_append (endsNumber_cons _ (by decide))
    have hskip : skipSpace (gap ++ 0x5D :: tail) = 0x5D :: tail := hgap.skipSpace_append _
    rw [List.append_assoc, List.singleton_append]
    exact (readItems_append hv (by omega) hend).2 tail hskip

/-- One more item comes with a comma and a line break before it. -/
theorem ClosesItems.cons {l : Layout} {level : Nat} {gap more text : Bytes} {items : List Json}
    {v : Json} (h : ClosesItems l level gap items more) (hv : Prints l level v text) :
    ClosesItems l level gap (v :: items) (0x2C :: (l.lineBreak level ++ (text ++ more))) where
  writes := by
    intro tail
    simp only [writeItems?, h.writes, hv.writes, Option.bind_eq_bind, Option.bind_some,
      Option.pure_def, List.cons_append, List.append_assoc]
    rfl
  reads := by
    intro w before hw fuel tail hfuel
    simp only [List.length_cons, List.length_append] at hfuel
    obtain ⟨fuel, rfl⟩ := Nat.exists_eq_add_of_le' (by omega : 1 ≤ fuel)
    have hskip (t : Bytes) : skipSpace (0x2C :: t) = 0x2C :: t := rfl
    have hend (t : Bytes) : EndsNumber (0x2C :: t) := endsNumber_cons _ (by decide)
    have hread := h.reads v text hv.spells fuel tail (by omega)
    rw [List.cons_append, (readItems_append hw (by omega) (hend _)).1 _ (hskip _)]
    simp only [List.append_assoc, (gap_lineBreak l level).readItems_append, hread, Option.map_some]

/-- Items that have texts have them together. -/
theorem exists_closesItems {l : Layout} {level : Nat} {gap : Bytes} (hgap : Gap gap)
    {items : List Json} (h : ∀ v ∈ items, ∃ text, Prints l level v text) :
    ∃ more, ClosesItems l level gap items more := by
  induction items with
  | nil => exact ⟨_, .nil hgap⟩
  | cons v rest ih =>
    obtain ⟨⟨text, hv⟩, hrest⟩ := List.forall_mem_cons.mp h
    obtain ⟨more, hmore⟩ := ih hrest
    exact ⟨_, hmore.cons hv⟩

/-- The text of a value does not close an array. -/
theorem Spells.readValue_array {text : Bytes} {v : Json} (h : Spells text v) {gap : Bytes}
    (hgap : Gap gap) (fuel : Nat) (t : Bytes) :
    readValue (fuel + 1) (0x5B :: (gap ++ (text ++ t))) =
      (readItems fuel (text ++ t)).map fun r => (.array r.1, r.2) := by
  obtain ⟨b, rest, rfl, hstart⟩ := h.starts
  have hopen (t : Bytes) : skipSpace (0x5B :: t) = 0x5B :: t := rfl
  have hskip : skipSpace (gap ++ (b :: rest ++ t)) = b :: rest ++ t := by
    rw [hgap.skipSpace_append]
    exact skipSpace_of_startsValue hstart _
  rw [readValue.eq_2, hopen]
  simp only [hskip, hgap.readItems_append]
  split
  · next heq => exact absurd (List.cons.inj heq).1 hstart.2.2.2.2.1
  · rfl

/-- The text of an array is that of its first item and the rest between brackets. -/
theorem ClosesItems.prints {l : Layout} {level : Nat} {more text : Bytes} {items : List Json}
    {v : Json} (h : ClosesItems l (level + 1) (l.lineBreak level) items more)
    (hv : Prints l (level + 1) v text) : Prints l level (.array (v :: items))
      (0x5B :: (l.lineBreak (level + 1) ++ (text ++ more))) where
  spells := by
    refine .of_readValue (by decide) ?_
    intro fuel tail hfuel _
    simp only [List.length_append] at hfuel
    have hread := h.reads v text hv.spells fuel tail (by omega)
    rw [List.append_assoc, List.append_assoc,
      hv.spells.readValue_array (gap_lineBreak l (level + 1)), hread]
    rfl
  writes := by
    intro tail
    have hclose : bytes "]" ++ tail = 0x5D :: tail := rfl
    simp only [write?, hclose, h.writes, hv.writes, Option.bind_eq_bind, Option.bind_some,
      Option.pure_def, List.cons_append, List.append_assoc]
    rfl

/-! ## Objects -/

/-- The text of a key with the colon after it. -/
def keyText (l : Layout) (k : Bytes) : Bytes :=
  0x22 :: (k.flatMap escapeByte ++ 0x22 :: l.colon)

/-- A written key can be quoted before its colon. -/
theorem quote?_colon {k : Bytes} (hk : Bytes.isUtf8 k) (l : Layout) (t : Bytes) :
    quote? k (l.colon ++ t) = some (keyText l k ++ t) := by
  rw [quote?_eq hk, keyText]
  simp

/-- The colon after a key, with white space before the value. -/
theorem exists_colon (l : Layout) : ∃ gap, Gap gap ∧ l.colon = 0x3A :: gap := by
  unfold Layout.colon
  split
  · exact ⟨[0x20], fun b hb => Or.inl (List.mem_singleton.mp hb), rfl⟩
  · exact ⟨[], gap_nil, rfl⟩

/-- A member of an object is read, and what stands after it tells whether there are more. -/
theorem readMembers_keyText (l : Layout) {k text : Bytes} {v : Json} (hk : Bytes.isUtf8 k)
    (hv : Spells text v) {fuel : Nat} (hfuel : text.length ≤ fuel) {t : Bytes} (ht : EndsNumber t) :
    (∀ rest, skipSpace t = 0x2C :: rest → readMembers (fuel + 1) (keyText l k ++ (text ++ t)) =
      (readMembers fuel rest).map fun r => ((k, v) :: r.1, r.2)) ∧
    ∀ after, skipSpace t = 0x7D :: after →
      readMembers (fuel + 1) (keyText l k ++ (text ++ t)) = some ([(k, v)], after) := by
  obtain ⟨space, hspace, hcolon⟩ := exists_colon l
  have hkey : skipSpace (keyText l k ++ (text ++ t)) =
      0x22 :: (k.flatMap escapeByte ++ 0x22 :: 0x3A :: (space ++ (text ++ t))) := by
    rw [keyText, hcolon, List.cons_append, List.append_assoc]
    rfl
  have hskip (t : Bytes) : skipSpace (0x3A :: t) = 0x3A :: t := rfl
  rw [readMembers.eq_2, hkey]
  simp only [readString_flatMap hk, Option.bind_eq_bind, Option.bind_some, hskip,
    hspace.readValue_append, hv.reads fuel t hfuel ht]
  constructor
  · intro rest hrest
    rw [hrest, Option.map_eq_bind]
    rfl
  · intro after hafter
    rw [hafter]
    rfl

/-- The rest of an object after a member: some more members and the closing brace. -/
structure ClosesMembers (l : Layout) (level : Nat) (gap : Bytes) (members : List (Bytes × Json))
    (more : Bytes) : Prop where
  /-- It is what is written for the members. -/
  writes : ∀ tail, writeMembers? l level members (gap ++ 0x7D :: tail) = some (more ++ tail)
  /-- The members are read from it behind the member. -/
  reads : ∀ k v text, Bytes.isUtf8 k → Spells text v → ∀ fuel tail,
    text.length + more.length ≤ fuel →
    readMembers fuel (keyText l k ++ (text ++ (more ++ tail))) = some ((k, v) :: members, tail)

/-- The object is closed when no member is left. -/
theorem ClosesMembers.nil {l : Layout} {level : Nat} {gap : Bytes} (hgap : Gap gap) :
    ClosesMembers l level gap [] (gap ++ [0x7D]) where
  writes := by
    intro tail
    rw [List.append_assoc, List.singleton_append]
    rfl
  reads := by
    intro k v text hk hv fuel tail hfuel
    rw [List.length_append, List.length_singleton] at hfuel
    obtain ⟨fuel, rfl⟩ := Nat.exists_eq_add_of_le' (by omega : 1 ≤ fuel)
    have hend : EndsNumber (gap ++ 0x7D :: tail) :=
      hgap.endsNumber_append (endsNumber_cons _ (by decide))
    have hskip : skipSpace (gap ++ 0x7D :: tail) = 0x7D :: tail := hgap.skipSpace_append _
    rw [List.append_assoc, List.singleton_append]
    exact (readMembers_keyText l hk hv (by omega) hend).2 tail hskip

/-- One more member comes with a comma and a line break before it. -/
theorem ClosesMembers.cons {l : Layout} {level : Nat} {gap more k text : Bytes}
    {members : List (Bytes × Json)} {v : Json} (h : ClosesMembers l level gap members more)
    (hk : Bytes.isUtf8 k) (hv : Prints l level v text) :
    ClosesMembers l level gap ((k, v) :: members)
      (0x2C :: (l.lineBreak level ++ (keyText l k ++ (text ++ more)))) where
  writes := by
    intro tail
    simp only [writeMembers?, h.writes, hv.writes, quote?_colon hk, Option.bind_eq_bind,
      Option.bind_some, Option.pure_def, List.cons_append, List.append_assoc]
    rfl
  reads := by
    intro j w before hj hw fuel tail hfuel
    simp only [List.length_cons, List.length_append] at hfuel
    obtain ⟨fuel, rfl⟩ := Nat.exists_eq_add_of_le' (by omega : 1 ≤ fuel)
    have hskip (t : Bytes) : skipSpace (0x2C :: t) = 0x2C :: t := rfl
    have hend (t : Bytes) : EndsNumber (0x2C :: t) := endsNumber_cons _ (by decide)
    have hread := h.reads k v text hk hv.spells fuel tail (by omega)
    rw [List.cons_append, (readMembers_keyText l hj hw (by omega) (hend _)).1 _ (hskip _)]
    simp only [List.append_assoc, (gap_lineBreak l level).readMembers_append, hread,
      Option.map_some]

/-- Members whose values have texts have them together. -/
theorem exists_closesMembers {l : Layout} {level : Nat} {gap : Bytes} (hgap : Gap gap)
    {members : List (Bytes × Json)} (hkeys : ∀ m ∈ members, Bytes.isUtf8 m.1)
    (h : ∀ m ∈ members, ∃ text, Prints l level m.2 text) :
    ∃ more, ClosesMembers l level gap members more := by
  induction members with
  | nil => exact ⟨_, .nil hgap⟩
  | cons m rest ih =>
    obtain ⟨hk, hkeys⟩ := List.forall_mem_cons.mp hkeys
    obtain ⟨⟨text, hv⟩, hrest⟩ := List.forall_mem_cons.mp h
    obtain ⟨more, hmore⟩ := ih hkeys hrest
    exact ⟨_, hmore.cons hk hv⟩

/-- A key does not close an object. -/
theorem readValue_object {gap : Bytes} (hgap : Gap gap) (l : Layout) (k : Bytes) (fuel : Nat)
    (t : Bytes) :
    readValue (fuel + 1) (0x7B :: (gap ++ (keyText l k ++ t))) =
      (readMembers fuel (keyText l k ++ t)).map fun r => (ofMembers r.1, r.2) := by
  have hopen (t : Bytes) : skipSpace (0x7B :: t) = 0x7B :: t := rfl
  have hskip : skipSpace (gap ++ (keyText l k ++ t)) = keyText l k ++ t :=
    hgap.skipSpace_append _
  rw [readValue.eq_2, hopen]
  simp only [hskip, hgap.readMembers_append]
  rfl

/-- Sorted members are those of an object that is built of them. -/
theorem ofMembers_of_sorted {members : Entries Json} (h : members.Sorted) :
    ofMembers members = .object members := congrArg Json.object h.foldl_insert

/-- The text of an object is that of its first member and the rest between braces. -/
theorem ClosesMembers.prints {l : Layout} {level : Nat} {more k text : Bytes}
    {members : List (Bytes × Json)} {v : Json}
    (h : ClosesMembers l (level + 1) (l.lineBreak level) members more)
    (hsorted : Entries.Sorted ((k, v) :: members)) (hk : Bytes.isUtf8 k)
    (hv : Prints l (level + 1) v text) : Prints l level (.object ((k, v) :: members))
      (0x7B :: (l.lineBreak (level + 1) ++ (keyText l k ++ (text ++ more)))) where
  spells := by
    refine .of_readValue (by decide) ?_
    intro fuel tail hfuel _
    simp only [List.length_append] at hfuel
    have hread := h.reads k v text hk hv.spells fuel tail (by omega)
    rw [List.append_assoc, List.append_assoc, List.append_assoc,
      readValue_object (gap_lineBreak l (level + 1)), hread, Option.map_some,
      ofMembers_of_sorted hsorted]
  writes := by
    intro tail
    have hclose : bytes "\x7d" ++ tail = 0x7D :: tail := rfl
    simp only [write?, hclose, h.writes, hv.writes, quote?_colon hk, Option.bind_eq_bind,
      Option.bind_some, Option.pure_def, List.cons_append, List.append_assoc]
    rfl

/-! ## Documents -/

/-- What is built of members has no other members than these. -/
theorem mem_foldl_insert {ms acc : Entries Json} {m : Bytes × Json}
    (h : m ∈ ms.foldl (fun acc m => Entries.insert m.1 m.2 acc) acc) : m ∈ acc ∨ m ∈ ms := by
  induction ms generalizing acc with
  | nil => exact Or.inl h
  | cons m' rest ih =>
    rcases ih h with h | h
    · rcases Entries.mem_insert h with rfl | h
      · exact Or.inr (List.mem_cons_self ..)
      · exact Or.inl h
    · exact Or.inr (List.mem_cons_of_mem _ h)

/-- An object of faithful members under well-formed keys is faithful. -/
theorem faithful_ofMembers {ms : List (Bytes × Json)}
    (h : ∀ m ∈ ms, Bytes.isUtf8 m.1 ∧ Faithful m.2) : Faithful (ofMembers ms) := by
  have hmem (m : Bytes × Json)
      (hm : m ∈ ms.foldl (fun acc m => Entries.insert m.1 m.2 acc) []) : m ∈ ms :=
    (mem_foldl_insert hm).resolve_left List.not_mem_nil
  refine .object ?_ (fun m hm => (h m (hmem m hm)).1) (fun m hm => (h m (hmem m hm)).2)
  apply List.foldlRecOn ms _ List.Pairwise.nil
  intro acc hacc m _
  exact Entries.Sorted.insert hacc m.1 m.2

/-- A faithful document has a text in any layout. -/
theorem Faithful.exists_prints {v : Json} (h : Faithful v) (l : Layout) (level : Nat) :
    ∃ text, Prints l level v text := by
  induction h generalizing level with
  | null => exact ⟨bytes "null", .of_readValue (by decide) fun _ _ _ _ => rfl, fun _ => rfl⟩
  | bool b =>
    cases b with
    | false => exact ⟨bytes "false", .of_readValue (by decide) fun _ _ _ _ => rfl, fun _ => rfl⟩
    | true => exact ⟨bytes "true", .of_readValue (by decide) fun _ _ _ _ => rfl, fun _ => rfl⟩
  | int low high =>
    exact ⟨_, spells_of_readNumber fun _ => readNumber_ofInt low high, fun _ => rfl⟩
  | double readsBack =>
    refine ⟨_, spells_of_readNumber readsBack, fun _ => ?_⟩
    rw [write?, if_pos readsBack.isFinite]
  | @string t utf8 =>
    refine ⟨_, spells_string utf8, ?_⟩
    intro tail
    rw [write?, quote?_eq utf8]
    simp
  | @array items _ ih =>
    cases items with
    | nil => exact ⟨bytes "[]", .of_readValue (by decide) fun _ _ _ _ => rfl, fun _ => rfl⟩
    | cons w rest =>
      obtain ⟨text, hw⟩ := ih w (List.mem_cons_self ..) (level + 1)
      obtain ⟨more, hrest⟩ := exists_closesItems (gap_lineBreak l level)
        fun v hv => ih v (List.mem_cons_of_mem _ hv) (level + 1)
      exact ⟨_, hrest.prints hw⟩
  | @object members sorted keys_utf8 _ ih =>
    cases members with
    | nil =>
      exact ⟨bytes "\x7b\x7d", .of_readValue (by decide) fun _ _ _ _ => rfl, fun _ => rfl⟩
    | cons m rest =>
      obtain ⟨hkey, hkeys⟩ := List.forall_mem_cons.mp keys_utf8
      obtain ⟨text, hm⟩ := ih m (List.mem_cons_self ..) (level + 1)
      obtain ⟨more, hrest⟩ := exists_closesMembers (gap_lineBreak l level) hkeys
        fun m' hm' => ih m' (List.mem_cons_of_mem _ hm') (level + 1)
      exact ⟨_, hrest.prints sorted hkey hm⟩

/-- What is written for a faithful document is read back as the same document, whatever the
layout. -/
theorem Faithful.exists_parse? {v : Json} (h : Faithful v) (l : Layout) :
    ∃ text, write? l 0 v [] = some text ∧ parse? text = some v := by
  obtain ⟨text, hspells, hwrite⟩ := h.exists_prints l 0
  have hread := hspells.reads (2 * text.length + 2) [] (by omega) endsNumber_nil
  rw [List.append_nil] at hread
  refine ⟨text, by rw [hwrite, List.append_nil], ?_⟩
  obtain ⟨b, rest, rfl, hstart⟩ := hspells.starts
  have hmark : Bytes.stripPrefix? [0xEF, 0xBB, 0xBF] (b :: rest) = none :=
    if_neg (Ne.symm hstart.2.2.2.2.2)
  simp only [parse?, hmark, Option.getD_none, hread, Option.bind_eq_bind, Option.bind_some]
  rfl

/-- A faithful document comes back from one line. -/
theorem Faithful.exists_compact? {v : Json} (h : Faithful v) :
    ∃ text, v.compact? = some text ∧ parse? text = some v := h.exists_parse? ⟨none⟩

/-- A faithful document comes back from indented lines. -/
theorem Faithful.exists_pretty? {v : Json} (h : Faithful v) (width : Nat) :
    ∃ text, v.pretty? width = some text ∧ parse? text = some v := h.exists_parse? ⟨some width⟩

end SourceChunks.Json
