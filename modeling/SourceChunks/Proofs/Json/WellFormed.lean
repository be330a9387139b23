import SourceChunks.Json.Field
import SourceChunks.Proofs.Bytes.Utf8
import SourceChunks.Proofs.Json.Double
import SourceChunks.Proofs.Json.Field
import SourceChunks.Proofs.Json.Writable

/-!
# Documents of well-formed texts

Reading yields documents of well-formed texts, whatever bytes are read: what stands between quotes
has to be well-formed as it is written, and each of its escapes stands for a whole scalar value.
Their numbers have 64 bits, so such a document is read back when it is written. Any document of
well-formed texts can be written.
-/

namespace SourceChunks

namespace Bytes

/-! ## Scalar values -/

/-- A continuation byte is taken where any of them may come. -/
theorem Owed.step?_continuation (count : Nat) {n : Nat} (hn : n < 64) :
    Owed.step? ⟨count + 1, 0x80, 0xBF⟩ (0x80 + n).toUInt8 = some ⟨count, 0x80, 0xBF⟩ := by
  have hrange : ∀ n < 64, 0x80 ≤ (0x80 + n).toUInt8 ∧ (0x80 + n).toUInt8 ≤ 0xBF := by decide
  rw [step?, if_neg (Nat.succ_ne_zero count), if_pos (hrange n hn)]
  rfl

/-- The bytes that tell the range of a scalar value are followed by any continuation bytes: the
first one of two, -/
theorem Owed.run?_two : ∀ m < 0x20, 2 ≤ m →
    nothing.run? [(0xC0 + m).toUInt8] = some ⟨1, 0x80, 0xBF⟩ := by
  decide +kernel

/-- the first two of three, if this is no surrogate, -/
theorem Owed.run?_three : ∀ m < 0x400, 0x20 ≤ m → ¬ (0x360 ≤ m ∧ m < 0x380) →
    nothing.run? [(0xE0 + m / 64).toUInt8, (0x80 + m % 64).toUInt8] = some ⟨1, 0x80, 0xBF⟩ := by
  decide +kernel

/-- and the first two of four. -/
theorem Owed.run?_four : ∀ m < 0x110, 0x10 ≤ m →
    nothing.run? [(0xF0 + m / 64).toUInt8, (0x80 + m % 64).toUInt8] = some ⟨2, 0x80, 0xBF⟩ := by
  decide +kernel

/-- The bytes of a scalar value are well-formed. -/
theorem isUtf8_encodeScalar {c : Nat} (hlt : c < 0x110000) (hscalar : ¬ (0xD800 ≤ c ∧ c < 0xE000)) :
    isUtf8 (encodeScalar c) := by
  have hnext (count n : Nat) :=
    Owed.step?_continuation count (Nat.mod_lt n (show 0 < 64 by decide))
  have hdiv : c / 4096 = c / 64 / 64 := (Nat.div_div_eq_div_mul c 64 64).symm
  have hdiv' : c / 262144 = c / 4096 / 64 := (Nat.div_div_eq_div_mul c 4096 64).symm
  rw [isUtf8_iff, encodeScalar]
  split
  · next hascii =>
    have hbyte : ∀ c < 0x80, Owed.nothing.run? [c.toUInt8] = some Owed.nothing := by decide +kernel
    exact hbyte c hascii
  split
  · next hone htwo =>
    have hfirst := Owed.run?_two (c / 64) (by omega) (by omega)
    rw [← List.singleton_append, Owed.run?_append, hfirst, Option.bind_some, Owed.run?_cons, hnext]
    rfl
  split
  · next hone htwo hthree =>
    have hfirst := Owed.run?_three (c / 64) (by omega) (by omega) (by omega)
    change Owed.nothing.run? ([_, _] ++ [_]) = _
    rw [hdiv, Owed.run?_append, hfirst, Option.bind_some, Owed.run?_cons, hnext]
    rfl
  · next hone htwo hthree =>
    have hfirst := Owed.run?_four (c / 4096) (by omega) (by omega)
    change Owed.nothing.run? ([_, _] ++ [_, _]) = _
    rw [hdiv', Owed.run?_append, hfirst, Option.bind_some, Owed.run?_cons, hnext, Option.bind_some,
      Owed.run?_cons, hnext]
    rfl

/-- A hexadecimal digit is ASCII. -/
theorem lt_of_hexValue? {b : UInt8} {n : Nat} (h : hexValue? b = some n) : b < 0x80 ∧ n < 16 := by
  have hdigits : ∀ b : Fin 256, ∀ n ∈ hexValue? (UInt8.ofNat b), UInt8.ofNat b < 0x80 ∧ n < 16 := by
    decide +kernel
  have hb := hdigits ⟨b.toNat, b.toNat_lt⟩ n
  rw [UInt8.ofNat_toNat] at hb
  exact hb h

end Bytes

namespace Json

/-! ## Strings -/

/-- The number of four hexadecimal digits, which are ASCII, has 16 bits. -/
theorem lt_of_hexCode? {a b c d : UInt8} {u : Nat} (h : hexCode? a b c d = some u) :
    u < 0x10000 ∧ Bytes.Ascii [a, b, c, d] := by
  unfold hexCode? at h
  obtain ⟨x, ha, h⟩ := Option.bind_eq_some_iff.mp h
  obtain ⟨y, hb, h⟩ := Option.bind_eq_some_iff.mp h
  obtain ⟨z, hc, h⟩ := Option.bind_eq_some_iff.mp h
  obtain ⟨w, hd, h⟩ := Option.bind_eq_some_iff.mp h
  obtain rfl := Option.some.inj h
  obtain ⟨ha, hx⟩ := Bytes.lt_of_hexValue? ha
  obtain ⟨hb, hy⟩ := Bytes.lt_of_hexValue? hb
  obtain ⟨hc, hz⟩ := Bytes.lt_of_hexValue? hc
  obtain ⟨hd, hw⟩ := Bytes.lt_of_hexValue? hd
  refine ⟨by omega, ?_⟩
  simp only [Bytes.ascii_cons, Bytes.ascii_nil, and_true]
  exact ⟨ha, hb, hc, hd⟩

/-- A letter after a backslash stands for a byte of ASCII and is one. -/
theorem lt_of_shortEscape? {e b : UInt8} (h : shortEscape? e = some b) : e < 0x80 ∧ b < 0x80 := by
  have hletters : ∀ e : Fin 256, ∀ b ∈ shortEscape? (UInt8.ofNat e),
      UInt8.ofNat e < 0x80 ∧ b < 0x80 := by
    decide +kernel
  have he := hletters ⟨e.toNat, e.toNat_lt⟩ b
  rw [UInt8.ofNat_toNat] at he
  exact he h

/-- The units of a text pay what is owed before them: bytes do so as in any text, and a code unit of
16 bits comes where nothing is owed. -/
def TextUnit.Pays : Bytes.Owed → List TextUnit → Prop
  | o, [] => o = .nothing
  | o, .byte b :: us => ∃ o', o.step? b = some o' ∧ Pays o' us
  | o, .code u :: us => o = .nothing ∧ u < 0x10000 ∧ Pays .nothing us

open TextUnit (Pays)

/-- ASCII comes first only where nothing is owed. -/
theorem eq_nothing_of_run?_ascii {o : Bytes.Owed} (ho : o.Proper) {first rest : Bytes}
    (hascii : Bytes.Ascii first) (hne : first ≠ [])
    (h : o.run? (first ++ rest) = some .nothing) :
    o = .nothing ∧ Bytes.Owed.nothing.run? rest = some .nothing := by
  rw [Bytes.Owed.run?_append, ho.run?_ascii hascii hne] at h
  split at h
  · exact ⟨by assumption, h⟩
  · exact absurd h nofun

/-- The units of a text that is well-formed as it is written pay what is owed. -/
theorem pays_of_textUnits? {raw : Bytes} {us : List TextUnit} (h : textUnits? raw = some us)
    {o : Bytes.Owed} (ho : o.Proper) (hraw : o.run? raw = some .nothing) : Pays o us := by
  fun_induction textUnits? raw generalizing o us with
  | case1 =>
    obtain rfl := Option.some.inj h
    exact Option.some.inj hraw
  | case2 a b c d rest ih =>
    obtain ⟨u, hu, h⟩ := Option.bind_eq_some_iff.mp h
    obtain ⟨us', hus, h⟩ := Option.bind_eq_some_iff.mp h
    obtain rfl := Option.some.inj h
    obtain ⟨hlt, hdigits⟩ := lt_of_hexCode? hu
    have hascii : Bytes.Ascii ([0x5C, 0x75] ++ [a, b, c, d]) :=
      Bytes.ascii_append.mpr ⟨by decide, hdigits⟩
    obtain ⟨rfl, hrest⟩ := eq_nothing_of_run?_ascii ho hascii (by simp) hraw
    exact ⟨rfl, hlt, ih hus Bytes.Owed.proper_nothing hrest⟩
  | case3 e rest hcode ih =>
    obtain ⟨b, hb, h⟩ := Option.bind_eq_some_iff.mp h
    obtain ⟨us', hus, h⟩ := Option.bind_eq_some_iff.mp h
    obtain rfl := Option.some.inj h
    obtain ⟨he, hb⟩ := lt_of_shortEscape? hb
    have hascii : Bytes.Ascii [0x5C, e] := by
      simp only [Bytes.ascii_cons, Bytes.ascii_nil, and_true]
      exact ⟨by decide, he⟩
    obtain ⟨rfl, hrest⟩ := eq_nothing_of_run?_ascii ho hascii (by simp) hraw
    refine ⟨.nothing, ?_, ih hus Bytes.Owed.proper_nothing hrest⟩
    rw [ho.step?_ascii hb, if_pos rfl]
  | case4 => cases h
  | case5 b rest _ _ hb ih =>
    obtain ⟨us', hus, rfl⟩ := Option.map_eq_some_iff.mp h
    obtain ⟨o', hstep, hrun⟩ := Option.bind_eq_some_iff.mp hraw
    exact ⟨o', hstep, ih hus (Bytes.Owed.proper_of_step? hstep) hrun⟩

/-- What units that pay what is owed are assembled to pays it. -/
theorem run?_of_assemble? {us : List TextUnit} {t : Bytes} (h : assemble? us = some t)
    {o : Bytes.Owed} (hus : Pays o us) : o.run? t = some .nothing := by
  fun_induction assemble? us generalizing o t with
  | case1 =>
    obtain rfl := Option.some.inj h
    exact congrArg some hus
  | case2 b rest ih =>
    obtain ⟨t', ht, rfl⟩ := Option.map_eq_some_iff.mp h
    obtain ⟨o', hstep, hrest⟩ := hus
    rw [Bytes.Owed.run?_cons, hstep, Option.bind_some, ih ht hrest]
  | case3 u v rest hhigh hlow ih =>
    obtain ⟨t', ht, rfl⟩ := Option.map_eq_some_iff.mp h
    obtain ⟨rfl, -, -, -, hrest⟩ := hus
    have hscalar := Bytes.isUtf8_encodeScalar (c := 0x10000 + (u - 0xD800) * 1024 + (v - 0xDC00))
      (by omega) (by omega)
    rw [Bytes.Owed.run?_append, Bytes.isUtf8_iff.mp hscalar, Option.bind_some, ih ht hrest]
  | case4 => exact absurd h nofun
  | case5 => exact absurd h nofun
  | case6 u v rest hhigh hlow ih =>
    obtain ⟨t', ht, rfl⟩ := Option.map_eq_some_iff.mp h
    obtain ⟨rfl, hlt, hrest⟩ := hus
    have hscalar := Bytes.isUtf8_encodeScalar (c := u) (by omega) (by omega)
    rw [Bytes.Owed.run?_append, Bytes.isUtf8_iff.mp hscalar, Option.bind_some, ih ht hrest]
  | case7 => exact absurd h nofun
  | case8 u rest _ hlone ih =>
    obtain ⟨t', ht, rfl⟩ := Option.map_eq_some_iff.mp h
    obtain ⟨rfl, hlt, hrest⟩ := hus
    have hscalar := Bytes.isUtf8_encodeScalar (c := u) (by omega) hlone
    rw [Bytes.Owed.run?_append, Bytes.isUtf8_iff.mp hscalar, Option.bind_some, ih ht hrest]

/-- A string that was read is well-formed. -/
theorem isUtf8_of_readString {t text rest : Bytes} (h : readString t = some (text, rest)) :
    Bytes.isUtf8 text := by
  unfold readString at h
  obtain ⟨⟨raw, after⟩, -, h⟩ := Option.bind_eq_some_iff.mp h
  simp only at h
  split at h
  · next hraw =>
    obtain ⟨us, hus, h⟩ := Option.bind_eq_some_iff.mp h
    obtain ⟨text', htext, h⟩ := Option.bind_eq_some_iff.mp h
    obtain ⟨rfl, -⟩ := Prod.mk.inj (Option.some.inj h)
    exact Bytes.isUtf8_iff.mpr (run?_of_assemble? htext
      (pays_of_textUnits? hus Bytes.Owed.proper_nothing (Bytes.isUtf8_iff.mp hraw)))
  · exact absurd h nofun

/-! ## Documents -/

/-- An object of members that can be written can be written. -/
theorem writable_ofMembers {ms : List (Bytes × Json)}
    (h : ∀ m ∈ ms, Bytes.isUtf8 m.1 ∧ Writable m.2) : Writable (ofMembers ms) := by
  have hmem (m : Bytes × Json)
      (hm : m ∈ ms.foldl (fun acc m => Entries.insert m.1 m.2 acc) []) : m ∈ ms :=
    (mem_foldl_insert hm).resolve_left List.not_mem_nil
  exact .object (fun m hm => (h m (hmem m hm)).1) fun m hm => (h m (hmem m hm)).2

/-- A number that was read has 64 bits. -/
theorem faithful_of_numberValue? {negative : Bool} {whole : Bytes} {fraction : Option Bytes}
    {exponent : Option Int} {v : Json}
    (h : numberValue? negative whole fraction exponent = some v) :
    Faithful v := by
  have hdouble {x : Binary64} (hx : (if x.isFinite then some (Json.double x) else none) = some v) :
      Faithful v := by
    split at hx
    · next hfinite =>
      obtain rfl := Option.some.inj hx
      exact .double (readsBack_of_isFinite hfinite)
    · exact absurd hx nofun
  have hsize : 0 < UInt64.size := by decide
  simp only [numberValue?] at h
  split at h
  · split at h
    · split at h
      · next hle =>
        obtain rfl := Option.some.inj h
        exact .int (by omega) (by omega)
      · exact hdouble h
    · split at h
      · next hlt =>
        obtain rfl := Option.some.inj h
        exact .int (by omega) (by omega)
      · exact hdouble h
  · exact hdouble h

/-- So has one that was read from its text. -/
theorem faithful_of_readNumber {t rest : Bytes} {v : Json} (h : readNumber t = some (v, rest)) :
    Faithful v := by
  obtain ⟨negative, whole, fraction, exponent, hvalue⟩ := exists_numberValue?_eq h
  exact faithful_of_numberValue? hvalue

mutual

/-- A value that was read would be read back. -/
theorem faithful_of_readValue (fuel : Nat) (t : Bytes) (v : Json) (rest : Bytes)
    (h : readValue fuel t = some (v, rest)) : Faithful v := by
  match fuel with
  | 0 => exact absurd h nofun
  | fuel + 1 =>
    rw [readValue] at h
    split at h
    · obtain ⟨⟨text, after⟩, htext, h⟩ := Option.map_eq_some_iff.mp h
      obtain ⟨rfl, -⟩ := Prod.mk.inj h
      exact .string (isUtf8_of_readString htext)
    · split at h
      · obtain ⟨rfl, -⟩ := Prod.mk.inj (Option.some.inj h)
        exact .array nofun
      · obtain ⟨⟨items, after⟩, hitems, h⟩ := Option.map_eq_some_iff.mp h
        obtain ⟨rfl, -⟩ := Prod.mk.inj h
        exact .array (faithful_of_readItems fuel _ items after hitems)
    · split at h
      · obtain ⟨rfl, -⟩ := Prod.mk.inj (Option.some.inj h)
        exact faithful_emptyObject
      · obtain ⟨⟨members, after⟩, hmembers, h⟩ := Option.map_eq_some_iff.mp h
        obtain ⟨rfl, -⟩ := Prod.mk.inj h
        exact faithful_ofMembers (faithful_of_readMembers fuel _ members after hmembers)
    · split at h
      · obtain ⟨rfl, -⟩ := Prod.mk.inj (Option.some.inj h)
        exact .bool true
      · obtain ⟨rfl, -⟩ := Prod.mk.inj (Option.some.inj h)
        exact .bool false
      · obtain ⟨rfl, -⟩ := Prod.mk.inj (Option.some.inj h)
        exact .null
      · exact faithful_of_readNumber h

/-- So would items that were read, -/
theorem faithful_of_readItems (fuel : Nat) (t : Bytes) (vs : List Json) (rest : Bytes)
    (h : readItems fuel t = some (vs, rest)) : ∀ v ∈ vs, Faithful v := by
  match fuel with
  | 0 => exact absurd h nofun
  | fuel + 1 =>
    rw [readItems] at h
    obtain ⟨⟨v, after⟩, hv, h⟩ := Option.bind_eq_some_iff.mp h
    have hfirst := faithful_of_readValue fuel t v after hv
    simp only at h
    split at h
    · obtain ⟨⟨more, after'⟩, hmore, h⟩ := Option.bind_eq_some_iff.mp h
      obtain ⟨rfl, -⟩ := Prod.mk.inj (Option.some.inj h)
      exact List.forall_mem_cons.mpr ⟨hfirst, faithful_of_readItems fuel _ more after' hmore⟩
    · obtain ⟨rfl, -⟩ := Prod.mk.inj (Option.some.inj h)
      exact List.forall_mem_singleton.mpr hfirst
    · exact absurd h nofun

/-- and members that were read with their keys. -/
theorem faithful_of_readMembers (fuel : Nat) (t : Bytes) (ms : List (Bytes × Json)) (rest : Bytes)
    (h : readMembers fuel t = some (ms, rest)) : ∀ m ∈ ms, Bytes.isUtf8 m.1 ∧ Faithful m.2 := by
  match fuel with
  | 0 => exact absurd h nofun
  | fuel + 1 =>
    rw [readMembers] at h
    split at h
    · obtain ⟨⟨k, after⟩, hk, h⟩ := Option.bind_eq_some_iff.mp h
      have hkey := isUtf8_of_readString hk
      simp only at h
      split at h
      · obtain ⟨⟨v, after'⟩, hv, h⟩ := Option.bind_eq_some_iff.mp h
        have hvalue := faithful_of_readValue fuel _ v after' hv
        simp only at h
        split at h
        · obtain ⟨⟨more, after''⟩, hmore, h⟩ := Option.bind_eq_some_iff.mp h
          obtain ⟨rfl, -⟩ := Prod.mk.inj (Option.some.inj h)
          exact List.forall_mem_cons.mpr
            ⟨⟨hkey, hvalue⟩, faithful_of_readMembers fuel _ more after'' hmore⟩
        · obtain ⟨rfl, -⟩ := Prod.mk.inj (Option.some.inj h)
          exact List.forall_mem_singleton.mpr ⟨hkey, hvalue⟩
        · exact absurd h nofun
      · exact absurd h nofun
    · exact absurd h nofun

end

/-- A document that was read would be read back after it is written. -/
theorem faithful_of_parse? {t : Bytes} {v : Json} (h : parse? t = some v) : Faithful v := by
  unfold parse? at h
  obtain ⟨⟨v', rest⟩, hread, h⟩ := Option.bind_eq_some_iff.mp h
  simp only at h
  split at h
  · obtain rfl := Option.some.inj h
    exact faithful_of_readValue _ _ v' rest hread
  · exact absurd h nofun

/-- What can be read back has well-formed texts. -/
theorem Faithful.writable {v : Json} (h : Faithful v) : Writable v := by
  induction h with
  | null => exact .null
  | bool b => exact .bool b
  | int => exact .int _
  | double => exact .double _
  | string utf8 => exact .string utf8
  | array _ ih => exact .array ih
  | object _ keys_utf8 _ ih => exact .object keys_utf8 ih

/-- A document that was read can be written. -/
theorem writable_of_parse? {t : Bytes} {v : Json} (h : parse? t = some v) : Writable v :=
  (faithful_of_parse? h).writable

/-! ## Writing -/

/-- UTF-8 text can be quoted. -/
theorem exists_quote? {t : Bytes} (h : Bytes.isUtf8 t) (tail : Bytes) :
    ∃ text, quote? t tail = some text := by
  rw [quote?, if_pos h]
  exact ⟨_, rfl⟩

/-- Items that can be written one by one can be written together. -/
theorem exists_writeItems? {vs : List Json} (l : Layout) (level : Nat) (tail : Bytes)
    (h : ∀ v ∈ vs, ∀ tail, ∃ text, write? l level v tail = some text) :
    ∃ text, writeItems? l level vs tail = some text := by
  induction vs with
  | nil => exact ⟨tail, rfl⟩
  | cons v rest ih =>
    obtain ⟨hv, hrest⟩ := List.forall_mem_cons.mp h
    obtain ⟨more, hmore⟩ := ih hrest
    obtain ⟨items, hitems⟩ := hv more
    refine ⟨bytes "," ++ (l.lineBreak level ++ items), ?_⟩
    rw [writeItems?, hmore]
    simp only [Option.bind_eq_bind, Option.bind_some, hitems, Option.pure_def]

/-- So can members. -/
theorem exists_writeMembers? {ms : List (Bytes × Json)} (l : Layout) (level : Nat) (tail : Bytes)
    (hkeys : ∀ m ∈ ms, Bytes.isUtf8 m.1)
    (h : ∀ m ∈ ms, ∀ tail, ∃ text, write? l level m.2 tail = some text) :
    ∃ text, writeMembers? l level ms tail = some text := by
  induction ms with
  | nil => exact ⟨tail, rfl⟩
  | cons m rest ih =>
    obtain ⟨hkey, hkeys⟩ := List.forall_mem_cons.mp hkeys
    obtain ⟨hv, hrest⟩ := List.forall_mem_cons.mp h
    obtain ⟨more, hmore⟩ := ih hkeys hrest
    obtain ⟨value, hvalue⟩ := hv more
    obtain ⟨members, hmembers⟩ := exists_quote? hkey (l.colon ++ value)
    refine ⟨bytes "," ++ (l.lineBreak level ++ members), ?_⟩
    rw [writeMembers?, hmore]
    simp only [Option.bind_eq_bind, Option.bind_some, hvalue, hmembers, Option.pure_def]

/-- A document of well-formed texts can be written in any layout. -/
theorem Writable.exists_write? {v : Json} (h : Writable v) (l : Layout) (level : Nat)
    (tail : Bytes) : ∃ text, write? l level v tail = some text := by
  induction h generalizing level tail with
  | null | bool | int | double => exact ⟨_, rfl⟩
  | string utf8 => exact exists_quote? utf8 tail
  | @array items _ ih =>
    cases items with
    | nil => exact ⟨_, rfl⟩
    | cons v rest =>
      obtain ⟨hv, hrest⟩ := List.forall_mem_cons.mp ih
      obtain ⟨more, hmore⟩ := exists_writeItems? l (level + 1)
        (l.lineBreak level ++ (bytes "]" ++ tail)) fun v hv => hrest v hv (level + 1)
      obtain ⟨items, hitems⟩ := hv (level + 1) more
      refine ⟨bytes "[" ++ (l.lineBreak (level + 1) ++ items), ?_⟩
      rw [write?, hmore]
      simp only [Option.bind_eq_bind, Option.bind_some, hitems, Option.pure_def]
  | @object members keys_utf8 _ ih =>
    cases members with
    | nil => exact ⟨_, rfl⟩
    | cons m rest =>
      obtain ⟨hkey, hkeys⟩ := List.forall_mem_cons.mp keys_utf8
      obtain ⟨hv, hrest⟩ := List.forall_mem_cons.mp ih
      obtain ⟨more, hmore⟩ := exists_writeMembers? l (level + 1)
        (l.lineBreak level ++ (bytes "\x7d" ++ tail)) hkeys fun m hm => hrest m hm (level + 1)
      obtain ⟨value, hvalue⟩ := hv (level + 1) more
      obtain ⟨members, hmembers⟩ := exists_quote? hkey (l.colon ++ value)
      refine ⟨bytes "\x7b" ++ (l.lineBreak (level + 1) ++ members), ?_⟩
      rw [write?, hmore]
      simp only [Option.bind_eq_bind, Option.bind_some, hvalue, hmembers, Option.pure_def]

/-- A document that can be written can be written compactly. -/
theorem Writable.exists_compact? {v : Json} (h : Writable v) : ∃ text, v.compact? = some text :=
  h.exists_write? _ 0 []

/-- A document that can be written can be written at any width. -/
theorem Writable.exists_pretty? {v : Json} (h : Writable v) (width : Nat) :
    ∃ text, v.pretty? width = some text :=
  h.exists_write? _ 0 []

end Json

end SourceChunks
