import SourceChunks.Glob.Expression
import SourceChunks.Proofs.Glob
import SourceChunks.Proofs.Regex

/-!
# The regular expression of a glob matches what the glob does

The translation of a glob's text and the reading of the expression's text go token by token: each
token of the glob becomes a few bytes, these become a few lexical tokens, and these one part of the
expression, whatever stands around them. Each part stands for the texts of its token, so the whole
expression matches what can be cut into pieces for the tokens. An escaped text has a token for each
byte, and its expression matches nothing but the text itself.
-/

namespace SourceChunks

open Regex (lex)

/-! ## Tokens -/

namespace GlobToken

/-- The bytes that a token becomes in the expression's text. -/
def text : GlobToken → Bytes
  | .literal b => Glob.quote b
  | .separator => Glob.separatorText
  | .anyByte => bytes "."
  | .anyRun => bytes ".*"
  | .anyDirectories => bytes "(.*/)?"

/-- The lexical tokens that these bytes are cut into. -/
def lexemes : GlobToken → List Regex.Token
  | .literal b => [.one (.only b)]
  | .separator => [.one (.of [Bytes.slash, Bytes.backslash])]
  | .anyByte => [.one .noLineBreak]
  | .anyRun => [.one .noLineBreak, .star]
  | .anyDirectories =>
    [.opening, .one .noLineBreak, .star, .one (.only Bytes.slash), .closing, .question]

/-- The part of the expression that is read from them. -/
def regex : GlobToken → Regex
  | .literal b => .one (.only b)
  | .separator => .one (.of [Bytes.slash, Bytes.backslash])
  | .anyByte => .one .noLineBreak
  | .anyRun => .star (.one .noLineBreak)
  | .anyDirectories =>
    .optional (.append (.append .empty (.star (.one .noLineBreak))) (.one (.only Bytes.slash)))

end GlobToken

/-! ## Reading -/

/-- A byte that is a token by itself is cut off in front of whatever follows. -/
theorem Regex.lex_cons {b : UInt8} {token : Token} (h : tokenOfByte b = some token) (t : Bytes) :
    lex none (b :: t) = (lex none t).map (token :: ·) := by
  rw [lex, h]
  · rfl
  · rintro c rest rfl
    cases h
  · rintro rfl
    cases h

/-- A byte without a meaning of its own is a token by itself. -/
theorem Regex.tokenOfByte_of_not_isSpecial {b : UInt8} (h : isSpecial b = false) :
    tokenOfByte b = some (.one (.only b)) := by
  have hspecial (c : UInt8) (hc : isSpecial c = true) : b ≠ c := by
    rintro rfl
    rw [h] at hc
    cases hc
  rw [tokenOfByte, if_neg (hspecial _ (by decide)), if_neg (hspecial _ (by decide)),
    if_neg (hspecial _ (by decide)), if_neg (hspecial _ (by decide)),
    if_neg (hspecial _ (by decide)), h]
  rfl

/-- A quoted byte is read as a byte that stands for itself. -/
theorem Glob.lex_quote_append (b : UInt8) (t : Bytes) :
    lex none (quote b ++ t) = (lex none t).map (.one (.only b) :: ·) := by
  cases hb : Regex.isSpecial b with
  | true =>
    rw [quote, if_pos hb, List.cons_append, List.cons_append, Bytes.backslash, lex, if_pos hb]
    rfl
  | false =>
    have hquote : quote b = [b] := by rw [quote, hb]; rfl
    rw [hquote]
    exact Regex.lex_cons (Regex.tokenOfByte_of_not_isSpecial hb) t

namespace GlobToken

/-- The bytes of a token are cut off in front of whatever follows. -/
theorem lex_text_append (token : GlobToken) (t : Bytes) :
    lex none (token.text ++ t) = (lex none t).map (token.lexemes ++ ·) := by
  cases token with
  | literal b => exact Glob.lex_quote_append b t
  | separator => rfl
  | anyByte => rfl
  | anyRun =>
    change lex none (0x2E :: 0x2A :: t) = _
    rw [Regex.lex_cons rfl, Regex.lex_cons rfl, Option.map_map]
    rfl
  | anyDirectories =>
    change lex none (0x28 :: 0x2E :: 0x2A :: 0x2F :: 0x29 :: 0x3F :: t) = _
    rw [Regex.lex_cons rfl, Regex.lex_cons rfl, Regex.lex_cons rfl, Regex.lex_cons rfl,
      Regex.lex_cons rfl, Regex.lex_cons rfl]
    simp only [Option.map_map]
    rfl

/-- The lexical tokens of a token are read as one more part of the group, whichever it is. -/
theorem foldlM_lexemes (token : GlobToken) (st : Regex.Reading) :
    ∃ st', token.lexemes.foldlM Regex.Reading.step st = some st' ∧ st'.outer = st.outer ∧
      st'.here.close = .append st.here.close token.regex := by
  cases token <;> exact ⟨_, rfl, rfl, rfl⟩

end GlobToken

namespace Glob

/-- The expression of a glob: the parts of its tokens in order. -/
def regex (g : Glob) : Regex := g.foldl (fun r token => .append r token.regex) .empty

/-- The translation goes token by token. -/
theorem regexText_eq_flatMap (glob : Bytes) : regexText glob = (parse glob).flatMap (·.text) := by
  induction glob using parse.induct with
  | case1 => rfl
  | case2 b rest ih =>
    rw [regexText, parse, List.flatMap_cons, ih]
    split <;> rfl
  | case3 rest ih =>
    rw [regexText, parse, List.flatMap_cons, ih]
    rfl
  | case4 b rest hescape hdirectories ih =>
    rw [regexText, parse, List.flatMap_cons, ih]
    · split_ifs <;> rfl
    · exact hescape
    · exact hdirectories
    · exact hescape
    · exact hdirectories

example : regexText (bytes "**/*.[c]?\\?") = bytes "(.*/)?.*\\.\\[c\\].\\?" := by decide

/-- The lexical tokens of the expression's text are those of the tokens in order. -/
theorem lex_flatMap_text (g : Glob) :
    lex none (g.flatMap (·.text)) = some (g.flatMap (·.lexemes)) := by
  induction g with
  | nil => rfl
  | cons token g ih =>
    rw [List.flatMap_cons, token.lex_text_append, ih]
    rfl

/-- The tokens are read one after the other into the group that is being read. -/
theorem foldlM_flatMap_lexemes (g : Glob) (st : Regex.Reading) :
    ∃ st', (g.flatMap (·.lexemes)).foldlM Regex.Reading.step st = some st' ∧
      st'.outer = st.outer ∧
      st'.here.close = g.foldl (fun r token => .append r token.regex) st.here.close := by
  induction g generalizing st with
  | nil => exact ⟨st, rfl, rfl, rfl⟩
  | cons token g ih =>
    obtain ⟨mid, hmid, houter, hclose⟩ := token.foldlM_lexemes st
    obtain ⟨st', hst', houter', hclose'⟩ := ih mid
    refine ⟨st', ?_, houter'.trans houter, ?_⟩
    · rw [List.flatMap_cons, List.foldlM_append, hmid]
      exact hst'
    · rw [hclose', hclose, List.foldl_cons]

/-- The text of the expression is well formed, and the expression is that of the glob's tokens. -/
theorem ofText?_regexText (glob : Bytes) :
    Regex.ofText? (regexText glob) = some (parse glob).regex := by
  obtain ⟨st, hread, houter, hclose⟩ := foldlM_flatMap_lexemes (parse glob) {}
  have hfinish : st.finish = some (parse glob).regex := by
    rw [Regex.Reading.finish, houter, hclose]
    rfl
  rw [Regex.ofText?, regexText_eq_flatMap, lex_flatMap_text]
  change ((parse glob).flatMap (·.lexemes)).foldlM Regex.Reading.step {} >>= _ = _
  rw [hread]
  exact hfinish

/-! ## Matching -/

/-- The part of a token matches the texts that the token stands for. -/
theorem matches_token_regex_iff {token : GlobToken} {s : Bytes} :
    token.regex.Matches s ↔ token.Fits s := by
  have hrun (r : Bytes) : (Regex.star (.one .noLineBreak)).Matches r ↔ r.OnOneLine := by
    rw [Regex.matches_star_one_iff]
    simp [Bytes.OnOneLine, ByteSet.has, isLineBreak]
  cases token with
  | literal b => simp [GlobToken.regex, GlobToken.Fits, Regex.matches_one_iff, ByteSet.has]
  | separator =>
    simp [GlobToken.regex, GlobToken.Fits, Regex.matches_one_iff, ByteSet.has, or_and_right,
      exists_or]
  | anyByte =>
    simp [GlobToken.regex, GlobToken.Fits, Regex.matches_one_iff, ByteSet.has, isLineBreak]
  | anyRun => exact hrun s
  | anyDirectories =>
    simp [GlobToken.regex, GlobToken.Fits, Regex.matches_optional_iff, Regex.matches_append_iff,
      Regex.matches_empty_iff, Regex.matches_one_iff, hrun, ByteSet.has, and_comm]

/-- With further tokens an expression matches what can be cut into a match of its own and one of
the tokens. -/
theorem matches_foldl_regex_iff {g : Glob} {r : Regex} {t : Bytes} :
    (g.foldl (fun r token => .append r token.regex) r).Matches t ↔
      ∃ s u, t = s ++ u ∧ r.Matches s ∧ Matches g u := by
  induction g generalizing r t with
  | nil =>
    constructor
    · exact fun h => ⟨t, [], (List.append_nil t).symm, h, .nil⟩
    · rintro ⟨s, u, rfl, hs, hu⟩
      cases hu
      rwa [List.append_nil]
  | cons token g ih =>
    rw [List.foldl_cons, ih]
    constructor
    · rintro ⟨_, u, rfl, hs, hu⟩
      obtain ⟨s, s', rfl, hs, hs'⟩ := Regex.matches_append_iff.mp hs
      exact ⟨s, s' ++ u, List.append_assoc .., hs, .cons (matches_token_regex_iff.mp hs') hu⟩
    · rintro ⟨s, _, rfl, hs, hu⟩
      obtain ⟨s', u, rfl, hs', hu⟩ := matches_cons_iff.mp hu
      exact ⟨s ++ s', u, (List.append_assoc ..).symm,
        .append hs (matches_token_regex_iff.mpr hs'), hu⟩

/-- The expression of a glob matches what the glob does. -/
theorem accepts_regex_iff_matches {g : Glob} {t : Bytes} :
    g.regex.accepts t = true ↔ Matches g t := by
  rw [Regex.accepts_iff, regex, matches_foldl_regex_iff]
  constructor
  · rintro ⟨s, u, rfl, hs, hu⟩
    obtain rfl := Regex.matches_empty_iff.mp hs
    exact hu
  · exact fun h => ⟨[], t, rfl, .empty, h⟩

/-- The expression and the search over places accept the same texts. -/
theorem accepts_eq_accepts_regex (g : Glob) (t : Bytes) : g.accepts t = g.regex.accepts t :=
  Bool.eq_iff_iff.mpr (accepts_iff_matches.trans accepts_regex_iff_matches.symm)

/-- A glob matches the texts that can be cut into pieces, one for each token in order. -/
theorem matches_iff_exists_pieces {g : Glob} {t : Bytes} :
    Matches g t ↔ ∃ pieces, List.Forall₂ GlobToken.Fits g pieces ∧ pieces.flatten = t := by
  constructor
  · intro h
    induction h with
    | nil => exact ⟨[], .nil, rfl⟩
    | @cons _ _ s _ hs _ ih =>
      obtain ⟨pieces, hpieces, rfl⟩ := ih
      exact ⟨s :: pieces, .cons hs hpieces, List.flatten_cons⟩
  · rintro ⟨pieces, hpieces, rfl⟩
    induction hpieces with
    | nil => exact .nil
    | cons hs _ ih => exact .cons hs ih

/-- The expression that a glob is translated to is well formed, and it matches a text if and only if
the text can be cut into consecutive pieces, one for each token of the glob from left to right. The
search that a glob is matched with gives the same answer. -/
theorem regexText_decides_glob (glob : Bytes) :
    ∃ r, Regex.ofText? (regexText glob) = some r ∧ ∀ text : Bytes,
      (r.accepts text = true ↔
        ∃ pieces, List.Forall₂ GlobToken.Fits (parse glob) pieces ∧ pieces.flatten = text) ∧
      (parse glob).accepts text = r.accepts text := by
  refine ⟨_, ofText?_regexText glob, fun text => ⟨?_, accepts_eq_accepts_regex _ _⟩⟩
  rw [accepts_regex_iff_matches, matches_iff_exists_pieces]

/-! ## Escaped texts -/

/-- The pattern of an escaped text matches the texts of the same length that agree with it at each
place, where a slash agrees with a backslash too. -/
theorem matches_parse_escape_iff {s t : Bytes} :
    Matches (parse (escape s)) t ↔ List.Forall₂ ReadsAs s t := by
  have hparse := parse_escape_append s []
  rw [List.append_nil, parse, List.append_nil] at hparse
  rw [hparse, matches_map_tokenOf_iff]

/-- An escaped text has lost every wildcard: its expression is well formed and matches exactly the
texts of the same length that agree with the text at every place, but that a backslash may stand for
a slash. In particular it matches the text itself. The search that a glob is matched with gives the
same answer. -/
theorem escape_is_literal (s : Bytes) :
    ∃ r, Regex.ofText? (regexText (escape s)) = some r ∧
      (∀ t : Bytes,
        (r.accepts t = true ↔
          s.length = t.length ∧ ∀ (i : ℕ) (hs : i < s.length) (ht : i < t.length),
            t[i] = s[i] ∨ s[i] = Bytes.slash ∧ t[i] = Bytes.backslash) ∧
        (parse (escape s)).accepts t = r.accepts t) ∧
      r.accepts s = true := by
  refine ⟨_, ofText?_regexText (escape s), fun t => ⟨?_, accepts_eq_accepts_regex _ _⟩, ?_⟩
  · rw [accepts_regex_iff_matches, matches_parse_escape_iff, List.forall₂_iff_get]
    rfl
  · rw [accepts_regex_iff_matches, matches_parse_escape_iff]
    exact List.forall₂_same.mpr fun _ _ => Or.inl rfl

end Glob

end SourceChunks
