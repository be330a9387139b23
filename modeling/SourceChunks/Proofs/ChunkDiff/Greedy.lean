import Mathlib.Data.List.Forall2
import SourceChunks.Proofs.ChunkDiff.Partition
import SourceChunks.Proofs.ChunkDiff.Scoring

/-!
# Greedy matching of moved chunks

Deleted chunks choose in their order, and each one takes the first of the most similar chunks that
are left to it. What one pass over the added chunks finds is kept as an invariant of the pass, and
what the choices make of the lists follows by induction on the deleted chunks: pairs are in the
order of these, no place is used twice, and a chunk goes without a partner only if nothing that
could be one was left.
-/

namespace SourceChunks.ChunkDiff

variable {score : Bytes → Bytes → Rat} {threshold : Rat} {old new : Chunk}

/-- A deleted and an added chunk can be one that moved: they are of one kind and at different
places, and their contents come up to the threshold. -/
structure Eligible (score : Bytes → Bytes → Rat) (threshold : Rat) (old new : Chunk) : Prop where
  nodeType_eq : new.nodeType = old.nodeType
  elsewhere : ¬ (new.filePath = old.filePath ∧ new.startLine = old.startLine)
  le_score : threshold ≤ score old.content new.content

/-- A chunk may have moved when the kinds are the same and the places are not. -/
theorem mayMove_iff : mayMove old new = true ↔ new.nodeType = old.nodeType ∧
    ¬ (new.filePath = old.filePath ∧ new.startLine = old.startLine) := by
  simp [mayMove, ← not_and_or]

/-- A chunk is eligible when it may have moved there and the score reaches the threshold. -/
theorem eligible_iff : Eligible score threshold old new ↔
    mayMove old new = true ∧ threshold ≤ score old.content new.content := by
  rw [mayMove_iff]
  exact ⟨fun ⟨hkind, hplace, hscore⟩ => ⟨⟨hkind, hplace⟩, hscore⟩,
    fun ⟨⟨hkind, hplace⟩, hscore⟩ => ⟨hkind, hplace, hscore⟩⟩

/-- The chunk at a place is the first one of the best that are offered. What is not offered any more
has no chunk at its place. -/
structure IsFirstBest (score : Bytes → Bytes → Rat) (threshold : Rat) (old : Chunk)
    (offered : Nat → Option Chunk) (j : Nat) (new : Chunk) : Prop where
  offered_eq : offered j = some new
  eligible : Eligible score threshold old new
  best : ∀ j' new', offered j' = some new' → Eligible score threshold old new' →
    score old.content new'.content < score old.content new.content ∨
      (score old.content new'.content = score old.content new.content ∧ j ≤ j')

/-! ## One pass over the added chunks -/

/-- The chunk at a place of a list, if it is free. -/
def freeAt (added : List (Chunk × Bool)) (j : Nat) : Option Chunk :=
  added[j]?.bind fun e => if e.2 then some e.1 else none

/-- A place is free with a chunk when the chunk is there and marked as free. -/
theorem freeAt_eq_some_iff {added : List (Chunk × Bool)} {j : Nat} :
    freeAt added j = some new ↔ added[j]? = some (new, true) := by
  simp only [freeAt, Option.bind_eq_some_iff, Option.ite_none_right_eq_some, Option.some.injEq]
  constructor
  · rintro ⟨⟨c, free⟩, hget, rfl, rfl⟩
    exact hget
  · intro hget
    exact ⟨_, hget, rfl, rfl⟩

/-- At the start every added chunk is offered. -/
theorem freeAt_map_true (added : List Chunk) :
    freeAt (added.map fun c => (c, true)) = (added[·]?) := by
  funext j
  ext c
  simp [freeAt_eq_some_iff]

/-- One more chunk is offered at the end, if it is free. -/
theorem freeAt_concat_eq_some_iff {seen : List (Chunk × Bool)} {e : Chunk × Bool} {j : Nat} :
    freeAt (seen ++ [e]) j = some new ↔
      freeAt seen j = some new ∨ (j = seen.length ∧ e = (new, true)) := by
  rw [freeAt_eq_some_iff, freeAt_eq_some_iff, List.getElem?_append]
  split
  · next hlt => simp [Nat.ne_of_lt hlt]
  · next hge =>
    rw [List.getElem?_eq_none (Nat.le_of_not_lt hge), List.getElem?_singleton]
    split
    · next hzero => simp [show j = seen.length by omega]
    · next hpos => simp [show ¬ j = seen.length by omega]

/-- A place that is taken is not offered any more, every other one is offered as before. -/
theorem freeAt_set (added : List (Chunk × Bool)) (j : Nat) (new : Chunk) :
    freeAt (added.set j (new, false)) = Function.update (freeAt added) j none := by
  funext j'
  rw [Function.update_apply, freeAt, List.getElem?_set]
  split
  · next heq => simp [← heq]
  · next hne => rw [if_neg (Ne.symm hne), freeAt]

/-- What a pass knows of the chunks that it has seen: none of them is eligible, or which one is the
first of the best and how similar it is. -/
def Scanned (score : Bytes → Bytes → Rat) (threshold : Rat) (old : Chunk)
    (seen : List (Chunk × Bool)) (best : Option Nat × Rat) : Prop :=
  (best = (none, 0) ∧ ∀ j new, freeAt seen j = some new → ¬ Eligible score threshold old new) ∨
    ∃ j new, best = (some j, score old.content new.content) ∧
      IsFirstBest score threshold old (freeAt seen) j new

variable {seen : List (Chunk × Bool)} {best : Option Nat × Rat} {e : Chunk × Bool}

/-- A chunk that is taken or not eligible changes nothing. -/
theorem Scanned.pass (h : Scanned score threshold old seen best)
    (he : e.2 = true → ¬ Eligible score threshold old e.1) :
    Scanned score threshold old (seen ++ [e]) best := by
  have hseen {j : Nat} {new : Chunk} (hfree : freeAt (seen ++ [e]) j = some new)
      (heligible : Eligible score threshold old new) : freeAt seen j = some new := by
    rcases freeAt_concat_eq_some_iff.mp hfree with hfree | ⟨-, rfl⟩
    · exact hfree
    · exact absurd heligible (he rfl)
  rcases h with ⟨hbest, hnone⟩ | ⟨j, new, hbest, hfirst⟩
  · exact .inl ⟨hbest, fun j new hfree heligible => hnone j new (hseen hfree heligible) heligible⟩
  · refine .inr ⟨j, new, hbest, freeAt_concat_eq_some_iff.mpr (.inl hfirst.offered_eq),
      hfirst.eligible, ?_⟩
    intro j' new' hfree heligible
    exact hfirst.best j' new' (hseen hfree heligible) heligible

/-- A free and eligible chunk at the end is the best one if it is better than all before it. -/
theorem isFirstBest_concat (heligible : Eligible score threshold old new)
    (hbetter : ∀ j c, freeAt seen j = some c → Eligible score threshold old c →
      score old.content c.content < score old.content new.content) :
    IsFirstBest score threshold old (freeAt (seen ++ [(new, true)])) seen.length new where
  offered_eq := freeAt_concat_eq_some_iff.mpr (.inr ⟨rfl, rfl⟩)
  eligible := heligible
  best j c hfree hc := by
    rcases freeAt_concat_eq_some_iff.mp hfree with hfree | ⟨rfl, heq⟩
    · exact .inl (hbetter j c hfree hc)
    · rw [(Prod.mk.inj heq).1]
      exact .inr ⟨rfl, le_rfl⟩

/-- A free and eligible chunk is the best one so far if it is better than the best one before. -/
theorem Scanned.take (hpos : 0 < threshold) (h : Scanned score threshold old seen best)
    (heligible : Eligible score threshold old new) :
    Scanned score threshold old (seen ++ [(new, true)])
      (if best.2 < score old.content new.content
        then (some seen.length, score old.content new.content) else best) := by
  rcases h with ⟨rfl, hnone⟩ | ⟨j, first, rfl, hfirst⟩
  · rw [if_pos (hpos.trans_le heligible.le_score)]
    refine .inr ⟨_, new, rfl, isFirstBest_concat heligible fun j c hfree hc => ?_⟩
    exact absurd hc (hnone j c hfree)
  · split
    · next hbetter =>
      refine .inr ⟨_, new, rfl, isFirstBest_concat heligible fun j' c hfree hc => ?_⟩
      rcases hfirst.best j' c hfree hc with hlt | ⟨heq, -⟩
      · exact hlt.trans hbetter
      · exact heq.trans_lt hbetter
    · next hworse =>
      refine .inr ⟨j, first, rfl, freeAt_concat_eq_some_iff.mpr (.inl hfirst.offered_eq),
        hfirst.eligible, ?_⟩
      intro j' c hfree hc
      rcases freeAt_concat_eq_some_iff.mp hfree with hfree | ⟨rfl, heq⟩
      · exact hfirst.best j' c hfree hc
      · have hlt : j < seen.length :=
          (List.getElem?_eq_some_iff.mp (freeAt_eq_some_iff.mp hfirst.offered_eq)).1
        rw [← (Prod.mk.inj heq).1]
        exact (not_lt.mp hworse).lt_or_eq.imp_right fun hsame => ⟨hsame, hlt.le⟩

/-- A pass from any point on knows all of the list in the end. -/
theorem Scanned.exists_bestPartnerBy (hpos : 0 < threshold)
    (h : Scanned score threshold old seen best) (rest : List (Chunk × Bool)) :
    ∃ best', Scanned score threshold old (seen ++ rest) best' ∧
      bestPartnerBy score threshold old seen.length best rest = best'.1 := by
  induction rest generalizing seen best with
  | nil => exact ⟨best, by rwa [List.append_nil], rfl⟩
  | cons e rest ih =>
    obtain ⟨new, free⟩ := e
    rw [bestPartnerBy, List.append_cons]
    have hlength : seen.length + 1 = (seen ++ [(new, free)]).length := by simp
    rw [hlength]
    refine ih ?_
    by_cases heligible : free = true ∧ Eligible score threshold old new
    · obtain ⟨rfl, heligible⟩ := heligible
      obtain ⟨hmove, hscore⟩ := eligible_iff.mp heligible
      simpa [hmove, hscore] using h.take hpos heligible
    · have hpass := h.pass (e := (new, free)) fun hfree helig => heligible ⟨hfree, helig⟩
      rw [eligible_iff] at heligible
      split
      · next hcandidate =>
        rw [Bool.and_eq_true] at hcandidate
        have hbelow : ¬ threshold ≤ score old.content new.content := fun hscore =>
          heligible ⟨hcandidate.1, hcandidate.2, hscore⟩
        simpa [hbelow] using hpass
      · exact hpass

variable (score) in
/-- The choice among all candidates is the first of the best ones that are free, if one is
eligible. -/
theorem bestPartnerBy_cases (hpos : 0 < threshold) (old : Chunk) (added : List (Chunk × Bool)) :
    (bestPartnerBy score threshold old 0 (none, Scalar.ofNat 0) added = none ∧
      ∀ j new, freeAt added j = some new → ¬ Eligible score threshold old new) ∨
    ∃ j new, bestPartnerBy score threshold old 0 (none, Scalar.ofNat 0) added = some j ∧
      IsFirstBest score threshold old (freeAt added) j new := by
  have hstart : Scanned score threshold old [] (none, Scalar.ofNat 0) :=
    .inl ⟨by simp, fun j new hfree => by simp [freeAt_eq_some_iff] at hfree⟩
  obtain ⟨best, hscanned, hbest⟩ := hstart.exists_bestPartnerBy hpos added
  rw [List.length_nil] at hbest
  rw [hbest]
  rcases hscanned with ⟨rfl, hnone⟩ | ⟨j, new, rfl, hfirst⟩
  · exact .inl ⟨rfl, hnone⟩
  · exact .inr ⟨j, new, rfl, hfirst⟩

/-! ## All choices -/

/-- What is left of an offer to the deleted chunk at a place, after the pairs of earlier ones. -/
def leftTo (i : Nat) (places : List (Nat × Nat)) (offered : Nat → Option Chunk) (j : Nat) :
    Option Chunk :=
  if ∃ p ∈ places, p.1 < i ∧ p.2 = j then none else offered j

/-- Pairs of deleted and added chunks, given with their places in both lists, are those of a greedy
choice. -/
structure IsGreedyMatching (score : Bytes → Bytes → Rat) (threshold : Rat) (deleted : List Chunk)
    (offered : Nat → Option Chunk) (places : List (Nat × Nat)) (pairs : List (Chunk × Chunk)) :
    Prop where
  /-- The pairs are those of the chunks at the places. -/
  pairs_at : List.Forall₂ (fun p m =>
      deleted[p.1]? = some m.1 ∧ offered p.2 = some m.2) places pairs
  /-- They are in the order of the deleted chunks, each of which is in one pair at most. -/
  increasing : places.Pairwise fun p q => p.1 < q.1
  /-- No added chunk is in two pairs. -/
  distinct : places.Pairwise fun p q => p.2 ≠ q.2
  /-- A partner is the first of the best ones that earlier pairs have left. -/
  chosen : ∀ p ∈ places, ∃ old new, deleted[p.1]? = some old ∧
    IsFirstBest score threshold old (leftTo p.1 places offered) p.2 new
  /-- A deleted chunk has no partner only if earlier pairs have left no eligible one. -/
  unmatched : ∀ i old, deleted[i]? = some old → (∀ p ∈ places, p.1 ≠ i) →
    ∀ j new, leftTo i places offered j = some new → ¬ Eligible score threshold old new

/-- The places of a pair when one more deleted chunk comes first. -/
def afterOne (p : Nat × Nat) : Nat × Nat := (p.1 + 1, p.2)

section Places

variable {places : List (Nat × Nat)} {offered : Nat → Option Chunk} {i j : Nat}

/-- To the first deleted chunk everything offered is left. -/
theorem leftTo_zero : leftTo 0 places offered = offered := by
  funext j
  simp [leftTo]

/-- Pairs behind a deleted chunk without a partner take from later chunks as they did without it. -/
theorem leftTo_succ_map :
    leftTo (i + 1) (places.map afterOne) offered = leftTo i places offered := by
  funext j
  have htaken : (∃ p ∈ places.map afterOne, p.1 < i + 1 ∧ p.2 = j) ↔
      ∃ p ∈ places, p.1 < i ∧ p.2 = j := by
    simp [afterOne]
  simp only [leftTo, htaken]

/-- A first pair takes its added chunk from the offer to all later chunks. -/
theorem leftTo_succ_cons :
    leftTo (i + 1) ((0, j) :: places.map afterOne) offered =
      leftTo i places (Function.update offered j none) := by
  funext j'
  have htaken : (∃ p ∈ (0, j) :: places.map afterOne, p.1 < i + 1 ∧ p.2 = j') ↔
      j = j' ∨ ∃ p ∈ places, p.1 < i ∧ p.2 = j' := by
    simp [afterOne]
  simp only [leftTo, htaken, Function.update_apply]
  by_cases hj : j = j'
  · simp [hj]
  · simp only [hj, Ne.symm hj, false_or, if_false]

end Places

variable {deleted : List Chunk} {offered : Nat → Option Chunk} {places : List (Nat × Nat)}
  {pairs : List (Chunk × Chunk)} {j : Nat}

namespace IsGreedyMatching

/-- Without deleted chunks no pair is chosen. -/
theorem nil : IsGreedyMatching score threshold [] offered [] [] where
  pairs_at := .nil
  increasing := .nil
  distinct := .nil
  chosen := nofun
  unmatched := nofun

/-- A first deleted chunk that finds no partner leaves the others with the same offer. -/
theorem skip (h : IsGreedyMatching score threshold deleted offered places pairs)
    (hnone : ∀ j new, offered j = some new → ¬ Eligible score threshold old new) :
    IsGreedyMatching score threshold (old :: deleted) offered (places.map afterOne) pairs where
  pairs_at := List.forall₂_map_left_iff.mpr h.pairs_at
  increasing := List.pairwise_map.mpr (h.increasing.imp Nat.succ_lt_succ)
  distinct := List.pairwise_map.mpr h.distinct
  chosen := by
    rw [List.forall_mem_map]
    intro p hp
    rw [afterOne, leftTo_succ_map]
    exact h.chosen p hp
  unmatched i c hc hfree := by
    rw [List.forall_mem_map] at hfree
    cases i with
    | zero =>
      obtain rfl : old = c := by simpa using hc
      rw [leftTo_zero]
      exact hnone
    | succ i =>
      rw [leftTo_succ_map]
      exact h.unmatched i c hc fun p hp heq => hfree p hp (congrArg Nat.succ heq)

/-- A first deleted chunk that finds a partner leaves the others without this one. -/
theorem take (h : IsGreedyMatching score threshold deleted (Function.update offered j none) places
      pairs)
    (hfirst : IsFirstBest score threshold old offered j new) :
    IsGreedyMatching score threshold (old :: deleted) offered ((0, j) :: places.map afterOne)
      ((old, new) :: pairs) where
  pairs_at := by
    refine .cons ⟨rfl, hfirst.offered_eq⟩ (List.forall₂_map_left_iff.mpr (h.pairs_at.imp ?_))
    rintro p m ⟨hold, hnew⟩
    refine ⟨hold, ?_⟩
    rw [Function.update_apply, Option.ite_none_left_eq_some] at hnew
    exact hnew.2
  increasing := by
    refine List.pairwise_cons.mpr ⟨?_, List.pairwise_map.mpr (h.increasing.imp Nat.succ_lt_succ)⟩
    rw [List.forall_mem_map]
    exact fun p _ => Nat.succ_pos p.1
  distinct := by
    refine List.pairwise_cons.mpr ⟨?_, List.pairwise_map.mpr h.distinct⟩
    rw [List.forall_mem_map]
    rintro p hp rfl
    -- What the others choose is offered to them.
    obtain ⟨_, c, -, hoffered, -⟩ := h.chosen p hp
    simp [leftTo, afterOne] at hoffered
  chosen := by
    rw [List.forall_mem_cons, List.forall_mem_map]
    constructor
    · rw [leftTo_zero]
      exact ⟨old, new, rfl, hfirst⟩
    · intro p hp
      rw [afterOne, leftTo_succ_cons]
      exact h.chosen p hp
  unmatched i c hc hfree := by
    rw [List.forall_mem_cons, List.forall_mem_map] at hfree
    cases i with
    | zero => exact absurd rfl hfree.1
    | succ i =>
      rw [leftTo_succ_cons]
      exact h.unmatched i c hc fun p hp heq => hfree.2 p hp (congrArg Nat.succ heq)

/-- What stays without a partner on both sides cannot be one chunk that moved. -/
theorem not_eligible (h : IsGreedyMatching score threshold deleted offered places pairs) {i : Nat}
    (hold : deleted[i]? = some old) (hi : ∀ p ∈ places, p.1 ≠ i) (hnew : offered j = some new)
    (hj : ∀ p ∈ places, p.2 ≠ j) : ¬ Eligible score threshold old new := by
  refine h.unmatched i old hold hi j new ?_
  rw [leftTo, if_neg (fun ⟨p, hp, _, heq⟩ => hj p hp heq), hnew]

/-- Places that are chosen are those of a pair. -/
theorem exists_pair (h : IsGreedyMatching score threshold deleted offered places pairs)
    {p : Nat × Nat} (hp : p ∈ places) :
    ∃ m ∈ pairs, deleted[p.1]? = some m.1 ∧ offered p.2 = some m.2 := by
  obtain ⟨k, hk, rfl⟩ := List.getElem_of_mem hp
  have hk' : k < pairs.length := h.pairs_at.length_eq ▸ hk
  exact ⟨pairs[k], List.getElem_mem hk', h.pairs_at.get hk hk'⟩

/-- Chunks whose ids are not those of a pair are without a partner. -/
theorem not_eligible_of_id (h : IsGreedyMatching score threshold deleted offered places pairs)
    (hold : old ∈ deleted) (hi : old.id ∉ pairs.map fun m => m.1.id) (hnew : offered j = some new)
    (hj : new.id ∉ pairs.map fun m => m.2.id) : ¬ Eligible score threshold old new := by
  obtain ⟨i, hold⟩ := List.mem_iff_getElem?.mp hold
  refine h.not_eligible hold (fun p hp heq => ?_) hnew (fun p hp heq => ?_)
  · obtain ⟨m, hm, hfst, -⟩ := h.exists_pair hp
    rw [heq, hold, Option.some.injEq] at hfst
    exact hi (List.mem_map.mpr ⟨m, hm, hfst ▸ rfl⟩)
  · obtain ⟨m, hm, -, hsnd⟩ := h.exists_pair hp
    rw [heq, hnew, Option.some.injEq] at hsnd
    exact hj (List.mem_map.mpr ⟨m, hm, hsnd ▸ rfl⟩)

end IsGreedyMatching

/-- One choice after another makes a greedy matching. -/
theorem exists_isGreedyMatching (hpos : 0 < threshold) (deleted : List Chunk)
    (added : List (Chunk × Bool)) :
    ∃ places, IsGreedyMatching score threshold deleted (freeAt added) places
      (matchMovesBy score threshold deleted added) := by
  induction deleted generalizing added with
  | nil => exact ⟨[], .nil⟩
  | cons old rest ih =>
    rw [matchMovesBy]
    rcases bestPartnerBy_cases score hpos old added with ⟨hbest, hnone⟩ | ⟨j, new, hbest, hfirst⟩
    · obtain ⟨places, hplaces⟩ := ih added
      simp only [hbest]
      exact ⟨_, hplaces.skip hnone⟩
    · obtain ⟨places, hplaces⟩ := ih (added.set j (new, false))
      rw [freeAt_set] at hplaces
      simp only [hbest, freeAt_eq_some_iff.mp hfirst.offered_eq]
      exact ⟨_, hplaces.take hfirst⟩

/-- Moves are detected by a greedy matching with the exact similarities as scores. -/
theorem exists_isGreedyMatching_detectMoves (hpos : 0 < threshold) (deleted added : List Chunk) :
    ∃ places, IsGreedyMatching likeness threshold deleted (added[·]?) places
      (detectMoves threshold deleted added) := by
  rw [detectMoves_eq_by_likeness hpos, ← freeAt_map_true]
  exact exists_isGreedyMatching hpos deleted _

/-- What a comparison leaves as deleted and as added cannot be one chunk that moved. -/
theorem not_eligible_ofChunks (hpos : 0 < threshold) {old new : List Chunk} {o n : Chunk}
    (ho : o ∈ (ofChunks threshold old new).deleted) (hn : n ∈ (ofChunks threshold old new).added) :
    ¬ Eligible likeness threshold o n := by
  obtain ⟨places, hplaces⟩ :=
    exists_isGreedyMatching_detectMoves hpos (unmatchedOld old new) (unmatchedNew old new)
  have hleft {c : Chunk} {ids : List Bytes} {cs : List Chunk} (hc : c ∈ withoutIds ids cs) :
      c ∈ cs ∧ c.id ∉ ids := by
    simpa [withoutIds] using hc
  obtain ⟨ho, hmovedOld⟩ := hleft ho
  obtain ⟨hn, hmovedNew⟩ := hleft hn
  obtain ⟨j, hn⟩ := List.mem_iff_getElem?.mp hn
  exact hplaces.not_eligible_of_id ho hmovedOld hn hmovedNew

/-- Moves are detected one to one, in the order of the deleted chunks, each with the first of the
most similar chunks that are left to it, and no deleted chunk is passed over that could have had a
partner. So what a comparison with a text leaves as deleted and as added cannot be one chunk that
moved; in particular no chunk is left that stands elsewhere word for word. -/
theorem detectMoves_matches_greedily {threshold : Rat} (hpos : 0 < threshold)
    (hle : threshold ≤ 1) :
    (∀ deleted added : List Chunk, ∃ places,
      IsGreedyMatching likeness threshold deleted (added[·]?) places
        (detectMoves threshold deleted added) ∧
      ∀ i j old new, deleted[i]? = some old → added[j]? = some new →
        (∀ p ∈ places, p.1 ≠ i) → (∀ p ∈ places, p.2 ≠ j) →
        ¬ Eligible likeness threshold old new) ∧
    ∀ (old : List Chunk) (text : Bytes) (language : Language) (filePath : Bytes) (o n : Chunk),
      o ∈ (compute threshold old text language filePath).deleted →
      n ∈ (compute threshold old text language filePath).added →
      ¬ Eligible likeness threshold o n ∧
      ¬ (n.nodeType = o.nodeType ∧ ¬ (n.filePath = o.filePath ∧ n.startLine = o.startLine) ∧
        n.content = o.content) := by
  constructor
  · intro deleted added
    obtain ⟨places, hplaces⟩ := exists_isGreedyMatching_detectMoves hpos deleted added
    refine ⟨places, hplaces, fun i j old new hold hnew hi hj => ?_⟩
    exact hplaces.not_eligible hold hi hnew hj
  · intro old text language filePath o n ho hn
    have hnot : ¬ Eligible likeness threshold o n := not_eligible_ofChunks hpos ho hn
    refine ⟨hnot, fun ⟨hkind, hplace, hcontent⟩ => hnot ⟨hkind, hplace, ?_⟩⟩
    rw [hcontent, likeness_self]
    exact hle

/-- A chunk with nothing but a first line and a content. -/
def chunkAt (startLine : Int) (content : Bytes) : Chunk :=
  { (default : Chunk) with startLine, content }

/-- Two chunks with one content. -/
def twins : List Chunk := [chunkAt 1 (bytes "abcdefghij"), chunkAt 3 (bytes "abcdefghij")]

/-- Where they may have moved. -/
def sites : List Chunk := [chunkAt 5 (bytes "abcdefghiX"), chunkAt 9 (bytes "abcdefghij")]

/-- The first of two equal chunks moves to where it stands word for word, the other one to what is
left and still similar enough. -/
theorem detectMoves_matches_greedily_twins :
    (0 : Rat) < 17 / 20 ∧ (17 / 20 : Rat) ≤ 1 ∧
    (detectMoves (17 / 20 : Rat) twins sites).map (fun m => (m.1.startLine, m.2.startLine)) =
      [(1, 9), (3, 5)] ∧
    ∃ places, IsGreedyMatching likeness (17 / 20) twins (sites[·]?) places
      (detectMoves (17 / 20 : Rat) twins sites) := by
  have hpos : (0 : Rat) < 17 / 20 := by norm_num
  have hle : (17 / 20 : Rat) ≤ 1 := by norm_num
  obtain ⟨places, hplaces, -⟩ := (detectMoves_matches_greedily hpos hle).1 twins sites
  exact ⟨hpos, hle, by decide +kernel, places, hplaces⟩

end SourceChunks.ChunkDiff
