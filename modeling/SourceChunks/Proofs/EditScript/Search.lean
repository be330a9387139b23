import SourceChunks.Proofs.EditScript.Reach

/-!
# The arrays of the search

The search keeps the reaches of all diagonals in one array and writes those of a round over those of
the round before last, which the round does not read any more. Each round reads only diagonals that
the array holds. The slices that the search keeps are the reaches before each round, so the way back
from the far corner goes from reach to reach, and its steps turn one side into the other, with one
edit in each round.
-/

namespace SourceChunks.EditScript

variable {α : Type} {a b : List α} {d total : Nat} {k x y : Int}

/-! ## Along a diagonal -/

/-- The checked read of an array is the read of its list. -/
theorem readAt?_toArray (l : List α) {i : Int} (hi : 0 ≤ i) :
    readAt? l.toArray i = l[i.toNat]? := by
  rw [readAt?, if_pos hi, List.getElem?_toArray]

/-- A list from an element on is that element and the list after it. -/
theorem drop_toNat_of_getElem? {l : List α} {i : Int} {u : α} (hi : 0 ≤ i)
    (h : l[i.toNat]? = some u) : l.drop i.toNat = u :: l.drop (i + 1).toNat := by
  obtain ⟨hlt, rfl⟩ := List.getElem?_eq_some_iff.mp h
  rw [List.drop_eq_getElem_cons hlt, show (i + 1).toNat = i.toNat + 1 by omega]

variable [DecidableEq α]

/-- Sliding down a diagonal goes past all that is kept. -/
theorem slide?_eq (hx : 0 ≤ x) (hy : 0 ≤ y) :
    slide? a.toArray b.toArray x y = some (x + kept a b x y, y + kept a b x y) := by
  fun_induction slide? a.toArray b.toArray x y with
  | case1 x y hlt u hv hu ih =>
    rw [readAt?_toArray _ hx] at hu
    rw [readAt?_toArray _ hy] at hv
    have hkept : kept a b x y = kept a b (x + 1) (y + 1) + 1 := by
      unfold kept
      rw [drop_toNat_of_getElem? hx hu, drop_toNat_of_getElem? hy hv, commonLength, if_pos rfl]
    rw [ih (by omega) (by omega), hkept]
    simp only [Option.some.injEq, Prod.mk.injEq]
    omega
  | case2 x y hlt u v hv hu hne =>
    rw [readAt?_toArray _ hx] at hu
    rw [readAt?_toArray _ hy] at hv
    have hkept : kept a b x y = 0 := by
      unfold kept
      rw [drop_toNat_of_getElem? hx hu, drop_toNat_of_getElem? hy hv, commonLength, if_neg hne]
    simp [hkept]
  | case3 x y hlt hnone =>
    rw [List.size_toArray, List.size_toArray] at hlt
    have hu : a[x.toNat]? = some a[x.toNat] := List.getElem?_eq_getElem (by omega)
    have hv : b[y.toNat]? = some b[y.toNat] := List.getElem?_eq_getElem (by omega)
    rw [← readAt?_toArray _ hx] at hu
    rw [← readAt?_toArray _ hy] at hv
    exact (hnone _ _ hu hv).elim
  | case4 x y hlt =>
    rw [List.size_toArray, List.size_toArray] at hlt
    have hin := kept_eq_zero_or_le (a := a) (b := b) hx hy
    have hkept : kept a b x y = 0 := by omega
    simp [hkept]

/-! ## The array of reaches -/

/-- The array holds a reach for each diagonal from which any path can come. -/
structure Frontier.Holds (f : Frontier) (total : Nat) (reach : Int → Int) : Prop where
  /-- There is a place for each of these diagonals. -/
  offset_eq : f.offset = total + 1
  size_eq : f.reach.size = 2 * total + 3
  /-- The reach of a diagonal is at its place. -/
  at?_eq : ∀ {k : Int}, -(total + 1) ≤ k → k ≤ total + 1 → f.at? k = some (reach k)

/-- The frontier starts with reach zero on every diagonal. -/
theorem holds_start (total : Nat) : (Frontier.start total).Holds total fun _ => 0 where
  offset_eq := rfl
  size_eq := Array.size_replicate ..
  at?_eq {k} hlow hhigh := by
    have hlt : ((total : Int) + 1 + k).toNat < 2 * total + 3 := by omega
    have hindex : 0 ≤ (total : Int) + 1 + k := by omega
    exact (if_pos hindex).trans (by rw [Frontier.start, Array.getElem?_replicate, if_pos hlt])

namespace Frontier.Holds

variable {f : Frontier} {reach : Int → Int}

/-- Writing a reach changes it on its diagonal only. -/
theorem exists_writeAt? (h : f.Holds total reach) (hlow : -(total + 1) ≤ k) (hhigh : k ≤ total + 1)
    (v : Int) :
    ∃ xs, writeAt? f.reach (f.offset + k) v = some xs ∧
      Frontier.Holds { f with reach := xs } total fun j => if j = k then v else reach j := by
  have hsize := h.size_eq
  have hoffset := h.offset_eq
  refine ⟨_, if_pos (by omega), hoffset, by rw [Array.size_setIfInBounds, hsize], ?_⟩
  intro j hjlow hjhigh
  have hindex : 0 ≤ f.offset + j := by omega
  have hread : f.reach[(f.offset + j).toNat]? = some (reach j) :=
    (if_pos hindex).symm.trans (h.at?_eq hjlow hjhigh)
  refine (if_pos hindex).trans ?_
  rw [Array.getElem?_setIfInBounds]
  by_cases heq : j = k
  · rw [if_pos (by rw [heq]), if_pos (by omega), if_pos heq]
  · have hne : (f.offset + k).toNat ≠ (f.offset + j).toNat := by omega
    rw [if_neg hne, if_neg heq, hread]

/-- The slice of a round holds the reaches of the diagonals up to the round's number. -/
theorem readAt?_slice (h : f.Holds total reach) (hd : d ≤ total) (hlow : -d ≤ k) (hhigh : k ≤ d) :
    readAt? (f.slice d) (k + d) = some (reach k) := by
  have hsize := h.size_eq
  have hoffset := h.offset_eq
  have hread := h.at?_eq (k := k) (by omega) (by omega)
  rw [Frontier.at?, readAt?, if_pos (by omega)] at hread
  rw [readAt?, if_pos (by omega), Frontier.slice, Array.getElem?_extract, if_pos (by omega),
    ← hread]
  congr 1
  omega

end Frontier.Holds

/-! ## One diagonal of a round -/

section Entry

variable {reach reach' : Int → Int}

/-- Which neighbour a path comes from is found by looking only at those that a round has. -/
theorem comesFrom?_eq {look? : Int → Option Int}
    (hbelow : k ≠ -d → look? (k - 1) = some (reach (k - 1)))
    (habove : k = -d ∨ k ≠ d → look? (k + 1) = some (reach (k + 1))) :
    comesFrom? look? d k = some (source reach d k, reach (source reach d k)) := by
  unfold comesFrom? source
  by_cases hfirst : k = -d
  · rw [if_pos hfirst, if_pos (.inl hfirst), habove (.inl hfirst)]
    rfl
  · by_cases hlast : k = d
    · rw [if_neg hfirst, if_pos hlast, hbelow hfirst, if_neg (by omega)]
      rfl
    · rw [if_neg hfirst, if_neg hlast, hbelow hfirst, habove (.inr hlast)]
      by_cases hlt : reach (k - 1) < reach (k + 1)
      · rw [if_pos (.inr ⟨hlast, hlt⟩)]
        exact congrArg some (if_pos hlt)
      · rw [if_neg (by omega)]
        exact congrArg some (if_neg hlt)

/-- The entry in terms of the neighbour that the path comes from. -/
theorem entry_eq (reach : Int → Int) (d : Nat) (k : Int) :
    entry reach d k =
      if source reach d k = k + 1 then reach (source reach d k)
      else reach (source reach d k) + 1 := by
  have hsource : source reach d k = k + 1 ∨ source reach d k = k - 1 := by
    unfold source
    split
    · exact .inl rfl
    · exact .inr rfl
  obtain h | h := hsource
  · rw [entry, if_pos h, if_pos h, h]
  · have hne : source reach d k ≠ k + 1 := by omega
    rw [entry, if_neg hne, if_neg hne, h]

end Entry

/-- What a round does on one diagonal: the frontier after it, and the point that is reached. -/
def advance? (a b : Array α) (d : Nat) (k : Int) (f : Frontier) :
    Option (Frontier × Int × Int) := do
  let (fromK, fromX) ← comesFrom? f.at? d k
  let start := if fromK = k + 1 then fromX else fromX + 1
  let (x, y) ← slide? a b start (start - k)
  let reach ← writeAt? f.reach (f.offset + k) x
  return ({ f with reach }, x, y)

/-- A round goes on to the next diagonal unless a point has both sides behind it. -/
theorem round?_cons (a b : Array α) (d : Nat) (k : Int) (ks : List Int) (f : Frontier) :
    round? a b d (k :: ks) f = (advance? a b d k f).bind fun (f', x, y) =>
      if a.size ≤ x ∧ b.size ≤ y then some (f', true) else round? a b d ks f' := by
  simp only [round?, advance?, Option.bind_eq_bind, Option.bind_assoc]
  rfl

/-- Where the frontier has the reaches of the round before next to a diagonal, the diagonal gets the
reach of the round, and no look-up fails. -/
theorem exists_advance? {f : Frontier} {reach : Int → Int} (hd : d ≤ total) (hk : k ∈ diagonals d)
    (hf : f.Holds total reach) (hreach : ∀ j, j ∉ diagonals d → reach j = reaches a b d j) :
    ∃ f', advance? a.toArray b.toArray d k f = some (f', reachOf a b d k, reachOf a b d k - k) ∧
      f'.Holds total fun j => if j = k then reachOf a b d k else reach j := by
  have hrange := mem_diagonals.mp hk
  -- The neighbours are not diagonals of this round, so they have the reaches of the one before.
  have hbelow : reach (k - 1) = reaches a b d (k - 1) :=
    hreach _ fun h => by
      rw [mem_diagonals] at h
      omega
  have habove : reach (k + 1) = reaches a b d (k + 1) :=
    hreach _ fun h => by
      rw [mem_diagonals] at h
      omega
  have hcomes : comesFrom? f.at? d k =
      some (source (reaches a b d) d k, reaches a b d (source (reaches a b d) d k)) :=
    comesFrom?_eq (fun _ => by rw [hf.at?_eq (by omega) (by omega), hbelow])
      (fun _ => by rw [hf.at?_eq (by omega) (by omega), habove])
  obtain ⟨hx, hy⟩ := entry_nonneg (a := a) (b := b) hk
  have hslide := slide?_eq (a := a) (b := b) hx hy
  obtain ⟨xs, hwrite, hholds⟩ := hf.exists_writeAt? (k := k) (by omega) (by omega)
    (reachOf a b d k)
  have hy' : entry (reaches a b d) d k - k +
      kept a b (entry (reaches a b d) d k) (entry (reaches a b d) d k - k) =
      reachOf a b d k - k := by
    rw [reachOf]
    omega
  refine ⟨{ f with reach := xs }, ?_, hholds⟩
  simp only [advance?, hcomes, Option.bind_eq_bind, Option.bind_some, ← entry_eq, hslide]
  rw [← reachOf, hwrite, hy']
  rfl

/-! ## Slices -/

/-- The slices of the rounds before round `d` hold the reaches before each of them, on the diagonals
that the round may read. -/
def Keeps (a b : List α) (slices : Array (Array Int)) (d : Nat) : Prop :=
  ∀ c < d, ∃ slice, slices[c]? = some slice ∧
    ∀ k : Int, -c ≤ k → k ≤ c → readAt? slice (k + c) = some (reaches a b c k)

/-- One more round keeps one more slice. -/
theorem Keeps.push {slices : Array (Array Int)} {f : Frontier} (h : Keeps a b slices d)
    (hsize : slices.size = d) (hd : d ≤ total) (hf : f.Holds total (reaches a b d)) :
    Keeps a b (slices.push (f.slice d)) (d + 1) := by
  intro c hc
  by_cases hlast : c = d
  · subst hlast
    refine ⟨f.slice c, ?_, fun k => hf.readAt?_slice hd⟩
    rw [← hsize, Array.getElem?_push_size]
  · obtain ⟨slice, hget, hread⟩ := h c (by omega)
    refine ⟨slice, ?_, hread⟩
    rw [Array.getElem?_push, if_neg (by omega)]
    exact hget

/-! ## The way back -/

/-- What is kept from a point on can stand in front of a path that goes on behind it. -/
theorem turns_kept {steps : List Step} (hx : 0 ≤ x) (hy : 0 ≤ y)
    (h : Turns steps (a.drop (x + kept a b x y).toNat) (b.drop (y + kept a b x y).toNat)) :
    Turns (List.replicate (kept a b x y) .keep ++ steps) (a.drop x.toNat) (b.drop y.toNat) := by
  obtain ⟨l, hlength, hold, hnew⟩ :=
    exists_append_drop_commonLength (a.drop x.toNat) (b.drop y.toNat)
  have hx' : (x + kept a b x y).toNat = x.toNat + kept a b x y := by omega
  have hy' : (y + kept a b x y).toNat = y.toNat + kept a b x y := by omega
  rw [hx', hy', ← List.drop_drop, ← List.drop_drop] at h
  have hkeep := turns_replicate_keep h l
  unfold kept at hkeep ⊢
  rwa [hlength, ← hold, ← hnew] at hkeep

/-- The trail leads from a reach of round `d` to the far corner. -/
structure Trail.LeadsFrom (t : Trail) (a b : List α) (d : Nat) : Prop where
  mem_diagonals : t.x - t.y ∈ diagonals d
  reachOf_eq : reachOf a b d (t.x - t.y) = t.x
  x_le : t.x ≤ a.length
  y_le : t.y ≤ b.length
  turns : Turns t.steps (a.drop t.x.toNat) (b.drop t.y.toNat)

/-- Following a trail back by one round leads to a reach of the round before, with one edit more. -/
theorem exists_followBack?_succ {slices : Array (Array Int)} {t : Trail}
    (hslices : Keeps a b slices (d + 2)) (ht : t.LeadsFrom a b (d + 1)) :
    ∃ t', followBack? slices (d + 1) t = followBack? slices d t' ∧ t'.LeadsFrom a b d ∧
      edits t'.steps = edits t.steps + 1 := by
  obtain ⟨k, hkeq⟩ : ∃ k, t.x - t.y = k := ⟨_, rfl⟩
  obtain ⟨x, hxeq⟩ : ∃ x, entry (reaches a b (d + 1)) (d + 1) k = x := ⟨_, rfl⟩
  obtain ⟨c, hceq⟩ : ∃ c, kept a b x (x - k) = c := ⟨_, rfl⟩
  obtain ⟨hk, hreach, hxle, hyle, hsteps⟩ := ht
  rw [hkeq] at hk hreach
  obtain ⟨hx, hy⟩ := entry_nonneg (a := a) (b := b) hk
  rw [hxeq] at hx hy
  have htx : t.x = x + c := by rw [← hreach, reachOf, hxeq, hceq]
  have hty : t.y = x - k + c := by omega
  have hkept :
      Turns (List.replicate c .keep ++ t.steps) (a.drop x.toNat) (b.drop (x - k).toNat) := by
    rw [htx, hty, ← hceq] at hsteps
    rw [← hceq]
    exact turns_kept hx hy hsteps
  have hrange := mem_diagonals.mp hk
  obtain ⟨slice, hget, hread⟩ := hslices (d + 1) (by omega)
  have hcomes : comesFrom? (fun j => readAt? slice (j + (d + 1))) (d + 1) k =
      some (source (reaches a b (d + 1)) (d + 1) k,
        reaches a b (d + 1) (source (reaches a b (d + 1)) (d + 1) k)) :=
    comesFrom?_eq (fun _ => hread (k - 1) (by omega) (by omega))
      (fun _ => hread (k + 1) (by omega) (by omega))
  simp only [followBack?, hget, hkeq, Option.bind_eq_bind, Option.bind_some, hcomes]
  obtain ⟨hsource, hmem, heq⟩ | ⟨hsource, hmem, heq⟩ := entry_reaches_cases (a := a) (b := b) hk
  · -- From above the path came by a step down, in front of which it was as far along `a`.
    rw [hxeq] at heq
    have hnonneg := (reachOf_nonneg (a := a) (b := b) hmem).2
    have hmin : (min (t.x - x) (t.y - (x - (k + 1)))).toNat = c := by omega
    have hstart : t.x - c = x := by omega
    have hinsert : Turns (.insert :: (List.replicate c .keep ++ t.steps))
        (a.drop x.toNat) (b.drop (x - (k + 1)).toNat) := by
      have hlt : (x - (k + 1)).toNat < b.length := by omega
      rw [drop_toNat_of_getElem? (by omega) (List.getElem?_eq_getElem hlt),
        show x - (k + 1) + 1 = x - k by omega]
      exact .insert _ hkept
    refine ⟨⟨x, x - (k + 1), .insert :: (List.replicate c .keep ++ t.steps)⟩, ?_, ?_, ?_⟩
    · rw [hsource, reaches_of_mem hmem, ← heq, hmin, Trail.keep]
      dsimp only
      rw [if_pos hstart]
    · have hdiagonal : x - (x - (k + 1)) = k + 1 := by omega
      have hold : x ≤ a.length := by omega
      have hnew : x - (k + 1) ≤ b.length := by omega
      exact ⟨by rwa [hdiagonal], by rw [hdiagonal, heq], hold, hnew, hinsert⟩
    · rw [edits_cons_of_ne (by decide), edits_replicate_keep_append]
  · -- From below it came by a step right, in front of which it was one less far along `a`.
    rw [hxeq] at heq
    have hnonneg := (reachOf_nonneg (a := a) (b := b) hmem).1
    have hbefore : reachOf a b d (k - 1) = x - 1 := by omega
    have hmin : (min (t.x - (x - 1)) (t.y - (x - 1 - (k - 1)))).toNat = c := by omega
    have hstart : t.x - c ≠ x - 1 := by omega
    have hdelete : Turns (.delete :: (List.replicate c .keep ++ t.steps))
        (a.drop (x - 1).toNat) (b.drop (x - 1 - (k - 1)).toNat) := by
      have hlt : (x - 1).toNat < a.length := by omega
      rw [drop_toNat_of_getElem? (by omega) (List.getElem?_eq_getElem hlt),
        show x - 1 + 1 = x by omega, show x - 1 - (k - 1) = x - k by omega]
      exact .delete _ hkept
    refine ⟨⟨x - 1, x - 1 - (k - 1), .delete :: (List.replicate c .keep ++ t.steps)⟩, ?_, ?_, ?_⟩
    · rw [hsource, reaches_of_mem hmem, hbefore, hmin, Trail.keep]
      dsimp only
      rw [if_neg hstart]
    · have hdiagonal : x - 1 - (x - 1 - (k - 1)) = k - 1 := by omega
      have hold : x - 1 ≤ a.length := by omega
      have hnew : x - 1 - (k - 1) ≤ b.length := by omega
      exact ⟨by rwa [hdiagonal], by rw [hdiagonal, hbefore], hold, hnew, hdelete⟩
    · rw [edits_cons_of_ne (by decide), edits_replicate_keep_append]

/-- A trail that leads from a reach of its round is followed back to the near corner, with one edit
in each round. -/
theorem exists_followBack? {slices : Array (Array Int)} {t : Trail}
    (hslices : Keeps a b slices (d + 1)) (ht : t.LeadsFrom a b d) :
    ∃ t', followBack? slices d t = some t' ∧ t'.x = 0 ∧ t'.y = 0 ∧ Turns t'.steps a b ∧
      edits t'.steps = edits t.steps + d := by
  induction d generalizing t with
  | zero =>
    obtain ⟨hk, hreach, -, -, hsteps⟩ := ht
    have hdiagonal := eq_zero_of_mem_diagonals hk
    have hkept : kept a b 0 0 = commonLength a b := rfl
    rw [hdiagonal, reachOf_zero] at hreach
    have hmin : (min t.x t.y).toNat = kept a b 0 0 := by omega
    rw [show t.x = 0 + kept a b 0 0 by omega, show t.y = 0 + kept a b 0 0 by omega] at hsteps
    refine ⟨_, rfl, ?_, ?_, ?_, ?_⟩
    · show t.x - ((min t.x t.y).toNat : Int) = 0
      omega
    · show t.y - ((min t.x t.y).toNat : Int) = 0
      omega
    · rw [Trail.keep, hmin]
      exact turns_kept (by omega) (by omega) hsteps
    · exact edits_replicate_keep_append ..
  | succ d ih =>
    obtain ⟨t', hback, ht', hedit⟩ := exists_followBack?_succ hslices ht
    have hslices' : Keeps a b slices (d + 1) := fun c hc => hslices c (by omega)
    obtain ⟨t'', hback', hx, hy, hturns, hedits⟩ := ih hslices' ht'
    exact ⟨t'', hback.trans hback', hx, hy, hturns, by omega⟩

end SourceChunks.EditScript
