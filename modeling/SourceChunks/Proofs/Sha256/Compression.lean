import SourceChunks.Proofs.Sha256.Constants

/-!
# The compression function is that of the standard

Sixteen words of the schedule are enough at any time, since no word is made of an older one. Before
a round the ring has the last sixteen words, each in the place that its number has modulo sixteen,
and the place of the oldest is overwritten by the next. The working variables are the standard's
eight in the order of their names, and moving all of them before two are updated gives what the
standard assigns one by one.
-/

namespace SourceChunks.Sha256

open Standard (Variables)

/-! ## Words -/

/-- Turning a word by two shifts is turning it, unless a shift is by the whole word. -/
theorem toBitVec_rotateRight (x : UInt32) {n : UInt32} (hpos : 0 < n.toNat) (hlt : n.toNat < 32) :
    (rotateRight x n).toBitVec = x.toBitVec.rotateRight n.toNat := by
  have hright : (n.toBitVec % 32).toNat = n.toNat % 32 := rfl
  have hleft : ((32 - n).toBitVec % 32).toNat = 32 - n.toNat % 32 := by
    show (32 - n).toNat % 32 = 32 - n.toNat % 32
    rw [UInt32.toNat_sub_of_le _ _ (UInt32.le_iff_toNat_le.mpr hlt.le)]
    show (32 - n.toNat) % 32 = 32 - n.toNat % 32
    omega
  rw [rotateRight, UInt32.toBitVec_or, UInt32.toBitVec_shiftRight, UInt32.toBitVec_shiftLeft,
    BitVec.rotateRight_def, BitVec.shiftLeft_eq', BitVec.ushiftRight_eq', hright, hleft]

section Functions

variable (x y z : UInt32)

/-- The choice of the program is that of the standard. -/
@[simp]
theorem toBitVec_choose :
    (choose x y z).toBitVec = Standard.choose x.toBitVec y.toBitVec z.toBitVec := rfl

/-- The majority of the program is that of the standard. -/
@[simp]
theorem toBitVec_majority :
    (majority x y z).toBitVec = Standard.majority x.toBitVec y.toBitVec z.toBitVec := rfl

/-- The first sum on the working variables is that of the standard. -/
@[simp]
theorem toBitVec_bigSigma0 : (bigSigma0 x).toBitVec = Standard.bigSigma0 x.toBitVec := by
  simp [bigSigma0, Standard.bigSigma0, toBitVec_rotateRight]

/-- The second sum on the working variables is that of the standard. -/
@[simp]
theorem toBitVec_bigSigma1 : (bigSigma1 x).toBitVec = Standard.bigSigma1 x.toBitVec := by
  simp [bigSigma1, Standard.bigSigma1, toBitVec_rotateRight]

/-- The first sum of the schedule is that of the standard. -/
@[simp]
theorem toBitVec_smallSigma0 : (smallSigma0 x).toBitVec = Standard.smallSigma0 x.toBitVec := by
  simp [smallSigma0, Standard.smallSigma0, toBitVec_rotateRight]

/-- The second sum of the schedule is that of the standard. -/
@[simp]
theorem toBitVec_smallSigma1 : (smallSigma1 x).toBitVec = Standard.smallSigma1 x.toBitVec := by
  simp [smallSigma1, Standard.smallSigma1, toBitVec_rotateRight]

end Functions

/-- Four bytes that are moved apart stand side by side. -/
theorem toBitVec_ofBytes (a b c d : UInt8) :
    ((a.toUInt32 <<< 24) ||| (b.toUInt32 <<< 16) ||| (c.toUInt32 <<< 8) ||| d.toUInt32).toBitVec =
      a.toBitVec ++ b.toBitVec ++ c.toBitVec ++ d.toBitVec := by
  refine BitVec.eq_of_getLsbD_eq fun i hi => ?_
  -- On both sides, a bit is one of the byte that it falls into.
  simp only [UInt32.toBitVec_or, UInt32.toBitVec_shiftLeft, UInt8.toBitVec_toUInt32,
    UInt32.toBitVec_ofNat, BitVec.shiftLeft_eq', BitVec.toNat_umod, BitVec.toNat_ofNat,
    BitVec.getLsbD_or, BitVec.getLsbD_shiftLeft, BitVec.getLsbD_setWidth, BitVec.getLsbD_append]
  grind

/-- The words read from a block are those of the standard. -/
theorem toBitVec_wordAt (block : Vector UInt8 64) {i : ℕ} (hi : i < 16) :
    (wordAt block.toList i).toBitVec = Standard.parse block ⟨i, hi⟩ := by
  have hlength : block.toList.length = 64 := Vector.length_toList
  have hbytes : block.toList.drop (4 * i) =
      block[4 * i] :: block[4 * i + 1] :: block[4 * i + 2] :: block[4 * i + 3] ::
        block.toList.drop (4 * i + 4) := by
    rw [List.drop_eq_getElem_cons (by omega), List.drop_eq_getElem_cons (by omega),
      List.drop_eq_getElem_cons (by omega), List.drop_eq_getElem_cons (by omega)]
    simp only [Vector.getElem_toList]
  rw [wordAt, hbytes, Standard.parse]
  exact toBitVec_ofBytes _ _ _ _

/-! ## Rounds -/

/-- A ring has the last sixteen words of the schedule before word `t`, or the first sixteen. -/
def HoldsSchedule (ring : Vector UInt32 16) (message : Fin 16 → Standard.Word) (t : ℕ) : Prop :=
  ∀ s, s < max t 16 → t ≤ s + 16 →
    (ring.get (Fin.ofNat 16 s)).toBitVec = Standard.schedule message s

variable {ring : Vector UInt32 16} {message : Fin 16 → Standard.Word}

/-- Word `t` takes the place of word `t - 16`, and no later word is made of that one. -/
theorem HoldsSchedule.extendRing {t : ℕ} (h : HoldsSchedule ring message t) :
    HoldsSchedule (extendRing ring t) message (t + 1) := by
  intro s hs ht
  by_cases hfirst : t < 16
  · rw [Sha256.extendRing, if_pos hfirst]
    exact h s (by omega) (by omega)
  · have hback (k : ℕ) (hpos : 0 < k) (hle : k ≤ 16) :
        ring[(t - k) % 16].toBitVec = Standard.schedule message (t - k) :=
      h (t - k) (by omega) (by omega)
    have hplace : t % 16 = (t - 16) % 16 := by omega
    show (Sha256.extendRing ring t)[s % 16].toBitVec = Standard.schedule message s
    simp only [Sha256.extendRing, if_neg hfirst, Vector.getElem_set]
    -- The words that matter are sixteen in a row, so each place is that of only one of them.
    split
    · next hsame =>
      have heq : s = t := by omega
      simp only [hplace, UInt32.toBitVec_add, toBitVec_smallSigma0, toBitVec_smallSigma1]
      rw [heq, Standard.schedule_of_le (Nat.not_lt.mp hfirst), hback 16 (by decide) (by decide),
        hback 15 (by decide) (by decide), hback 7 (by decide) (by decide),
        hback 2 (by decide) (by decide)]
      ac_rfl
    · next hother =>
      have hne : s ≠ t := fun heq => hother (heq ▸ rfl)
      exact h s (by omega) (by omega)

/-- The words of a state, as the standard has them. -/
def wordsOf (state : State) (i : Fin 8) : Standard.Word := (state.get i).toBitVec

/-- The places of the array are the variables in the order of their names. -/
theorem ofHash_mix (v : State) (constant word : UInt32) :
    Variables.ofHash (wordsOf (mix v constant word)) =
      (Variables.ofHash (wordsOf v)).round constant.toBitVec word.toBitVec := by
  have hplace (state : State) (i : Fin 8) : wordsOf state i = state[i].toBitVec := rfl
  simp [Variables.ofHash, Variables.round, hplace, mix, shift]

/-- A compression follows the standard up to round `t`. -/
structure Rounds.Follows (r : Rounds) (hash : Fin 8 → Standard.Word)
    (message : Fin 16 → Standard.Word) (t : ℕ) : Prop where
  ring_holds : HoldsSchedule r.ring message t
  work_eq : Variables.ofHash (wordsOf r.work) = Variables.after hash message t

namespace Rounds

variable {r : Rounds} {hash : Fin 8 → Standard.Word}

/-- Before the first round the program stands where the standard begins. -/
theorem follows_start (state : State) (block : Vector UInt8 64) :
    (start state block.toList).Follows (wordsOf state) (Standard.parse block) 0 := by
  refine ⟨fun s hs _ => ?_, rfl⟩
  have hs : s < 16 := hs
  show (start state block.toList).ring[s % 16].toBitVec = Standard.schedule _ s
  simp only [start, Nat.mod_eq_of_lt hs, Vector.getElem_ofFn]
  rw [toBitVec_wordAt block hs, Standard.schedule_of_lt hs]

/-- One round of the program is one round of the standard. -/
theorem Follows.step {t : Fin 64} (h : r.Follows hash message t) :
    (r.step t).Follows hash message (t.val + 1) := by
  have hring := h.ring_holds.extendRing
  have hword : (Sha256.extendRing r.ring t)[t.val % 16].toBitVec = Standard.schedule message t :=
    hring t (by omega) (by omega)
  have hconstant : roundConstants[t].toBitVec = Standard.roundConstant t :=
    toBitVec_roundConstants t
  refine ⟨hring, ?_⟩
  rw [Rounds.step, ofHash_mix, h.work_eq, hconstant, hword, Variables.after]

/-- The rounds are done in order, so what `n` of them do is by induction on `n`. -/
theorem Follows.foldl_step {n : ℕ} (hn : n ≤ 64) (h : r.Follows hash message 0) :
    (Fin.foldl n (fun r i => r.step (i.castLE hn)) r).Follows hash message n := by
  induction n with
  | zero => exact h
  | succ n ih =>
    rw [Fin.foldl_succ_last]
    exact (ih (Nat.le_of_succ_le hn)).step

/-- After all rounds the program stands where the standard does. -/
theorem follows_foldl_step (state : State) (block : Vector UInt8 64) :
    (Fin.foldl 64 Rounds.step (start state block.toList)).Follows (wordsOf state)
      (Standard.parse block) 64 :=
  (follows_start state block).foldl_step (Nat.le_refl 64)

end Rounds

/-- Adding the array to the state place by place is adding the variables by name. -/
theorem wordsOf_zipWith_add (state work : State) :
    wordsOf (Vector.zipWith (· + ·) state work) =
      (Variables.ofHash (wordsOf work)).addTo (wordsOf state) := by
  funext i
  have hadd : wordsOf (Vector.zipWith (· + ·) state work) i = wordsOf work i + wordsOf state i := by
    show (Vector.zipWith (· + ·) state work)[i.val].toBitVec = _
    rw [Vector.getElem_zipWith, UInt32.toBitVec_add, BitVec.add_comm]
    rfl
  rw [hadd]
  match i with
  | 0 | 1 | 2 | 3 | 4 | 5 | 6 | 7 => rfl

/-- The sixteen words that are overwritten in place and the eight variables that are moved as an
array make of every state and every block what the standard makes of them with the whole schedule,
with names for the variables and with words modulo `2 ^ 32`. -/
theorem wordsOf_compress (state : State) (block : Vector UInt8 64) :
    wordsOf (compress state block.toList) =
      Standard.compress (wordsOf state) (Standard.parse block) := by
  rw [compress, wordsOf_zipWith_add, (Rounds.follows_foldl_step state block).work_eq,
    Standard.compress]

end SourceChunks.Sha256
