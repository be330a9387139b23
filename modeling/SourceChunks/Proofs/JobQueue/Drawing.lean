import Mathlib.Data.List.Sort
import SourceChunks.Proofs.JobQueue.Order

/-!
# Drawing jobs

The jobs of a queue have different numbers, so of two of them one leaves before the other, and there
is one order only in which they can leave. It does not matter how the jobs are kept: whoever draws
one after the other a job that no other one leaves before gets what is popped.
-/

namespace SourceChunks

namespace Job

variable {a b : Job}

/-- No job comes before itself. -/
theorem not_before_self (a : Job) : ¬ a.before a := by
  rw [before_iff]
  omega

/-- Of two jobs at most one comes before the other. -/
theorem not_before_of_before (h : a.before b) : ¬ b.before a :=
  fun hba => not_before_self a (before_trans h hba)

instance : Std.Irrefl fun a b : Job => (a.before b : Prop) := ⟨not_before_self⟩

instance : Std.Antisymm fun a b : Job => (a.before b : Prop) :=
  ⟨fun _ _ hab hba => absurd hba (not_before_of_before hab)⟩

/-- Jobs in the order in which they leave are a part of any such jobs that they are among. -/
theorem sublist_of_subset {js js' : List Job} (h : js.Pairwise fun a b => a.before b)
    (h' : js'.Pairwise fun a b => a.before b) (hsubset : js ⊆ js') : js.Sublist js' :=
  List.sublist_of_subperm_of_pairwise (List.subperm_of_subset h.nodup hsubset) h h'

/-- A job that no other one leaves before is the first in the order in which the jobs leave. -/
theorem eq_head_of_perm {j : Job} {rest js : List Job} (hperm : (a :: rest).Perm (j :: js))
    (hj : ∀ k ∈ js, j.before k) (hfirst : ∀ k ∈ rest, ¬ k.before a) : a = j := by
  rcases List.mem_cons.mp (hperm.mem_iff.mp List.mem_cons_self) with heq | hlate
  · exact heq
  · rcases List.mem_cons.mp (hperm.mem_iff.mpr List.mem_cons_self) with heq | hrest
    · exact heq.symm
    · exact absurd (hj a hlate) (hfirst j hrest)

end Job

/-- From jobs in any arrangement one after the other is taken that no other one leaves before, as
many as asked for or until none is left. -/
inductive Draws : ℕ → (held batch left : List Job) → Prop
  | stop {held left : List Job} (hleft : held.Perm left) : Draws 0 held [] left
  | empty {n : ℕ} : Draws n [] [] []
  | take {n : ℕ} {held rest batch left : List Job} {job : Job} (hheld : held.Perm (job :: rest))
      (hfirst : ∀ j ∈ rest, ¬ j.before job) (h : Draws n rest batch left) :
      Draws (n + 1) held (job :: batch) left

/-- What is drawn are the first jobs in the order in which they leave. -/
theorem draws_iff {n : ℕ} {jobs held batch left : List Job}
    (hjobs : jobs.Pairwise fun a b => a.before b) (hheld : held.Perm jobs) :
    Draws n held batch left ↔ batch = jobs.take n ∧ left.Perm (jobs.drop n) := by
  induction n generalizing jobs held batch with
  | zero =>
    constructor
    · rintro (hleft | _)
      · exact ⟨rfl, hleft.symm.trans hheld⟩
      · exact ⟨rfl, hheld⟩
    · rintro ⟨rfl, hleft⟩
      exact .stop (hheld.trans hleft.symm)
  | succ n ih =>
    cases jobs with
    | nil =>
      obtain rfl := hheld.eq_nil
      constructor
      · rintro (_ | _ | ⟨hheld, -, -⟩)
        · exact ⟨rfl, .refl _⟩
        · exact absurd hheld.symm.eq_nil (List.cons_ne_nil _ _)
      · rintro ⟨rfl, hleft⟩
        obtain rfl := hleft.eq_nil
        exact .empty
    | cons j js =>
      obtain ⟨hj, hjs⟩ := List.pairwise_cons.mp hjobs
      constructor
      · rintro (_ | _ | ⟨hperm, hfirst, h⟩)
        · exact absurd hheld.symm.eq_nil (List.cons_ne_nil _ _)
        · next rest batch job =>
          have hcommon : (job :: rest).Perm (j :: js) := hperm.symm.trans hheld
          obtain rfl : job = j := Job.eq_head_of_perm hcommon hj hfirst
          obtain ⟨rfl, hleft⟩ := (ih hjs hcommon.cons_inv).mp h
          exact ⟨rfl, hleft⟩
      · rintro ⟨rfl, hleft⟩
        refine .take hheld (fun k hk => Job.not_before_of_before (hj k hk)) ?_
        exact (ih hjs (.refl js)).mpr ⟨rfl, hleft⟩

namespace JobQueue

variable {history : List QueueEvent} {q : JobQueue}

/-- Whatever happens to a new queue, each job leaves before those behind it. -/
theorem Run.pairwise_before (h : Run history q) : q.jobs.Pairwise fun a b => a.before b := by
  have hnumbers := List.pairwise_map.mp h.nodup_sequences
  refine (h.ordered.and hnumbers).imp ?_
  rintro a b ⟨hnot, hne⟩
  rw [Job.before_iff] at *
  omega

/-- What is popped is what anyone draws who keeps the jobs in any arrangement. -/
theorem Run.draws_iff_pop (h : Run history q) {n : ℕ} {held batch left : List Job}
    (hheld : held.Perm q.jobs) :
    Draws n held batch left ↔ batch = (q.pop n).2 ∧ left.Perm (q.pop n).1.jobs :=
  draws_iff h.pairwise_before hheld

/-- What is popped is in front of what stays. -/
theorem pop_append (q : JobQueue) (n : ℕ) : (q.pop n).2 ++ (q.pop n).1.jobs = q.jobs :=
  List.take_append_drop n q.jobs

/-- Popped jobs are in order, and leave before those that stay. -/
theorem Run.pairwise_pop (h : Run history q) (n : ℕ) :
    ((q.pop n).2 ++ (q.pop n).1.jobs).Pairwise fun a b => a.before b := by
  rw [pop_append]
  exact h.pairwise_before

end JobQueue

end SourceChunks
