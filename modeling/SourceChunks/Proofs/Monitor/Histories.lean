import SourceChunks.Proofs.Bytes.Decimal
import SourceChunks.Proofs.Bytes.Marks
import SourceChunks.Proofs.History
import SourceChunks.Proofs.Monitor

/-!
# Operations under way

Operations are started and ended by handles, values are recorded, and now and then all is forgotten.
No handle is given out twice, since the number at its end is new, whatever the name in front of it
is. An operation is under way from its start until the first event that ends it, and the monitor
holds under each handle what is under way. So of all ends by one handle at most one counts.
-/

namespace SourceChunks

/-- Something that has happened to a monitor. -/
inductive MonitorEvent (α : Type) where
  /-- An operation was started and got a handle. -/
  | start (time : Int) (name handle : Bytes)
  /-- The operation of a handle was to end. -/
  | finish (time : Int) (handle : Bytes)
  /-- A value of a metric was recorded. -/
  | record (time : Int) (name : Bytes) (value : α)
  /-- All samples and all operations under way were forgotten. -/
  | reset

namespace Monitor

variable {α : Type} {window : ℕ} {m m' : Monitor α} {history : List (MonitorEvent α)}
  {e : MonitorEvent α} {handle : Bytes} {op op' : RunningOperation}

/-! ## Handles and operations -/

/-- The handle that an event gives out. -/
def handle? : MonitorEvent α → Option Bytes
  | .start _ _ handle => some handle
  | _ => none

/-- All handles that were given out, the first one first. -/
def handles (history : List (MonitorEvent α)) : List Bytes := history.filterMap handle?

/-- The event ends the operation of a handle. -/
def Ends (handle : Bytes) : MonitorEvent α → Prop
  | .finish _ h => h = handle
  | .reset => True
  | _ => False

/-- The operation was started under the handle and has not been ended since. -/
def Underway (history : List (MonitorEvent α)) (handle : Bytes) (op : RunningOperation) : Prop :=
  NoneSince (Ends handle) (· = .start op.startedAt op.name handle) history

/-- Handles are given out part by part. -/
theorem handles_append (history later : List (MonitorEvent α)) :
    handles (history ++ later) = handles history ++ handles later := List.filterMap_append

/-- One event gives out its handle, if it gives out one. -/
theorem handles_singleton (e : MonitorEvent α) : handles [e] = (handle? e).toList := by
  cases e <;> rfl

/-- An operation is under way after an event if the event starts it, or if it was under way and the
event does not end it. -/
theorem underway_concat_iff : Underway (history ++ [e]) handle op ↔
    e = .start op.startedAt op.name handle ∨ Underway history handle op ∧ ¬ Ends handle e :=
  noneSince_concat_iff

/-- What is under way has got its handle. -/
theorem Underway.mem_handles (h : Underway history handle op) : handle ∈ handles history := by
  obtain ⟨before, x, after, rfl, rfl, -⟩ := h
  apply List.mem_filterMap.mpr
  exact ⟨.start op.startedAt op.name handle, by simp, rfl⟩

/-- While no handle is given out twice, one that is spent is spent for good. -/
theorem not_underway_append {later : List (MonitorEvent α)}
    (hnodup : (handles (history ++ later)).Nodup) (hmem : handle ∈ handles history)
    (hspent : ∀ op, ¬ Underway history handle op) : ¬ Underway (history ++ later) handle op := by
  induction later using List.reverseRecOn with
  | nil =>
    rw [List.append_nil]
    exact hspent op
  | append_singleton later e ih =>
    rw [← List.append_assoc, handles_append] at hnodup
    rw [← List.append_assoc, underway_concat_iff]
    rintro (rfl | ⟨hop, -⟩)
    · -- A start would give out the handle once more.
      rw [handles_append] at hnodup
      exact List.disjoint_of_nodup_append hnodup (List.mem_append_left _ hmem)
        (List.mem_singleton_self handle)
    · exact ih hnodup.of_append_left hop

/-- Of all ends by one handle at most one comes while an operation is under way with it. -/
theorem eq_of_underway (hnodup : (handles history).Nodup) {i j : ℕ} {time time' : Int}
    (hi : history[i]? = some (.finish time handle)) (hj : history[j]? = some (.finish time' handle))
    (hop : Underway (history.take i) handle op) (hop' : Underway (history.take j) handle op') :
    i = j := by
  have hle {i j : ℕ} {time : Int} {op op' : RunningOperation}
      (hi : history[i]? = some (.finish time handle)) (hop : Underway (history.take i) handle op)
      (hop' : Underway (history.take j) handle op') : j ≤ i := by
    by_contra hlt
    have htake : history.take (i + 1) = history.take i ++ [.finish time handle] := by
      rw [List.take_add_one, hi]
      rfl
    have hmem : handle ∈ handles (history.take (i + 1)) := by
      rw [htake, handles_append]
      exact List.mem_append_left _ hop.mem_handles
    have hspent (op : RunningOperation) : ¬ Underway (history.take (i + 1)) handle op := by
      rw [htake, underway_concat_iff]
      simp [Ends]
    have hsplit : history.take j = history.take (i + 1) ++ (history.take j).drop (i + 1) := by
      conv_lhs => rw [← List.take_append_drop (i + 1) (history.take j)]
      rw [List.take_take, Nat.min_eq_left (by omega)]
    have hnodup' : (handles (history.take j)).Nodup := by
      rw [← List.take_append_drop j history, handles_append] at hnodup
      exact hnodup.of_append_left
    rw [hsplit] at hop' hnodup'
    exact not_underway_append hnodup' hmem hspent hop'
  have hij := hle hj hop' hop
  have hji := hle hi hop hop'
  omega

/-- The number can be read off a handle, since it has no number sign. -/
theorem handleOf_inj {name name' : Bytes} {number number' : ℕ}
    (h : handleOf name number = handleOf name' number') : number = number' := by
  have hmark : bytes "#" = [0x23] := by decide
  have hnumber (n : ℕ) : (0x23 : UInt8) ∉ Bytes.ofNat n := by
    intro hmem
    exact absurd (Bytes.isDigit_of_mem_ofNat hmem) (by decide)
  simp only [handleOf, hmark, List.append_assoc, List.singleton_append] at h
  obtain ⟨-, heq⟩ | ⟨r, -, heq⟩ | ⟨r, -, heq⟩ := Bytes.append_cons_eq_iff.mp h
  · exact Bytes.ofNat_injective heq
  · exact absurd (heq ▸ List.mem_append_right r (List.mem_cons_self ..)) (hnumber number)
  · exact absurd (heq ▸ List.mem_append_right r (List.mem_cons_self ..)) (hnumber number')

/-! ## What a monitor accounts for -/

/-- The monitor knows which operations are under way, and has numbered all handles. -/
structure Accounts (history : List (MonitorEvent α)) (m : Monitor α) : Prop where
  /-- What it holds under a handle is what is under way. -/
  get?_iff : ∀ handle op, m.running.get? handle = some op ↔ Underway history handle op
  /-- The next handle will have a new number. -/
  exists_number : ∀ handle ∈ handles history,
    ∃ name number, number < m.handleCount ∧ handle = handleOf name number
  /-- No handle was given out twice. -/
  nodup : (handles history).Nodup

/-- The monitor holds nothing under a handle without an operation under way. -/
theorem Accounts.get?_eq_none (h : Accounts history m)
    (hnone : ∀ op, ¬ Underway history handle op) : m.running.get? handle = none := by
  apply Option.eq_none_iff_forall_ne_some.mpr
  intro op hget
  exact hnone op ((h.get?_iff handle op).mp hget)

/-- At most one operation is under way with a handle. -/
theorem Accounts.unique (h : Accounts history m) (hop : Underway history handle op)
    (hop' : Underway history handle op') : op = op' := by
  have hget := (h.get?_iff handle op).mpr hop
  have hget' := (h.get?_iff handle op').mpr hop'
  exact Option.some.inj (hget.symm.trans hget')

/-- The handle that comes next is new. -/
theorem Accounts.handleOf_notMem (h : Accounts history m) (name : Bytes) :
    handleOf name m.handleCount ∉ handles history := by
  intro hmem
  obtain ⟨name', number, hlt, heq⟩ := h.exists_number _ hmem
  have hnumber := handleOf_inj heq
  omega

/-- A start is accounted for, with a handle of a new number. -/
theorem Accounts.start (h : Accounts history m) (now : Int) (name : Bytes) :
    Accounts (history ++ [.start now name (m.start now name).2]) (m.start now name).1 := by
  have hhandle : (m.start now name).2 = handleOf name m.handleCount := rfl
  have hnew := h.handleOf_notMem name
  rw [hhandle]
  refine ⟨?_, ?_, ?_⟩
  · intro handle op
    show (m.running.insert (handleOf name m.handleCount) ⟨name, now⟩).get? handle = some op ↔ _
    rw [Dict.get?_insert, underway_concat_iff, ← h.get?_iff]
    by_cases hsame : handle = handleOf name m.handleCount
    · have hnone : m.running.get? handle = none := by
        apply h.get?_eq_none
        intro op hop
        exact hnew (hsame ▸ hop.mem_handles)
      obtain ⟨opName, startedAt⟩ := op
      simp [hsame, hsame ▸ hnone, and_comm]
    · simp [hsame, Ends, eq_comm]
  · intro handle hmem
    rw [handles_append] at hmem
    rcases List.mem_append.mp hmem with hold | hlast
    · obtain ⟨name', number, hlt, heq⟩ := h.exists_number handle hold
      exact ⟨name', number, Nat.lt_succ_of_lt hlt, heq⟩
    · exact ⟨name, m.handleCount, Nat.lt_succ_self _, List.mem_singleton.mp hlast⟩
  · rw [handles_append]
    exact List.Nodup.append h.nodup (List.nodup_singleton _)
      (by simpa [handles_singleton, handle?] using hnew)

/-- An event that gives out no handle leaves the handles as they are. -/
theorem Accounts.of_handle?_eq_none (h : Accounts history m) (he : handle? e = none)
    (hcount : m'.handleCount = m.handleCount)
    (hget : ∀ handle op, m'.running.get? handle = some op ↔
      m.running.get? handle = some op ∧ ¬ Ends handle e) : Accounts (history ++ [e]) m' := by
  have hhandles : handles (history ++ [e]) = handles history := by
    rw [handles_append, handles_singleton, he]
    exact List.append_nil _
  refine ⟨?_, ?_, ?_⟩
  · intro handle op
    have hstart : e ≠ .start op.startedAt op.name handle := by
      rintro rfl
      exact absurd he nofun
    rw [hget, h.get?_iff, underway_concat_iff]
    simp only [hstart, false_or]
  · rw [hhandles, hcount]
    exact h.exists_number
  · rw [hhandles]
    exact h.nodup

/-! ## Runs -/

variable [Scalar α]

/-- What an event makes of a monitor. -/
inductive Step (m : Monitor α) : MonitorEvent α → Monitor α → Prop
  | start (now : Int) (name : Bytes) :
      Step m (.start now name (m.start now name).2) (m.start now name).1
  | finish (now : Int) (handle : Bytes) : Step m (.finish now handle) (m.finish now handle).1
  | record (now : Int) (name : Bytes) (value : α) :
      Step m (.record now name value) (m.record now name value)
  | reset : Step m .reset m.reset

/-- A new monitor is used for some time. -/
inductive Run (window : ℕ) : List (MonitorEvent α) → Monitor α → Prop
  | start : Run window [] (new window)
  | next {history : List (MonitorEvent α)} {m m' : Monitor α} {e : MonitorEvent α}
      (h : Run window history m) (hstep : Step m e m') : Run window (history ++ [e]) m'

/-- Ending an operation by a handle that none has does nothing. -/
theorem finish_of_get?_eq_none (now : Int) (h : m.running.get? handle = none) :
    m.finish now handle = (m, Scalar.ofNat 0) := by
  rw [finish, h]

/-- Ending an operation under way records the time that it has taken. -/
theorem finish_of_get?_eq_some (now : Int) (h : m.running.get? handle = some op) :
    m.finish now handle =
      (record { m with running := m.running.erase handle } now (metricOf op.name)
        (milliseconds (now - op.startedAt)), milliseconds (now - op.startedAt)) := by
  rw [finish, h]

/-- No event changes the window. -/
theorem Step.window_eq (hstep : Step m e m') : m'.window = m.window := by
  cases hstep with
  | finish now handle => exact window_finish m now handle
  | start | record | reset => rfl

/-- The window stays as it was set, at least one value wide. -/
theorem Run.window_eq (h : Run window history m) : m.window = max window 1 := by
  induction h with
  | start => rfl
  | next h hstep ih => exact hstep.window_eq.trans ih

/-- Ending an operation leaves the number of the next handle. -/
theorem handleCount_finish (now : Int) (handle : Bytes) :
    (m.finish now handle).1.handleCount = m.handleCount := by
  unfold finish
  split <;> rfl

/-- Ending an operation takes its handle out and no other. -/
theorem running_finish (now : Int) (handle handle' : Bytes) :
    (m.finish now handle).1.running.get? handle' =
      if handle' = handle then none else m.running.get? handle' := by
  unfold finish
  split
  · next hnone =>
    split
    · next heq => rw [heq, hnone]
    · rfl
  · exact Dict.get?_erase _ _ _

/-- A monitor goes on accounting for what happens. -/
theorem Step.accounts (hstep : Step m e m') (h : Accounts history m) :
    Accounts (history ++ [e]) m' := by
  cases hstep with
  | start now name => exact h.start now name
  | finish now handle =>
    refine h.of_handle?_eq_none rfl (handleCount_finish now handle) ?_
    intro handle' op
    rw [running_finish]
    by_cases hsame : handle' = handle
    · simp [hsame, Ends]
    · simp [hsame, Ends, Ne.symm hsame]
  | record now name value =>
    refine h.of_handle?_eq_none rfl rfl ?_
    intro handle op
    show m.running.get? handle = some op ↔ _
    simp [Ends]
  | reset =>
    refine h.of_handle?_eq_none rfl rfl ?_
    intro handle op
    show Dict.empty.get? handle = some op ↔ _
    simp [Ends]

/-- A monitor accounts for all that has happened. -/
theorem Run.accounts (h : Run window history m) : Accounts history m := by
  induction h with
  | start => exact ⟨fun _ _ => iff_of_false nofun not_noneSince_nil, nofun, List.nodup_nil⟩
  | next h hstep ih => exact hstep.accounts ih

end Monitor

end SourceChunks
