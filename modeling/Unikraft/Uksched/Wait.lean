import Mathlib.Data.List.Nodup
import Unikraft.Basic

/-!
# Unikraft.Uksched.Wait

Wait queues (`uk/wait.h`) with the thread operations they use (`uksched/thread.c`). Every
interrupts-off section is one function; `waitEvent` cuts `__wq_wait_event_deadline` into its
sections and the loads of its condition.

An entry is named by its thread. `Waitq.Linked`: a thread is in the queue, once, exactly while it
is between the first and the last section of the macro.
-/

namespace Unikraft.Uksched

open Function

variable {T : Type} [DecidableEq T]

/-- A wait queue, together with the part of the threads that its operations use. -/
structure Waitq (T : Type) where
  /-- The `STAILQ` of entries. -/
  list : List T
  /-- The field `waiting` of each thread's entry. -/
  waiting : T → Bool
  /-- `is_runnable`. -/
  runnable : T → Bool
  wakeupTime : T → Nat

namespace Waitq

/-- `DEFINE_WAIT`: a new entry. -/
def defineWait (q : Waitq T) (t : T) : Waitq T :=
  { q with waiting := update q.waiting t false }

/-- `uk_waitq_add`. -/
def add (q : Waitq T) (t : T) : Waitq T :=
  if q.waiting t then q
  else { q with list := q.list ++ [t], waiting := update q.waiting t true }

/-- `uk_waitq_remove`. `UK_STAILQ_REMOVE` of an entry that is not linked walks off
the end of the list. -/
def remove (q : Waitq T) (t : T) : Outcome (Waitq T) :=
  if q.waiting t then
    if t ∈ q.list then
      .ok { q with list := q.list.erase t, waiting := update q.waiting t false }
    else .error .badPointer
  else .ok q

/-- `uk_thread_wake`; what the scheduler does in `uk_sched_thread_woken` is its own. -/
def wake (q : Waitq T) (t : T) : Waitq T :=
  if q.runnable t then q
  else { q with
    wakeupTime := update q.wakeupTime t 0
    runnable := update q.runnable t true }

/-- `wakeup_time = until; clear_runnable(thread)`, as in `uk_thread_block_until`. -/
def blockUntil (q : Waitq T) (t : T) (until_ : Nat) : Waitq T :=
  { q with
    wakeupTime := update q.wakeupTime t until_
    runnable := update q.runnable t false }

/-- `uk_waitq_wake_up`: wake the thread of every entry. -/
def wakeUp (q : Waitq T) : Waitq T := q.list.foldl wake q

end Waitq

/-- Where a thread is in `__wq_wait_event_deadline`. -/
inductive WaitPc
  /-- Before `if (condition) break`. -/
  | check
  /-- Before the section that adds the entry and blocks the thread. -/
  | enqueue
  /-- Before `if ((condition) || (deadline_condition)) break`. -/
  | recheck
  /-- In `uk_sched_yield`. -/
  | yield
  /-- Before the section that wakes the thread and removes the entry. -/
  | leave
  deriving DecidableEq

/-- One step of thread `t` in the macro, with the value of the condition and the time, should it
load them. The macro ends with no next place. -/
def waitEvent (q : Waitq T) (t : T) (deadline now : Nat) (cond : Bool) :
    WaitPc → Outcome (Option WaitPc × Waitq T)
  | .check => .ok (if cond then none else some .enqueue, q)
  | .enqueue => .ok (some .recheck, (q.add t).blockUntil t deadline)
  | .recheck =>
    .ok (some (if cond ∨ (deadline ≠ 0 ∧ deadline ≤ now) then .leave else .yield), q)
  | .yield => .ok (some .enqueue, q)
  | .leave => do
      let q ← (q.wake t).remove t
      .ok (none, q)

/-! ### Field lemmas -/

namespace Waitq

variable {q q' : Waitq T} {t u : T}

@[simp] theorem list_defineWait : (q.defineWait t).list = q.list := rfl

@[simp] theorem runnable_defineWait : (q.defineWait t).runnable = q.runnable := rfl

@[simp] theorem waiting_defineWait :
    (q.defineWait t).waiting = update q.waiting t false := rfl

@[simp] theorem list_blockUntil {d : Nat} : (q.blockUntil t d).list = q.list := rfl

@[simp] theorem waiting_blockUntil {d : Nat} : (q.blockUntil t d).waiting = q.waiting := rfl

@[simp] theorem runnable_blockUntil {d : Nat} :
    (q.blockUntil t d).runnable = update q.runnable t false := rfl

@[simp] theorem runnable_add : (q.add t).runnable = q.runnable := by
  unfold add
  split <;> rfl

@[simp] theorem list_wake : (q.wake t).list = q.list := by
  unfold wake
  split <;> rfl

@[simp] theorem waiting_wake : (q.wake t).waiting = q.waiting := by
  unfold wake
  split <;> rfl

@[simp] theorem runnable_wake : (q.wake t).runnable u = (q.runnable u || decide (u = t)) := by
  unfold wake
  by_cases hu : u = t
  · subst hu
    by_cases h : q.runnable u <;> simp [h]
  · by_cases h : q.runnable t <;> simp [h, hu]

theorem foldl_wake_list (ts : List T) : (ts.foldl wake q).list = q.list := by
  induction ts generalizing q with
  | nil => rfl
  | cons t ts ih => rw [List.foldl_cons, ih, list_wake]

theorem foldl_wake_waiting (ts : List T) : (ts.foldl wake q).waiting = q.waiting := by
  induction ts generalizing q with
  | nil => rfl
  | cons t ts ih => rw [List.foldl_cons, ih, waiting_wake]

theorem foldl_wake_runnable (ts : List T) :
    (ts.foldl wake q).runnable u = (q.runnable u || decide (u ∈ ts)) := by
  induction ts generalizing q with
  | nil => simp
  | cons t ts ih =>
    rw [List.foldl_cons, ih, runnable_wake, Bool.or_assoc]
    simp [List.mem_cons]

@[simp] theorem list_wakeUp : q.wakeUp.list = q.list := foldl_wake_list q.list

@[simp] theorem waiting_wakeUp : q.wakeUp.waiting = q.waiting := foldl_wake_waiting q.list

@[simp] theorem runnable_wakeUp : q.wakeUp.runnable u = (q.runnable u || decide (u ∈ q.list)) :=
  foldl_wake_runnable q.list

end Waitq

/-! ### The waiting discipline

`pc t` is where `t` is in the macro, if it is there. `saw t` records that `t` has
found the condition false since it last cleared its runnable flag, and `cond t`
is the current value of the condition that `t` waits for. -/

/-- The record `saw` after a step. -/
def sawAfter (saw cond : Bool) : WaitPc → Bool
  | .check | .recheck => saw || !cond
  | .enqueue => false
  | .yield | .leave => saw

/-- **No lost wake-up**: a thread that has found its condition false and is not runnable is linked,
and its condition is still false. -/
structure WaitOk (q : Waitq T) (pc : T → Option WaitPc) (saw cond : T → Bool) : Prop where
  nodup : q.list.Nodup
  mem_iff : ∀ t, t ∈ q.list ↔ q.waiting t = true
  waiting : ∀ t, pc t = some .recheck ∨ pc t = some .yield ∨ pc t = some .leave → q.waiting t = true
  not_waiting : ∀ t, pc t = none ∨ pc t = some .check → q.waiting t = false
  /-- A thread that is not linked yet has not blocked itself. -/
  awake : ∀ t, pc t ≠ none → q.waiting t = false → q.runnable t = true
  blocked : ∀ t, pc t ≠ none → saw t = true → q.runnable t = false → cond t = false

namespace WaitOk

variable {q : Waitq T} {pc : T → Option WaitPc} {saw cond cond' : T → Bool} {t : T}

omit [DecidableEq T] in
theorem weaken (h : WaitOk q pc saw cond) (hc : ∀ t, cond t = false → cond' t = false) :
    WaitOk q pc saw cond' :=
  { h with blocked := fun t h1 h2 h3 => hc t (h.blocked t h1 h2 h3) }

section

variable (h : WaitOk q pc saw cond)

include h

theorem wakeUp : WaitOk q.wakeUp pc saw cond' where
  nodup := by simpa using h.nodup
  mem_iff := by simpa using h.mem_iff
  waiting := by simpa using h.waiting
  not_waiting := by simpa using h.not_waiting
  awake t h1 h2 := by
    rw [Waitq.waiting_wakeUp] at h2
    simp [h.awake t h1 h2]
  blocked t h1 _ h3 := by
    -- a thread that is still blocked was not in the queue, hence awake before
    rw [Waitq.runnable_wakeUp, Bool.or_eq_false_iff, decide_eq_false_iff_not, h.mem_iff] at h3
    rw [h.awake t h1 (Bool.not_eq_true _ ▸ h3.2)] at h3
    exact absurd h3.1 (by simp)

theorem wake (u : T) : WaitOk (q.wake u) pc saw cond where
  nodup := by simpa using h.nodup
  mem_iff := by simpa using h.mem_iff
  waiting := by simpa using h.waiting
  not_waiting := by simpa using h.not_waiting
  awake t h1 h2 := by
    rw [Waitq.waiting_wake] at h2
    simp [h.awake t h1 h2]
  blocked t h1 h2 h3 := by
    rw [Waitq.runnable_wake, Bool.or_eq_false_iff] at h3
    exact h.blocked t h1 h2 h3.1

/-- A step of `t` changes only what belongs to `t`: the discipline has to be shown
for `t` alone. -/
theorem of_local {q' : Waitq T} {r : Option WaitPc} {b : Bool}
    (hnodup : q'.list.Nodup) (hmem : ∀ u, u ∈ q'.list ↔ q'.waiting u = true)
    (hw : ∀ u, u ≠ t → q'.waiting u = q.waiting u) (hr : ∀ u, u ≠ t → q'.runnable u = q.runnable u)
    (hin : r = some .recheck ∨ r = some .yield ∨ r = some .leave → q'.waiting t = true)
    (hout : r = none ∨ r = some .check → q'.waiting t = false)
    (hawake : r ≠ none → q'.waiting t = false → q'.runnable t = true)
    (hblocked : r ≠ none → b = true → q'.runnable t = false → cond t = false) :
    WaitOk q' (update pc t r) (update saw t b) cond where
  nodup := hnodup
  mem_iff := hmem
  waiting u := by
    by_cases hu : u = t
    · subst hu
      simpa using hin
    · simpa [hu, hw u hu] using h.waiting u
  not_waiting u := by
    by_cases hu : u = t
    · subst hu
      simpa using hout
    · simpa [hu, hw u hu] using h.not_waiting u
  awake u := by
    by_cases hu : u = t
    · subst hu
      simpa using hawake
    · simpa [hu, hw u hu, hr u hu] using h.awake u
  blocked u := by
    by_cases hu : u = t
    · subst hu
      simpa using hblocked
    · simpa [hu, hr u hu] using h.blocked u

theorem enter (hpc : pc t = none) (hrun : q.runnable t = true) :
    WaitOk (q.defineWait t) (update pc t (some .check)) saw cond := by
  have hwait : q.waiting t = false := h.not_waiting t (.inl hpc)
  have hsame : update q.waiting t false = q.waiting := by
    rw [← hwait, update_eq_self]
  have hsaw : saw = update saw t (saw t) := (update_eq_self t saw).symm
  rw [hsaw]
  refine h.of_local h.nodup ?_ (fun _ _ => ?_) (fun _ _ => rfl) nofun ?_ ?_ ?_
  · simpa [hsame] using h.mem_iff
  · rw [Waitq.waiting_defineWait, hsame]
  · simp
  · simpa using hrun
  · simp [hrun]

/-- **Step lemma.** A step of the macro does not fault and keeps the discipline; a thread that
leaves the macro is runnable. The value `b` may be out of date for a thread that has been woken. -/
theorem step_observed {w : WaitPc} {b : Bool} (hpc : pc t = some w)
    (hobs : b = false → q.runnable t = false → cond t = false) (deadline now : Nat) :
    ∃ r q', waitEvent q t deadline now b w = .ok (r, q') ∧ WaitOk q' (update pc t r)
        (update saw t (sawAfter (saw t) b w)) cond ∧
      (r = none → q'.runnable t = true) ∧ ∀ u, u ≠ t → q'.runnable u = q.runnable u := by
  cases w with
  | check =>
    have hwait := h.not_waiting t (.inr hpc)
    have hrun := h.awake t (by simp [hpc]) hwait
    refine ⟨_, q, rfl, ?_, fun _ => hrun, fun _ _ => rfl⟩
    refine h.of_local h.nodup h.mem_iff (fun _ _ => rfl) (fun _ _ => rfl) ?_ ?_ ?_ ?_
    · split <;> simp
    · exact fun _ => hwait
    · exact fun _ _ => hrun
    · simp [hrun]
  | enqueue =>
    refine ⟨_, _, rfl, ?_, by simp, fun u hu => by simp [hu]⟩
    by_cases hwait : q.waiting t = true
    · have hadd : q.add t = q := if_pos hwait
      refine h.of_local ?_ ?_ ?_ (fun u hu => by simp [hu]) ?_ ?_ ?_ ?_ <;>
        simp [hadd, hwait, h.nodup, h.mem_iff, sawAfter]
    have hadd : q.add t = { q with
        list := q.list ++ [t], waiting := update q.waiting t true } := if_neg hwait
    have hmem : t ∉ q.list := fun hm => hwait ((h.mem_iff t).mp hm)
    refine h.of_local ?_ (fun u => ?_) (fun u hu => by simp [hadd, hu])
      (fun u hu => by simp [hu]) ?_ ?_ ?_ ?_
    · simpa [hadd, List.nodup_append] using ⟨h.nodup, fun u hu hut => hmem (hut ▸ hu)⟩
    · by_cases hu : u = t
      · simp [hadd, hu]
      · simpa [hadd, hu] using h.mem_iff u
    all_goals simp [hadd, sawAfter]
  | recheck =>
    have hwait := h.waiting t (.inl hpc)
    refine ⟨_, q, rfl, ?_, by simp, fun _ _ => rfl⟩
    refine h.of_local h.nodup h.mem_iff (fun _ _ => rfl) (fun _ _ => rfl) ?_ ?_ ?_ ?_
    · exact fun _ => hwait
    · split <;> simp
    · simp [hwait]
    -- found false now, or before and not woken since
    intro _ hsaw hrun
    simp only [sawAfter, Bool.or_eq_true, Bool.not_eq_true'] at hsaw
    exact hsaw.elim (fun hs => h.blocked t (by simp [hpc]) hs hrun) fun hb => hobs hb hrun
  | yield =>
    have hwait := h.waiting t (.inr (.inl hpc))
    refine ⟨_, q, rfl, ?_, by simp, fun _ _ => rfl⟩
    refine h.of_local h.nodup h.mem_iff (fun _ _ => rfl) (fun _ _ => rfl) ?_ ?_ ?_ ?_
    · simp
    · simp
    · simp [hwait]
    · exact fun _ hsaw hrun => h.blocked t (by simp [hpc]) hsaw hrun
  | leave =>
    have hwait := h.waiting t (.inr (.inr hpc))
    have hmem := (h.mem_iff t).mpr hwait
    have hrem : (q.wake t).remove t = .ok { q.wake t with
        list := q.list.erase t, waiting := update q.waiting t false } := by
      simp [Waitq.remove, hwait, hmem]
    refine ⟨none, _, by rw [waitEvent, hrem]; rfl, ?_, by simp, fun u hu => by simp [hu]⟩
    refine h.of_local (h.nodup.erase t) (fun u => ?_) (fun u hu => by simp [hu])
      (fun u hu => by simp [hu]) ?_ ?_ ?_ ?_
    · by_cases hu : u = t
      · simp [hu, h.nodup.not_mem_erase]
      · simpa [hu, List.mem_erase_of_ne hu] using h.mem_iff u
    all_goals simp

theorem step {w : WaitPc} (hpc : pc t = some w) (deadline now : Nat) :
    ∃ r q', waitEvent q t deadline now (cond t) w = .ok (r, q') ∧ WaitOk q' (update pc t r)
        (update saw t (sawAfter (saw t) (cond t) w)) cond ∧
      (r = none → q'.runnable t = true) ∧ ∀ u, u ≠ t → q'.runnable u = q.runnable u :=
  h.step_observed hpc (fun hb _ => hb) deadline now

theorem runnable_of_wakeUp (hpc : pc t ≠ none) : q.wakeUp.runnable t = true := by
  rw [Waitq.runnable_wakeUp, Bool.or_eq_true, decide_eq_true_eq, h.mem_iff]
  cases hwait : q.waiting t with
  | true => exact .inr rfl
  | false => exact .inl (h.awake t hpc hwait)

end

end WaitOk

end Unikraft.Uksched
