import Unikraft.Uksched.Wait
import Unikraft.Lib.Run

/-!
# Unikraft.Uklock.Semaphore

The counting semaphore of `uk/semaphore.h`, run by any number of threads and interrupt handlers. A
call of `uk_semaphore_down` or `uk_semaphore_down_to` is a sequence of atomic steps (`SemPc`):
those of the wait-queue macro, then the section that takes a token or starts over.
-/

namespace Unikraft.Uklock

open Lib Uksched Function

variable {T : Type} [DecidableEq T]

/-! ### The sections -/

/-- `if (s->count > 0) --s->count`: the counter after it, if a token was there. -/
def takeToken (count : Int) : Option Int := if 0 < count then some (count - 1) else none

/-- `++s->count`. -/
def giveToken (count : Int) : Outcome Int :=
  if count + 1 < 2 ^ 63 then .ok (count + 1) else .error .undefinedArith

/-- Where a thread is in `uk_semaphore_down` or `uk_semaphore_down_to`. -/
inductive SemPc
  | outside
  /-- In `uk_waitq_wait_event_deadline`. -/
  | wait (w : WaitPc)
  /-- Before the section that looks at the counter again. -/
  | take
  deriving DecidableEq

def SemPc.waitPc : SemPc → Option WaitPc
  | .outside => none
  | .wait w => some w
  | .take => none

/-- A semaphore and its users. -/
structure SemSys (T : Type) where
  count : Int
  wait : Waitq T
  pc : T → SemPc
  /-- The deadline of the call a thread is in, `0` for `uk_semaphore_down`. -/
  deadline : T → Nat
  /-- The thread has found `count > 0` false since it last cleared its runnable flag. -/
  saw : T → Bool
  /-- Completed `up` calls. -/
  ups : Nat
  /-- Calls that took a token. -/
  downs : Nat

/-- `s->count > 0`. -/
def SemSys.cond (s : SemSys T) : Bool := decide (0 < s.count)

inductive SemEvent (T : Type)
  /-- Thread `t` calls `uk_semaphore_down` or, with a deadline, `uk_semaphore_down_to`. -/
  | enter (t : T) (deadline : Nat)
  /-- Thread `t` makes the next step of its call at time `now`. -/
  | run (t : T) (now : Nat)
  | downTry
  | up
  /-- `uk_thread_wake` of `t`, for any other reason. -/
  | wake (t : T)

/-- One step of a thread inside `uk_semaphore_down`; a call that returns says
whether it took a token. -/
def runStep (s : SemSys T) (t : T) (now : Nat) : Outcome (Option Bool × SemSys T) :=
  match s.pc t with
  | .outside => .ok (none, s)
  | .wait w => do
      let (next, wait) ← waitEvent s.wait t (s.deadline t) now s.cond w
      .ok (none, { s with
        wait
        pc := update s.pc t (next.elim .take .wait)
        saw := update s.saw t (sawAfter (s.saw t) s.cond w) })
  | .take =>
    match takeToken s.count with
    | some count =>
      .ok (some true, { s with
        count, pc := update s.pc t .outside, downs := s.downs + 1 })
    | none =>
      if s.deadline t ≠ 0 ∧ s.deadline t ≤ now then
        .ok (some false, { s with pc := update s.pc t .outside })
      else
        .ok (none, { s with
          wait := s.wait.defineWait t, pc := update s.pc t (.wait .check) })

def semStep (s : SemSys T) : SemEvent T → Outcome (Option Bool × SemSys T)
  | .enter t deadline =>
    .ok (none, { s with
      wait := s.wait.defineWait t
      pc := update s.pc t (.wait .check)
      deadline := update s.deadline t deadline })
  | .run t now => runStep s t now
  | .downTry =>
    match takeToken s.count with
    | some count => .ok (some true, { s with count, downs := s.downs + 1 })
    | none => .ok (some false, s)
  | .up => do
      let count ← giveToken s.count
      .ok (none, { s with count, wait := s.wait.wakeUp, ups := s.ups + 1 })
  | .wake t => .ok (none, { s with wait := s.wait.wake t })

/-- A thread calls `uk_semaphore_down` while it is runnable and in no such call. -/
def SemEvent.Valid (s : SemSys T) : SemEvent T → Prop
  | .enter t _ => s.pc t = .outside ∧ s.wait.runnable t = true
  | _ => True

/-- The counter has room for the token of an `up`. -/
def SemEvent.Fits (s : SemSys T) : SemEvent T → Prop
  | .up => s.count < 2 ^ 63 - 1
  | _ => True

instance (s : SemSys T) (e : SemEvent T) : Decidable (e.Valid s) := by
  cases e <;> dsimp only [SemEvent.Valid] <;> infer_instance

instance (s : SemSys T) (e : SemEvent T) : Decidable (e.Fits s) := by
  cases e <;> dsimp only [SemEvent.Fits] <;> infer_instance

/-- Nobody uses the semaphore yet. -/
structure SemSys.Fresh (s : SemSys T) : Prop where
  list : s.wait.list = []
  waiting : ∀ t, s.wait.waiting t = false
  outside : ∀ t, s.pc t = .outside
  ups : s.ups = 0
  downs : s.downs = 0

/-! ### The invariant -/

variable {s : SemSys T} {init : Int}

/-- The waiting discipline for the condition `count > 0`, and the balance of tokens. -/
structure SemSys.Inv (init : Int) (s : SemSys T) : Prop where
  waitOk : WaitOk s.wait (SemPc.waitPc ∘ s.pc) s.saw (fun _ => s.cond)
  awake : ∀ t, s.pc t = .take → s.wait.runnable t = true
  balance : init + s.ups - s.downs = s.count
  nonneg : 0 ≤ init → 0 ≤ s.count

theorem takeToken_eq_some {count count' : Int} :
    takeToken count = some count' ↔ 0 < count ∧ count' = count - 1 := by
  unfold takeToken
  split <;> simp_all [eq_comm]

theorem giveToken_eq_ok {count count' : Int} :
    giveToken count = .ok count' ↔ count < 2 ^ 63 - 1 ∧ count' = count + 1 := by
  unfold giveToken
  split <;> simp_all [eq_comm] <;> omega

omit [DecidableEq T] in
theorem SemSys.Fresh.inv (h : s.Fresh) : s.Inv s.count where
  waitOk := by
    constructor <;> simp [h.list, h.waiting, h.outside, SemPc.waitPc]
  awake t ht := by simp [h.outside t] at ht
  balance := by simp [h.ups, h.downs]
  nonneg := id

omit [DecidableEq T] in
theorem SemSys.Inv.waitOk_take (h : s.Inv init) {count : Int} (hc : 0 < s.count) :
    WaitOk s.wait (SemPc.waitPc ∘ s.pc) s.saw (fun _ => decide (0 < count)) :=
  h.waitOk.weaken fun _ hfalse => by simp [SemSys.cond, hc] at hfalse

theorem SemSys.Inv.waitOk_enter (h : s.Inv init) {t : T} (hpc : (s.pc t).waitPc = none)
    (hrun : s.wait.runnable t = true) :
    WaitOk (s.wait.defineWait t) (SemPc.waitPc ∘ update s.pc t (.wait .check)) s.saw
      (fun _ => s.cond) := by
  rw [Function.comp_update]
  exact h.waitOk.enter hpc hrun

theorem waitPc_update_outside {pc : T → SemPc} {t : T} (hpc : (pc t).waitPc = none) :
    SemPc.waitPc ∘ update pc t .outside = SemPc.waitPc ∘ pc := by
  rw [Function.comp_update]
  exact update_eq_self_iff.mpr hpc.symm

theorem awake_update {pc : T → SemPc} {q q' : Waitq T} {t : T} {p : SemPc}
    (h : ∀ u, pc u = .take → q.runnable u = true) (hq : ∀ u, u ≠ t → q'.runnable u = q.runnable u)
    (hp : p = .take → q'.runnable t = true) :
    ∀ u, update pc t p u = .take → q'.runnable u = true := by
  intro u hu
  by_cases hut : u = t
  · subst hut
    exact hp (by simpa using hu)
  rw [hq u hut]
  exact h u (by simpa [hut] using hu)

/-- **Step lemma** for a thread inside a call. -/
theorem runStep_ok (h : s.Inv init) (t : T) (now : Nat) :
    ∃ r s', runStep s t now = .ok (r, s') ∧ s'.Inv init := by
  unfold runStep
  cases hpc : s.pc t with
  | outside => exact ⟨none, s, rfl, h⟩
  | wait w =>
    obtain ⟨next, q', hstep, hok, hend, hsame⟩ :=
      h.waitOk.step (t := t) (w := w) (by simp [hpc, SemPc.waitPc]) (s.deadline t) now
    dsimp only
    rw [hstep]
    refine ⟨_, _, rfl, ?_, ?_, h.balance, h.nonneg⟩
    · rw [Function.comp_update]
      cases next with
      | none | some w' => exact hok
    refine awake_update h.awake hsame ?_
    cases next with
    | none => exact fun _ => hend rfl
    | some w' => exact nofun
  | take =>
    have hout : (s.pc t).waitPc = none := by rw [hpc, SemPc.waitPc]
    have hrun := h.awake t hpc
    cases htake : takeToken s.count with
    | some count =>
      obtain ⟨hpos, rfl⟩ := takeToken_eq_some.mp htake
      refine ⟨_, _, rfl, ?_, awake_update h.awake (fun _ _ => rfl) nofun, ?_, ?_⟩
      · rw [waitPc_update_outside hout]
        exact h.waitOk_take hpos
      · have := h.balance
        simp only [Nat.cast_add, Nat.cast_one]
        omega
      · exact fun _ => by simp only; omega
    | none =>
      dsimp only
      split
      · refine ⟨_, _, rfl, ?_, awake_update h.awake (fun _ _ => rfl) nofun, h.balance, h.nonneg⟩
        rw [waitPc_update_outside hout]
        exact h.waitOk
      exact ⟨_, _, rfl, h.waitOk_enter hout hrun,
        awake_update h.awake (fun _ _ => rfl) nofun, h.balance, h.nonneg⟩

/-- **Step lemma.** A valid event that fits returns and keeps the invariant. -/
theorem semStep_ok {e : SemEvent T} (h : s.Inv init) (hv : e.Valid s) (hf : e.Fits s) :
    ∃ r s', semStep s e = .ok (r, s') ∧ s'.Inv init := by
  cases e with
  | enter t deadline =>
    obtain ⟨hout, hrun⟩ := hv
    exact ⟨_, _, rfl, h.waitOk_enter (by rw [hout, SemPc.waitPc]) hrun,
      awake_update h.awake (fun _ _ => rfl) nofun, h.balance, h.nonneg⟩
  | run t now => exact runStep_ok h t now
  | downTry =>
    unfold semStep
    cases htake : takeToken s.count with
    | some count =>
      obtain ⟨hpos, rfl⟩ := takeToken_eq_some.mp htake
      refine ⟨_, _, rfl, h.waitOk_take hpos, h.awake, ?_, fun _ => by simp only; omega⟩
      have := h.balance
      simp only [Nat.cast_add, Nat.cast_one]
      omega
    | none => exact ⟨_, _, rfl, h⟩
  | up =>
    have hgive : giveToken s.count = .ok (s.count + 1) := giveToken_eq_ok.mpr ⟨hf, rfl⟩
    unfold semStep
    rw [hgive]
    refine ⟨_, _, rfl, h.waitOk.wakeUp, fun t ht => by simp [h.awake t ht], ?_, ?_⟩
    · have := h.balance
      simp only [Nat.cast_add, Nat.cast_one]
      omega
    intro hinit
    have := h.nonneg hinit
    simp only
    omega
  | wake t =>
    exact ⟨_, _, rfl, h.waitOk.wake t, fun u hu => by simp [h.awake u hu], h.balance, h.nonneg⟩

theorem SemSys.Inv.of_reachable {s₀ : SemSys T} (h₀ : s₀.Fresh)
    (h : Reachable semStep (fun s e => SemEvent.Valid s e ∧ e.Fits s) s₀ s) : s.Inv s₀.count := by
  refine h.invariant_of_returns h₀.inv ?_
  exact fun s e hinv hok => semStep_ok hinv hok.1 hok.2

omit [DecidableEq T] in
/-- A thread in a call that has found no token and is not runnable is linked in
the queue, and there is still no token. -/
theorem SemSys.Inv.blocked (h : s.Inv init) {t : T} (hpc : s.pc t ≠ .outside)
    (hsaw : s.saw t = true) (hrun : s.wait.runnable t = false) : t ∈ s.wait.list ∧ s.count ≤ 0 := by
  cases hp : s.pc t with
  | outside => exact absurd hp hpc
  | take => simp [h.awake t hp] at hrun
  | wait w =>
    have hin : (SemPc.waitPc ∘ s.pc) t ≠ none := by simp [hp, SemPc.waitPc]
    constructor
    · rw [h.waitOk.mem_iff]
      by_contra hwait
      simp [h.waitOk.awake t hin (by simpa using hwait)] at hrun
    · simpa [SemSys.cond] using h.waitOk.blocked t hin hsaw hrun

/-- **No lost wake-up.** In every interleaving in which no `up` is made at the largest `long`, a
thread inside `uk_semaphore_down` that has found no token since it last cleared its runnable flag,
and is not runnable, is linked in the queue, and there is no token; the counter is not negative and
balances the completed calls. A further event is defined unless it is an `up` at the largest `long`.
-/
theorem semaphore_no_lost_wakeup (s₀ s : SemSys T) (h₀ : s₀.Fresh)
    (h : Reachable semStep (fun s e => SemEvent.Valid s e ∧ e.Fits s) s₀ s) :
    (∀ t, s.pc t ≠ .outside → s.saw t = true → s.wait.runnable t = false →
      t ∈ s.wait.list ∧ s.count ≤ 0) ∧
    (0 ≤ s₀.count → 0 ≤ s.count) ∧
    s₀.count + s.ups - s.downs = s.count ∧
    ∀ e : SemEvent T, e.Valid s → (e.Fits s ↔ ∃ r s', semStep s e = .ok (r, s')) := by
  have hinv := SemSys.Inv.of_reachable h₀ h
  refine ⟨fun t => hinv.blocked, hinv.nonneg, hinv.balance, fun e hv => ⟨fun hf => ?_, ?_⟩⟩
  · obtain ⟨r, s', hs, -⟩ := semStep_ok hinv hv hf
    exact ⟨r, s', hs⟩
  rintro ⟨r, s', hs⟩
  cases e with
  | up =>
    obtain ⟨count, hgive, -⟩ := Outcome.bind_ok.mp hs
    exact (giveToken_eq_ok.mp hgive).1
  | _ => trivial

def freshSem (count : Int) : SemSys Unit where
  count
  wait := ⟨[], fun _ => false, fun _ => true, fun _ => 0⟩
  pc _ := .outside
  deadline _ := 0
  saw _ := false
  ups := 0
  downs := 0

theorem freshSem_fresh (count : Int) : (freshSem count).Fresh :=
  ⟨rfl, fun _ => rfl, fun _ => rfl, rfl, rfl⟩

/-- A thread that waits for a token that is not there. -/
theorem semaphore_waiter_linked :
    ∃ s, Reachable semStep (fun s e => SemEvent.Valid s e ∧ e.Fits s) (freshSem 0) s ∧
      s.pc () = .wait .yield ∧ s.wait.runnable () = false ∧
      () ∈ s.wait.list ∧ s.count ≤ 0 := by
  obtain ⟨s, hreach, hpc, hsaw, hblocked⟩ : ∃ s, Reachable semStep
      (fun s e => SemEvent.Valid s e ∧ e.Fits s) (freshSem 0) s ∧ s.pc () = .wait .yield ∧
      s.saw () = true ∧ s.wait.runnable () = false :=
    Reachable.exists_of_run [.enter () 0, .run () 0, .run () 0, .run () 0] (by decide +kernel)
  have hok := (semaphore_no_lost_wakeup _ _ (freshSem_fresh 0) hreach).1 ()
    (by rw [hpc]; exact nofun) hsaw hblocked
  exact ⟨s, hreach, hpc, hblocked, hok⟩

/-- With the largest `long` as its counter, `uk_semaphore_up` overflows it. -/
theorem semaphore_up_overflows :
    (freshSem (2 ^ 63 - 1)).Fresh ∧ 0 ≤ (freshSem (2 ^ 63 - 1)).count ∧
      SemEvent.Valid (freshSem (2 ^ 63 - 1)) .up ∧
      (match semStep (freshSem (2 ^ 63 - 1)) .up with
        | .error fault => fault = .undefinedArith
        | .ok _ => False) :=
  ⟨freshSem_fresh _, by decide, trivial, rfl⟩

end Unikraft.Uklock
