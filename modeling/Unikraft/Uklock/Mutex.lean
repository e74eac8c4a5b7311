import Unikraft.Uksched.Wait
import Unikraft.Lib.Run

/-!
# Unikraft.Uklock.Mutex

The recursive mutex of `uk/mutex.h`, run by any number of threads. A call of `uk_mutex_lock` is a
sequence of atomic steps (`MutexPc`); the condition of the wait-queue macro reads `lock_count` and
then `owner`, with interrupts on. What is found in between may be out of date, but then the thread
has been woken (`MutexSys.Inv.loaded`).

`depth` is not in the source: it counts the calls of a thread that took the mutex.
-/

namespace Unikraft.Uklock

open Lib Uksched Function Option

variable {T : Type} [DecidableEq T]

/-! ### The sections -/

/-- Where a thread is in `uk_mutex_lock`. -/
inductive MutexPc
  | outside
  /-- In `uk_waitq_wait_event`; with `loaded`, after it has read a `lock_count` other than 0
  and before it reads `owner`. -/
  | wait (w : WaitPc) (loaded : Bool)
  /-- Before the section that looks at the mutex again. -/
  | take
  deriving DecidableEq

def MutexPc.waitPc : MutexPc → Option WaitPc
  | .outside => none
  | .wait w _ => some w
  | .take => none

/-- The places of the macro that evaluate its condition. -/
def loads : WaitPc → Bool
  | .check | .recheck => true
  | .enqueue | .yield | .leave => false

/-- A mutex and its users. -/
structure MutexSys (T : Type) where
  lockCount : Int
  owner : Option T
  wait : Waitq T
  pc : T → MutexPc
  /-- The thread has found the condition false since it last cleared its runnable flag. -/
  saw : T → Bool
  /-- How often a thread has the mutex locked. -/
  depth : T → Nat

/-- `m->lock_count == 0 || m->owner == current`. -/
def MutexSys.cond (s : MutexSys T) (t : T) : Bool := decide (s.lockCount = 0 ∨ s.owner = some t)

/-- `m->lock_count++; m->owner = current`. -/
def acquire (s : MutexSys T) (t : T) : Outcome (MutexSys T) :=
  if s.lockCount + 1 < 2 ^ 31 then
    .ok { s with
      lockCount := s.lockCount + 1
      owner := some t
      depth := update s.depth t (s.depth t + 1) }
  else .error .undefinedArith

inductive MutexEvent (T : Type)
  /-- Thread `t` calls `uk_mutex_lock`. -/
  | lock (t : T)
  /-- Thread `t` makes the next step of its call. -/
  | run (t : T)
  | trylock (t : T)
  | unlock (t : T)
  /-- `uk_thread_wake` of `t`, for any other reason. -/
  | wake (t : T)

/-- One step of a thread inside `uk_mutex_lock`. -/
def lockStep (s : MutexSys T) (t : T) : Outcome (MutexSys T) :=
  match s.pc t with
  | .outside => .ok s
  | .wait w loaded =>
    if loads w = true ∧ loaded = false ∧ s.lockCount ≠ 0 then
      .ok { s with pc := update s.pc t (.wait w true) }
    else do
      -- `lock_count` was 0, or the value depends on `owner`.
      let cond := !loaded || decide (s.owner = some t)
      let (next, wait) ← waitEvent s.wait t 0 0 cond w
      .ok { s with
        wait
        pc := update s.pc t (next.elim .take (.wait · false))
        saw := update s.saw t (sawAfter (s.saw t) cond w) }
  | .take =>
    if s.cond t then do
      let s ← acquire s t
      .ok { s with pc := update s.pc t .outside }
    else
      .ok { s with
        wait := s.wait.defineWait t, pc := update s.pc t (.wait .check false) }

/-- One event; `uk_mutex_trylock` says whether it took the mutex. -/
def mutexStep (s : MutexSys T) : MutexEvent T → Outcome (Option Bool × MutexSys T)
  | .lock t =>
    .ok (none, { s with
      wait := s.wait.defineWait t, pc := update s.pc t (.wait .check false) })
  | .run t => do
      let s ← lockStep s t
      .ok (none, s)
  | .trylock t =>
    if s.cond t then do
      let s ← acquire s t
      .ok (some true, s)
    else .ok (some false, s)
  | .unlock t => do
      ukAssert (0 < s.lockCount)
      let depth := update s.depth t (s.depth t - 1)
      if s.lockCount - 1 = 0 then
        .ok (none, { s with
          lockCount := s.lockCount - 1, owner := none, wait := s.wait.wakeUp, depth })
      else .ok (none, { s with lockCount := s.lockCount - 1, depth })
  | .wake t => .ok (none, { s with wait := s.wait.wake t })

/-- A thread makes its calls one after the other, and unlocks only as often as it has
locked. -/
def MutexEvent.Valid (s : MutexSys T) : MutexEvent T → Prop
  | .lock t => s.pc t = .outside ∧ s.wait.runnable t = true
  | .trylock t => s.pc t = .outside
  | .unlock t => s.pc t = .outside ∧ 0 < s.depth t
  | .run _ | .wake _ => True

/-- The counter has room for one more lock of its owner. -/
def MutexEvent.Fits (s : MutexSys T) : MutexEvent T → Prop
  | .run t | .trylock t => s.owner = some t → s.lockCount < 2 ^ 31 - 1
  | .lock _ | .unlock _ | .wake _ => True

instance MutexEvent.decidableValid (s : MutexSys T) (e : MutexEvent T) : Decidable (e.Valid s) := by
  cases e <;> dsimp only [MutexEvent.Valid] <;> infer_instance

instance MutexEvent.decidableFits (s : MutexSys T) (e : MutexEvent T) : Decidable (e.Fits s) := by
  cases e <;> dsimp only [MutexEvent.Fits] <;> infer_instance

/-- A mutex after `uk_mutex_init`, that nobody uses yet. -/
structure MutexSys.Fresh (s : MutexSys T) : Prop where
  lockCount : s.lockCount = 0
  owner : s.owner = none
  list : s.wait.list = []
  waiting : ∀ t, s.wait.waiting t = false
  outside : ∀ t, s.pc t = .outside
  depth : ∀ t, s.depth t = 0

/-! ### The invariant -/

variable {s s' : MutexSys T} {t u : T}

/-- The waiting discipline for the condition of each thread, and the owner with its locks. -/
structure MutexSys.Inv (s : MutexSys T) : Prop where
  waitOk : WaitOk s.wait (MutexPc.waitPc ∘ s.pc) s.saw s.cond
  awake : ∀ t, s.pc t = .take → s.wait.runnable t = true
  /-- What a thread has read of `lock_count` is still so, unless it has been woken. -/
  loaded : ∀ t w, s.pc t = .wait w true → s.wait.runnable t = false → s.lockCount ≠ 0
  nonneg : 0 ≤ s.lockCount
  free : s.owner = none ↔ s.lockCount = 0
  depth : ∀ t, (s.depth t : Int) = if s.owner = some t then s.lockCount else 0

theorem MutexSys.cond_eq_false : s.cond t = false ↔ s.lockCount ≠ 0 ∧ s.owner ≠ some t := by
  rw [MutexSys.cond, decide_eq_false_iff_not, not_or]

theorem MutexSys.Fresh.inv (h : s.Fresh) : s.Inv where
  waitOk := by constructor <;> simp [h.list, h.waiting, h.outside, MutexPc.waitPc]
  awake t ht := by simp [h.outside t] at ht
  loaded t w ht := by simp [h.outside t] at ht
  nonneg := h.lockCount.ge
  free := by simp [h.lockCount, h.owner]
  depth t := by simp [h.depth t, h.owner]

section

variable (h : s.Inv)

include h

theorem MutexSys.Inv.acquire (hcond : s.cond t = true)
    (hfits : s.owner = some t → s.lockCount < 2 ^ 31 - 1) :
    ∃ s', acquire s t = .ok s' ∧ s'.Inv ∧ s'.pc = s.pc ∧ s'.wait = s.wait := by
  have hnonneg := h.nonneg
  have hroom : s.lockCount + 1 < 2 ^ 31 := by
    by_cases howner : s.owner = some t
    · have := hfits howner
      omega
    simp only [MutexSys.cond, decide_eq_true_eq, howner, or_false] at hcond
    omega
  refine ⟨_, if_pos hroom, ⟨?_, h.awake, ?_, ?_, ?_, ?_⟩, rfl, rfl⟩
  · refine h.waitOk.weaken fun u hu => ?_
    have hut : u ≠ t := by
      intro hut
      rw [hut, hcond] at hu
      cases hu
    refine MutexSys.cond_eq_false.mpr ⟨?_, fun heq => hut (some.inj heq).symm⟩
    show s.lockCount + 1 ≠ 0
    omega
  · intro u w _ _
    show s.lockCount + 1 ≠ 0
    omega
  · show 0 ≤ s.lockCount + 1
    omega
  · show some t = none ↔ s.lockCount + 1 = 0
    constructor
    · intro hno
      cases hno
    intro hzero
    omega
  intro u
  have hu := h.depth u
  by_cases hut : u = t
  · subst hut
    simp only [update_self, if_true]
    by_cases howner : s.owner = some u
    · rw [if_pos howner] at hu
      omega
    rw [if_neg howner] at hu
    simp only [MutexSys.cond, decide_eq_true_eq, howner, or_false] at hcond
    omega
  -- Another thread has no lock: the mutex was free or belonged to `t`.
  have hne : s.owner ≠ some u := by
    intro howner
    simp only [MutexSys.cond, decide_eq_true_eq, howner, some.injEq] at hcond
    rcases hcond with hzero | heq
    · have := h.free.mpr hzero
      rw [howner] at this
      cases this
    · exact hut heq
  rw [if_neg hne] at hu
  simp only [update_of_ne hut]
  rw [hu, if_neg fun heq => hut (some.inj heq).symm]

theorem MutexSys.Inv.enter (hpc : (s.pc t).waitPc = none) (hrun : s.wait.runnable t = true) :
    ({ s with wait := s.wait.defineWait t,
              pc := update s.pc t (.wait .check false) } : MutexSys T).Inv where
  waitOk := by
    rw [Function.comp_update]
    exact h.waitOk.enter hpc hrun
  awake u hu := by
    by_cases hut : u = t
    · subst hut
      exact hrun
    · exact h.awake u (by simpa [hut] using hu)
  loaded u w hu hblocked := by
    by_cases hut : u = t
    · subst hut
      simp at hu
    · exact h.loaded u w (by simpa [hut] using hu) hblocked
  nonneg := h.nonneg
  free := h.free
  depth := h.depth

theorem MutexSys.Inv.load {w : WaitPc} {loaded : Bool} (hpc : s.pc t = .wait w loaded)
    (hcount : s.lockCount ≠ 0) :
    ({ s with pc := update s.pc t (.wait w true) } : MutexSys T).Inv where
  waitOk := by
    have hsame :
        MutexPc.waitPc ∘ update s.pc t (.wait w true) = MutexPc.waitPc ∘ s.pc := by
      rw [Function.comp_update]
      exact update_eq_self_iff.mpr (by simp [hpc, MutexPc.waitPc])
    rw [hsame]
    exact h.waitOk
  awake u hu := by
    by_cases hut : u = t
    · subst hut
      simp at hu
    · exact h.awake u (by simpa [hut] using hu)
  loaded u w' hu hblocked := hcount
  nonneg := h.nonneg
  free := h.free
  depth := h.depth

/-- **Step lemma** for a thread inside a call. -/
theorem lockStep_ok (t : T) (hfits : s.owner = some t → s.lockCount < 2 ^ 31 - 1) :
    ∃ s', lockStep s t = .ok s' ∧ s'.Inv := by
  unfold lockStep
  cases hpc : s.pc t with
  | outside => exact ⟨s, rfl, h⟩
  | wait w loaded =>
    dsimp only
    by_cases hload : loads w = true ∧ loaded = false ∧ s.lockCount ≠ 0
    · rw [if_pos hload]
      exact ⟨_, rfl, h.load hpc hload.2.2⟩
    rw [if_neg hload]
    -- A value found false is not out of date for a thread that is still blocked.
    have hobs : (!loaded || decide (s.owner = some t)) = false →
        s.wait.runnable t = false → s.cond t = false := by
      intro hfalse hblocked
      rw [Bool.or_eq_false_iff, decide_eq_false_iff_not, Bool.not_eq_false'] at hfalse
      rw [hfalse.1] at hpc
      exact MutexSys.cond_eq_false.mpr ⟨h.loaded t w hpc hblocked, hfalse.2⟩
    obtain ⟨next, q', hstep, hok, hend, hsame⟩ :=
      h.waitOk.step_observed (t := t) (w := w) (by simp [hpc, MutexPc.waitPc]) hobs 0 0
    rw [hstep]
    refine ⟨_, rfl, ?_, ?_, ?_, h.nonneg, h.free, h.depth⟩
    · rw [Function.comp_update]
      cases next with
      | none | some w' => exact hok
    · intro u hu
      by_cases hut : u = t
      · subst hut
        cases next with
        | none => exact hend rfl
        | some w' => simp at hu
      · exact (hsame u hut).trans (h.awake u (by simpa [hut] using hu))
    intro u w' hu hblocked
    by_cases hut : u = t
    · subst hut
      cases next with
      | none | some w'' => simp at hu
    · exact h.loaded u w' (by simpa [hut] using hu) ((hsame u hut).symm.trans hblocked)
  | take =>
    have hout : (s.pc t).waitPc = none := by rw [hpc, MutexPc.waitPc]
    dsimp only
    cases hcond : s.cond t with
    | false =>
      rw [if_neg (by simp)]
      exact ⟨_, rfl, h.enter hout (h.awake t hpc)⟩
    | true =>
      rw [if_pos rfl]
      obtain ⟨s₁, hacquire, hinv, hpc₁, -⟩ := h.acquire hcond hfits
      have hsame : MutexPc.waitPc ∘ update s₁.pc t .outside = MutexPc.waitPc ∘ s₁.pc := by
        rw [Function.comp_update]
        exact update_eq_self_iff.mpr (by simp [hpc₁, hpc, MutexPc.waitPc])
      rw [hacquire]
      refine ⟨_, rfl, hsame ▸ hinv.waitOk, ?_, ?_, hinv.nonneg, hinv.free, hinv.depth⟩
      · intro u hu
        by_cases hut : u = t
        · subst hut
          simp at hu
        · exact hinv.awake u (by simpa [hut] using hu)
      intro u w hu
      by_cases hut : u = t
      · subst hut
        simp at hu
      · exact hinv.loaded u w (by simpa [hut] using hu)

theorem unlock_ok (hdepth : 0 < s.depth t) :
    ∃ s', mutexStep s (.unlock t) = .ok (none, s') ∧ s'.Inv := by
  have hown := h.depth t
  have howner : s.owner = some t := by
    by_contra hne
    rw [if_neg hne] at hown
    omega
  rw [if_pos howner] at hown
  have hpos : 0 < s.lockCount := by omega
  have hother : ∀ u, u ≠ t → s.depth u = 0 := by
    intro u hut
    have hu := h.depth u
    rw [howner, if_neg fun heq => hut (some.inj heq).symm] at hu
    omega
  simp only [mutexStep, ukAssert_pos hpos, Outcome.ok_bind]
  by_cases hlast : s.lockCount - 1 = 0
  · rw [if_pos hlast]
    refine ⟨_, rfl, h.waitOk.wakeUp, fun u hu => by simp [h.awake u hu], ?_, hlast.ge, ?_, ?_⟩
    · intro u w hu hblocked
      have hin : (MutexPc.waitPc ∘ s.pc) u ≠ none := by
        have hu' : s.pc u = .wait w true := hu
        simp [hu', MutexPc.waitPc]
      rw [h.waitOk.runnable_of_wakeUp hin] at hblocked
      cases hblocked
    · exact ⟨fun _ => hlast, fun _ => rfl⟩
    intro u
    by_cases hut : u = t
    · subst hut
      simp only [update_self, if_neg (some_ne_none u).symm]
      omega
    simp only [update_of_ne hut, if_neg (some_ne_none u).symm]
    rw [hother u hut]
    rfl
  rw [if_neg hlast]
  refine ⟨_, rfl, ?_, h.awake, ?_, ?_, ?_, ?_⟩
  · refine h.waitOk.weaken fun u hu => ?_
    obtain ⟨-, hne⟩ := MutexSys.cond_eq_false.mp hu
    exact MutexSys.cond_eq_false.mpr ⟨hlast, hne⟩
  · exact fun _ _ _ _ => hlast
  · show 0 ≤ s.lockCount - 1
    omega
  · show s.owner = none ↔ s.lockCount - 1 = 0
    rw [howner]
    exact ⟨nofun, fun hzero => absurd hzero hlast⟩
  intro u
  show ((update s.depth t (s.depth t - 1) u : Nat) : Int) =
    if s.owner = some u then s.lockCount - 1 else 0
  by_cases hut : u = t
  · subst hut
    rw [update_self, if_pos howner]
    omega
  rw [update_of_ne hut, hother u hut, howner, if_neg fun heq => hut (some.inj heq).symm]
  rfl

/-- **Step lemma.** A valid event that fits returns and keeps the invariant. -/
theorem mutexStep_ok {e : MutexEvent T} (hv : e.Valid s) (hf : e.Fits s) :
    ∃ r s', mutexStep s e = .ok (r, s') ∧ s'.Inv := by
  cases e with
  | lock t => exact ⟨_, _, rfl, h.enter (by rw [hv.1, MutexPc.waitPc]) hv.2⟩
  | run t =>
    obtain ⟨s', hstep, hinv⟩ := lockStep_ok h t hf
    exact ⟨none, s', by rw [mutexStep, hstep]; rfl, hinv⟩
  | trylock t =>
    cases hcond : s.cond t with
    | false => exact ⟨some false, s, by simp [mutexStep, hcond], h⟩
    | true =>
      obtain ⟨s', hacquire, hinv, -⟩ := h.acquire hcond hf
      exact ⟨some true, s', by simp [mutexStep, hcond, hacquire], hinv⟩
  | unlock t =>
    obtain ⟨s', hstep, hinv⟩ := unlock_ok h hv.2
    exact ⟨none, s', hstep, hinv⟩
  | wake t =>
    refine ⟨_, _, rfl, h.waitOk.wake t, fun u hu => by simp [h.awake u hu], ?_, h.nonneg, h.free,
      h.depth⟩
    intro u w hu hblocked
    rw [Waitq.runnable_wake, Bool.or_eq_false_iff] at hblocked
    exact h.loaded u w hu hblocked.1

end

theorem MutexSys.Inv.of_reachable {s₀ : MutexSys T} (h₀ : s₀.Fresh)
    (h : Reachable mutexStep (fun s e => MutexEvent.Valid s e ∧ e.Fits s) s₀ s) : s.Inv := by
  refine h.invariant_of_returns h₀.inv ?_
  exact fun s e hinv hok => mutexStep_ok hinv hok.1 hok.2

/-- A thread in a call that has found the condition false and is not runnable is linked in
the queue, and another thread has the mutex. -/
theorem MutexSys.Inv.blocked (h : s.Inv) (hpc : s.pc t ≠ .outside) (hsaw : s.saw t = true)
    (hrun : s.wait.runnable t = false) :
    t ∈ s.wait.list ∧ ∃ u, u ≠ t ∧ s.owner = some u ∧ 0 < s.depth u := by
  cases hp : s.pc t with
  | outside => exact absurd hp hpc
  | take => simp [h.awake t hp] at hrun
  | wait w loaded =>
    have hin : (MutexPc.waitPc ∘ s.pc) t ≠ none := by simp [hp, MutexPc.waitPc]
    obtain ⟨hcount, hne⟩ := MutexSys.cond_eq_false.mp (h.waitOk.blocked t hin hsaw hrun)
    refine ⟨?_, ?_⟩
    · rw [h.waitOk.mem_iff]
      by_contra hwait
      simp [h.waitOk.awake t hin (by simpa using hwait)] at hrun
    obtain ⟨u, howner⟩ := ne_none_iff_exists'.mp (mt h.free.mp hcount)
    have hdepth := h.depth u
    rw [if_pos howner] at hdepth
    refine ⟨u, fun hut => hne (hut ▸ howner), howner, ?_⟩
    omega

/-- **The recursive mutex.** In every interleaving in which no thread locks the mutex `2 ^ 31`
times: at most one thread holds the mutex; `lock_count` is the depth of the owner, and 0 exactly
when there is none; every call a thread may make is defined; and a thread inside `uk_mutex_lock`
that has found the condition false since it last cleared its runnable flag, and is not runnable, is
linked in the queue while another thread holds the mutex. -/
theorem mutex_exclusion (s₀ s : MutexSys T) (h₀ : s₀.Fresh)
    (h : Reachable mutexStep (fun s e => MutexEvent.Valid s e ∧ e.Fits s) s₀ s) :
    (∀ t u, 0 < s.depth t → 0 < s.depth u → t = u) ∧
    (∀ t, 0 < s.depth t → s.owner = some t ∧ s.lockCount = s.depth t) ∧
    (s.lockCount = 0 ↔ s.owner = none) ∧
    (∀ e : MutexEvent T, e.Valid s → e.Fits s → ∃ r s', mutexStep s e = .ok (r, s')) ∧
    (∀ t, s.pc t ≠ .outside → s.saw t = true → s.wait.runnable t = false →
      t ∈ s.wait.list ∧ ∃ u, u ≠ t ∧ s.owner = some u ∧ 0 < s.depth u) := by
  have hinv := MutexSys.Inv.of_reachable h₀ h
  have howner : ∀ t, 0 < s.depth t → s.owner = some t ∧ s.lockCount = s.depth t := by
    intro t ht
    have hdepth := hinv.depth t
    by_cases hown : s.owner = some t
    · rw [if_pos hown] at hdepth
      exact ⟨hown, hdepth.symm⟩
    rw [if_neg hown] at hdepth
    omega
  refine ⟨?_, howner, hinv.free.symm, ?_, fun t => hinv.blocked⟩
  · intro t u ht hu
    exact Option.some.inj ((howner t ht).1.symm.trans (howner u hu).1)
  intro e hv hf
  obtain ⟨r, s', hstep, -⟩ := mutexStep_ok hinv hv hf
  exact ⟨r, s', hstep⟩

def freshMutex (T : Type) : MutexSys T where
  lockCount := 0
  owner := none
  wait := ⟨[], fun _ => false, fun _ => true, fun _ => 0⟩
  pc _ := .outside
  saw _ := false
  depth _ := 0

omit [DecidableEq T] in
theorem freshMutex_fresh : (freshMutex T).Fresh :=
  ⟨rfl, rfl, rfl, fun _ => rfl, fun _ => rfl, fun _ => rfl⟩

/-- A thread that waits for the mutex of another one. -/
theorem mutex_exclusion_waiter :
    ∃ s, Reachable mutexStep (fun s e => MutexEvent.Valid s e ∧ e.Fits s) (freshMutex Bool) s ∧
      s.pc false = .wait .yield false ∧ s.wait.runnable false = false ∧
      false ∈ s.wait.list ∧ ∃ u, u ≠ false ∧ s.owner = some u ∧ 0 < s.depth u := by
  obtain ⟨s, hreach, hpc, hsaw, hblocked⟩ : ∃ s, Reachable mutexStep
      (fun s e => MutexEvent.Valid s e ∧ e.Fits s) (freshMutex Bool) s ∧
      s.pc false = .wait .yield false ∧ s.saw false = true ∧ s.wait.runnable false = false :=
    Reachable.exists_of_run [.lock true, .run true, .run true, .lock false, .run false, .run false,
      .run false, .run false, .run false] (by decide +kernel)
  have hok := (mutex_exclusion _ _ freshMutex_fresh hreach).2.2.2.2 false
    (by rw [hpc]; exact nofun) hsaw hblocked
  exact ⟨s, hreach, hpc, hblocked, hok⟩

theorem mutex_nested (k : Nat) (hk : k < 2 ^ 31) :
    ∃ s, Reachable mutexStep MutexEvent.Valid (freshMutex Unit) s ∧ s.pc () = .outside ∧
      s.cond () = true ∧ s.lockCount = k := by
  induction k with
  | zero => exact ⟨_, .refl, rfl, rfl, rfl⟩
  | succ k ih =>
    obtain ⟨s, hreach, hpc, hcond, hcount⟩ := ih (by omega)
    have hroom : s.lockCount + 1 < 2 ^ 31 := by
      rw [hcount]
      omega
    have hstep : mutexStep s (.trylock ()) = .ok (some true, { s with
        lockCount := s.lockCount + 1
        owner := some ()
        depth := update s.depth () (s.depth () + 1) }) := by
      rw [mutexStep, if_pos hcond, acquire, if_pos hroom]
      rfl
    have hvalid : MutexEvent.Valid s (.trylock ()) := hpc
    refine ⟨_, hreach.tail hvalid hstep, hpc, ?_, ?_⟩
    · simp [MutexSys.cond]
    show s.lockCount + 1 = ((k + 1 : Nat) : Int)
    rw [hcount]
    rfl

/-- The lock after `2 ^ 31 - 1` others overflows the counter. -/
theorem mutex_count_overflows :
    ∃ s, Reachable mutexStep MutexEvent.Valid (freshMutex Unit) s ∧
      MutexEvent.Valid s (.trylock ()) ∧ s.lockCount = 2 ^ 31 - 1 ∧
      mutexStep s (.trylock ()) = .error .undefinedArith := by
  obtain ⟨s, hreach, hpc, hcond, hcount⟩ := mutex_nested (2 ^ 31 - 1) (by decide)
  refine ⟨s, hreach, hpc, hcount, ?_⟩
  have hfull : ¬ s.lockCount + 1 < 2 ^ 31 := by
    rw [hcount]
    decide
  rw [mutexStep, if_pos hcond, acquire, if_neg hfull]
  rfl

end Unikraft.Uklock
