import Mathlib.Data.List.Perm.Subperm
import Unikraft.Lib.Run
import Unikraft.Ukschedcoop.Schedcoop

/-!
# Unikraft.Ukschedcoop.Queues

**Every thread is where it belongs** (`Thread.home`), from its flags and its wake-up time. `Core s
cpu L` is what all code of the scheduler keeps: a thread other than `cpu`, the running one, is in
the list it belongs in and in no other one. `SchedInv` adds what is known at each place of the
running thread. A thread that exits while it sleeps breaks this.
-/

namespace Unikraft.Ukschedcoop

open Lib List
open Function (update_of_ne update_self)

/-- The list a thread belongs in; the thread that runs is not in `thread_list`. -/
def Thread.home (th : Thread) (onCpu : Bool) : Option QueueId :=
  if th.exited then some .exitedThreads
  else if th.runnable then if onCpu then none else some .threadList
  else if 0 < th.wakeupTime then some .sleepingThreads else none

namespace Thread

variable {th : Thread} {onCpu : Bool}

theorem home_exited (hex : th.exited = true) : th.home onCpu = some .exitedThreads := by
  simp [home, hex]

theorem home_runnable (hex : th.exited = false) (hrun : th.runnable = true) :
    th.home onCpu = if onCpu then none else some .threadList := by
  simp [home, hex, hrun]

theorem home_blocked (hex : th.exited = false) (hrun : th.runnable = false) :
    th.home onCpu = if 0 < th.wakeupTime then some .sleepingThreads else none := by
  simp [home, hex, hrun]

theorem home_eq_exited : th.home onCpu = some .exitedThreads ↔ th.exited = true := by
  cases hex : th.exited <;> simp [home, hex]
  split_ifs <;> simp

theorem home_eq_threadList : th.home onCpu = some .threadList ↔
    onCpu = false ∧ th.runnable = true ∧ th.exited = false := by
  cases hex : th.exited <;> cases hrun : th.runnable <;> cases onCpu <;> simp [home, hex, hrun]

theorem home_eq_sleeping : th.home onCpu = some .sleepingThreads ↔
    th.exited = false ∧ th.runnable = false ∧ 0 < th.wakeupTime := by
  cases hex : th.exited <;> cases hrun : th.runnable <;> cases onCpu <;> simp [home, hex, hrun]

theorem home_eq_none : th.home false = none ↔
    th.exited = false ∧ th.runnable = false ∧ th.wakeupTime ≤ 0 := by
  cases hex : th.exited <;> cases hrun : th.runnable <;> simp [home, hex, hrun]

theorem home_off_cpu {h : QueueId} (hstop : th.exited = true → th.runnable = false) :
    th.home false = some h ↔ h = .threadList ∧ th.runnable = true ∨ th.home true = some h := by
  cases hex : th.exited <;> cases hrun : th.runnable <;>
    simp_all [home, @eq_comm _ QueueId.threadList]

end Thread

variable {T : Type} [DecidableEq T]

namespace Sched

/-- **Where the threads are**: each thread that exists is in the list it belongs in and nowhere
else, the current one possibly in none. -/
structure Placed (s : Sched T) (L : QueueId → List T) : Prop where
  /-- The links are three proper lists, without repetition and without a common thread. -/
  queues : Queues s.queues L
  alive : ∀ h, ∀ t ∈ L h, t ∈ s.alive
  current : s.current ∉ L .threadList
  runnable : ∀ t ∈ s.alive, t ≠ s.current → (t ∈ L .threadList ↔
    (s.threads t).runnable = true ∧ (s.threads t).exited = false)
  sleeping : ∀ t ∈ s.alive, t ≠ s.current → (t ∈ L .sleepingThreads ↔
    (s.threads t).exited = false ∧ (s.threads t).runnable = false ∧ 0 < (s.threads t).wakeupTime)
  exited : ∀ t ∈ s.alive, t ≠ s.current → (t ∈ L .exitedThreads ↔ (s.threads t).exited = true)
  blocked : ∀ t ∈ s.alive, t ≠ s.current → ((∀ h, t ∉ L h) ↔
    (s.threads t).exited = false ∧ (s.threads t).runnable = false ∧ (s.threads t).wakeupTime ≤ 0)

/-- The thread that has the processor, or gets it next. -/
def onCpu (s : Sched T) : T :=
  match s.pc with
  | .switching next => next
  | _ => s.current

/-- What the lists, flags and times have to do with each other. -/
structure Core (s : Sched T) (cpu : T) (L : QueueId → List T) : Prop where
  queues : Queues s.queues L
  nodup : s.alive.Nodup
  alive : ∀ h, ∀ t ∈ L h, t ∈ s.alive
  home : ∀ t ∈ s.alive, ∀ h, t ∈ L h ↔ (s.threads t).home (decide (t = cpu)) = some h
  stopped : ∀ t ∈ s.alive, (s.threads t).exited = true → (s.threads t).runnable = false
  cpu_mem : cpu ∈ s.alive
  cpu_queueable : (s.threads cpu).queueable = false

variable {s s' : Sched T} {cpu cur t u : T} {L L' : QueueId → List T}

/-! ### Field lemmas -/

variable {h : QueueId}

@[simp] theorem threads_insertTail : (s.insertTail h t).threads = s.threads := rfl

@[simp] theorem threads_insertHead : (s.insertHead h t).threads = s.threads := rfl

@[simp] theorem threads_remove : (s.remove h t).threads = s.threads := rfl

@[simp] theorem threads_update_self {f : Thread → Thread} :
    (s.update t f).threads t = f (s.threads t) := update_self _ _ _

theorem threads_update_of_ne {f : Thread → Thread} (hu : u ≠ t) :
    (s.update t f).threads u = s.threads u := update_of_ne hu _ _

/-! ### One thread changes its place -/

omit [DecidableEq T] in
theorem mem_update_insert {h h' : QueueId} {ys : List T} (hys : ∀ u, u ∈ ys ↔ u = t ∨ u ∈ L h) :
    u ∈ Function.update L h ys h' ↔ (u = t ∧ h' = h) ∨ u ∈ L h' := by
  by_cases hh : h' = h
  · subst hh
    simp [hys]
  · simp [hh]

theorem mem_update_erase {h h' : QueueId} {q : TailQ QueueId T} (hq : Queues q L)
    (ht : t ∈ L h) : u ∈ Function.update L h ((L h).erase t) h' ↔ u ≠ t ∧ u ∈ L h' := by
  by_cases hh : h' = h
  · subst hh
    rw [update_self, (hq.queue h').nodup.mem_erase_iff]
  rw [update_of_ne hh]
  refine ⟨fun hu => ⟨?_, hu⟩, fun hu => hu.2⟩
  rintro rfl
  exact hh (hq.unique h' h u hu ht)

theorem queues_remove (hq : Queues s.queues L) (ht : t ∈ L h) :
    Queues (s.remove h t).queues (Function.update L h ((L h).erase t)) := by
  obtain ⟨xs, ys, hxs, hL, herase⟩ := exists_erase_eq ht
  rw [herase]
  exact hq.remove hL

theorem Core.move (h : Core s cpu L) (ht : t ∈ s.alive) (halive : s'.alive = s.alive)
    (hthreads : ∀ u, u ≠ t → s'.threads u = s.threads u) (hq : Queues s'.queues L')
    (hothers : ∀ h u, u ≠ t → (u ∈ L' h ↔ u ∈ L h))
    (hhome : ∀ h, t ∈ L' h ↔ (s'.threads t).home (decide (t = cpu)) = some h)
    (hstop : (s'.threads t).exited = true → (s'.threads t).runnable = false)
    (hqueueable : t = cpu → (s'.threads t).queueable = false) : Core s' cpu L' := by
  refine ⟨hq, halive ▸ h.nodup, fun h' u hu => ?_, fun u hu h' => ?_, fun u hu => ?_,
    halive ▸ h.cpu_mem, ?_⟩
  · rw [halive]
    by_cases hut : u = t
    · exact hut ▸ ht
    · exact h.alive h' u ((hothers h' u hut).mp hu)
  · by_cases hut : u = t
    · exact hut ▸ hhome h'
    rw [hothers h' u hut, hthreads u hut]
    exact h.home u (halive ▸ hu) h'
  · by_cases hut : u = t
    · exact hut ▸ hstop
    rw [hthreads u hut]
    exact h.stopped u (halive ▸ hu)
  by_cases hct : t = cpu
  · exact hct ▸ hqueueable hct
  rw [hthreads cpu (Ne.symm hct)]
  exact h.cpu_queueable

theorem Core.of_eq (h : Core s cpu L) (hq : s'.queues = s.queues) (halive : s'.alive = s.alive)
    (hthreads : ∀ u, ∃ b, s'.threads u = { s.threads u with parked := b }) : Core s' cpu L := by
  refine ⟨hq ▸ h.queues, halive ▸ h.nodup, halive ▸ h.alive, fun u hu h' => ?_, fun u hu => ?_,
    halive ▸ h.cpu_mem, ?_⟩
  · obtain ⟨b, hb⟩ := hthreads u
    rw [hb]
    exact h.home u (halive ▸ hu) h'
  · obtain ⟨b, hb⟩ := hthreads u
    rw [hb]
    exact h.stopped u (halive ▸ hu)
  obtain ⟨b, hb⟩ := hthreads cpu
  rw [hb]
  exact h.cpu_queueable

theorem Core.not_mem_of_awake (h : Core s cpu L) (hex : (s.threads cpu).exited = false)
    (hawake : (s.threads cpu).runnable = true ∨ (s.threads cpu).wakeupTime ≤ 0) (h' : QueueId) :
    cpu ∉ L h' := by
  rw [h.home cpu h.cpu_mem]
  cases hrun : (s.threads cpu).runnable with
  | true => simp [Thread.home_runnable hex hrun]
  | false =>
    have hwake := hawake.resolve_left (by simp [hrun])
    simp [Thread.home_blocked hex hrun, hwake.not_gt]

/-- The test of `uk_thread_wake` finds the thread on the processor. -/
theorem Core.test_cpu (h : Core s cpu L) :
    (t ≠ cpu ∨ (s.threads t).queueable = true) ↔ t ≠ cpu := by
  rw [or_iff_left_iff_imp]
  rintro hq rfl
  simp [h.cpu_queueable] at hq

/-! ### Waking -/

section

/-- The lists after `uk_thread_wake` of a thread that is not runnable. -/
def wokenQueues (s : Sched T) (cur t : T) : TailQ QueueId T :=
  let q := if 0 < (s.threads t).wakeupTime then s.queues.remove .sleepingThreads t else s.queues
  if t ≠ cur ∨ (s.threads t).queueable = true then q.insertTail .threadList t else q

theorem ukThreadWake_eq (hrun : (s.threads t).runnable = false) :
    ukThreadWake s cur t = { s with
        queues := wokenQueues s cur t
        threads := Function.update s.threads t
          { s.threads t with queueable := false, wakeupTime := 0, runnable := true } } := by
  simp only [ukThreadWake, schedcoopThreadWoken, wokenQueues, hrun]
  by_cases hsleep : 0 < (s.threads t).wakeupTime <;> rcases eq_or_ne t cur with rfl | hcur <;>
    cases hq : (s.threads t).queueable <;>
    simp [update, remove, insertTail, *]

/-- What wake-ups of the threads `ts` do apart from the lists. -/
structure Woken (s : Sched T) (ts : List T) (s' : Sched T) : Prop where
  current : s'.current = s.current
  alive : s'.alive = s.alive
  pc : s'.pc = s.pc
  others : ∀ u, u ∉ ts → s'.threads u = s.threads u
  exited : ∀ u, (s'.threads u).exited = (s.threads u).exited
  runnable : ∀ u, u ∈ ts ∨ (s.threads u).runnable = true → (s'.threads u).runnable = true

theorem woken_ukThreadWake (s : Sched T) (cur t : T) : Woken s [t] (ukThreadWake s cur t) := by
  cases hrun : (s.threads t).runnable with
  | true =>
    rw [ukThreadWake, if_pos hrun]
    exact ⟨rfl, rfl, rfl, fun _ _ => rfl, fun _ => rfl,
      fun u hu => hu.elim (fun hmem => mem_singleton.mp hmem ▸ hrun) id⟩
  | false =>
    rw [ukThreadWake_eq hrun]
    refine ⟨rfl, rfl, rfl, fun u hu => ?_, fun u => ?_, fun u hu => ?_⟩
    · exact update_of_ne (mt mem_singleton.mpr hu) _ _
    · by_cases hut : u = t <;> simp [hut]
    by_cases hut : u = t
    · simp [hut]
    · simp [hut, hu.resolve_left (mt mem_singleton.mp hut)]

@[simp] theorem alive_ukThreadWake : (ukThreadWake s cur t).alive = s.alive :=
  (woken_ukThreadWake s cur t).alive

@[simp] theorem current_ukThreadWake : (ukThreadWake s cur t).current = s.current :=
  (woken_ukThreadWake s cur t).current

@[simp] theorem exited_ukThreadWake :
    ((ukThreadWake s cur t).threads u).exited = (s.threads u).exited :=
  (woken_ukThreadWake s cur t).exited u

theorem Core.wokenQueues (h : Core s cpu L) (ht : t ∈ s.alive)
    (hex : (s.threads t).exited = false) (hrun : (s.threads t).runnable = false)
    (hcur : (t ≠ cur ∨ (s.threads t).queueable = true) ↔ t ≠ cpu) :
    ∃ L', Queues (s.wokenQueues cur t) L' ∧
      (∀ h u, u ∈ L' h ↔ u ≠ t ∧ u ∈ L h ∨ u = t ∧ h = .threadList ∧ t ≠ cpu) ∧
      L' .sleepingThreads = (L .sleepingThreads).erase t ∧
      L' .exitedThreads = L .exitedThreads := by
  have hhome := h.home t ht
  -- first `t` leaves the list it sleeps in
  obtain ⟨L₁, hq₁, hmem₁, hsl₁, hex₁⟩ : ∃ L₁,
      Queues (if 0 < (s.threads t).wakeupTime then s.queues.remove .sleepingThreads t
        else s.queues) L₁ ∧ (∀ h u, u ∈ L₁ h ↔ u ≠ t ∧ u ∈ L h) ∧
      L₁ .sleepingThreads = (L .sleepingThreads).erase t ∧
      L₁ .exitedThreads = L .exitedThreads := by
    by_cases hsleep : 0 < (s.threads t).wakeupTime
    · have hmem : t ∈ L .sleepingThreads := (hhome _).mpr (by simp [Thread.home, *])
      rw [if_pos hsleep]
      exact ⟨_, queues_remove h.queues hmem, fun _ _ => mem_update_erase h.queues hmem,
        update_self _ _ _, update_of_ne (by decide) _ _⟩
    have hnone : ∀ h, t ∉ L h := fun h' => by simp [Thread.home, *]
    rw [if_neg hsleep]
    refine ⟨L, h.queues, fun h' u => ⟨fun hu => ⟨?_, hu⟩, fun hu => hu.2⟩,
      (erase_of_not_mem (hnone _)).symm, rfl⟩
    rintro rfl
    exact hnone h' hu
  unfold Sched.wokenQueues
  by_cases hcpu : t = cpu
  · rw [if_neg (by rw [hcur]; simpa using hcpu)]
    exact ⟨L₁, hq₁, fun h' u => by simp [hmem₁, hcpu], hsl₁, hex₁⟩
  rw [if_pos (hcur.mpr hcpu)]
  refine ⟨_, hq₁.insertTail .threadList fun h' hu => ((hmem₁ h' t).mp hu).1 rfl,
    fun h' u => ?_, ?_, ?_⟩
  · rw [mem_update_insert (t := t) (by simp [or_comm]), hmem₁, or_comm]
    simp [hcpu]
  · rw [update_of_ne (by decide), hsl₁]
  · rw [update_of_ne (by decide), hex₁]

/-- **Waking a thread.** `hcur` says that the source's test whether to insert the thread
finds out whether it is the one on the processor. -/
theorem Core.wake (h : Core s cpu L) (cur : T) (ht : t ∈ s.alive)
    (hex : (s.threads t).exited = false) (hcur : (s.threads t).runnable = false →
      ((t ≠ cur ∨ (s.threads t).queueable = true) ↔ t ≠ cpu)) :
    ∃ L', Core (ukThreadWake s cur t) cpu L' ∧ L' .sleepingThreads = (L .sleepingThreads).erase t ∧
      L' .exitedThreads = L .exitedThreads := by
  cases hrun : (s.threads t).runnable with
  | true =>
    rw [ukThreadWake, if_pos hrun]
    refine ⟨L, h, (erase_of_not_mem fun hmem => ?_).symm, rfl⟩
    have hsleep := Thread.home_eq_sleeping.mp ((h.home t ht _).mp hmem)
    simp [hrun] at hsleep
  | false =>
    obtain ⟨L', hq, hmem, hsl, hexl⟩ := h.wokenQueues ht hex hrun (hcur hrun)
    refine ⟨L', ?_, hsl, hexl⟩
    rw [ukThreadWake_eq hrun]
    refine h.move ht rfl (fun u hu => update_of_ne hu _ _) hq
      (fun h' u hu => by simp [hmem, hu]) (fun h' => ?_) ?_ fun _ => by simp
    · rcases eq_or_ne t cpu with rfl | hcpu
      · simp [hmem, Thread.home, hex]
      · simp [hmem, Thread.home, hex, hcpu, @eq_comm _ QueueId.threadList]
    · simp [hex]

end

/-! ### Threads that come, block and go -/

theorem Core.create (h : Core s cpu L) (ht : t ∉ s.alive) (detached : Bool) :
    ∃ L', Core (ukSchedThreadCreate s t detached) cpu L' := by
  have hnone : ∀ h, t ∉ L h := fun h' hmem => ht (h.alive h' t hmem)
  have hcpu : t ≠ cpu := fun heq => ht (heq ▸ h.cpu_mem)
  have hmem : ∀ h' u, u ∈ Function.update L .threadList (L .threadList ++ [t]) h' ↔
      (u = t ∧ h' = .threadList) ∨ u ∈ L h' := fun h' u => mem_update_insert (by simp [or_comm])
  have hother : ∀ u, u ≠ t → (ukSchedThreadCreate s t detached).threads u = s.threads u :=
    fun u hu => (update_of_ne hu _ _).trans (update_of_ne hu _ _)
  have hself : (ukSchedThreadCreate s t detached).threads t =
      { ukThreadInit with runnable := true, detached := detached } := by
    simp [ukSchedThreadCreate, schedcoopThreadAdd]
  refine ⟨_, h.queues.insertTail .threadList hnone, nodup_cons.mpr ⟨ht, h.nodup⟩,
    fun h' u hu => ?_, fun u hu h' => ?_, fun u hu => ?_, mem_cons_of_mem _ h.cpu_mem, ?_⟩
  · rcases (hmem h' u).mp hu with ⟨rfl, -⟩ | hu
    · exact mem_cons_self
    · exact mem_cons_of_mem _ (h.alive h' u hu)
  · rw [hmem]
    rcases mem_cons.mp hu with rfl | hu
    · simp [hself, hnone, hcpu, Thread.home, ukThreadInit, eq_comm]
    have hut : u ≠ t := fun heq => ht (heq ▸ hu)
    rw [hother u hut, ← h.home u hu]
    simp [hut]
  · rcases mem_cons.mp hu with rfl | hu
    · simp [hself, ukThreadInit]
    rw [hother u fun heq => ht (heq ▸ hu)]
    exact h.stopped u hu
  rw [hother cpu hcpu.symm]
  exact h.cpu_queueable

theorem ukThreadBlockUntil_eq (s : Sched T) (t : T) (until_ : Int) :
    ukThreadBlockUntil s t until_ = { s with
        queues := if 0 < until_ then
            (if t ≠ s.current then s.queues.remove .threadList t
              else s.queues).insertTail .sleepingThreads t
          else if t ≠ s.current then s.queues.remove .threadList t else s.queues
        threads := Function.update s.threads t
          { s.threads t with wakeupTime := until_, runnable := false } } := by
  simp only [ukThreadBlockUntil, schedcoopThreadBlocked]
  by_cases hcur : t = s.current <;> by_cases huntil : 0 < until_ <;>
    simp [update, remove, insertTail, hcur, huntil]

theorem Core.block (h : Core s s.current L) (ht : t ∈ s.alive) (hex : (s.threads t).exited = false)
    (hrun : (s.threads t).runnable = true ∨ t = s.current ∧ (s.threads t).wakeupTime ≤ 0)
    (until_ : Int) : ∃ L', Core (ukThreadBlockUntil s t until_) s.current L' := by
  have hhome := h.home t ht
  -- the thread is taken out of `thread_list`, unless it runs and is in no list
  obtain ⟨L₁, hq₁, hmem₁⟩ : ∃ L₁,
      Queues (if t ≠ s.current then s.queues.remove .threadList t else s.queues) L₁ ∧
      (∀ h u, u ∈ L₁ h ↔ u ≠ t ∧ u ∈ L h) := by
    by_cases hcur : t = s.current
    · have hnone : ∀ h, t ∉ L h :=
        hcur ▸ h.not_mem_of_awake (hcur ▸ hex) (hcur ▸ hrun.imp_right And.right)
      rw [if_neg (not_not.mpr hcur)]
      refine ⟨L, h.queues, fun h' u => ⟨fun hu => ⟨?_, hu⟩, fun hu => hu.2⟩⟩
      rintro rfl
      exact hnone h' hu
    have hmem : t ∈ L .threadList := by
      rw [hhome, Thread.home_runnable hex (hrun.resolve_right fun hc => hcur hc.1)]
      simp [hcur]
    rw [if_pos hcur]
    exact ⟨_, queues_remove h.queues hmem, fun _ _ => mem_update_erase h.queues hmem⟩
  have hnone₁ : ∀ h, t ∉ L₁ h := fun h' hu => ((hmem₁ h' t).mp hu).1 rfl
  rw [ukThreadBlockUntil_eq]
  by_cases huntil : 0 < until_
  · rw [if_pos huntil]
    refine ⟨_, h.move ht rfl (fun u hu => update_of_ne hu _ _)
      (hq₁.insertTail .sleepingThreads hnone₁) (fun h' u hu => ?_) (fun h' => ?_)
      (by simp) fun hcpu => ?_⟩
    · rw [mem_update_insert (t := t) (by simp [or_comm]), hmem₁]
      simp [hu]
    · rw [mem_update_insert (t := t) (by simp [or_comm])]
      simp [hnone₁, Thread.home, hex, huntil, eq_comm]
    · simpa [hcpu] using h.cpu_queueable
  rw [if_neg huntil]
  refine ⟨L₁, h.move ht rfl (fun u hu => update_of_ne hu _ _) hq₁
    (fun h' u hu => by simp [hmem₁, hu]) (fun h' => ?_) (by simp) fun hcpu => ?_⟩
  · simp [hnone₁, Thread.home, hex, huntil]
  · simpa [hcpu] using h.cpu_queueable

theorem ukThreadWake_update (hut : u ≠ t) (f : Thread → Thread) :
    ukThreadWake (s.update u f) cur t = (ukThreadWake s cur t).update u f := by
  have hself : (s.update u f).threads t = s.threads t := threads_update_of_ne hut.symm
  cases hrun : (s.threads t).runnable with
  | true => rw [ukThreadWake, ukThreadWake, hself, if_pos hrun, if_pos hrun]
  | false =>
    rw [ukThreadWake_eq (hself ▸ hrun), ukThreadWake_eq hrun]
    simp [wokenQueues, update, hut, hut.symm, Function.update_comm hut]

/-- The wake-ups of `uk_waitq_wake_up`. -/
def wakeAll (s : Sched T) (ts : List T) : Sched T :=
  ts.foldl (fun s w => ukThreadWake s s.current w) s

variable {ts : List T}

theorem wakeAll_update (hts : ∀ w ∈ ts, w ≠ u) (f : Thread → Thread) :
    (s.update u f).wakeAll ts = (s.wakeAll ts).update u f := by
  induction ts generalizing s with
  | nil => rfl
  | cons w ts ih =>
    obtain ⟨hw, hts⟩ := forall_mem_cons.mp hts
    show (ukThreadWake (s.update u f) s.current w).wakeAll ts = _
    rw [ukThreadWake_update (Ne.symm hw), ih hts]
    rfl

theorem woken_wakeAll (s : Sched T) (ts : List T) : Woken s ts (s.wakeAll ts) := by
  induction ts generalizing s with
  | nil =>
    exact ⟨rfl, rfl, rfl, fun _ _ => rfl, fun _ => rfl, fun u hu => hu.resolve_left (by simp)⟩
  | cons w ts ih =>
    have hw := woken_ukThreadWake s s.current w
    have h := ih (ukThreadWake s s.current w)
    refine ⟨h.current.trans hw.current, h.alive.trans hw.alive, h.pc.trans hw.pc, fun u hu => ?_,
      fun u => (h.exited u).trans (hw.exited u), fun u hu => h.runnable u ?_⟩
    · rw [mem_cons, not_or, ← mem_singleton] at hu
      exact (h.others u hu.2).trans (hw.others u hu.1)
    rw [mem_cons, or_assoc, or_left_comm, ← mem_singleton] at hu
    exact hu.imp_right (hw.runnable u)

theorem Core.wakeAll (h : Core s s.current L)
    (hts : ∀ w ∈ ts, w ∈ s.alive ∧ (s.threads w).exited = false) :
    ∃ L', Core (s.wakeAll ts) s.current L' := by
  induction ts generalizing s L with
  | nil => exact ⟨L, h⟩
  | cons w ts ih =>
    obtain ⟨⟨hw, hex⟩, hts⟩ := forall_mem_cons.mp hts
    obtain ⟨L₁, hcore, -, -⟩ := h.wake s.current hw hex fun _ => h.test_cpu
    obtain ⟨L', hcore'⟩ := ih (s := ukThreadWake s s.current w) (L := L₁)
      (by simpa using hcore) (by simpa using hts)
    rw [current_ukThreadWake] at hcore'
    exact ⟨L', hcore'⟩

theorem schedcoopThreadRemove_current (hts : ∀ w ∈ ts, w ≠ s.current) :
    schedcoopThreadRemove s s.current ts =
      { ((s.wakeAll (if (s.threads s.current).detached then [] else ts)).update s.current
          fun th => { th with runnable := false, exited := true }).insertHead .exitedThreads
          s.current with pc := .exiting } := by
  simp only [schedcoopThreadRemove, ukThreadExit, ne_eq, not_true_eq_false, if_false, if_true]
  cases hdet : (s.threads s.current).detached with
  | true => simp [wakeAll, update, hdet]
  | false =>
    have hupd : (s.update s.current fun th => { th with runnable := false }).update s.current
        (fun th => { th with exited := true }) =
        s.update s.current fun th => { th with runnable := false, exited := true } := by
      simp [update]
    rw [hupd]
    simp only [threads_update_self, hdet]
    exact congrArg (fun s' : Sched T =>
      { s'.insertHead .exitedThreads s.current with pc := .exiting }) (wakeAll_update hts _)

theorem Core.exit (h : Core s s.current L) (hex : (s.threads s.current).exited = false)
    (hawake : (s.threads s.current).runnable = true ∨ (s.threads s.current).wakeupTime ≤ 0)
    (hts : ∀ w ∈ ts, w ∈ s.alive ∧ (s.threads w).exited = false ∧ w ≠ s.current) :
    (∃ L', Core (schedcoopThreadRemove s s.current ts) s.current L') ∧
      (schedcoopThreadRemove s s.current ts).pc = .exiting ∧
      (schedcoopThreadRemove s s.current ts).current = s.current := by
  have hts' : ∀ w ∈ (if (s.threads s.current).detached then [] else ts),
      w ∈ s.alive ∧ (s.threads w).exited = false ∧ w ≠ s.current := by
    split
    · exact nofun
    · exact hts
  rw [schedcoopThreadRemove_current fun w hw => (hts w hw).2.2]
  obtain ⟨L₁, hcore⟩ := h.wakeAll fun w hw => ⟨(hts' w hw).1, (hts' w hw).2.1⟩
  have hwoken := woken_wakeAll s (if (s.threads s.current).detached then [] else ts)
  have hthreads := hwoken.others s.current fun hmem => (hts' _ hmem).2.2 rfl
  generalize s.wakeAll (if (s.threads s.current).detached then [] else ts) = s₁ at *
  have hnone := hcore.not_mem_of_awake (hthreads ▸ hex) (hthreads ▸ hawake)
  refine ⟨⟨_, hcore.move (t := s.current) hcore.cpu_mem rfl
    (fun u hu => update_of_ne hu _ _)
    (hcore.queues.insertHead .exitedThreads hnone) (fun h' u hu => ?_) (fun h' => ?_)
    (fun _ => by simp [update]) fun _ => ?_⟩, rfl, hwoken.current⟩
  · rw [mem_update_insert (t := s.current) (by simp)]
    simp [hu]
  · rw [mem_update_insert (t := s.current) (by simp), Thread.home_exited (by simp [update])]
    simp [hnone, eq_comm]
  · simpa [update] using hcore.cpu_queueable

/-! ### Scheduling -/

/-- The loop over the sleeping threads, the ones in `rest` being still to be looked at. -/
theorem Core.wakeExpired {fuel : Nat} (kept : List T) {rest : List T}
    (h : Core s s.current L) (hL : L .sleepingThreads = kept ++ rest) (hfuel : rest.length ≤ fuel) :
    ∃ s' L', wakeExpired fuel rest.head? s = .ok s' ∧ Core s' s'.current L' ∧
      s'.current = s.current := by
  induction rest generalizing fuel kept s L with
  | nil =>
    refine ⟨s, L, ?_, h, rfl⟩
    unfold Ukschedcoop.wakeExpired
    rfl
  | cons t rest ih =>
    obtain ⟨fuel, rfl⟩ : ∃ n, fuel = n + 1 := ⟨fuel - 1, by simp at hfuel; omega⟩
    have hfuel' : rest.length ≤ fuel := by simpa using hfuel
    have hmem : t ∈ L .sleepingThreads := by simp [hL]
    have ht := h.alive _ t hmem
    have hqueue := h.queues.queue .sleepingThreads
    rw [hL] at hqueue
    have hnext : s.next t = rest.head? := hqueue.next
    simp only [head?_cons, Ukschedcoop.wakeExpired, hnext]
    split
    · -- the thread is woken and leaves the list
      have hex := (Thread.home_eq_sleeping.mp ((h.home t ht _).mp hmem)).1
      obtain ⟨L', hcore, hsl, -⟩ := h.wake s.current ht hex fun _ => h.test_cpu
      have hnotin : t ∉ kept := fun hk =>
        (nodup_append.mp hqueue.nodup).2.2 t hk t mem_cons_self rfl
      rw [hL, erase_append_right _ hnotin, erase_cons_head] at hsl
      obtain ⟨s', L'', hrun, hcore', hcur⟩ :=
        ih (s := ukThreadWake s s.current t) kept (by simpa using hcore) hsl hfuel'
      exact ⟨s', L'', hrun, hcore', by simpa using hcur⟩
    · exact ih (kept ++ [t]) h (by simpa using hL) hfuel'

theorem Core.of_threadList (h : Core s cpu L) (hmem : t ∈ L .threadList) :
    t ≠ cpu ∧ (s.threads t).runnable = true ∧ (s.threads t).exited = false := by
  have hhome := (h.home t (h.alive _ t hmem) _).mp hmem
  obtain ⟨hcpu, hrun, hex⟩ := Thread.home_eq_threadList.mp hhome
  exact ⟨of_decide_eq_false hcpu, hrun, hex⟩

/-- What `schedcoop_schedule` does with the next thread and the previous one, which goes to
the end of the list or is marked as queueable. -/
theorem Core.switchTo_shape {next : T} (h : Core s s.current L) (hmem : next ∈ L .threadList) :
    ∃ q b L', Queues q L' ∧ (∀ h' u, u ∈ L' h' ↔ (u = s.current ∧ h' = .threadList ∧
        (s.threads s.current).runnable = true) ∨ u ≠ next ∧ u ∈ L h') ∧
      ((s.threads s.current).runnable = true ∨ b = true) ∧
      schedcoopSwitchTo s next = .ok { s with
          queues := q
          threads := Function.update (Function.update s.threads s.current
              { s.threads s.current with queueable := b }) next
            { s.threads next with queueable := false }
          pc := .switching next } := by
  obtain ⟨hne, hrun, hex⟩ := h.of_threadList hmem
  have hq₁ := queues_remove (t := next) h.queues hmem
  have hmem₁ : ∀ h' u, u ∈ Function.update L .threadList ((L .threadList).erase next) h' ↔
      u ≠ next ∧ u ∈ L h' := fun _ _ => mem_update_erase h.queues hmem
  generalize Function.update L .threadList ((L .threadList).erase next) = L₁ at hq₁ hmem₁
  have hs : schedcoopSwitchTo s next = .ok { (if (s.threads s.current).runnable then
            (s.remove .threadList next).insertTail .threadList s.current
          else (s.remove .threadList next).update s.current fun th =>
            { th with queueable := true }).update next fun th => { th with queueable := false }
        with pc := .switching next } := by
    simp only [schedcoopSwitchTo, ukAssert_pos hne, ukAssert_pos hrun, ukAssert_pos hex,
      Outcome.ok_bind]
    rfl
  cases hprev : (s.threads s.current).runnable with
  | true =>
    refine ⟨_, (s.threads s.current).queueable, _,
      hq₁.insertTail .threadList (x := s.current) ?_, fun h' u => ?_, .inl rfl, ?_⟩
    · intro h' hcur
      have hcur := ((hmem₁ h' _).mp hcur).2
      have hcex : (s.threads s.current).exited = false := by
        by_contra hcex
        simp [h.stopped _ h.cpu_mem (Bool.eq_true_of_not_eq_false hcex)] at hprev
      rw [h.home _ h.cpu_mem, Thread.home_runnable hcex hprev] at hcur
      simp at hcur
    · rw [mem_update_insert (t := s.current) (by simp [or_comm]), hmem₁]
      simp
    rw [hs, hprev]
    simp [update, insertTail, remove]
  | false =>
    refine ⟨_, true, L₁, hq₁, fun h' u => ?_, .inr rfl, ?_⟩
    · rw [hmem₁]
      simp
    rw [hs, hprev]
    simp [update, remove, hne]

theorem Core.switchTo {next : T} (h : Core s s.current L) (hmem : next ∈ L .threadList) :
    ∃ s' L', schedcoopSwitchTo s next = .ok s' ∧ Core s' next L' ∧ s'.pc = .switching next ∧
      s'.current ∈ s'.alive ∧ next ≠ s'.current ∧ (s'.threads next).runnable = true ∧
      (s'.threads next).exited = false ∧
      ((s'.threads s'.current).runnable = true ∨ (s'.threads s'.current).queueable = true) := by
  obtain ⟨hne, hrun, hex⟩ := h.of_threadList hmem
  have hnext := h.alive _ next hmem
  obtain ⟨q, b, L', hq, hmem', hflag, heq⟩ := h.switchTo_shape hmem
  -- of the two threads only `QUEUEABLE_FLAG` has changed
  have hfields : ∀ u, ∃ b', Function.update (Function.update s.threads s.current
        { s.threads s.current with queueable := b }) next
      { s.threads next with queueable := false } u = { s.threads u with queueable := b' } := by
    intro u
    rcases eq_or_ne u next with rfl | hun
    · exact ⟨_, update_self _ _ _⟩
    rw [update_of_ne hun]
    rcases eq_or_ne u s.current with rfl | huc
    · exact ⟨_, update_self _ _ _⟩
    · exact ⟨_, update_of_ne huc _ _⟩
  refine ⟨_, L', heq, ⟨hq, h.nodup, fun h' u hu => ?_, fun u hu h' => ?_, fun u hu => ?_, hnext,
    by simp⟩, rfl, h.cpu_mem, hne, by simpa using hrun, by simpa using hex, ?_⟩
  · rcases (hmem' h' u).mp hu with ⟨rfl, -⟩ | ⟨-, hu⟩
    · exact h.cpu_mem
    · exact h.alive h' u hu
  · obtain ⟨b', hb⟩ := hfields u
    have hstop := h.stopped u hu
    have hhome := h.home u hu h'
    simp only [hb, hmem']
    show _ ↔ (s.threads u).home _ = some h'
    rcases eq_or_ne u next with rfl | hun
    · simp [hne, Thread.home_runnable hex hrun]
    rcases eq_or_ne u s.current with rfl | huc
    · simp only [hun, decide_false, decide_true, Thread.home_off_cpu hstop] at hhome ⊢
      simp [hhome, hun]
    simp only [hun, huc, decide_false] at hhome ⊢
    simp [hhome, hun]
  · obtain ⟨b', hb⟩ := hfields u
    simp only [hb]
    exact h.stopped u hu
  · simpa [update_of_ne hne.symm] using hflag

/-! ### The invariant of runs -/

/-- What is known at each place of the running thread. -/
def PcOk (s : Sched T) (L : QueueId → List T) : Prop :=
  match s.pc with
  | .running => (s.threads s.current).exited = false
  | .exiting => True
  | .halted => True
  | .switching next => s.current ∈ s.alive ∧ next ≠ s.current ∧
      (s.threads next).runnable = true ∧ (s.threads next).exited = false ∧
      -- an interrupt that wakes the thread about to be left has to insert it
      ((s.threads s.current).runnable = true ∨ (s.threads s.current).queueable = true)
  | .cleaning thread => (s.threads s.current).exited = false ∧
      ∃ seen rest, L .exitedThreads = seen ++ rest ∧ thread = rest.head?

/-- **The invariant of the scheduler.** -/
def SchedInv (s : Sched T) : Prop := ∃ L, Core s s.onCpu L ∧ PcOk s L

theorem SchedInv.wake (h : SchedInv s) (ht : t ∈ s.alive) (hex : (s.threads t).exited = false)
    (ownStack : Bool) : SchedInv (ukThreadWake s (s.ukThreadCurrent ownStack) t) := by
  obtain ⟨L, hcore, hpc⟩ := h
  have hwoken := woken_ukThreadWake s (s.ukThreadCurrent ownStack) t
  have hcpu : (ukThreadWake s (s.ukThreadCurrent ownStack) t).onCpu = s.onCpu := by
    simp [onCpu, hwoken.pc]
  have hcur : (s.threads t).runnable = false →
      ((t ≠ s.ukThreadCurrent ownStack ∨ (s.threads t).queueable = true) ↔ t ≠ s.onCpu) := by
    intro hrun
    have htest := hcore.test_cpu (t := t)
    unfold ukThreadCurrent onCpu PcOk at *
    cases hspc : s.pc with
    | switching next =>
      -- the next thread is runnable, and the previous one is queueable
      simp only [hspc] at hpc ⊢
      obtain ⟨-, hne, hnrun, -, hflag⟩ := hpc
      have htn : t ≠ next := by
        rintro rfl
        simp [hrun] at hnrun
      refine iff_of_true ?_ htn
      cases ownStack with
      | true => exact .inl htn
      | false =>
        rcases eq_or_ne t s.current with rfl | htc
        · exact .inr (hflag.resolve_left (by simp [hrun]))
        · exact .inl htc
    | _ => simpa only [hspc] using htest
  obtain ⟨L', hcore', -, hexl⟩ := hcore.wake _ ht hex hcur
  refine ⟨L', hcpu ▸ hcore', ?_⟩
  unfold PcOk at *
  rw [hwoken.pc]
  cases hspc : s.pc with
  | running => simpa [hspc] using hpc
  | exiting | halted => trivial
  | switching next =>
    simp only [hspc, alive_ukThreadWake, current_ukThreadWake, exited_ukThreadWake] at hpc ⊢
    obtain ⟨hmem, hne, hnrun, hnex, hflag⟩ := hpc
    refine ⟨hmem, hne, hwoken.runnable next (.inr hnrun), hnex, ?_⟩
    rcases eq_or_ne s.current t with heq | hct
    · exact .inl (hwoken.runnable _ (.inl (mem_singleton.mpr heq)))
    · rwa [hwoken.others _ (mt mem_singleton.mp hct)]
  | cleaning thread =>
    simpa [hspc, hexl] using hpc

theorem SchedInv.schedule (h : SchedInv s)
    (hpc : s.pc = .running ∨ s.pc = .exiting ∨ s.pc = .halted) :
    ∃ s', schedcoopSchedule s = .ok s' ∧ SchedInv s' := by
  obtain ⟨L, hcore, -⟩ := h
  have hcpu : s.onCpu = s.current := by
    rcases hpc with hpc | hpc | hpc <;> simp [onCpu, hpc]
  rw [hcpu] at hcore
  -- there are at most as many sleeping threads as threads
  have hfuel : (L .sleepingThreads).length ≤ s.alive.length :=
    (List.Nodup.subperm (hcore.queues.queue _).nodup (hcore.alive _)).length_le
  have hfirst : s.first .sleepingThreads = (L .sleepingThreads).head? :=
    (hcore.queues.queue _).first
  obtain ⟨s₁, L₁, hwake, hcore₁, -⟩ := hcore.wakeExpired [] rfl hfuel
  rw [schedcoopSchedule, hfirst, hwake, Outcome.ok_bind]
  have hnext : s₁.first .threadList = (L₁ .threadList).head? := (hcore₁.queues.queue _).first
  rw [hnext]
  cases hL : L₁ .threadList with
  | cons next rest =>
    obtain ⟨s', L', hs, hcore', hpc', hswitch⟩ :=
      hcore₁.switchTo (show next ∈ L₁ .threadList by simp [hL])
    refine ⟨s', hs, L', ?_, ?_⟩
    · simpa [onCpu, hpc'] using hcore'
    · simpa [PcOk, hpc'] using hswitch
  | nil =>
    refine ⟨_, rfl, L₁, ?_⟩
    cases hrun : (s₁.threads s₁.current).runnable with
    | true =>
      refine ⟨hcore₁.of_eq rfl rfl fun u => ⟨_, rfl⟩, ?_, [], L₁ .exitedThreads, rfl,
        (hcore₁.queues.queue _).first⟩
      by_contra hex
      simp [hcore₁.stopped _ hcore₁.cpu_mem (Bool.eq_true_of_not_eq_false hex)] at hrun
    | false => exact ⟨hcore₁.of_eq rfl rfl fun u => ⟨_, rfl⟩, trivial⟩

theorem SchedInv.switch {next : T} (h : SchedInv s) (hpc : s.pc = .switching next) :
    SchedInv (ukSchedThreadSwitch s next) := by
  obtain ⟨L, hcore, hok⟩ := h
  simp only [onCpu, PcOk, hpc] at hcore hok
  obtain ⟨-, hne, -, hex, -⟩ := hok
  have hnext : (ukSchedThreadSwitch s next).threads next = s.threads next :=
    update_of_ne hne _ _
  have hcore' : Core (ukSchedThreadSwitch s next) next L := by
    refine hcore.of_eq rfl rfl fun u => ?_
    rcases eq_or_ne u s.current with rfl | hu
    · exact ⟨true, update_self _ _ _⟩
    · exact ⟨_, update_of_ne hu _ _⟩
  have hcur : (ukSchedThreadSwitch s next).current = next := rfl
  have hpark : (ukSchedThreadSwitch s next).pc =
      if (s.threads next).parked then .cleaning (s.first .exitedThreads) else .running := by
    rw [← hnext]
    rfl
  refine ⟨L, ?_, ?_⟩
  · have hcpu : (ukSchedThreadSwitch s next).onCpu = next := by
      rw [onCpu, hpark]
      cases (s.threads next).parked <;> rfl
    rwa [hcpu]
  rw [PcOk, hpark, hcur, hnext]
  split_ifs
  · exact ⟨hex, [], L .exitedThreads, rfl, (hcore.queues.queue _).first⟩
  · exact hex

theorem Core.destroy {seen rest : List T} (h : Core s cpu L)
    (hL : L .exitedThreads = seen ++ t :: rest) (hcpu : t ≠ cpu) :
    ukSchedThreadDestroy s t = .ok { s.remove .exitedThreads t with alive := s.alive.erase t } ∧
      Core { s.remove .exitedThreads t with alive := s.alive.erase t } cpu
        (Function.update L .exitedThreads (seen ++ rest)) := by
  have hmem : t ∈ L .exitedThreads := by simp [hL]
  have hex : (s.threads t).exited = true :=
    Thread.home_eq_exited.mp ((h.home t (h.alive _ t hmem) _).mp hmem)
  have hnotin : t ∉ seen := fun hk => (nodup_append.mp
    (hL ▸ (h.queues.queue .exitedThreads).nodup)).2.2 t hk t mem_cons_self rfl
  have herase : (L .exitedThreads).erase t = seen ++ rest := by
    rw [hL, erase_append_right _ hnotin, erase_cons_head]
  have hmem' : ∀ h' u, u ∈ Function.update L .exitedThreads (seen ++ rest) h' ↔
      u ≠ t ∧ u ∈ L h' := fun h' u => herase ▸ mem_update_erase h.queues hmem
  have halive : ∀ u, u ∈ s.alive.erase t ↔ u ≠ t ∧ u ∈ s.alive := fun u =>
    h.nodup.mem_erase_iff
  refine ⟨by rw [ukSchedThreadDestroy, ukAssert_pos hex]; rfl, h.queues.remove hL,
    h.nodup.erase t, fun h' u hu => ?_, fun u hu h' => ?_, fun u hu => ?_, ?_, h.cpu_queueable⟩
  · obtain ⟨hut, hu⟩ := (hmem' h' u).mp hu
    exact (halive u).mpr ⟨hut, h.alive h' u hu⟩
  · obtain ⟨hut, hu⟩ := (halive u).mp hu
    exact (hmem' h' u).trans ((and_iff_right hut).trans (h.home u hu h'))
  · exact h.stopped u ((halive u).mp hu).2
  · exact (halive _).mpr ⟨hcpu.symm, h.cpu_mem⟩

theorem SchedInv.clean (h : SchedInv s) (hpc : s.pc = .cleaning (some t)) :
    ∃ s', cleanExited s t = .ok s' ∧ SchedInv s' := by
  obtain ⟨L, hcore, hok⟩ := h
  simp only [onCpu, PcOk, hpc] at hcore hok
  obtain ⟨hcex, seen, rest, hL, hhead⟩ := hok
  obtain ⟨rest, rfl⟩ : ∃ ys, rest = t :: ys := head?_eq_some_iff.mp hhead.symm
  have hqueue := hcore.queues.queue .exitedThreads
  rw [hL] at hqueue
  have hnext : s.next t = rest.head? := hqueue.next
  unfold cleanExited
  by_cases hdestroy : (s.threads t).detached = true ∧ t ≠ s.current
  · obtain ⟨heq, hcore'⟩ := hcore.destroy hL hdestroy.2
    rw [if_pos hdestroy, heq]
    exact ⟨_, rfl, _, hcore'.of_eq rfl rfl fun u => ⟨_, rfl⟩, hcex, seen, rest,
      update_self _ _ _, hnext⟩
  rw [if_neg hdestroy]
  exact ⟨_, rfl, L, hcore.of_eq rfl rfl fun u => ⟨_, rfl⟩, hcex, seen ++ [t], rest,
    by simpa using hL, hnext⟩

theorem schedInv_init (idle : T) (next : T → Option T) (prev : T → Slot QueueId T)
    (threads : T → Thread) (now : Int) :
    SchedInv (schedcoopInit idle (TailQ.init next prev) threads now) := by
  refine ⟨fun _ => [], ⟨Queues.init next prev, nodup_singleton idle,
    fun _ _ hu => (not_mem_nil hu).elim, fun t ht h => ?_, fun t ht => ?_,
    mem_singleton_self idle, ?_⟩, ?_⟩
  · cases mem_singleton.mp ht
    simp [schedcoopInit, Thread.home, ukThreadInit]
  · cases mem_singleton.mp ht
    simp [schedcoopInit, ukThreadInit]
  · simp [schedcoopInit, onCpu, ukThreadInit]
  · simp [schedcoopInit, PcOk, ukThreadInit]

/-- **One event.** An allowed event with which no sleeping thread exits returns, and keeps
the invariant. -/
theorem SchedInv.step {e : SchedEvent T} (h : SchedInv s) (hok : s.Allowed e)
    (hawake : s.ExitsAwake e) : ∃ s', s.step e = .ok ((), s') ∧ SchedInv s' := by
  cases e with
  | create t detached =>
    obtain ⟨hpc, ht⟩ := hok
    obtain ⟨L, hcore, hex⟩ := h
    simp only [onCpu, PcOk, hpc] at hcore hex
    have hne : s.current ≠ t := fun heq => ht (heq ▸ hcore.cpu_mem)
    obtain ⟨L', hcore'⟩ := hcore.create ht detached
    have hpc' : (ukSchedThreadCreate s t detached).pc = .running := hpc
    refine ⟨_, rfl, L', ?_, ?_⟩
    · rw [onCpu, hpc']
      exact hcore'
    rw [PcOk, hpc', ← hex]
    exact congrArg Thread.exited
      ((update_of_ne hne _ _).trans (update_of_ne hne _ _))
  | block t until_ =>
    obtain ⟨hpc, ht, htex, hrun⟩ := hok
    obtain ⟨L, hcore, hex⟩ := h
    simp only [onCpu, PcOk, hpc] at hcore hex
    obtain ⟨L', hcore'⟩ := hcore.block ht htex hrun until_
    refine ⟨_, rfl, L', ?_, ?_⟩
    · rw [ukThreadBlockUntil_eq] at hcore' ⊢
      simpa only [onCpu, hpc] using hcore'
    rw [ukThreadBlockUntil_eq]
    simp only [PcOk, hpc]
    rcases eq_or_ne s.current t with rfl | hne
    · rwa [update_self]
    · rwa [update_of_ne hne]
  | wake t ownStack => exact ⟨_, rfl, h.wake hok.1 hok.2 ownStack⟩
  | exit waiters =>
    obtain ⟨hpc, hw⟩ := hok
    obtain ⟨L, hcore, hex⟩ := h
    simp only [onCpu, PcOk, hpc] at hcore hex
    obtain ⟨⟨L', hcore'⟩, hpc', hcur⟩ := hcore.exit hex hawake hw
    refine ⟨_, rfl, L', ?_, ?_⟩
    · rwa [onCpu, hpc', hcur]
    rw [PcOk, hpc']
    trivial
  | schedule =>
    obtain ⟨s', heq, hinv⟩ := h.schedule hok
    refine ⟨s', ?_, hinv⟩
    rw [Sched.step, heq]
    rfl
  | switch =>
    obtain ⟨next, hpc⟩ := hok
    refine ⟨_, ?_, h.switch hpc⟩
    rw [Sched.step, hpc]
  | clean =>
    obtain ⟨thread, hpc⟩ := hok
    cases thread with
    | none =>
      obtain ⟨L, hcore, hex⟩ := h
      simp only [onCpu, PcOk, hpc] at hcore hex
      refine ⟨{ s with pc := .running }, ?_, L, hcore.of_eq rfl rfl fun u => ⟨_, rfl⟩, hex.1⟩
      rw [Sched.step, hpc]
    | some t =>
      obtain ⟨s', heq, hinv⟩ := h.clean hpc
      refine ⟨s', ?_, hinv⟩
      rw [Sched.step, hpc]
      simp only [heq, Outcome.ok_bind]
  | tick nsec =>
    obtain ⟨L, hcore, hpc⟩ := h
    exact ⟨_, rfl, L, hcore.of_eq rfl rfl fun u => ⟨_, rfl⟩, hpc⟩

theorem Core.placed (hcore : Core s s.current L) : s.Placed L := by
  have hhome : ∀ t ∈ s.alive, t ≠ s.current → ∀ h, t ∈ L h ↔ (s.threads t).home false = some h :=
    fun t ht hne h => by rw [hcore.home t ht, decide_eq_false hne]
  refine ⟨hcore.queues, hcore.alive, fun hmem => (hcore.of_threadList hmem).1 rfl,
    fun t ht hne => ?_, fun t ht hne => ?_, fun t ht hne => ?_, fun t ht hne => ?_⟩
  · rw [hhome t ht hne, Thread.home_eq_threadList]
    simp
  · rw [hhome t ht hne, Thread.home_eq_sleeping]
  · rw [hhome t ht hne, Thread.home_eq_exited]
  · simp only [hhome t ht hne, ← Thread.home_eq_none, Option.eq_none_iff_forall_ne_some]

omit [DecidableEq T] in
theorem Outside.onCpu_eq (hout : s.Outside) : s.onCpu = s.current := by
  rcases hout with hpc | hpc <;> simp [onCpu, hpc]

theorem SchedInv.placed (h : SchedInv s) (hout : s.Outside) : ∃ L, s.Placed L := by
  obtain ⟨L, hcore, -⟩ := h
  rw [hout.onCpu_eq] at hcore
  exact ⟨L, hcore.placed⟩

/-! ### Runs -/

theorem SchedInv.of_reachable {idle : T} {next : T → Option T} {prev : T → Slot QueueId T}
    {threads : T → Thread} {now : Int} {s : Sched T}
    (h : Reachable Sched.step (fun s e => s.Allowed e ∧ s.ExitsAwake e)
      (schedcoopInit idle (TailQ.init next prev) threads now) s) : SchedInv s := by
  refine h.invariant_of_returns (schedInv_init idle next prev threads now) ?_
  exact fun s e hs hok => ⟨_, hs.step hok.1 hok.2⟩

/-- **Every run of the scheduler.** If no sleeping thread exits, every thread is in its place at
every point outside of `schedcoop_schedule`, and no assertion of the scheduler fails. -/
theorem schedcoop_queues {idle : T} {next : T → Option T} {prev : T → Slot QueueId T}
    {threads : T → Thread} {now : Int} {s : Sched T}
    (h : Reachable Sched.step (fun s e => s.Allowed e ∧ s.ExitsAwake e)
      (schedcoopInit idle (TailQ.init next prev) threads now) s) :
    (s.Outside → ∃ L, s.Placed L) ∧
      ∀ e, s.Allowed e → s.ExitsAwake e → ∃ s', s.step e = .ok ((), s') := by
  have hinv := SchedInv.of_reachable h
  refine ⟨hinv.placed, fun e hok hawake => ?_⟩
  obtain ⟨s', heq, -⟩ := hinv.step hok hawake
  exact ⟨s', heq⟩

instance (s : Sched T) (e : SchedEvent T) : Decidable (s.Allowed e) := by
  cases e with
  | switch | clean =>
    dsimp only [Allowed]
    cases s.pc <;> first | exact isTrue ⟨_, rfl⟩ | exact isFalse (by rintro ⟨_, ⟨⟩⟩)
  | _ => dsimp only [Allowed]; infer_instance

instance (s : Sched T) (e : SchedEvent T) : Decidable (s.ExitsAwake e) := by
  cases e <;> dsimp only [ExitsAwake] <;> infer_instance

def newSched : Sched Nat :=
  schedcoopInit 0 (TailQ.init (fun _ => none) .next) (fun _ => ukThreadInit) 0

/-- Thread 1 sleeps and is woken while the processor is halted; thread 2 is woken by its timeout,
and exits. -/
theorem schedcoop_queues_two_threads :
    ∃ s : Sched Nat, s.pc = .exiting ∧ s.current = 2 ∧ s.alive = [2, 1, 0] ∧
      (∃ L, s.Placed L) ∧ ∃ s', s.step .schedule = .ok ((), s') := by
  obtain ⟨s, hs, hpc, hcur, halive⟩ : ∃ s, Reachable Sched.step
      (fun s e => s.Allowed e ∧ s.ExitsAwake e) newSched s ∧ s.pc = .exiting ∧ s.current = 2 ∧
      s.alive = [2, 1, 0] :=
    Reachable.exists_of_run [.create 1 false, .create 2 true, .block 0 0, .schedule, .switch,
      .block 1 100, .schedule, .switch, .block 2 50, .schedule, .wake 1 false, .tick 60,
      .schedule, .wake 0 true, .switch, .clean, .schedule, .switch, .clean, .exit [1]]
      (by decide +kernel)
  have hqueues := schedcoop_queues hs
  exact ⟨s, hpc, hcur, halive, hqueues.1 (.inr hpc), hqueues.2 .schedule (.inr (.inl hpc)) trivial⟩

/-- Thread 1 blocks itself with a timeout and exits. Once thread 2 runs, thread 1 is linked
in `sleeping_threads` although it has exited. -/
theorem schedcoop_exit_while_sleeping :
    ∃ s : Sched Nat, Reachable Sched.step Sched.Allowed newSched s ∧ s.Outside ∧
      ¬ ∃ L, s.Placed L := by
  obtain ⟨s, hs, hpc, hcur, halive, hfirst, hex⟩ : ∃ s, Reachable Sched.step Sched.Allowed
      newSched s ∧ s.pc = .running ∧ s.current = 2 ∧ s.alive = [2, 1, 0] ∧
      s.first .sleepingThreads = some 1 ∧ (s.threads 1).exited = true :=
    Reachable.exists_of_run [.create 1 false, .create 2 false, .schedule, .switch, .block 1 100,
      .exit [], .schedule, .switch] (by decide +kernel)
  refine ⟨s, hs, .inl hpc, fun ⟨L, hL⟩ => ?_⟩
  have hmem : 1 ∈ L .sleepingThreads :=
    mem_of_head? ((hL.queues.queue .sleepingThreads).first.symm.trans hfirst)
  have hsleep := (hL.sleeping 1 (by simp [halive]) (by simp [hcur])).mp hmem
  simp [hex] at hsleep

end Sched

end Unikraft.Ukschedcoop
