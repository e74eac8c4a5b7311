import Unikraft.Ukschedcoop.Queues

/-!
# Unikraft.Ukschedcoop.Kill

**Killing a thread** takes it out of `thread_list` whatever list it is in. All lists use one link
field, so this is right for a thread of `thread_list`, for a sleeping one with another one behind
it, and for one in no list whose old links do no harm (`Removable`).
-/

namespace Unikraft.Ukschedcoop

open Lib

variable {T : Type} [DecidableEq T]

namespace Sched

def ukSchedThreadKill (s : Sched T) (t : T) (waiters : List T) : Sched T :=
  schedcoopThreadRemove s t waiters

/-- The links of a thread that is in no list are left from the last one it was in. Its removal
writes what is there already, or what belongs to no list. -/
structure Harmless (s : Sched T) (L : QueueId → List T) (t : T) : Prop where
  last : s.next t = none → s.queues.last .threadList = s.queues.links.prev t
  prev : ∀ h, ∀ y ∈ L h, s.next t = some y → s.queues.links.prev y = s.queues.links.prev t
  cell : ∀ h, (s.queues.links.prev t).Of h (L h) →
    s.queues.links.cell (s.queues.links.prev t) = s.next t

/-- A thread that is runnable, sleeps and is not the last of the sleeping threads, or is in no
list. -/
def Removable (s : Sched T) (L : QueueId → List T) (t : T) : Prop :=
  if (s.threads t).runnable = true then True
  else if 0 < (s.threads t).wakeupTime then s.next t ≠ none
  else s.Harmless L t

/-- Who waits for `t` is woken by its exit, or is where it belongs already. -/
def WaitersWoken (s : Sched T) (t : T) (waiters : List T) : Prop :=
  t ∉ waiters ∧ ((s.threads t).detached = true → ∀ w ∈ waiters,
    (s.threads w).runnable = true ∨ w = s.current ∧ (s.threads w).wakeupTime ≤ 0)

/-- After the kill `t` has exited, the threads that waited for it are runnable, and every other one
is where it was. -/
structure Killed (s : Sched T) (L : QueueId → List T) (t : T) (waiters : List T)
    (L' : QueueId → List T) : Prop where
  killed : ∀ h, t ∈ L' h ↔ h = .exitedThreads
  woken : ∀ w ∈ waiters, ∀ h, w ∈ L' h ↔ h = .threadList ∧ w ≠ s.current
  others : ∀ u, u ≠ t → u ∉ waiters → ∀ h, u ∈ L' h ↔ u ∈ L h

/-- The kill of `t` keeps the scheduler consistent. -/
def KillsWell (s : Sched T) (L : QueueId → List T) (t : T) (waiters : List T) : Prop :=
  ∃ L', (ukSchedThreadKill s t waiters).Placed L' ∧ Killed s L t waiters L' ∧
    SchedInv (ukSchedThreadKill s t waiters)

variable {s : Sched T} {t : T} {L : QueueId → List T} {waiters : List T}

theorem Harmless.queues (h : s.Harmless L t) (hq : Queues s.queues L) :
    Queues (s.queues.remove .threadList t) L := by
  refine ⟨fun h' => ?_, hq.unique⟩
  have hprev : ∀ x ∈ L h',
      (s.queues.remove .threadList t).links.prev x = s.queues.links.prev x := by
    intro x hx
    unfold TailQ.remove
    split
    case h_1 y hy =>
      rcases eq_or_ne x y with rfl | hxy
      · exact Links.setPrev_prev_self.trans (h.prev h' x hx hy).symm
      · exact Links.setPrev_prev_of_ne hxy
    case h_2 => rfl
  have hcell : ∀ σ, σ.Of h' (L h') →
      (s.queues.remove .threadList t).links.cell σ = s.queues.links.cell σ := by
    intro σ hσ
    rw [TailQ.remove_cell]
    rcases eq_or_ne σ (s.queues.links.prev t) with rfl | hne
    · exact (Function.update_self ..).trans (h.cell h' hσ).symm
    · exact Function.update_of_ne hne ..
  have hlast : (s.queues.remove .threadList t).last h' = s.queues.last h' := by
    unfold TailQ.remove
    split
    case h_1 => rfl
    case h_2 hy => exact congrFun (Function.update_eq_self_iff.mpr (h.last hy).symm) h'
  have hqueue := hq.queue h'
  refine ⟨hqueue.seg.congr (fun σ hσ => hcell σ (mem_slots hσ)) hprev, ?_,
    hlast.trans hqueue.last, hqueue.nodup⟩
  rw [hcell _ (endSlot_cases ..)]
  exact hqueue.stop

theorem Core.unlink (h : Core s s.current L) (ht : t ∈ s.alive)
    (hex : (s.threads t).exited = false) (hcur : t ≠ s.current) (hrem : s.Removable L t) :
    ∃ L', Queues (s.queues.remove .threadList t) L' ∧ ∀ h u, u ∈ L' h ↔ u ≠ t ∧ u ∈ L h := by
  have hhome := h.home t ht
  rw [decide_eq_false hcur] at hhome
  unfold Removable at hrem
  split_ifs at hrem with hrun hsleep
  · have hmem : t ∈ L .threadList := (hhome _).mpr (by simp [Thread.home_runnable hex hrun])
    exact ⟨_, queues_remove h.queues hmem, fun _ _ => mem_update_erase h.queues hmem⟩
  · rw [Bool.not_eq_true] at hrun
    have hmem : t ∈ L .sleepingThreads :=
      (hhome _).mpr (by simp [Thread.home_blocked hex hrun, hsleep])
    -- no end of a list changes, so it does not matter through which head
    have heq : s.queues.remove .threadList t = s.queues.remove .sleepingThreads t := by
      obtain ⟨y, hy⟩ := Option.ne_none_iff_exists'.mp hrem
      have hcell : s.queues.links.cell (.next t) = some y := hy
      simp only [TailQ.remove, hcell]
    rw [heq]
    exact ⟨_, queues_remove h.queues hmem, fun _ _ => mem_update_erase h.queues hmem⟩
  · rw [Bool.not_eq_true] at hrun
    have hnone : ∀ h, t ∉ L h := fun h' => by simp [hhome, Thread.home_blocked hex hrun, hsleep]
    refine ⟨L, hrem.queues h.queues, fun h' u => ⟨fun hu => ⟨?_, hu⟩, fun hu => hu.2⟩⟩
    rintro rfl
    exact hnone h' hu

theorem schedcoopThreadRemove_other (hcur : t ≠ s.current) (hts : ∀ w ∈ waiters, w ≠ t) :
    schedcoopThreadRemove s t waiters =
      (((s.remove .threadList t).wakeAll (if (s.threads t).detached then [] else waiters)).update t
        fun th => { th with runnable := false, exited := true }).insertHead .exitedThreads t := by
  simp only [schedcoopThreadRemove, ukThreadExit, ne_eq, hcur, not_false_eq_true, if_true, if_false]
  cases hdet : (s.threads t).detached with
  | true => simp [wakeAll, update, remove, hdet]
  | false =>
    have hupd : ((s.remove .threadList t).update t fun th => { th with runnable := false }).update
        t (fun th => { th with exited := true }) =
        (s.remove .threadList t).update t fun th =>
          { th with runnable := false, exited := true } := by
      simp [update]
    rw [hupd]
    simp only [threads_update_self, threads_remove, hdet]
    exact congrArg (fun s' : Sched T => s'.insertHead .exitedThreads t) (wakeAll_update hts _)

/-- **The kill keeps the lists.** The thread is first taken out of its list; without a time-out it
is then where a blocked thread belongs. -/
theorem Core.kill (h : Core s s.current L) (ht : t ∈ s.alive) (hex : (s.threads t).exited = false)
    (hcur : t ≠ s.current) (hrem : s.Removable L t)
    (hw : ∀ w ∈ waiters, w ∈ s.alive ∧ (s.threads w).exited = false ∧ w ≠ t) :
    ∃ L', Core (schedcoopThreadRemove s t waiters) s.current L' := by
  obtain ⟨L₁, hq₁, hmem₁⟩ := h.unlink ht hex hcur hrem
  have hnone₁ : ∀ h, t ∉ L₁ h := fun h' hu => ((hmem₁ h' t).mp hu).1 rfl
  generalize hts : (if (s.threads t).detached then [] else waiters) = ts
  have hsub : ∀ w ∈ ts, w ∈ s.alive ∧ (s.threads w).exited = false ∧ w ≠ t := by
    rw [← hts]
    split
    · exact nofun
    · exact hw
  have hblocked : Core ((s.remove .threadList t).update t fun th =>
      { th with runnable := false, wakeupTime := 0 }) s.current L₁ :=
    h.move ht rfl (fun u hu => Function.update_of_ne hu _ _) hq₁
      (fun h' u hu => by simp [hmem₁, hu]) (fun h' => by simp [hnone₁, Thread.home, hex])
      (fun _ => by simp) fun hcpu => absurd hcpu hcur
  have hlive : ∀ w ∈ ts, w ∈ s.alive ∧ (((s.remove .threadList t).update t fun th =>
      { th with runnable := false, wakeupTime := 0 }).threads w).exited = false := by
    intro w hmem
    rw [threads_update_of_ne (hsub w hmem).2.2]
    exact ⟨(hsub w hmem).1, (hsub w hmem).2.1⟩
  obtain ⟨L₂, hwoken⟩ := hblocked.wakeAll hlive
  rw [wakeAll_update fun w hmem => (hsub w hmem).2.2] at hwoken
  rw [schedcoopThreadRemove_other hcur fun w hmem => (hw w hmem).2.2, hts]
  have hshape := woken_wakeAll (s.remove .threadList t) ts
  have hself := hshape.others t fun hmem => (hsub t hmem).2.2 rfl
  generalize (s.remove .threadList t).wakeAll ts = s₂ at *
  have ht₂ : t ∈ s₂.alive := by
    rw [hshape.alive]
    exact ht
  have hnone₂ : ∀ h, t ∉ L₂ h := by
    intro h'
    rw [hwoken.home t ht₂, threads_update_self, hself]
    simp [Thread.home, hex]
  refine ⟨_, hwoken.move (t := t) ht₂ rfl (fun u hu => ?_)
    (hwoken.queues.insertHead .exitedThreads hnone₂) (fun h' u hu => ?_) (fun h' => ?_)
    (fun _ => by simp) fun hcpu => absurd hcpu hcur⟩
  · rw [threads_insertHead, threads_update_of_ne hu, threads_update_of_ne hu]
  · rw [mem_update_insert (t := t) (by simp)]
    simp [hu]
  rw [mem_update_insert (t := t) (by simp), Thread.home_exited (by simp)]
  simp [hnone₂, eq_comm]

/-- What the kill does apart from the lists: `t` has exited, and those who wait are woken. -/
theorem woken_kill (hcur : t ≠ s.current) (hself : t ∉ waiters) :
    Woken (s.update t fun th => { th with runnable := false, exited := true })
      (if (s.threads t).detached then [] else waiters) (schedcoopThreadRemove s t waiters) := by
  have hne : ∀ w ∈ waiters, w ≠ t := fun w hmem heq => hself (heq ▸ hmem)
  rw [schedcoopThreadRemove_other hcur hne, ← wakeAll_update]
  · have h := woken_wakeAll ((s.remove .threadList t).update t fun th =>
      { th with runnable := false, exited := true })
      (if (s.threads t).detached then [] else waiters)
    exact ⟨h.current, h.alive, h.pc, h.others, h.exited, h.runnable⟩
  · split
    · simp
    · exact hne

section

variable (hcore : Core s s.current L) (hout : s.Outside) (ht : t ∈ s.alive)
  (hex : (s.threads t).exited = false) (hcur : t ≠ s.current)
  (hw : ∀ w ∈ waiters, w ∈ s.alive ∧ (s.threads w).exited = false)

include hcore hout ht hex hcur hw in
theorem killsWell_of_removable (hpcok : PcOk s L) (hrem : s.Removable L t)
    (hwoken : s.WaitersWoken t waiters) : s.KillsWell L t waiters := by
  have hne : ∀ w ∈ waiters, w ≠ t := fun w hmem heq => hwoken.1 (heq ▸ hmem)
  obtain ⟨L', hcore'⟩ := hcore.kill ht hex hcur hrem fun w hmem =>
    ⟨(hw w hmem).1, (hw w hmem).2, hne w hmem⟩
  have hkill := woken_kill hcur hwoken.1
  rw [KillsWell, ukSchedThreadKill]
  generalize schedcoopThreadRemove s t waiters = s' at *
  have hcurrent : s'.current = s.current := hkill.current
  have halive : s'.alive = s.alive := hkill.alive
  have hpc : s'.pc = s.pc := hkill.pc
  have hexs : ∀ u, u ≠ t → (s'.threads u).exited = (s.threads u).exited := fun u hu => by
    rw [hkill.exited, threads_update_of_ne hu]
  have hout' : s'.Outside := by rwa [Outside, hpc]
  refine ⟨L', Core.placed (by rwa [hcurrent]), ⟨fun h => ?_, fun w hmem h => ?_,
    fun u hu hmem h => ?_⟩, L', by rwa [hout'.onCpu_eq, hcurrent], ?_⟩
  · rw [hcore'.home t (halive ▸ ht), Thread.home_exited (by simp [hkill.exited])]
    simp [eq_comm]
  · have hwex : (s'.threads w).exited = false := (hexs w (hne w hmem)).trans (hw w hmem).2
    have hawake : (s'.threads w).runnable = true ∨
        w = s.current ∧ (s'.threads w).wakeupTime ≤ 0 := by
      cases hdet : (s.threads t).detached with
      | true =>
        rw [hkill.others w (by simp [hdet]), threads_update_of_ne (hne w hmem)]
        exact hwoken.2 hdet w hmem
      | false => exact .inl (hkill.runnable w (.inl (by simpa [hdet] using hmem)))
    rw [hcore'.home w (halive ▸ (hw w hmem).1)]
    cases hwrun : (s'.threads w).runnable with
    | true =>
      rw [Thread.home_runnable hwex hwrun]
      by_cases hwc : w = s.current <;> simp [hwc, eq_comm]
    | false =>
      obtain ⟨rfl, hwake⟩ := hawake.resolve_left (by simp [hwrun])
      simp [Thread.home_blocked hwex hwrun, hwake.not_gt]
  · have hthread : s'.threads u = s.threads u :=
      (hkill.others u (by split <;> simp [hmem])).trans (threads_update_of_ne hu)
    by_cases hualive : u ∈ s.alive
    · rw [hcore'.home u (halive ▸ hualive), hcore.home u hualive, hthread]
    exact iff_of_false (fun h' => hualive (halive ▸ hcore'.alive h u h'))
      fun h' => hualive (hcore.alive h u h')
  unfold PcOk at hpcok ⊢
  rw [hpc, hcurrent]
  rcases hout with hrunning | hexiting
  · rw [hrunning] at hpcok ⊢
    exact (hexs _ hcur.symm).trans hpcok
  rw [hexiting]
  trivial

include hcur hw in
theorem waitersWoken_of_killsWell (h : s.KillsWell L t waiters) : s.WaitersWoken t waiters := by
  obtain ⟨L', hplaced, hkilled, L'', hcore'', -⟩ := h
  have hself : t ∉ waiters := fun hmem => by
    cases (hkilled.killed .threadList).mp ((hkilled.woken t hmem .threadList).mpr ⟨rfl, hcur⟩)
  refine ⟨hself, fun hdet w hmem => ?_⟩
  have hne : w ≠ t := fun heq => hself (heq ▸ hmem)
  have hkill := woken_kill hcur hself
  rw [ukSchedThreadKill] at hplaced hcore''
  generalize schedcoopThreadRemove s t waiters = s' at *
  have hthread : s'.threads w = s.threads w :=
    (hkill.others w (by simp [hdet])).trans (threads_update_of_ne hne)
  have halive' : w ∈ s'.alive := hkill.alive ▸ (hw w hmem).1
  cases hrun : (s.threads w).runnable with
  | true => exact .inl rfl
  | false =>
    right
    have hwc : w = s.current := by
      by_contra hwc
      have hlist := (hkilled.woken w hmem .threadList).mpr ⟨rfl, hwc⟩
      have hrun' := ((hplaced.runnable w halive' (hkill.current ▸ hwc)).mp hlist).1
      rw [hthread, hrun] at hrun'
      cases hrun'
    refine ⟨hwc, not_lt.mp fun hsleep => ?_⟩
    have hmem' : w ∈ L'' .sleepingThreads := by
      rw [hcore''.home w halive', hthread, Thread.home_eq_sleeping]
      exact ⟨(hw w hmem).2, hrun, hsleep⟩
    have hlists : L'' .sleepingThreads = L' .sleepingThreads :=
      (hcore''.queues.queue _).seg.unique (hplaced.queues.queue _).seg
        (hcore''.queues.queue _).stop (hplaced.queues.queue _).stop
    cases ((hkilled.woken w hmem .sleepingThreads).mp (hlists ▸ hmem')).1

theorem wakeAll_of_runnable {ts : List T} (h : ∀ w ∈ ts, (s.threads w).runnable = true) :
    s.wakeAll ts = s := by
  induction ts with
  | nil => rfl
  | cons w ts ih =>
    obtain ⟨hw, hts⟩ := List.forall_mem_cons.mp h
    rw [wakeAll, List.foldl_cons, ukThreadWake, if_pos hw]
    exact ih hts

include hcore ht hex hcur in
/-- Where nobody has to be woken, `thread_list` ends where the removal has put its end. -/
theorem removable_of_killsWell (hlisted : (s.threads t).runnable = true ∨
    0 < (s.threads t).wakeupTime) (hawake : ∀ w ∈ waiters, (s.threads w).runnable = true)
    (h : s.KillsWell L t waiters) : s.Removable L t := by
  obtain ⟨L', hplaced, hkilled, -⟩ := h
  unfold Removable
  split_ifs with hrun hsleep
  · intro hnext
    have hasleep : ∀ u ∈ L .sleepingThreads, (s.threads u).runnable = false := fun u hu =>
      (Thread.home_eq_sleeping.mp ((hcore.home u (hcore.alive _ u hu) _).mp hu)).2.1
    have hmem : t ∈ L .sleepingThreads := by
      rw [Bool.not_eq_true] at hrun
      exact (hcore.home t ht _).mpr (Thread.home_eq_sleeping.mpr ⟨hex, hrun, hsleep⟩)
    have hlast : (ukSchedThreadKill s t waiters).queues.last .threadList =
        s.queues.links.prev t := by
      have hself : ∀ w ∈ waiters, w ≠ t := by
        rintro w hw rfl
        exact hrun (hawake w hw)
      have hnone : s.queues.links.cell (.next t) = none := hnext
      rw [ukSchedThreadKill, schedcoopThreadRemove_other hcur hself, wakeAll_of_runnable]
      · refine (TailQ.insertHead_last _ t (by decide)).trans ?_
        simp only [update, remove, TailQ.remove, hnone, Function.update_self]
      · split
        · simp
        · exact hawake
    have hseg := (hcore.queues.queue .sleepingThreads).seg
    obtain ⟨as, bs, hL⟩ := List.append_of_mem hmem
    rw [hL] at hseg
    rw [(hplaced.queues.queue .threadList).last, (seg_append.mp hseg).2.2.1] at hlast
    rcases endSlot_cases (Slot.head QueueId.threadList) (L' .threadList) with
      hend | ⟨y, hy, hend⟩ <;> rw [hend] at hlast
    · exact endSlot_ne_head (by decide) hlast.symm
    have hyas : y ∈ L .sleepingThreads := by
      by_contra hnot
      exact endSlot_ne_next (fun hmem => hnot (hL ▸ List.mem_append_left _ hmem)) hlast.symm
    have hyw : y ∉ waiters := fun hmem => by simpa [hasleep y hyas] using hawake y hmem
    have hyt : y ≠ t := fun heq => by cases (hkilled.killed .threadList).mp (heq ▸ hy)
    cases hcore.queues.unique _ _ y ((hkilled.others y hyt hyw _).mp hy) hyas
  · exact absurd hlisted (by simp [hrun, hsleep])

end

/-- **Killing a thread keeps the scheduler consistent**, if the removal of the thread from
`thread_list` does no harm and those that wait for it are woken. It has to wake them, and for a
thread that is in a list and that nobody has to be woken for the removal has to do no harm. -/
theorem schedcoop_thread_kill (s : Sched T) (t : T) (waiters : List T) (hinv : SchedInv s)
    (hout : s.Outside) (ht : t ∈ s.alive) (hex : (s.threads t).exited = false)
    (hcur : t ≠ s.current) (hw : ∀ w ∈ waiters, w ∈ s.alive ∧ (s.threads w).exited = false) :
    ∃ L, s.Placed L ∧
      (s.Removable L t ∧ s.WaitersWoken t waiters → s.KillsWell L t waiters) ∧
      (s.KillsWell L t waiters → s.WaitersWoken t waiters ∧
        ((s.threads t).runnable = true ∨ 0 < (s.threads t).wakeupTime →
          (∀ w ∈ waiters, (s.threads w).runnable = true) → s.Removable L t)) := by
  obtain ⟨L, hcore, hpcok⟩ := hinv
  rw [hout.onCpu_eq] at hcore
  exact ⟨L, hcore.placed,
    fun hcond => killsWell_of_removable hcore hout ht hex hcur hw hpcok hcond.1 hcond.2,
    fun h => ⟨waitersWoken_of_killsWell hcur hw h,
      fun hlisted hawake => removable_of_killsWell hcore ht hex hcur hlisted hawake h⟩⟩

/-- Thread 3 kills thread 1, which sleeps with thread 2 behind it; the idle thread waits for it. -/
theorem schedcoop_thread_kill_sleeping :
    ∃ s : Sched Nat, (s.threads 1).runnable = false ∧ 0 < (s.threads 1).wakeupTime ∧
      ∃ L L', s.Placed L ∧ (ukSchedThreadKill s 1 [0]).Placed L' ∧ Killed s L 1 [0] L' ∧
        SchedInv (ukSchedThreadKill s 1 [0]) := by
  obtain ⟨s, hs, hpc, hcur, halive, hth, hidle, hnext⟩ : ∃ s, Reachable Sched.step
      (fun s e => s.Allowed e ∧ s.ExitsAwake e) newSched s ∧ s.pc = .running ∧ s.current = 3 ∧
      s.alive = [3, 2, 1, 0] ∧ s.threads 1 = ⟨false, false, true, 100, false, true⟩ ∧
      (s.threads 0).exited = false ∧ s.next 1 = some 2 :=
    Reachable.exists_of_run [.create 1 false, .create 2 false, .create 3 false, .block 0 0,
      .schedule, .switch, .block 1 100, .schedule, .switch, .block 2 200, .schedule, .switch]
      (by decide +kernel)
  have hinv := SchedInv.of_reachable hs
  obtain ⟨L, hplaced, hkill, -⟩ := schedcoop_thread_kill s 1 [0] hinv (.inl hpc)
    (by simp [halive]) (by rw [hth]) (by simp [hcur]) (by simp [halive, hidle])
  obtain ⟨L', hkilled⟩ := hkill ⟨by simp [Removable, hth, hnext], by simp, by simp [hth]⟩
  exact ⟨s, by rw [hth], by simp [hth], L, L', hplaced, hkilled⟩

/-- Thread 2 kills thread 1, the only thread that sleeps. The end of `thread_list` is then the
head of `sleeping_threads`. -/
theorem schedcoop_thread_kill_last_sleeping :
    ∃ s : Sched Nat, SchedInv s ∧ s.Outside ∧ 1 ∈ s.alive ∧ (s.threads 1).exited = false ∧
      1 ≠ s.current ∧ ¬ ∃ L', Queues (ukSchedThreadKill s 1 []).queues L' := by
  obtain ⟨s, hs, hpc, hcur, halive, hex, hlast⟩ : ∃ s, Reachable Sched.step
      (fun s e => s.Allowed e ∧ s.ExitsAwake e) newSched s ∧ s.pc = .running ∧ s.current = 2 ∧
      s.alive = [2, 1, 0] ∧ (s.threads 1).exited = false ∧
      (ukSchedThreadKill s 1 []).queues.last .threadList = .head .sleepingThreads :=
    Reachable.exists_of_run [.create 1 false, .create 2 false, .schedule, .switch, .block 1 100,
      .schedule, .switch] (by decide +kernel)
  refine ⟨s, SchedInv.of_reachable hs, .inl hpc, by simp [halive],
    hex, by simp [hcur], fun ⟨L', hL'⟩ => ?_⟩
  -- the end of a list is its own head or a thread
  have hend := (hL'.queue .threadList).last
  rw [hlast] at hend
  rcases endSlot_cases (Slot.head QueueId.threadList) (L' .threadList) with h | ⟨y, -, h⟩ <;>
    rw [h] at hend <;> cases hend

end Sched

end Unikraft.Ukschedcoop
