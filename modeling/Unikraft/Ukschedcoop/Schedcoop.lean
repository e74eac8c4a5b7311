import Unikraft.Basic
import Unikraft.Lib.TailQ

/-!
# Unikraft.Ukschedcoop.Schedcoop

The cooperative scheduler (`ukschedcoop/schedcoop.c`) with the thread operations that call it.

All its lists link a thread through one field, so they are one `TailQ` with three heads. Every
interrupts-off section is one function; what can be interrupted by a wake-up is cut there (`Pc`).
The time after which the halted processor comes back is left open.

`uk_thread_current` reads the thread from the stack in use, which in an interrupt handler may be
that of another thread.
-/

namespace Unikraft.Ukschedcoop

open Lib

/-- The lists a thread can be in. -/
inductive QueueId
  | threadList
  | sleepingThreads
  | exitedThreads
  deriving DecidableEq

/-- The fields of a `struct uk_thread` that the scheduler uses. -/
structure Thread where
  /-- `RUNNABLE_FLAG`. -/
  runnable : Bool
  /-- `EXITED_FLAG`. -/
  exited : Bool
  /-- `QUEUEABLE_FLAG`. -/
  queueable : Bool
  wakeupTime : Int
  detached : Bool
  /-- The saved context is one of `uk_sched_thread_switch`, not the thread's start. -/
  parked : Bool
  deriving DecidableEq

/-- Where the running thread is. -/
inductive Pc (T : Type)
  /-- Outside of the scheduler. -/
  | running
  /-- In `schedcoop_thread_remove`, before its call of `schedcoop_schedule`. -/
  | exiting
  /-- In `schedcoop_schedule`, the processor being halted. -/
  | halted
  /-- In `schedcoop_schedule`, interrupts back on, before the switch to `next`. -/
  | switching (next : T)
  /-- In `schedcoop_schedule`, before the iteration for `thread` of the last loop. -/
  | cleaning (thread : Option T)
  deriving DecidableEq

structure Sched (T : Type) where
  queues : TailQ QueueId T
  threads : T → Thread
  /-- The threads that exist: initialised and not destroyed. -/
  alive : List T
  current : T
  /-- `ukplat_monotonic_clock`. -/
  now : Int
  pc : Pc T

variable {T : Type} [DecidableEq T]

namespace Sched

def update (s : Sched T) (t : T) (f : Thread → Thread) : Sched T :=
  { s with threads := Function.update s.threads t (f (s.threads t)) }

def insertTail (s : Sched T) (h : QueueId) (t : T) : Sched T :=
  { s with queues := s.queues.insertTail h t }

def insertHead (s : Sched T) (h : QueueId) (t : T) : Sched T :=
  { s with queues := s.queues.insertHead h t }

def remove (s : Sched T) (h : QueueId) (t : T) : Sched T :=
  { s with queues := s.queues.remove h t }

/-- `UK_TAILQ_FIRST`. -/
def first (s : Sched T) (h : QueueId) : Option T := s.queues.links.cell (.head h)

/-- `UK_TAILQ_NEXT`. -/
def next (s : Sched T) (t : T) : Option T := s.queues.links.cell (.next t)

end Sched

/-! ### Threads that come and go -/

/-- `uk_thread_init`: the fields of a thread before it is added. -/
def ukThreadInit : Thread where
  runnable := false
  exited := false
  queueable := false
  wakeupTime := 0
  detached := false
  parked := false

def schedcoopThreadAdd (s : Sched T) (t : T) : Sched T :=
  (s.update t fun th => { th with runnable := true }).insertTail .threadList t

/-- `uk_sched_thread_create`, the memory of the thread being `t`. -/
def ukSchedThreadCreate (s : Sched T) (t : T) (detached : Bool) : Sched T :=
  schedcoopThreadAdd
    ({ s with alive := t :: s.alive }.update t fun _ => { ukThreadInit with detached := detached })
    t

def ukSchedThreadDestroy (s : Sched T) (t : T) : Outcome (Sched T) := do
  ukAssert ((s.threads t).exited = true)
  .ok { s.remove .exitedThreads t with alive := s.alive.erase t }

/-! ### Blocking and waking -/

def schedcoopThreadBlocked (s : Sched T) (t : T) : Sched T :=
  let s := if t ≠ s.current then s.remove .threadList t else s
  if 0 < (s.threads t).wakeupTime then s.insertTail .sleepingThreads t else s

/-- `uk_thread_block_until`; `uk_thread_block` passes 0, `uk_thread_block_timeout` the sum
of the time and the timeout. -/
def ukThreadBlockUntil (s : Sched T) (t : T) (until_ : Int) : Sched T :=
  schedcoopThreadBlocked
    (s.update t fun th => { th with wakeupTime := until_, runnable := false }) t

/-- `schedcoop_thread_woken`, `cur` being `uk_thread_current()`. -/
def schedcoopThreadWoken (s : Sched T) (cur t : T) : Sched T :=
  let s := if 0 < (s.threads t).wakeupTime then s.remove .sleepingThreads t else s
  if t ≠ cur ∨ (s.threads t).queueable = true then
    (s.insertTail .threadList t).update t fun th => { th with queueable := false }
  else s

/-- `uk_thread_wake`, `cur` being `uk_thread_current()`. -/
def ukThreadWake (s : Sched T) (cur t : T) : Sched T :=
  if (s.threads t).runnable then s
  else (schedcoopThreadWoken s cur t).update t fun th =>
    { th with wakeupTime := 0, runnable := true }

/-- `uk_thread_exit`; `waiters` are the threads of the queue `waiting_threads`. -/
def ukThreadExit (s : Sched T) (t : T) (waiters : List T) : Sched T :=
  let s := s.update t fun th => { th with exited := true }
  if (s.threads t).detached then s
  else waiters.foldl (fun s w => ukThreadWake s s.current w) s

/-- `schedcoop_thread_remove` up to its call of `schedcoop_schedule`. -/
def schedcoopThreadRemove (s : Sched T) (t : T) (waiters : List T) : Sched T :=
  let s' := if t ≠ s.current then s.remove .threadList t else s
  let s' := s'.update t fun th => { th with runnable := false }
  let s' := (ukThreadExit s' t waiters).insertHead .exitedThreads t
  if t = s.current then { s' with pc := .exiting } else s'

/-! ### Scheduling -/

/-- The loop of `schedcoop_schedule` over `sleeping_threads`; the fuel runs out in a list that does
not end. -/
def wakeExpired : Nat → Option T → Sched T → Outcome (Sched T)
  | _, none, s => .ok s
  | 0, some _, _ => .error .divergence
  | fuel + 1, some t, s =>
    let tmp := s.next t
    let th := s.threads t
    wakeExpired fuel tmp
      (if th.wakeupTime ≠ 0 ∧ th.wakeupTime ≤ s.now then ukThreadWake s s.current t else s)

/-- `schedcoop_schedule` from a non-empty `thread_list` to the end of its interrupts-off
section. -/
def schedcoopSwitchTo (s : Sched T) (next : T) : Outcome (Sched T) := do
  let prev := s.current
  ukAssert (next ≠ prev)
  ukAssert ((s.threads next).runnable = true)
  ukAssert ((s.threads next).exited = false)
  let s := s.remove .threadList next
  let s := if (s.threads prev).runnable then s.insertTail .threadList prev
    else s.update prev fun th => { th with queueable := true }
  .ok { s.update next fun th => { th with queueable := false } with pc := .switching next }

/-- One round of the `do` loop of `schedcoop_schedule`. -/
def schedcoopSchedule (s : Sched T) : Outcome (Sched T) := do
  let s ← wakeExpired s.alive.length (s.first .sleepingThreads) s
  match s.first .threadList with
  | some next => schedcoopSwitchTo s next
  | none =>
    .ok (if (s.threads s.current).runnable
      then { s with pc := .cleaning (s.first .exitedThreads) } else { s with pc := .halted })

/-- `uk_sched_thread_switch`: `next` goes on in its own call of `schedcoop_schedule`, or
starts. -/
def ukSchedThreadSwitch (s : Sched T) (next : T) : Sched T :=
  let s := s.update s.current fun th => { th with parked := true }
  let pc := if (s.threads next).parked then .cleaning (s.first .exitedThreads) else .running
  { s with current := next, pc := pc }

/-- One iteration of the last loop of `schedcoop_schedule`. The local variable `prev` of
the thread that runs it is this thread. -/
def cleanExited (s : Sched T) (t : T) : Outcome (Sched T) := do
  let tmp := s.next t
  let s ← if (s.threads t).detached = true ∧ t ≠ s.current then ukSchedThreadDestroy s t else .ok s
  .ok { s with pc := .cleaning tmp }

/-! ### Runs -/

/-- `uk_schedcoop_init` and the start of the idle thread. -/
def schedcoopInit (idle : T) (queues : TailQ QueueId T) (threads : T → Thread) (now : Int) :
    Sched T where
  queues := queues
  threads := Function.update threads idle ukThreadInit
  alive := [idle]
  current := idle
  now := now
  pc := .running

inductive SchedEvent (T : Type)
  /-- The running thread creates a thread. -/
  | create (t : T) (detached : Bool)
  /-- The running thread blocks a thread. -/
  | block (t : T) (until_ : Int)
  /-- The running thread or an interrupt handler wakes a thread; `ownStack` tells whether
  interrupt handlers have a stack of their own. -/
  | wake (t : T) (ownStack : Bool)
  /-- The running thread exits. -/
  | exit (waiters : List T)
  /-- The running thread calls `schedcoop_schedule`, or its loop makes another round. -/
  | schedule
  /-- The switch to the next thread. -/
  | switch
  /-- An iteration of the last loop of `schedcoop_schedule`, or its end. -/
  | clean
  /-- Time passes. -/
  | tick (nsec : Nat)

namespace Sched

/-- `uk_thread_current()`. -/
def ukThreadCurrent (s : Sched T) (ownStack : Bool) : T :=
  match s.pc with
  | .switching next => if ownStack then next else s.current
  | _ => s.current

/-- Interrupts are on and the running thread is not in `schedcoop_schedule`. -/
def Outside (s : Sched T) : Prop := s.pc = .running ∨ s.pc = .exiting

/-- One event; what its place in the source does not allow leaves the defined behaviour. -/
def step (s : Sched T) : SchedEvent T → Outcome (Unit × Sched T)
  | .create t detached => .ok ((), ukSchedThreadCreate s t detached)
  | .block t until_ => .ok ((), ukThreadBlockUntil s t until_)
  | .wake t ownStack => .ok ((), ukThreadWake s (s.ukThreadCurrent ownStack) t)
  | .exit waiters => .ok ((), schedcoopThreadRemove s s.current waiters)
  | .schedule => do
      let s ← schedcoopSchedule s
      .ok ((), s)
  | .switch =>
    match s.pc with
    | .switching next => .ok ((), ukSchedThreadSwitch s next)
    | _ => .error .badPointer
  | .clean =>
    match s.pc with
    | .cleaning (some t) => do
        let s ← cleanExited s t
        .ok ((), s)
    | .cleaning none => .ok ((), { s with pc := .running })
    | _ => .error .badPointer
  | .tick nsec => .ok ((), { s with now := s.now + nsec })

/-- New threads get memory that is not in use, the running thread blocks runnable threads (or
itself, as the idle thread does at its start), nobody wakes an exited thread, and each part of the
scheduler runs where the source has it. -/
def Allowed (s : Sched T) : SchedEvent T → Prop
  | .create t _ => s.pc = .running ∧ t ∉ s.alive
  | .block t _ => s.pc = .running ∧ t ∈ s.alive ∧ (s.threads t).exited = false ∧
      ((s.threads t).runnable = true ∨ t = s.current ∧ (s.threads t).wakeupTime ≤ 0)
  | .wake t _ => t ∈ s.alive ∧ (s.threads t).exited = false
  | .exit waiters => s.pc = .running ∧
      ∀ w ∈ waiters, w ∈ s.alive ∧ (s.threads w).exited = false ∧ w ≠ s.current
  | .schedule => s.pc = .running ∨ s.pc = .exiting ∨ s.pc = .halted
  | .switch => ∃ next, s.pc = .switching next
  | .clean => ∃ t, s.pc = .cleaning t
  | .tick _ => True

/-- A thread that exits does not sleep: it is runnable or has no timeout. -/
def ExitsAwake (s : Sched T) : SchedEvent T → Prop
  | .exit _ => (s.threads s.current).runnable = true ∨ (s.threads s.current).wakeupTime ≤ 0
  | _ => True

end Sched

end Unikraft.Ukschedcoop
