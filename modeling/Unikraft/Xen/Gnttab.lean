import Unikraft.Basic
import Unikraft.Lib.Chain

/-!
# The grant table (`plat/xen/gnttab.c`)

A domain grants another one access to a page, or offers to take a page from it, through an entry of
a table that both can write, and takes the entry back by exchanging its flags for zero. The calls
that do so are machines whose steps are single accesses to memory, so that the other domain can move
between them.
-/

namespace Unikraft.Xen

open Lib Function

/-! ### The table and its free entries -/

def gtfPermitAccess : Nat := 1

def gtfAcceptTransfer : Nat := 2

def gtfTypeMask : Nat := 3

def gtfReadonly : Nat := 4

def gtfReading : Nat := 8

def gtfWriting : Nat := 16

def gtfTransferCommitted : Nat := 4

def gtfTransferCompleted : Nat := 8

/-- `GNTTAB_NR_RESERVED_ENTRIES`. -/
def nrReservedEntries : Nat := 8

/-- `NR_GRANT_ENTRIES`: four pages of entries of eight bytes. -/
def nrGrantEntries : Nat := 2048

/-- `grant_entry_v1_t`. -/
structure GrantEntry where
  flags : Nat
  domid : Nat
  frame : Nat
  deriving DecidableEq

/-- `struct gnttab`: `grefList` links the free entries from index 0 on, and `sem` counts them. -/
structure Gnttab where
  table : Nat → GrantEntry
  grefList : Nat → Nat
  sem : Nat

def ValidRef (gref : Nat) : Prop := nrReservedEntries ≤ gref ∧ gref < nrGrantEntries
  deriving Decidable

/-- `get_free_entry`. Without a free entry the call waits on the semaphore, and there is no other
thread that would end the wait. -/
def getFreeEntry (g : Gnttab) : Outcome (Nat × Gnttab) :=
  if g.sem = 0 then .error .divergence
  else do
    ukAssert (ValidRef (g.grefList 0))
    return (g.grefList 0, { g with
        sem := g.sem - 1
        grefList := update g.grefList 0 (g.grefList (g.grefList 0)) })

def putFreeEntry (g : Gnttab) (gref : Nat) : Gnttab :=
  { g with
    sem := g.sem + 1
    grefList := update (update g.grefList gref (g.grefList 0)) 0 gref }

def Gnttab.setEntry (g : Gnttab) (gref : Nat) (entry : GrantEntry) : Gnttab :=
  { g with table := update g.table gref entry }

/-- The flags `gnttab_grant_permit_access` sets, of 16 bits. -/
def permitFlags (readonly : Nat) : Nat := (gtfPermitAccess ||| readonly * gtfReadonly) % 2 ^ 16

/-- `gnttab_grant_access`; a frame number has 32 bits. -/
def gnttabGrantAccess (g : Gnttab) (domid mfn readonly : Nat) : Outcome (Nat × Gnttab) := do
  let (gref, g) ← getFreeEntry g
  return (gref, g.setEntry gref ⟨permitFlags readonly, domid, mfn % 2 ^ 32⟩)

def gnttabGrantTransfer (g : Gnttab) (domid mfn : Nat) : Outcome (Nat × Gnttab) := do
  let (gref, g) ← getFreeEntry g
  return (gref, g.setEntry gref ⟨gtfAcceptTransfer, domid, mfn % 2 ^ 32⟩)

/-- The free entries are `free`, in the order in which they are taken. -/
structure FreeList (g : Gnttab) (free : List Nat) : Prop where
  chain : walk g.grefList (g.grefList 0) free.length = free
  sem : g.sem = free.length
  nodup : free.Nodup
  valid : ∀ r ∈ free, ValidRef r

variable {g g' : Gnttab} {free : List Nat} {gref flags : Nat}

theorem ValidRef.pos (h : ValidRef gref) : gref ≠ 0 := by
  have hge : 8 ≤ gref := h.1
  omega

theorem FreeList.zero_notMem (h : FreeList g free) : 0 ∉ free :=
  fun hmem => (h.valid 0 hmem).pos rfl

theorem FreeList.setEntry (h : FreeList g free) (gref : Nat) (entry : GrantEntry) :
    FreeList (g.setEntry gref entry) free := ⟨h.chain, h.sem, h.nodup, h.valid⟩

/-- **Taking an entry.** -/
theorem getFreeEntry_ok (h : FreeList g (gref :: free)) :
    ∃ g', getFreeEntry g = .ok (gref, g') ∧ FreeList g' free := by
  obtain ⟨rfl, hchain⟩ : g.grefList 0 = gref ∧
      walk g.grefList (g.grefList (g.grefList 0)) free.length = free := List.cons.inj h.chain
  have hvalid : ValidRef (g.grefList 0) := h.valid _ List.mem_cons_self
  have htail : ∀ r ∈ free, ValidRef r := fun r hr => h.valid r (List.mem_cons_of_mem _ hr)
  have hsem : g.sem = free.length + 1 := h.sem
  refine ⟨{ g with
      sem := g.sem - 1
      grefList := update g.grefList 0 (g.grefList (g.grefList 0)) }, ?_,
    ⟨?_, by simp only [hsem, Nat.add_sub_cancel], (List.nodup_cons.mp h.nodup).2, htail⟩⟩
  · rw [getFreeEntry, if_neg (by omega), ukAssert_pos hvalid]
    rfl
  have hzero : 0 ∉ walk g.grefList (g.grefList (g.grefList 0)) free.length := by
    rw [hchain]
    exact fun hmem => (htail 0 hmem).pos rfl
  simp only [update_self, (walk_update hzero).1]
  exact hchain

/-- **Giving an entry back.** -/
theorem putFreeEntry_ok (h : FreeList g free) (hvalid : ValidRef gref) (hnot : gref ∉ free) :
    FreeList (putFreeEntry g gref) (gref :: free) := by
  have hpos := hvalid.pos
  refine ⟨?_, ?_, List.nodup_cons.mpr ⟨hnot, h.nodup⟩, List.forall_mem_cons.mpr ⟨hvalid, h.valid⟩⟩
  · simp only [putFreeEntry, update_self, List.length_cons, walk_succ, update_of_ne hpos]
    congr 1
    have hgref : gref ∉ walk g.grefList (g.grefList 0) free.length := by rwa [h.chain]
    have hzero : 0 ∉ walk (update g.grefList gref (g.grefList 0)) (g.grefList 0)
        free.length := by
      rw [(walk_update hgref).1, h.chain]
      exact h.zero_notMem
    rw [(walk_update hzero).1, (walk_update hgref).1, h.chain]
  · simp only [putFreeEntry, h.sem, List.length_cons]

/-! ### The calls that take an entry back -/

/-- `ukarch_compare_exchange_sync(ptr, old, new)`, with `cur` at `ptr`: what it returns, and what is
at `ptr` then. -/
def compareExchangeSync (cur old new : Nat) : Nat × Nat :=
  if cur = old then (new, new) else (old, cur)

inductive GntCall
  | endAccess
  | updateGrant (domid mfn readonly : Nat)
  | endTransfer

/-- Where a call is: before its next access to memory, with what it has in its local variables. -/
inductive GntPc
  /-- `nflags = *pflags` in `gnttab_reset_flags`. -/
  | resetLoad
  | resetExchange (flags : Nat)
  /-- The three stores of `gnttab_grant_permit_access`. -/
  | grantFrame
  | grantDomid
  | grantFlags
  /-- `flags = *pflags` in the first loop of `gnttab_end_transfer`. -/
  | transferLoad
  | transferExchange (flags : Nat)
  /-- `flags = *pflags` in the second loop. -/
  | transferWait
  | transferFrame
  /-- `put_free_entry`, which other domains have no part in. -/
  | put (ret : Nat)
  | returned (ret : Nat)

/-- A call in progress. The last two fields record the flags that its exchanges have replaced by
zero, and the frame the other domain has transferred. -/
structure GntRun where
  g : Gnttab
  call : GntCall
  gref : Nat
  pc : GntPc
  exchanged : List Nat
  moved : Option Nat

namespace GntRun

/-- `gnttab.table[gref]`. -/
def entry (s : GntRun) : GrantEntry := s.g.table s.gref

def setEntry (s : GntRun) (entry : GrantEntry) : GntRun :=
  { s with g := s.g.setEntry s.gref entry }

def setFlags (s : GntRun) (flags : Nat) : GntRun := s.setEntry { s.entry with flags := flags }

/-- The call at `pc`. -/
def goto (s : GntRun) (pc : GntPc) : GntRun := { s with pc := pc }

/-- The exchange of the flags for zero, and what it returns. -/
def exchange (s : GntRun) (flags : Nat) : Nat × GntRun :=
  let (ret, cur) := compareExchangeSync s.entry.flags flags 0
  (ret, { s.setEntry { s.entry with flags := cur } with
      exchanged := if s.entry.flags = flags then s.exchanged ++ [flags] else s.exchanged })

/-- The test at the head of the loop of `gnttab_reset_flags`. -/
def resetCheck (s : GntRun) (nflags : Nat) : GntRun :=
  if nflags &&& (gtfReading ||| gtfWriting) ≠ 0 then s.goto (.returned 0)
  else s.goto (.resetExchange nflags)

/-- Behind a `gnttab_reset_flags` that has returned 1. -/
def resetDone (s : GntRun) : GntRun :=
  match s.call with
  | .updateGrant .. => s.goto .grantFrame
  | _ => s.goto (.put 1)

def codeStep (s : GntRun) : GntRun :=
  match s.pc with
  | .resetLoad => s.resetCheck s.entry.flags
  | .resetExchange flags =>
    let (nflags, s) := s.exchange flags
    if nflags ≠ flags then s.resetCheck nflags else s.resetDone
  | .grantFrame =>
    match s.call with
    | .updateGrant _ mfn _ => (s.setEntry { s.entry with frame := mfn % 2 ^ 32 }).goto .grantDomid
    | _ => s
  | .grantDomid =>
    match s.call with
    | .updateGrant domid _ _ => (s.setEntry { s.entry with domid := domid }).goto .grantFlags
    | _ => s
  | .grantFlags =>
    match s.call with
    | .updateGrant _ _ readonly =>
      (s.setEntry { s.entry with flags := permitFlags readonly }).goto (.returned 1)
    | _ => s
  | .transferLoad =>
    if s.entry.flags &&& gtfTransferCommitted = 0 then s.goto (.transferExchange s.entry.flags)
    else if s.entry.flags &&& gtfTransferCompleted = 0 then s.goto .transferWait
    else s.goto .transferFrame
  | .transferExchange flags =>
    let (ret, s) := s.exchange flags
    if ret = flags then s.goto (.put 0) else s.goto .transferLoad
  | .transferWait =>
    if s.entry.flags &&& gtfTransferCompleted = 0 then s else s.goto .transferFrame
  | .transferFrame => s.goto (.put s.entry.frame)
  | .put ret => ({ s with g := putFreeEntry s.g s.gref } : GntRun).goto (.returned ret)
  | .returned _ => s

end GntRun

def GntCall.first : GntCall → GntPc
  | .endTransfer => .transferLoad
  | _ => .resetLoad

def GntRun.start (g : Gnttab) (call : GntCall) (gref : Nat) : GntRun :=
  ⟨g, call, gref, call.first, [], none⟩

def gntCall (g : Gnttab) (call : GntCall) (gref : Nat) : Outcome GntRun := do
  ukAssert (ValidRef gref)
  return GntRun.start g call gref

namespace GntRun

variable {s : GntRun}

@[simp] theorem entry_setEntry (s : GntRun) (e : GrantEntry) : (s.setEntry e).entry = e :=
  update_self ..

theorem setEntry_entry (s : GntRun) : s.setEntry s.entry = s := by
  simp only [setEntry, Gnttab.setEntry, entry, update_eq_self]

theorem exchange_of_eq (h : s.entry.flags = flags) :
    s.exchange flags = (0, { s.setFlags 0 with exchanged := s.exchanged ++ [flags] }) := by
  simp only [exchange, compareExchangeSync, if_pos h, setFlags]

theorem exchange_of_ne (h : s.entry.flags ≠ flags) : s.exchange flags = (flags, s) := by
  simp only [exchange, compareExchangeSync, if_neg h]
  exact congrArg (flags, ·) (setEntry_entry s)

end GntRun

/-! ### Calls without a move in between -/

/-- The steps of a call up to its return. -/
def runCall : Nat → GntRun → Outcome (Nat × Gnttab)
  | 0, _ => .error .divergence
  | fuel + 1, s =>
    match s.pc with
    | .returned ret => .ok (ret, s.g)
    | _ => runCall fuel s.codeStep

/-- `gnttab_end_access`: a load, at most two exchanges, and `put_free_entry`. -/
def gnttabEndAccess (g : Gnttab) (gref : Nat) : Outcome (Nat × Gnttab) := do
  let s ← gntCall g .endAccess gref
  runCall 5 s

/-- `gnttab_update_grant`: a load, at most two exchanges, and three stores. -/
def gnttabUpdateGrant (g : Gnttab) (gref domid mfn readonly : Nat) : Outcome (Nat × Gnttab) := do
  let s ← gntCall g (.updateGrant domid mfn readonly) gref
  runCall 7 s

theorem runCall_step {s : GntRun} {fuel : Nat} (hpc : ∀ ret, s.pc ≠ .returned ret) :
    runCall (fuel + 1) s = runCall fuel s.codeStep := by
  rw [runCall]
  split
  · rename_i ret hret
    exact absurd hret (hpc ret)
  · rfl

theorem runCall_returned {s : GntRun} {fuel ret : Nat} (hpc : s.pc = .returned ret) :
    runCall (fuel + 1) s = .ok (ret, s.g) := by
  rw [runCall, hpc]

/-- The table with the flags of the entry `gref` cleared. -/
def Gnttab.cleared (g : Gnttab) (gref : Nat) : Gnttab :=
  g.setEntry gref { g.table gref with flags := 0 }

/-- Whether the other domain uses the page of an entry. -/
def GrantEntry.InUse (e : GrantEntry) : Prop := e.flags &&& (gtfReading ||| gtfWriting) ≠ 0
  deriving Decidable

namespace GntRun

variable (call : GntCall) {exchanged : List Nat}

theorem codeStep_exchange (hflags : (g.table gref).flags = flags) :
    codeStep ⟨g, call, gref, .resetExchange flags, exchanged, none⟩ = if flags = 0 then
        resetDone ⟨g.cleared gref, call, gref, .resetExchange flags, exchanged ++ [flags], none⟩
      else ⟨g.cleared gref, call, gref, .resetExchange 0, exchanged ++ [flags], none⟩ := by
  have hentry : entry ⟨g, call, gref, .resetExchange flags, exchanged, none⟩ = g.table gref := rfl
  have hexch := exchange_of_eq (hentry ▸ hflags)
  rw [codeStep]
  simp only [hexch]
  split
  · rename_i hne
    rw [if_neg hne.symm]
    rfl
  rename_i heq
  rw [if_pos (not_not.mp heq).symm]
  rfl

/-- **The loop of `gnttab_reset_flags`** on an entry that is not in use makes one exchange if there
are no flags, and two otherwise. -/
theorem runCall_reset (hfirst : call.first = .resetLoad) (hfree : ¬ (g.table gref).InUse)
    (fuel : Nat) :
    ∃ k flags exchanged, runCall (fuel + 3) (start g call gref) = runCall (k + fuel)
      (resetDone ⟨g.cleared gref, call, gref, .resetExchange flags, exchanged, none⟩) := by
  have hfree : (g.table gref).flags &&& (gtfReading ||| gtfWriting) = 0 := not_not.mp hfree
  have hload : (start g call gref).codeStep =
      ⟨g, call, gref, .resetExchange (g.table gref).flags, [], none⟩ := by
    simp only [start, hfirst, codeStep, resetCheck, entry, hfree, ne_eq, not_true_eq_false,
      if_false, goto]
  have hcleared : ((g.cleared gref).table gref).flags = 0 := by
    simp only [Gnttab.cleared, Gnttab.setEntry, update_self]
  have hagain : (g.cleared gref).cleared gref = g.cleared gref := by
    simp only [Gnttab.cleared, Gnttab.setEntry, update_self, update_idem]
  rw [runCall_step (by simp [start, hfirst]), hload, runCall_step (by simp),
    codeStep_exchange call rfl]
  split
  · exact ⟨1, _, _, congrArg (runCall · _) (Nat.add_comm fuel 1)⟩
  rw [runCall_step (by simp), codeStep_exchange call hcleared, if_pos rfl, hagain]
  exact ⟨0, _, _, congrArg (runCall · _) (Nat.zero_add fuel).symm⟩

theorem runCall_inUse (hfirst : call.first = .resetLoad) (hused : (g.table gref).InUse)
    (fuel : Nat) : runCall (fuel + 2) (start g call gref) = .ok (0, g) := by
  have hload : (start g call gref).codeStep = ⟨g, call, gref, .returned 0, [], none⟩ := by
    simp only [start, hfirst, codeStep, resetCheck, entry, goto]
    exact if_pos hused
  rw [runCall_step (by simp [start, hfirst]), hload, runCall_returned rfl]

end GntRun

/-- **`gnttab_end_access`** gives an entry back unless it is in use. -/
theorem gnttabEndAccess_eq (hvalid : ValidRef gref) :
    gnttabEndAccess g gref = .ok (if (g.table gref).InUse then (0, g)
      else (1, putFreeEntry (g.cleared gref) gref)) := by
  rw [gnttabEndAccess, gntCall, ukAssert_pos hvalid]
  by_cases hused : (g.table gref).InUse
  · rw [if_pos hused]
    exact GntRun.runCall_inUse .endAccess rfl hused 3
  obtain ⟨k, flags, exchanged, hreset⟩ := GntRun.runCall_reset .endAccess rfl hused 2
  rw [if_neg hused]
  refine hreset.trans ?_
  simp only [GntRun.resetDone, GntRun.goto, runCall, GntRun.codeStep]

/-- **`gnttab_update_grant`** grants another page through an entry unless it is in use. -/
theorem gnttabUpdateGrant_eq {domid mfn readonly : Nat} (hvalid : ValidRef gref) :
    gnttabUpdateGrant g gref domid mfn readonly = .ok (if (g.table gref).InUse then (0, g)
      else (1, g.setEntry gref ⟨permitFlags readonly, domid, mfn % 2 ^ 32⟩)) := by
  rw [gnttabUpdateGrant, gntCall, ukAssert_pos hvalid]
  by_cases hused : (g.table gref).InUse
  · rw [if_pos hused]
    exact GntRun.runCall_inUse (.updateGrant domid mfn readonly) rfl hused 5
  obtain ⟨k, flags, exchanged, hreset⟩ :=
    GntRun.runCall_reset (.updateGrant domid mfn readonly) rfl hused 4
  rw [if_neg hused]
  refine hreset.trans ?_
  simp [runCall, GntRun.resetDone, GntRun.goto, GntRun.codeStep, GntRun.setEntry, GntRun.entry,
    Gnttab.cleared, Gnttab.setEntry]

end Unikraft.Xen
