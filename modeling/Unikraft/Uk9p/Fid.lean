import Unikraft.Uk9p.Tags

/-!
# Unikraft.Uk9p.Fid

The fids of a 9P client (`lib/uk9p/9p.c`, `9pdev.c`, `9pfid.c`) and those of its server, which
holds a fid from a successful attach or walk to a clunk or remove. `was_removed` says that it does
not.

The table of the server is a function of the messages sent (`serverFids`). Some error paths do not
fit to it: an attach that fails is followed by a clunk, as are some walks, and `uk_9p_remove` marks
the fid even if nothing is sent. Without these, the client keeps to the protocol
(`uk_9p_fid_protocol`).
-/

namespace Unikraft.Uk9p

open Lib Function Outcome List

/-! ### The server -/

/-- The requests about fids, with the numbers in them. -/
inductive Msg
  | tattach (fid : Nat)
  | twalk (fid newfid : Nat)
  | tremove (fid : Nat)
  | tclunk (fid : Nat)
  deriving Repr, DecidableEq

namespace Msg

/-- The number whose place in the table a message can change. -/
def target : Msg → Nat
  | tattach fid => fid
  | twalk _ newfid => newfid
  | tremove fid => fid
  | tclunk fid => fid

/-- A fid that is clunked is held, a new one is not. -/
def Legal (held : Finset Nat) : Msg → Prop
  | tattach fid => fid ∉ held
  | twalk _ newfid => newfid ∉ held
  | tremove _ => True
  | tclunk fid => fid ∈ held

instance (held : Finset Nat) (msg : Msg) : Decidable (msg.Legal held) := by
  cases msg <;> dsimp only [Legal] <;> infer_instance

end Msg

/-- The table after a message; the flag says that it has not been answered with `Rerror`. -/
def serve (held : Finset Nat) : Msg × Bool → Finset Nat
  | (.tattach fid, true) => insert fid held
  | (.twalk _ newfid, true) => insert newfid held
  | (.tremove fid, _) => held.erase fid
  | (.tclunk fid, true) => held.erase fid
  | _ => held

/-- The fids that the server holds after the messages of a log. -/
def serverFids (log : List (Msg × Bool)) : Finset Nat := log.foldl serve ∅

/-- Every message of the log was legal when it was sent. -/
def Lawful (log : List (Msg × Bool)) : Prop :=
  ∀ before sent after, log = before ++ sent :: after → sent.1.Legal (serverFids before)

/-! ### The source -/

/-- `struct uk_9pfid`. -/
structure Fid where
  fid : Nat
  wasRemoved : Bool
  refcount : Nat
  deriving Repr, DecidableEq

/-- The fid management of a device, the fids that have been allocated, and the messages
that have been sent. -/
structure P9 where
  nextFid : Nat
  fids : Nat → Option Fid
  freeList : List Nat
  activeList : List Nat
  log : List (Msg × Bool)

def fidMgmtInit : P9 := ⟨0, fun _ => none, [], [], []⟩

/-- A reply has all fields that are read, not all of them, or, in an `Rwalk`, another number of
names than the request. -/
inductive Reply
  | full
  | truncated
  | otherCount
  deriving Repr, DecidableEq

/-- What becomes of a request: it is not allocated, a field does not fit, the transport does
not take it, or it is answered. -/
inductive Exchange
  | noMem
  | overflow
  | notSent (rc : Errno)
  | rerror (rc : Errno)
  | reply (r : Reply)
  deriving Repr, DecidableEq

def Exchange.sent : Exchange → Bool
  | noMem => false
  | overflow => false
  | notSent _ => false
  | rerror _ => true
  | reply _ => true

/-- The request has been answered, and not with `Rerror`. -/
def Exchange.accepted : Exchange → Bool
  | reply _ => true
  | _ => false

def Msg.done : Msg → Reply → Bool
  | .twalk _ _, .otherCount => false
  | _, _ => true

/-- The writes of the fields and `send_and_wait_no_zc`, for a request that exists. -/
def sendAndWait (s : P9) (msg : Msg) : Exchange → Except Errno Reply × P9
  | .noMem => (.error .enomem, s)
  | .overflow => (.error .enobufs, s)
  | .notSent rc => (.error rc, s)
  | .rerror rc => (.error rc, { s with log := s.log ++ [(msg, false)] })
  | .reply r => (.ok r, { s with log := s.log ++ [(msg, msg.done r)] })

def uk9pClunk (s : P9) (id : Nat) (x : Exchange) : Outcome (Except Errno Reply × P9) :=
  match s.fids id with
  | none => .error .badPointer
  | some f =>
    if f.wasRemoved then .ok (.ok .full, s)
    else .ok (sendAndWait s (.tclunk f.fid) x)

/-- `uk_9pdev_fid_release`, with `_fid_mgmt_del_fid_locked`: a fid that has been clunked is
recycled, another one is freed. -/
def uk9pdevFidRelease (s : P9) (id : Nat) (x : Exchange) : Outcome P9 := do
  let (rc, s) ← uk9pClunk s id x
  let s := { s with activeList := s.activeList.erase id }
  match rc with
  | .ok _ => .ok { s with freeList := id :: s.freeList }
  | .error _ => .ok { s with fids := update s.fids id none }

/-- `uk_9pdev_fid_create`, with `_fid_mgmt_next_fid_locked`; `mem` is what `uk_calloc` returns
if it is called. -/
def uk9pdevFidCreate (s : P9) (mem : Option Nat) : Outcome (Except Errno Nat × P9) :=
  match s.freeList with
  | id :: rest =>
    match s.fids id with
    | none => .error .badPointer
    | some f =>
      let f := { f with wasRemoved := false, refcount := 1 }
      .ok (.ok id, { s with
        fids := update s.fids id (some f)
        freeList := rest
        activeList := id :: s.activeList })
  | [] =>
    match mem with
    | none => .ok (.error .enomem, s)
    | some id =>
      let f := { fid := s.nextFid, wasRemoved := false, refcount := 1 }
      .ok (.ok id, { s with
        nextFid := addU32 s.nextFid 1
        fids := update s.fids id (some f)
        activeList := id :: s.activeList })

def releaseWith (s : P9) (id : Nat) (clunk : Exchange) (rc : Errno) :
    Outcome (Except Errno Nat × P9) := do
  let s ← uk9pdevFidRelease s id clunk
  .ok (.error rc, s)

/-- `uk_9p_attach`; `x` is about its request, `clunk` about the one that follows a failure. -/
def uk9pAttach (s : P9) (mem : Option Nat) (x clunk : Exchange) :
    Outcome (Except Errno Nat × P9) := do
  match ← uk9pdevFidCreate s mem with
  | (.error rc, s) => .ok (.error rc, s)
  | (.ok id, s) =>
    match s.fids id with
    | none => .error .badPointer
    | some f =>
      match sendAndWait s (.tattach f.fid) x with
      | (.error rc, s) => releaseWith s id clunk rc
      | (.ok .truncated, s) => releaseWith s id clunk .enobufs
      | (.ok _, s) => .ok (.ok id, s)

/-- `fid->was_removed = 1`. -/
def markRemoved (s : P9) (id : Nat) : P9 :=
  let removed := fun f : Fid => { f with wasRemoved := true }
  { s with fids := update s.fids id ((s.fids id).map removed) }

/-- `uk_9p_walk` from the fid `id`. If the request cannot be allocated, the error pointer is
passed to `uk_9pdev_req_remove`. -/
def uk9pWalk (s : P9) (id : Nat) (mem : Option Nat) (x clunk : Exchange) :
    Outcome (Except Errno Nat × P9) := do
  match ← uk9pdevFidCreate s mem with
  | (.error rc, s) => .ok (.error rc, s)
  | (.ok newid, s) =>
    match x, s.fids id, s.fids newid with
    | .noMem, _, _ => .error .badPointer
    | .overflow, _, _ => releaseWith s newid clunk .enobufs
    | x, some f, some newf =>
      match sendAndWait s (.twalk f.fid newf.fid) x with
      | (.error rc, s) => releaseWith (markRemoved s newid) newid clunk rc
      | (.ok .full, s) => .ok (.ok newid, s)
      | (.ok .truncated, s) => releaseWith s newid clunk .enobufs
      | (.ok .otherCount, s) => releaseWith s newid clunk .enoent
    | _, _, _ => .error .badPointer

def uk9pRemove (s : P9) (id : Nat) (x : Exchange) : Outcome (Except Errno Nat × P9) :=
  match s.fids id with
  | none => .error .badPointer
  | some f =>
    match sendAndWait (markRemoved s id) (.tremove f.fid) x with
    | (.error rc, s) => .ok (.error rc, s)
    | (.ok _, s) => .ok (.ok 0, s)

def uk9pfidGet (s : P9) (id : Nat) : Outcome (Except Errno Nat × P9) :=
  match s.fids id with
  | none => .error .badPointer
  | some f =>
    let f := { f with refcount := refcountAcquire f.refcount }
    .ok (.ok 0, { s with fids := update s.fids id (some f) })

def uk9pfidPut (s : P9) (id : Nat) (clunk : Exchange) : Outcome (Except Errno Nat × P9) :=
  match s.fids id with
  | none => .error .badPointer
  | some f => do
      ukAssert (0 < f.refcount)
      let put := { f with refcount := refcountRelease f.refcount }
      let s := { s with fids := update s.fids id (some put) }
      if f.refcount ≤ 1 then
        let s ← uk9pdevFidRelease s id clunk
        .ok (.ok 1, s)
      else .ok (.ok 0, s)

/-! ### Runs -/

/-- A call of the client, with what becomes of its requests. -/
inductive FidCall
  | attach (mem : Option Nat) (x clunk : Exchange)
  | walk (id : Nat) (mem : Option Nat) (x clunk : Exchange)
  | remove (id : Nat) (x : Exchange)
  | get (id : Nat)
  | put (id : Nat) (clunk : Exchange)
  deriving Repr, DecidableEq

def fidStep (s : P9) : FidCall → Outcome (Except Errno Nat × P9)
  | .attach mem x clunk => uk9pAttach s mem x clunk
  | .walk id mem x clunk => uk9pWalk s id mem x clunk
  | .remove id x => uk9pRemove s id x
  | .get id => uk9pfidGet s id
  | .put id clunk => uk9pfidPut s id clunk

def FreshMem (s : P9) (mem : Option Nat) : Prop := mem.elim True fun id => s.fids id = none

/-- The calls that callers make: on fids that have not been released, with fewer than
`2 ^ 16` references. -/
def LegalFidCall (s : P9) : FidCall → Prop
  | .attach mem _ _ => FreshMem s mem
  | .walk id mem _ _ => id ∈ s.activeList ∧ FreshMem s mem
  | .remove id _ => id ∈ s.activeList
  | .get id => id ∈ s.activeList ∧ (s.fids id).elim 0 Fid.refcount + 1 < 2 ^ 16
  | .put id _ => id ∈ s.activeList ∧ 0 < (s.fids id).elim 0 Fid.refcount

def NumberLeft (s : P9) : Prop := s.freeList = [] → s.nextFid + 1 < 2 ^ 32
  deriving Decidable

/-- The calls that go well for the table of the server: if an attach fails, or a walk other than by
a refused request, the clunk that follows is not sent; a walk gets memory for its request; a remove
request is sent. -/
def Orderly (s : P9) : FidCall → Prop
  | .attach _ x clunk => NumberLeft s ∧ (x.accepted = true ∨ clunk.sent = false)
  | .walk _ _ x clunk => NumberLeft s ∧ x ≠ .noMem ∧
      (x = .overflow ∨ x = .reply .otherCount → clunk.sent = false)
  | .remove id x => x.sent = true ∨ (s.fids id).elim false Fid.wasRemoved = true
  | .get _ => True
  | .put _ _ => True

instance (s : P9) (mem : Option Nat) : Decidable (FreshMem s mem) := by
  cases mem <;> dsimp only [FreshMem, Option.elim] <;> infer_instance

instance (s : P9) (call : FidCall) : Decidable (LegalFidCall s call) := by
  cases call <;> dsimp only [LegalFidCall] <;> infer_instance

instance (s : P9) (call : FidCall) : Decidable (Orderly s call) := by
  cases call <;> dsimp only [Orderly] <;> infer_instance

/-! ### The table of the server -/

variable {held : Finset Nat} {log : List (Msg × Bool)} {msg : Msg} {a : Bool} {n k : Nat}
  {x : Exchange}

theorem serverFids_append (log : List (Msg × Bool)) (sent : Msg × Bool) :
    serverFids (log ++ [sent]) = serve (serverFids log) sent := by
  rw [serverFids, foldl_append]
  rfl

theorem mem_serve_of_ne (h : k ≠ msg.target) : k ∈ serve held (msg, a) ↔ k ∈ held := by
  cases msg <;> cases a <;> simp_all [serve, Msg.target]

theorem Lawful.append (h : Lawful log) (hlegal : msg.Legal (serverFids log)) :
    Lawful (log ++ [(msg, a)]) := by
  intro before sent after heq
  rcases eq_nil_or_concat after with rfl | ⟨after, last, rfl⟩
  · obtain ⟨rfl, hsent⟩ := append_inj' heq rfl
    cases hsent
    exact hlegal
  have hinit : log ++ [(msg, a)] = (before ++ sent :: after) ++ [last] := by
    rw [heq]
    simp
  exact h before sent after (append_inj' hinit rfl).1

/-! ### The invariant -/

/-- The numbers of the fids: a fid is in one of the lists and in it once, and no other fid of the
lists has its number. -/
structure FidNumbers (s : P9) : Prop where
  nodup : (s.activeList ++ s.freeList).Nodup
  live : ∀ id ∈ s.activeList ++ s.freeList, ∃ f, s.fids id = some f ∧ f.fid < s.nextFid
  inj : ∀ i ∈ s.activeList ++ s.freeList, ∀ j ∈ s.activeList ++ s.freeList, ∀ f g,
    s.fids i = some f → s.fids j = some g → f.fid = g.fid → i = j

theorem fidMgmtInit_numbers : FidNumbers fidMgmtInit := ⟨nodup_nil, nofun, nofun⟩

theorem fids_back {s : P9} {id j : Nat} {f g e : Fid} (hf : s.fids id = some f)
    (hnum : g.fid = f.fid) (he : update s.fids id (some g) j = some e) :
    ∃ e', s.fids j = some e' ∧ e'.fid = e.fid := by
  by_cases hji : j = id
  · subst hji
    rw [update_self] at he
    cases he
    exact ⟨f, hf, hnum.symm⟩
  rw [update_of_ne hji] at he
  exact ⟨e, he, rfl⟩

namespace FidNumbers

variable {s : P9} {id j : Nat} {f g : Fid} {rest : List Nat}

section

variable (h : FidNumbers s)

include h

theorem set (hf : s.fids id = some f) (hnum : g.fid = f.fid) :
    FidNumbers { s with fids := update s.fids id (some g) } := by
  refine ⟨h.nodup, fun j hj => ?_, fun i hi j hj e e' he he' heq => ?_⟩
  · obtain ⟨e, he, hlt⟩ := h.live j hj
    by_cases hji : j = id
    · subst hji
      cases hf.symm.trans he
      exact ⟨g, update_self .., hnum ▸ hlt⟩
    · exact ⟨e, (update_of_ne hji ..).trans he, hlt⟩
  obtain ⟨d, hd, hdnum⟩ := fids_back hf hnum he
  obtain ⟨d', hd', hdnum'⟩ := fids_back hf hnum he'
  exact h.inj i hi j hj d d' hd hd' (hdnum.trans (heq.trans hdnum'.symm))

theorem ne_of_erase (hid : id ∈ s.activeList)
    (hj : j ∈ s.activeList.erase id ++ s.freeList) : j ≠ id := by
  obtain ⟨hnodup, -, hdisj⟩ := nodup_append.mp h.nodup
  rcases mem_append.mp hj with hj | hj
  · exact (hnodup.mem_erase_iff.mp hj).1
  · exact (hdisj id hid j hj).symm

theorem retire (hid : id ∈ s.activeList) :
    FidNumbers { s with
      activeList := s.activeList.erase id
      fids := update s.fids id none } := by
  have hsub : (s.activeList.erase id ++ s.freeList).Sublist (s.activeList ++ s.freeList) :=
    erase_sublist.append_right _
  have hold : ∀ j ∈ s.activeList.erase id ++ s.freeList, update s.fids id none j = s.fids j :=
    fun j hj => update_of_ne (h.ne_of_erase hid hj) ..
  refine ⟨h.nodup.sublist hsub, fun j hj => ?_, fun i hi j hj e e' he he' => ?_⟩
  · obtain ⟨e, he, hlt⟩ := h.live j (hsub.subset hj)
    exact ⟨e, (hold j hj).trans he, hlt⟩
  exact h.inj i (hsub.subset hi) j (hsub.subset hj) e e' ((hold i hi).symm.trans he)
    ((hold j hj).symm.trans he')

theorem perm {active free : List Nat} (hperm : (active ++ free).Perm (s.activeList ++ s.freeList)) :
    FidNumbers { s with activeList := active, freeList := free } :=
  ⟨hperm.nodup_iff.mpr h.nodup, fun j hj => h.live j (hperm.mem_iff.mp hj),
    fun i hi j hj => h.inj i (hperm.mem_iff.mp hi) j (hperm.mem_iff.mp hj)⟩

end

theorem recycled_perm (hid : id ∈ s.activeList) :
    (s.activeList.erase id ++ id :: s.freeList).Perm (s.activeList ++ s.freeList) :=
  perm_middle.trans ((perm_cons_erase hid).symm.append_right s.freeList)

theorem reused_perm (hlist : s.freeList = id :: rest) :
    (id :: s.activeList ++ rest).Perm (s.activeList ++ s.freeList) := by
  rw [hlist]
  exact perm_middle.symm

theorem ne_of_fresh (h : FidNumbers s) (hfresh : s.fids id = none)
    (hj : j ∈ s.activeList ++ s.freeList) : j ≠ id := by
  rintro rfl
  obtain ⟨f, hf, -⟩ := h.live j hj
  cases hf.symm.trans hfresh

theorem add (h : FidNumbers s) (hfresh : s.fids id = none) :
    FidNumbers { s with
      nextFid := s.nextFid + 1
      fids := update s.fids id (some ⟨s.nextFid, false, 1⟩)
      activeList := id :: s.activeList } := by
  have hold : ∀ j ∈ s.activeList ++ s.freeList,
      update s.fids id (some ⟨s.nextFid, false, 1⟩) j = s.fids j := fun j hj =>
    update_of_ne (h.ne_of_fresh hfresh hj) ..
  have hself : update s.fids id (some ⟨s.nextFid, false, 1⟩) id =
      some ⟨s.nextFid, false, 1⟩ := update_self ..
  refine ⟨nodup_cons.mpr ⟨fun hid => h.ne_of_fresh hfresh hid rfl, h.nodup⟩, fun j hj => ?_,
    fun i hi j hj e e' he he' heq => ?_⟩
  · rcases mem_cons.mp hj with rfl | hj
    · exact ⟨_, hself, Nat.lt_succ_self _⟩
    obtain ⟨e, he, hlt⟩ := h.live j hj
    exact ⟨e, (hold j hj).trans he, Nat.lt_succ_of_lt hlt⟩
  -- an old number is below the new one
  have hlt : ∀ j ∈ s.activeList ++ s.freeList, ∀ e, s.fids j = some e → e.fid < s.nextFid := by
    intro j hj e he
    obtain ⟨e', he', hlt⟩ := h.live j hj
    cases he.symm.trans he'
    exact hlt
  rcases mem_cons.mp hi with rfl | hi <;> rcases mem_cons.mp hj with rfl | hj
  · rfl
  · cases hself.symm.trans he
    exact absurd heq.symm (hlt j hj e' ((hold j hj).symm.trans he')).ne
  · cases hself.symm.trans he'
    exact absurd heq (hlt i hi e ((hold i hi).symm.trans he)).ne
  · exact h.inj i hi j hj e e' ((hold i hi).symm.trans he) ((hold j hj).symm.trans he') heq

end FidNumbers

/-- Apart from the fid `busy` of the running call, an active fid is held by the server if it has not
been removed, and a free one is not. -/
structure FidOk (s : P9) (busy : Option Nat) : Prop extends FidNumbers s where
  next_lt : s.nextFid < 2 ^ 32
  held_lt : ∀ n ∈ serverFids s.log, n < s.nextFid
  active : ∀ id ∈ s.activeList, busy ≠ some id → ∀ f, s.fids id = some f →
    (f.fid ∈ serverFids s.log ↔ f.wasRemoved = false)
  free : ∀ id ∈ s.freeList, ∀ f, s.fids id = some f → f.fid ∉ serverFids s.log
  lawful : Lawful s.log

theorem fidMgmtInit_ok : FidOk fidMgmtInit none where
  toFidNumbers := fidMgmtInit_numbers
  next_lt := by decide
  held_lt := nofun
  active := nofun
  free := nofun
  lawful before sent after h := by
    have hlen := congrArg List.length h
    simp [fidMgmtInit] at hlen

namespace FidOk

variable {s : P9} {busy : Option Nat} {id : Nat} {f : Fid}

theorem focus (h : FidOk s none) (id : Nat) : FidOk s (some id) :=
  { h with active := fun j hj _ => h.active j hj nofun }

section

variable (h : FidOk s (some id))

include h

theorem settle (hf : s.fids id = some f)
    (hheld : f.fid ∈ serverFids s.log ↔ f.wasRemoved = false) : FidOk s none := by
  refine { h with active := fun j hj _ g hg => ?_ }
  by_cases hji : j = id
  · subst hji
    cases hf.symm.trans hg
    exact hheld
  · exact h.active j hj (fun heq => hji (Option.some.inj heq).symm) g hg

theorem send (hid : id ∈ s.activeList) (hf : s.fids id = some f)
    (htarget : msg.target = f.fid) (hlegal : msg.Legal (serverFids s.log)) (a : Bool) :
    FidOk { s with log := s.log ++ [(msg, a)] } (some id) := by
  have hlists := mem_append_left s.freeList hid
  -- the numbers of the other fids are other numbers
  have hother : ∀ j ∈ s.activeList ++ s.freeList, j ≠ id → ∀ g, s.fids j = some g →
      (g.fid ∈ serverFids (s.log ++ [(msg, a)]) ↔ g.fid ∈ serverFids s.log) := by
    intro j hj hne g hg
    rw [serverFids_append]
    refine mem_serve_of_ne fun heq => hne ?_
    exact h.inj j hj id hlists g f hg hf (heq.trans htarget)
  refine { h with held_lt := fun n hn => ?_, active := fun j hj hne g hg => ?_,
                  free := fun j hj g hg => ?_, lawful := h.lawful.append hlegal }
  · by_cases hn' : n = msg.target
    · obtain ⟨g, hg, hlt⟩ := h.live id hlists
      cases hf.symm.trans hg
      rw [hn', htarget]
      exact hlt
    rw [serverFids_append, mem_serve_of_ne hn'] at hn
    exact h.held_lt n hn
  · have hji : j ≠ id := fun heq => hne (heq ▸ rfl)
    rw [hother j (mem_append_left _ hj) hji g hg]
    exact h.active j hj hne g hg
  have hji : j ≠ id := by
    rintro rfl
    exact (nodup_append.mp h.nodup).2.2 j hid j hj rfl
  rw [hother j (mem_append_right _ hj) hji g hg]
  exact h.free j hj g hg

theorem set (hf : s.fids id = some f) {g : Fid} (hnum : g.fid = f.fid) :
    FidOk { s with fids := update s.fids id (some g) } (some id) := by
  refine { h with toFidNumbers := h.toFidNumbers.set hf hnum, active := fun j hj hne e he => ?_,
                  free := fun j hj e he => ?_ }
  · have hji : j ≠ id := fun heq => hne (heq ▸ rfl)
    exact h.active j hj hne e ((update_of_ne hji ..).symm.trans he)
  obtain ⟨d, hd, hdnum⟩ := fids_back hf hnum he
  exact hdnum ▸ h.free j hj d hd

theorem retire (hid : id ∈ s.activeList) :
    FidOk { s with
      activeList := s.activeList.erase id
      fids := update s.fids id none } none := by
  have hold : ∀ j ∈ s.activeList.erase id ++ s.freeList, update s.fids id none j = s.fids j :=
    fun j hj => update_of_ne (h.ne_of_erase hid hj) ..
  refine { h with toFidNumbers := h.toFidNumbers.retire hid, active := fun j hj _ e he => ?_,
                  free := fun j hj e he => ?_ }
  · have hj' := mem_append_left s.freeList hj
    exact h.active j (mem_of_mem_erase hj)
      (fun heq => h.ne_of_erase hid hj' (Option.some.inj heq).symm) e ((hold j hj').symm.trans he)
  · exact h.free j hj e ((hold j (mem_append_right _ hj)).symm.trans he)

theorem recycle (hid : id ∈ s.activeList) (hf : s.fids id = some f)
    (hheld : f.fid ∉ serverFids s.log) :
    FidOk { s with
      activeList := s.activeList.erase id
      freeList := id :: s.freeList } none := by
  refine { h with toFidNumbers := h.toFidNumbers.perm (FidNumbers.recycled_perm hid),
                  active := fun j hj _ => ?_, free := fun j hj g hg => ?_ }
  · have hne := h.ne_of_erase hid (mem_append_left s.freeList hj)
    exact h.active j (mem_of_mem_erase hj) fun heq => hne (Option.some.inj heq).symm
  rcases mem_cons.mp hj with rfl | hj
  · cases hf.symm.trans hg
    exact hheld
  · exact h.free j hj g hg

end

variable {x clunk : Exchange} {mem : Option Nat}

/-- **The release of a fid**: if it has not been removed, then the server holds it or the clunk
is not sent. -/
theorem release (h : FidOk s (some id)) (hid : id ∈ s.activeList) (hf : s.fids id = some f)
    (hremoved : f.wasRemoved = true → f.fid ∉ serverFids s.log)
    (hheld : f.wasRemoved = false → x.sent = true → f.fid ∈ serverFids s.log) :
    ∃ s', uk9pdevFidRelease s id x = .ok s' ∧ FidOk s' none := by
  simp only [uk9pdevFidRelease, uk9pClunk, hf]
  by_cases hflag : f.wasRemoved = true
  · rw [if_pos hflag]
    exact ⟨_, rfl, h.recycle hid hf (hremoved hflag)⟩
  rw [if_neg hflag]
  rw [Bool.not_eq_true] at hflag
  have hsend : x.sent = true → ∀ a,
      FidOk { s with log := s.log ++ [(.tclunk f.fid, a)] } (some id) := by
    intro hsent a
    have hlegal : (Msg.tclunk f.fid).Legal (serverFids s.log) := hheld hflag hsent
    exact h.send hid hf rfl hlegal a
  cases x with
  | noMem | overflow | notSent rc => exact ⟨_, rfl, h.retire hid⟩
  | rerror rc => exact ⟨_, rfl, (hsend rfl false).retire hid⟩
  | reply r =>
    refine ⟨_, rfl, (hsend rfl true).recycle hid hf ?_⟩
    rw [serverFids_append]
    exact Finset.notMem_erase _ _

theorem giveUp (h : FidOk s (some id)) (hid : id ∈ s.activeList) (hf : s.fids id = some f)
    (hflag : f.wasRemoved = false) (rc : Errno) (hheld : x.sent = true → f.fid ∈ serverFids s.log) :
    ∃ rc' s', releaseWith s id x rc = .ok (rc', s') ∧ FidOk s' none := by
  have hremoved : f.wasRemoved = true → f.fid ∉ serverFids s.log := fun htrue => by
    rw [hflag] at htrue
    cases htrue
  obtain ⟨s', heq, hok⟩ := h.release hid hf hremoved fun _ => hheld
  exact ⟨_, s', by rw [releaseWith, heq, ok_bind], hok⟩

theorem add (h : FidOk s none) (hfresh : s.fids id = none) (hleft : s.nextFid + 1 < 2 ^ 32) :
    FidOk { s with
      nextFid := s.nextFid + 1
      fids := update s.fids id (some ⟨s.nextFid, false, 1⟩)
      activeList := id :: s.activeList } (some id) := by
  have hold : ∀ j ∈ s.activeList ++ s.freeList,
      update s.fids id (some ⟨s.nextFid, false, 1⟩) j = s.fids j := fun j hj =>
    update_of_ne (h.ne_of_fresh hfresh hj) ..
  refine { h with toFidNumbers := h.toFidNumbers.add hfresh, next_lt := hleft,
                  held_lt := fun n hn => Nat.lt_succ_of_lt (h.held_lt n hn),
                  active := fun j hj hne e he => ?_, free := fun j hj e he => ?_ }
  · rcases mem_cons.mp hj with rfl | hj
    · exact absurd rfl hne
    · exact h.active j hj nofun e ((hold j (mem_append_left _ hj)).symm.trans he)
  · exact h.free j hj e ((hold j (mem_append_right _ hj)).symm.trans he)

theorem create (h : FidOk s none) (hmem : FreshMem s mem) (hleft : NumberLeft s) :
    uk9pdevFidCreate s mem = .ok (.error .enomem, s) ∨
      ∃ id f s', uk9pdevFidCreate s mem = .ok (.ok id, s') ∧ FidOk s' (some id) ∧
        id ∈ s'.activeList ∧ s'.fids id = some f ∧ f.wasRemoved = false ∧
        f.fid ∉ serverFids s'.log ∧ ∀ j ∈ s.activeList, s'.fids j = s.fids j := by
  unfold uk9pdevFidCreate
  cases hlist : s.freeList with
  | cons id rest =>
    have hfree : id ∈ s.freeList := hlist ▸ mem_cons_self
    obtain ⟨f, hf, -⟩ := h.live id (mem_append_right _ hfree)
    have hset := (h.focus id).set hf (g := { f with wasRemoved := false, refcount := 1 }) rfl
    simp only [hf]
    refine .inr ⟨id, _, _, rfl, ?_, mem_cons_self, update_self .., rfl,
      h.free id hfree f hf, fun j hj => update_of_ne ?_ ..⟩
    · refine { hset with
        toFidNumbers := hset.toFidNumbers.perm (FidNumbers.reused_perm hlist)
        active := fun j hj hne => ?_
        free := fun j hj => ?_ }
      · rcases mem_cons.mp hj with rfl | hj
        · exact absurd rfl hne
        · exact hset.active j hj hne
      · exact hset.free j (hlist ▸ mem_cons_of_mem _ hj)
    rintro rfl
    exact (nodup_append.mp h.nodup).2.2 j hj j hfree rfl
  | nil =>
    cases mem with
    | none => exact .inl rfl
    | some id =>
      have hnext : addU32 s.nextFid 1 = s.nextFid + 1 := addU32_eq (hleft hlist)
      have hadd := h.add hmem (hleft hlist)
      rw [hlist] at hadd
      rw [hnext]
      refine .inr ⟨id, _, _, rfl, hadd, mem_cons_self,
        update_self .., rfl, fun hheld => (h.held_lt _ hheld).false,
        fun j hj => update_of_ne ?_ ..⟩
      exact h.ne_of_fresh hmem (mem_append_left _ hj)

theorem attach (h : FidOk s none) (hmem : FreshMem s mem) (hleft : NumberLeft s)
    (hclunk : x.accepted = true ∨ clunk.sent = false) :
    ∃ rc s', uk9pAttach s mem x clunk = .ok (rc, s') ∧ FidOk s' none := by
  rcases h.create hmem hleft with hno | ⟨id, f, s₁, hcreate, h₁, hid, hf, hflag, hnew, -⟩
  · exact ⟨_, s, by rw [uk9pAttach, hno, ok_bind], h⟩
  have hsend : ∀ a, FidOk { s₁ with log := s₁.log ++ [(.tattach f.fid, a)] } (some id) := by
    have hmsg : (Msg.tattach f.fid).Legal (serverFids s₁.log) := hnew
    exact fun a => h₁.send hid hf rfl hmsg a
  have hheld : f.fid ∈ serverFids (s₁.log ++ [(.tattach f.fid, true)]) := by
    rw [serverFids_append]
    exact Finset.mem_insert_self _ _
  have hunsent : x.accepted = false → ¬ clunk.sent = true := by
    intro hx hsent
    rcases hclunk with hacc | hno
    · cases hx.symm.trans hacc
    · cases hsent.symm.trans hno
  simp only [uk9pAttach, hcreate, ok_bind, hf]
  cases x with
  | noMem => exact h₁.giveUp hid hf hflag .enomem fun hsent => absurd hsent (hunsent rfl)
  | overflow => exact h₁.giveUp hid hf hflag .enobufs fun hsent => absurd hsent (hunsent rfl)
  | notSent rc => exact h₁.giveUp hid hf hflag rc fun hsent => absurd hsent (hunsent rfl)
  | rerror rc =>
    exact (hsend false).giveUp hid hf hflag rc fun hsent => absurd hsent (hunsent rfl)
  | reply r =>
    cases r with
    | full => exact ⟨_, _, rfl, (hsend true).settle hf (iff_of_true hheld hflag)⟩
    | truncated => exact (hsend true).giveUp hid hf hflag .enobufs fun _ => hheld
    | otherCount => exact ⟨_, _, rfl, (hsend true).settle hf (iff_of_true hheld hflag)⟩

theorem markRemoved_eq (hf : s.fids id = some f) : markRemoved s id =
    { s with fids := update s.fids id (some { f with wasRemoved := true }) } := by
  rw [markRemoved, hf, Option.map_some]

theorem giveUpRemoved (h : FidOk s (some id)) (hid : id ∈ s.activeList) (hf : s.fids id = some f)
    (hheld : f.fid ∉ serverFids s.log) (rc : Errno) :
    ∃ rc' s', releaseWith (markRemoved s id) id x rc = .ok (rc', s') ∧ FidOk s' none := by
  obtain ⟨s', heq, hok⟩ := (h.set hf (g := { f with wasRemoved := true }) rfl).release
    hid (update_self ..) (x := x) (fun _ => hheld) nofun
  exact ⟨_, s', by rw [releaseWith, markRemoved_eq hf, heq, ok_bind], hok⟩

theorem walk (h : FidOk s none) {fid : Nat}
    (hfid : fid ∈ s.activeList) (hmem : FreshMem s mem) (hleft : NumberLeft s) (hreq : x ≠ .noMem)
    (hclunk : x = .overflow ∨ x = .reply .otherCount → clunk.sent = false) :
    ∃ rc s', uk9pWalk s fid mem x clunk = .ok (rc, s') ∧ FidOk s' none := by
  rcases h.create hmem hleft with hno | ⟨id, f, s₁, hcreate, h₁, hid, hf, hflag, hnew, hold⟩
  · exact ⟨_, s, by rw [uk9pWalk, hno, ok_bind], h⟩
  obtain ⟨g, hg, -⟩ := h.live fid (mem_append_left _ hfid)
  have hg₁ : s₁.fids fid = some g := (hold fid hfid).trans hg
  have hsend : ∀ a, FidOk { s₁ with log := s₁.log ++ [(.twalk g.fid f.fid, a)] } (some id) := by
    have hmsg : (Msg.twalk g.fid f.fid).Legal (serverFids s₁.log) := hnew
    exact fun a => h₁.send hid hf rfl hmsg a
  have hrefused : f.fid ∉ serverFids (s₁.log ++ [(.twalk g.fid f.fid, false)]) := by
    rw [serverFids_append]
    exact hnew
  have hheld : f.fid ∈ serverFids (s₁.log ++ [(.twalk g.fid f.fid, true)]) := by
    rw [serverFids_append]
    exact Finset.mem_insert_self _ _
  simp only [uk9pWalk, hcreate, ok_bind, hf, hg₁]
  cases x with
  | noMem => exact absurd rfl hreq
  | overflow =>
    refine h₁.giveUp hid hf hflag .enobufs fun hsent => ?_
    cases hsent.symm.trans (hclunk (.inl rfl))
  | notSent rc => exact h₁.giveUpRemoved hid hf hnew rc
  | rerror rc => exact (hsend false).giveUpRemoved hid hf hrefused rc
  | reply r =>
    cases r with
    | full => exact ⟨_, _, rfl, (hsend true).settle hf (iff_of_true hheld hflag)⟩
    | truncated => exact (hsend true).giveUp hid hf hflag .enobufs fun _ => hheld
    | otherCount =>
      refine (hsend false).giveUp hid hf hflag .enoent fun hsent => ?_
      cases hsent.symm.trans (hclunk (.inr rfl))

section

variable (h : FidOk s none) (hid : id ∈ s.activeList)

include h hid

theorem remove (hsent : x.sent = true ∨ (s.fids id).elim false Fid.wasRemoved = true) :
    ∃ rc s', uk9pRemove s id x = .ok (rc, s') ∧ FidOk s' none := by
  obtain ⟨f, hf, -⟩ := h.live id (mem_append_left _ hid)
  have hset := (h.focus id).set hf (g := { f with wasRemoved := true }) rfl
  have hnew : update s.fids id (some { f with wasRemoved := true }) id =
      some { f with wasRemoved := true } := update_self ..
  -- once the message is sent, the server does not hold the fid
  have hdone : ∀ a, FidOk { s with
      fids := update s.fids id (some { f with wasRemoved := true })
      log := s.log ++ [(.tremove f.fid, a)] } none := by
    intro a
    have hmsg : (Msg.tremove f.fid).Legal (serverFids s.log) := trivial
    refine (hset.send hid hnew rfl hmsg a).settle hnew (iff_of_false ?_ nofun)
    rw [serverFids_append]
    exact Finset.notMem_erase _ _
  -- and if it is not sent, the server did not hold it before
  have hbefore : x.sent = false → FidOk { s with
      fids := update s.fids id (some { f with wasRemoved := true }) } none := by
    intro hx
    rw [hx, hf] at hsent
    have hremoved : f.wasRemoved = true := hsent.resolve_left nofun
    refine hset.settle hnew (iff_of_false ?_ nofun)
    rw [h.active id hid nofun f hf, hremoved]
    nofun
  simp only [uk9pRemove, hf, markRemoved_eq hf]
  cases x with
  | noMem | overflow | notSent rc => exact ⟨_, _, rfl, hbefore rfl⟩
  | rerror rc => exact ⟨_, _, rfl, hdone false⟩
  | reply r => exact ⟨_, _, rfl, hdone true⟩

theorem setRefs (hf : s.fids id = some f) (c : Nat) :
    FidOk { s with fids := update s.fids id (some { f with refcount := c }) } none :=
  ((h.focus id).set hf (g := { f with refcount := c }) rfl).settle (update_self ..)
    (h.active id hid nofun f hf)

theorem get : ∃ rc s', uk9pfidGet s id = .ok (rc, s') ∧ FidOk s' none := by
  obtain ⟨f, hf, -⟩ := h.live id (mem_append_left _ hid)
  simp only [uk9pfidGet, hf]
  exact ⟨_, _, rfl, h.setRefs hid hf _⟩

theorem put (hrefs : 0 < (s.fids id).elim 0 Fid.refcount) :
    ∃ rc s', uk9pfidPut s id clunk = .ok (rc, s') ∧ FidOk s' none := by
  obtain ⟨f, hf, -⟩ := h.live id (mem_append_left _ hid)
  have hpos : 0 < f.refcount := by
    rw [hf] at hrefs
    exact hrefs
  have hset := h.setRefs hid hf (refcountRelease f.refcount)
  have hactive := h.active id hid nofun f hf
  simp only [uk9pfidPut, hf, ukAssert_pos hpos, ok_bind]
  by_cases hlast : f.refcount ≤ 1
  · have hremoved : f.wasRemoved = true → f.fid ∉ serverFids s.log := by
      intro hflag hheld
      cases (hactive.mp hheld).symm.trans hflag
    obtain ⟨s', heq, hok⟩ := (hset.focus id).release hid (update_self ..) (x := clunk)
      hremoved fun hflag _ => hactive.mpr hflag
    rw [if_pos hlast, heq, ok_bind]
    exact ⟨_, s', rfl, hok⟩
  rw [if_neg hlast]
  exact ⟨_, _, rfl, hset⟩

end

theorem step (h : FidOk s none) {call : FidCall} (hlegal : LegalFidCall s call)
    (horderly : Orderly s call) : ∃ rc s', fidStep s call = .ok (rc, s') ∧ FidOk s' none := by
  cases call with
  | attach mem x clunk => exact h.attach hlegal horderly.1 horderly.2
  | walk id mem x clunk =>
    exact h.walk hlegal.1 hlegal.2 horderly.1 horderly.2.1 horderly.2.2
  | remove id x => exact h.remove hlegal horderly
  | get id => exact h.get hlegal.1
  | put id clunk => exact h.put hlegal.1 hlegal.2

end FidOk

/-- **The fid protocol.** In every run whose calls all go well, a fid that is clunked is held by the
server, and a number that is offered for a new fid is not. -/
theorem uk_9p_fid_protocol {s : P9}
    (h : Reachable fidStep (fun s call => LegalFidCall s call ∧ Orderly s call) fidMgmtInit s) :
    Lawful s.log := by
  have hok : FidOk s none := h.invariant_of_returns (I := fun s => FidOk s none) fidMgmtInit_ok
      fun s call hs hcall => hs.step hcall.1 hcall.2
  exact hok.lawful

/-- A walk is refused, one is clunked, one is successful; the file is removed, and the number is
used by the next walk. -/
theorem uk_9p_fid_protocol_reuse :
    ∃ s, Reachable fidStep (fun s call => LegalFidCall s call ∧ Orderly s call) fidMgmtInit s ∧
      s.log = [(.tattach 0, true), (.twalk 0 1, false), (.twalk 0 1, true), (.tclunk 1, true),
        (.twalk 0 1, true), (.tremove 1, false), (.twalk 0 1, true)] ∧ Lawful s.log := by
  obtain ⟨s, hreach, hlog⟩ : ∃ s, Reachable fidStep
      (fun s call => LegalFidCall s call ∧ Orderly s call) fidMgmtInit s ∧
      s.log = [(.tattach 0, true), (.twalk 0 1, false), (.twalk 0 1, true), (.tclunk 1, true),
        (.twalk 0 1, true), (.tremove 1, false), (.twalk 0 1, true)] :=
    Reachable.exists_of_run
      [.attach (some 1) (.reply .full) .noMem, .walk 1 (some 2) (.rerror .eio) .noMem,
        .walk 1 none (.reply .truncated) (.reply .full), .walk 1 none (.reply .full) .noMem,
        .remove 2 (.rerror .eio), .put 2 .noMem, .walk 1 none (.reply .full) .noMem]
      (by decide +kernel)
  exact ⟨s, hreach, hlog, uk_9p_fid_protocol hreach⟩

/-- An attach that is refused is followed by a clunk; and after a remove request that is not sent,
the number of the fid is offered while the server holds it. -/
theorem uk_9p_fid_protocol_violated :
    (∃ s, Reachable fidStep LegalFidCall fidMgmtInit s ∧
      s.log = [(.tattach 0, false), (.tclunk 0, false)] ∧ ¬ Lawful s.log) ∧
    ∃ s, Reachable fidStep LegalFidCall fidMgmtInit s ∧
      s.log = [(.tattach 0, true), (.twalk 0 1, true), (.twalk 0 1, false)] ∧
      ¬ Lawful s.log := by
  constructor
  · obtain ⟨s, hs, hlog⟩ : ∃ s, Reachable fidStep LegalFidCall fidMgmtInit s ∧
        s.log = [(.tattach 0, false), (.tclunk 0, false)] :=
      Reachable.exists_of_run [.attach (some 1) (.rerror .eio) (.rerror .eio)] (by decide +kernel)
    refine ⟨s, hs, hlog, fun hlaw => ?_⟩
    exact absurd (hlaw [(.tattach 0, false)] _ [] hlog) (by decide)
  obtain ⟨s, hs, hlog⟩ : ∃ s, Reachable fidStep LegalFidCall fidMgmtInit s ∧
      s.log = [(.tattach 0, true), (.twalk 0 1, true), (.twalk 0 1, false)] :=
    Reachable.exists_of_run
      [.attach (some 1) (.reply .full) .noMem, .walk 1 (some 2) (.reply .full) .noMem,
        .remove 2 (.notSent .eio), .put 2 .noMem, .walk 1 none (.rerror .eio) .noMem]
      (by decide +kernel)
  refine ⟨s, hs, hlog, fun hlaw => ?_⟩
  exact absurd (hlaw [(.tattach 0, true), (.twalk 0 1, true)] _ [] hlog) (by decide)

/-! ### Creating and releasing -/

/-- A device, with the number of the calls so far and the numbers of the fids whose clunk has
failed. -/
structure FidSys where
  p9 : P9
  calls : Nat
  retired : List Nat

/-- A call that creates or releases a fid, with what becomes of its allocation or its clunk. -/
inductive FidMgmtCall
  | create (mem : Option Nat)
  | release (id : Nat) (x : Exchange)

def fidMgmtStep (s : FidSys) : FidMgmtCall → Outcome (Unit × FidSys)
  | .create mem => do
    let (_, p9) ← uk9pdevFidCreate s.p9 mem
    return ((), ⟨p9, s.calls + 1, s.retired⟩)
  | .release id x => do
    let (rc, _) ← uk9pClunk s.p9 id x
    let p9 ← uk9pdevFidRelease s.p9 id x
    match rc with
    | .ok _ => return ((), ⟨p9, s.calls + 1, s.retired⟩)
    | .error _ =>
      return ((), ⟨p9, s.calls + 1, (s.p9.fids id).elim 0 Fid.fid :: s.retired⟩)

/-- There are fewer than `2 ^ 32` calls, and only active fids are released. -/
def fidMgmtOk (s : FidSys) : FidMgmtCall → Prop
  | .create mem => s.calls + 1 < 2 ^ 32 ∧ FreshMem s.p9 mem
  | .release id _ => s.calls + 1 < 2 ^ 32 ∧ id ∈ s.p9.activeList

instance (s : FidSys) (call : FidMgmtCall) : Decidable (fidMgmtOk s call) := by
  cases call <;> dsimp only [fidMgmtOk] <;> infer_instance

/-- The invariant of these runs: a number that is retired is below the next one and no fid has
it. -/
structure FidSys.Inv (s : FidSys) : Prop where
  numbers : FidNumbers s.p9
  listed : ∀ id, s.p9.fids id ≠ none → id ∈ s.p9.activeList ++ s.p9.freeList
  next_le : s.p9.nextFid ≤ s.calls
  retired : ∀ n ∈ s.retired, n < s.p9.nextFid ∧ ∀ id f, s.p9.fids id = some f → f.fid ≠ n

theorem uk9pClunk_eq {s : P9} {id : Nat} {f : Fid} (hf : s.fids id = some f) (x : Exchange) :
    ∃ rc log, uk9pClunk s id x = .ok (rc, { s with log }) := by
  simp only [uk9pClunk, hf]
  split
  · exact ⟨_, s.log, rfl⟩
  cases x with
  | noMem | overflow | notSent rc => exact ⟨_, s.log, rfl⟩
  | rerror rc | reply r => exact ⟨_, _, rfl⟩

namespace FidSys.Inv

variable {s : FidSys}

theorem create (h : s.Inv) {mem : Option Nat} (hok : fidMgmtOk s (.create mem)) :
    ∃ s', fidMgmtStep s (.create mem) = .ok ((), s') ∧ s'.Inv := by
  obtain ⟨hcalls, hmem⟩ := hok
  have hle := h.next_le
  simp only [fidMgmtStep, uk9pdevFidCreate]
  cases hlist : s.p9.freeList with
  | cons id rest =>
    have hid : id ∈ s.p9.activeList ++ s.p9.freeList := by simp [hlist]
    obtain ⟨f, hf, -⟩ := h.numbers.live id hid
    have hset := h.numbers.set hf (g := { f with wasRemoved := false, refcount := 1 }) rfl
    simp only [hf]
    refine ⟨_, rfl, hset.perm (FidNumbers.reused_perm hlist), fun j hj => ?_,
      Nat.le_succ_of_le hle, fun n hn => ⟨(h.retired n hn).1, fun j e he => ?_⟩⟩
    · refine (FidNumbers.reused_perm hlist).mem_iff.mpr ?_
      by_cases hji : j = id
      · exact hji ▸ hid
      · exact h.listed j (by simpa [update_of_ne hji] using hj)
    obtain ⟨e', he', hnum⟩ :=
      fids_back hf (g := { f with wasRemoved := false, refcount := 1 }) rfl he
    exact hnum ▸ (h.retired n hn).2 j e' he'
  | nil =>
    cases mem with
    | none =>
      exact ⟨_, rfl, h.numbers, h.listed, Nat.le_succ_of_le hle, h.retired⟩
    | some id =>
      have hnext : addU32 s.p9.nextFid 1 = s.p9.nextFid + 1 := addU32_eq (by omega)
      have hadd := h.numbers.add hmem
      have hlisted := h.listed
      rw [hlist] at hadd hlisted
      simp only [hnext]
      refine ⟨_, rfl, hadd, fun j hj => ?_, Nat.succ_le_succ hle, fun n hn => ?_⟩
      · by_cases hji : j = id
        · exact hji ▸ mem_cons_self
        · exact mem_cons_of_mem _ (hlisted j (by simpa [update_of_ne hji] using hj))
      obtain ⟨hlt, hne⟩ := h.retired n hn
      refine ⟨Nat.lt_succ_of_lt hlt, fun j e he => ?_⟩
      by_cases hji : j = id
      · subst hji
        cases (update_self ..).symm.trans he
        exact hlt.ne'
      · exact hne j e ((update_of_ne hji ..).symm.trans he)

theorem release (h : s.Inv) {id : Nat} (hok : fidMgmtOk s (.release id x)) :
    ∃ s', fidMgmtStep s (.release id x) = .ok ((), s') ∧ s'.Inv := by
  obtain ⟨hcalls, hid⟩ := hok
  have hmem := mem_append_left s.p9.freeList hid
  obtain ⟨f, hf, hlt⟩ := h.numbers.live id hmem
  obtain ⟨rc, log, hclunk⟩ := uk9pClunk_eq hf x
  simp only [fidMgmtStep, uk9pdevFidRelease, hclunk, Outcome.ok_bind, hf, Option.elim_some]
  cases rc with
  | ok r =>
    have hperm := FidNumbers.recycled_perm hid
    exact ⟨_, rfl, (⟨h.numbers.nodup, h.numbers.live, h.numbers.inj⟩ :
        FidNumbers { s.p9 with log }).perm hperm,
      fun j hj => hperm.mem_iff.mpr (h.listed j hj), Nat.le_succ_of_le h.next_le, h.retired⟩
  | error e =>
    have hnumbers : FidNumbers { s.p9 with log } := ⟨h.numbers.nodup, h.numbers.live, h.numbers.inj⟩
    have hback : ∀ j e, update s.p9.fids id none j = some e → j ≠ id ∧ s.p9.fids j = some e := by
      intro j e he
      have hji : j ≠ id := by
        rintro rfl
        rw [update_self] at he
        cases he
      exact ⟨hji, (update_of_ne hji ..).symm.trans he⟩
    refine ⟨_, rfl, hnumbers.retire hid, fun j hj => ?_, Nat.le_succ_of_le h.next_le,
      fun n hn => ?_⟩
    · obtain ⟨e, he⟩ := Option.ne_none_iff_exists'.mp hj
      obtain ⟨hji, he⟩ := hback j e he
      have hj := h.listed j (by simp [he])
      rw [mem_append, mem_erase_of_ne hji]
      exact mem_append.mp hj
    rcases mem_cons.mp hn with rfl | hn
    · -- the number of the fid itself, which no other fid has
      refine ⟨hlt, fun j e he heq => ?_⟩
      obtain ⟨hji, he⟩ := hback j e he
      exact hji (h.numbers.inj j (h.listed j (by simp [he])) id hmem e f he hf heq)
    · exact ⟨(h.retired n hn).1, fun j e he => (h.retired n hn).2 j e (hback j e he).2⟩

theorem step (h : s.Inv) {call : FidMgmtCall} (hok : fidMgmtOk s call) :
    ∃ s', fidMgmtStep s call = .ok ((), s') ∧ s'.Inv := by
  cases call with
  | create mem => exact h.create hok
  | release id x => exact h.release hok

end FidSys.Inv

/-- **The numbers of the fids are unique.** In every run of fewer than `2 ^ 32` calls, every fid is
in one of the two lists, no two of them have the same number, all numbers are below the next one,
and the number of a fid whose clunk has failed is not used again. Every call returns. -/
theorem uk_9pdev_fid_numbers (s : FidSys)
    (hs : Reachable fidMgmtStep fidMgmtOk ⟨fidMgmtInit, 0, []⟩ s) :
    FidNumbers s.p9 ∧ (∀ id, s.p9.fids id ≠ none ↔ id ∈ s.p9.activeList ++ s.p9.freeList) ∧
      (∀ n ∈ s.retired, n < s.p9.nextFid ∧ ∀ id f, s.p9.fids id = some f → f.fid ≠ n) ∧
      ∀ call, fidMgmtOk s call → ∃ s', fidMgmtStep s call = .ok ((), s') := by
  have hinv : s.Inv := by
    refine hs.invariant_of_returns ⟨fidMgmtInit_numbers, fun _ h => absurd rfl h, le_rfl, nofun⟩ ?_
    exact fun s call h hok => ⟨_, h.step hok⟩
  refine ⟨hinv.numbers, fun id => ⟨hinv.listed id, fun hid => ?_⟩, hinv.retired, fun call hok => ?_⟩
  · obtain ⟨f, hf, -⟩ := hinv.numbers.live id hid
    simp [hf]
  obtain ⟨s', heq, -⟩ := hinv.step hok
  exact ⟨s', heq⟩

/-- Of two fids the clunk of the second one fails: the number of the first one is used again. -/
theorem uk_9pdev_fid_numbers_two :
    ∃ s, Reachable fidMgmtStep fidMgmtOk ⟨fidMgmtInit, 0, []⟩ s ∧ s.p9.activeList = [3, 1] ∧
      (s.p9.fids 3).map Fid.fid = some 2 ∧ s.retired = [1] ∧ FidNumbers s.p9 := by
  obtain ⟨s, hreach, hactive, hfid, hretired⟩ : ∃ s, Reachable fidMgmtStep fidMgmtOk
      ⟨fidMgmtInit, 0, []⟩ s ∧ s.p9.activeList = [3, 1] ∧ (s.p9.fids 3).map Fid.fid = some 2 ∧
      s.retired = [1] :=
    Reachable.exists_of_run [.create (some 1), .create (some 2), .release 1 (.reply .full),
      .release 2 (.rerror .eio), .create none, .create (some 3)] (by decide +kernel)
  exact ⟨s, hreach, hactive, hfid, hretired, (uk_9pdev_fid_numbers s hreach).1⟩

end Unikraft.Uk9p
