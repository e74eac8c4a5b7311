import Mathlib.Data.List.Perm.Subperm
import Unikraft.Basic
import Unikraft.Lib.DoublyLinked
import Unikraft.Lib.Run

/-!
# Chains of network buffers (`lib/uknetdev/netbuf.c`)

A netbuf whose last reference is dropped leaves its chain (`Lib.DoublyLinked`) and is released
through its destructor and its allocator. The state logs the references that have been dropped and
the netbufs that have been released.
-/

namespace Unikraft.Uknetdev

open Lib Function Outcome List

/-! ### The code -/

/-- A netbuf that has been released: whether its destructor was called, and whether its memory was
given back to the allocator. -/
structure Release (N : Type) where
  netbuf : N
  called : Bool
  freed : Bool

structure Netbufs (N : Type) where
  next : N → Option N
  prev : N → Option N
  refcount : N → Nat
  /-- The allocator `_a` is not `NULL`. -/
  alloc : N → Bool
  /-- What the destructor returns, if there is one. -/
  dtor : N → Option Int
  live : List N
  dropped : List N
  released : List (Release N)

variable {N : Type} [DecidableEq N]

def Netbufs.deref (s : Netbufs N) (m : N) : Outcome Unit :=
  if m ∈ s.live then .ok () else .error .badPointer

/-- Set the `next` of a netbuf, if there is one. -/
def setNext (s : Netbufs N) (m v : Option N) : Outcome (Netbufs N) :=
  match m with
  | some p => do
      s.deref p
      .ok { s with next := update s.next p v }
  | none => .ok s

/-- Set the `prev` of a netbuf, if there is one. -/
def setPrev (s : Netbufs N) (m v : Option N) : Outcome (Netbufs N) :=
  match m with
  | some n => do
      s.deref n
      .ok { s with prev := update s.prev n v }
  | none => .ok s

def ukNetbufDisconnect (s : Netbufs N) (m : N) : Outcome (Option N × Netbufs N) := do
  s.deref m
  let remhead := s.next m
  let s ← setNext s (s.prev m) (s.next m)
  let s ← setPrev s (s.next m) (s.prev m)
  .ok (remhead, { s with
    prev := update s.prev m none
    next := update s.next m none })

/-- The assignments of `uk_netbuf_connect` and `uk_netbuf_append`. -/
def link (s : Netbufs N) (headtail tail : N) : Netbufs N :=
  { s with
    next := update s.next headtail (some tail)
    prev := update s.prev tail (some headtail) }

def ukNetbufConnect (s : Netbufs N) (headtail tail : N) : Outcome (Netbufs N) := do
  s.deref headtail
  ukAssert (s.next headtail = none)
  s.deref tail
  ukAssert (s.prev tail = none)
  .ok (link s headtail tail)

/-- `uk_netbuf_chain_last`. The fuel bounds the number of iterations; it runs out in a chain that
does not end. -/
def ukNetbufChainLast (s : Netbufs N) : Nat → N → Outcome N
  | 0, _ => .error .divergence
  | fuel + 1, m => do
      s.deref m
      match s.next m with
      | some n => ukNetbufChainLast s fuel n
      | none => .ok m

def ukNetbufAppend (s : Netbufs N) (head tail : N) : Outcome (Netbufs N) := do
  s.deref head
  ukAssert (s.prev head = none)
  s.deref tail
  ukAssert (s.prev tail = none)
  let headtail ← ukNetbufChainLast s s.live.length head
  .ok (link s headtail tail)

/-- The end of a netbuf that has been disconnected: its destructor, and its memory unless the
destructor has refused. -/
def releaseNetbuf (s : Netbufs N) (m : N) : Netbufs N :=
  let rc := (s.dtor m).getD 0
  { s with
    live := s.live.erase m
    released := ⟨m, (s.dtor m).isSome, s.alloc m && rc = 0⟩ :: s.released }

def ukNetbufFreeSingle (s : Netbufs N) (m : N) : Outcome (Netbufs N) := do
  s.deref m
  let old := s.refcount m
  let s := { s with
    refcount := update s.refcount m (refcountRelease old)
    dropped := m :: s.dropped }
  ukAssert (0 < old)
  if old > 1 then .ok s
  else do
    let (_, s) ← ukNetbufDisconnect s m
    .ok (releaseNetbuf s m)

/-- The loop of `uk_netbuf_free`. -/
def freeLoop : Nat → Option N → Netbufs N → Outcome (Netbufs N)
  | _, none, s => .ok s
  | 0, some _, _ => .error .divergence
  | fuel + 1, some m, s => do
      s.deref m
      let n := s.next m
      let s ← ukNetbufFreeSingle s m
      freeLoop fuel n s

def ukNetbufFree (s : Netbufs N) (m : N) : Outcome (Netbufs N) := do
  s.deref m
  ukAssert (s.prev m = none)
  freeLoop s.live.length (some m) s

/-! ### Runs -/

inductive NetbufEvent (N : Type)
  | connect (headtail tail : N)
  | append (head tail : N)
  | disconnect (m : N)
  | freeSingle (m : N)
  | free (m : N)

/-- A call, with what `uk_netbuf_disconnect` returns. -/
def step (s : Netbufs N) : NetbufEvent N → Outcome (Option N × Netbufs N)
  | .connect headtail tail => do .ok (none, ← ukNetbufConnect s headtail tail)
  | .append head tail => do .ok (none, ← ukNetbufAppend s head tail)
  | .disconnect m => ukNetbufDisconnect s m
  | .freeSingle m => do .ok (none, ← ukNetbufFreeSingle s m)
  | .free m => do .ok (none, ← ukNetbufFree s m)

/-- The calls on netbufs that exist which meet the assertions. -/
def Allowed (s : Netbufs N) : NetbufEvent N → Prop
  | .connect headtail tail => headtail ∈ s.live ∧ s.next headtail = none ∧ tail ∈ s.live ∧
      s.prev tail = none
  | .append head tail => head ∈ s.live ∧ s.prev head = none ∧ tail ∈ s.live ∧ s.prev tail = none
  | .disconnect m => m ∈ s.live
  | .freeSingle m => m ∈ s.live
  | .free m => m ∈ s.live ∧ s.prev m = none

/-- What is connected is in two chains: the chain of `tail` does not end in `headtail`. -/
def Apart (s : Netbufs N) : NetbufEvent N → Prop
  | .connect headtail tail =>
    (ukNetbufChainLast s s.live.length tail).toOption ≠ some headtail
  | .append head tail => head ≠ tail
  | _ => True

/-! ### The chains -/

/-- The netbufs that exist are in the chains `C`. -/
structure ChainInv (s : Netbufs N) (C : Set (List N)) : Prop where
  chains : Chains s.next s.prev C
  live : ∀ m, m ∈ s.live ↔ ∃ c ∈ C, m ∈ c
  nodup : s.live.Nodup

variable {s s' : Netbufs N} {C : Set (List N)} {xs ys c : List N} {m n : N}

theorem Netbufs.deref_ok (h : m ∈ s.live) : s.deref m = .ok () := if_pos h

theorem setNext_eq {o v : Option N} (h : ∀ p ∈ o, p ∈ s.live) :
    setNext s o v = .ok { s with next := relink s.next o v } := by
  cases o with
  | none => rfl
  | some p =>
    rw [setNext, Netbufs.deref_ok (h p rfl)]
    rfl

theorem setPrev_eq {o v : Option N} (h : ∀ p ∈ o, p ∈ s.live) :
    setPrev s o v = .ok { s with prev := relink s.prev o v } := by
  cases o with
  | none => rfl
  | some p =>
    rw [setPrev, Netbufs.deref_ok (h p rfl)]
    rfl

namespace ChainInv

omit [DecidableEq N] in
theorem exists_chain (h : ChainInv s C) (hm : m ∈ s.live) : ∃ xs ys, xs ++ m :: ys ∈ C := by
  obtain ⟨c, hc, hmem⟩ := (h.live m).mp hm
  obtain ⟨xs, ys, rfl⟩ := append_of_mem hmem
  exact ⟨xs, ys, hc⟩

omit [DecidableEq N] in
theorem mem_live (h : ChainInv s C) (hc : c ∈ C) (hm : m ∈ c) : m ∈ s.live :=
  (h.live m).mpr ⟨c, hc, hm⟩

omit [DecidableEq N] in
theorem pointers (h : ChainInv s C) (hc : xs ++ m :: ys ∈ C) :
    s.prev m = xs.getLast? ∧ s.next m = ys.head? := (h.chains.linked _ hc).pointers

omit [DecidableEq N] in
theorem exists_head (h : ChainInv s C) (hm : m ∈ s.live) (hprev : s.prev m = none) :
    ∃ ys, m :: ys ∈ C := by
  obtain ⟨xs, ys, hc⟩ := h.exists_chain hm
  have hlast := (h.pointers hc).1
  rw [hprev, eq_comm, getLast?_eq_none_iff] at hlast
  exact ⟨ys, by simpa [hlast] using hc⟩

omit [DecidableEq N] in
theorem exists_last (h : ChainInv s C) (hm : m ∈ s.live) (hnext : s.next m = none) :
    ∃ xs, xs ++ [m] ∈ C := by
  obtain ⟨xs, ys, hc⟩ := h.exists_chain hm
  have hhead := (h.pointers hc).2
  rw [hnext, eq_comm, head?_eq_none_iff] at hhead
  exact ⟨xs, by simpa [hhead] using hc⟩

omit [DecidableEq N] in
theorem length_le (h : ChainInv s C) (hc : c ∈ C) : c.length ≤ s.live.length :=
  ((h.chains.nodup c hc).subperm fun _ hx => h.mem_live hc hx).length_le

theorem chainLast (h : ChainInv s C) {fuel : Nat} (hc : xs ++ m :: ys ∈ C)
    (hfuel : ys.length < fuel) :
    ∃ last, (xs ++ m :: ys).getLast? = some last ∧ ukNetbufChainLast s fuel m = .ok last := by
  induction ys generalizing xs m fuel with
  | nil =>
    obtain ⟨fuel, rfl⟩ : ∃ k, fuel = k + 1 := ⟨fuel - 1, by omega⟩
    have hnext := (h.pointers hc).2
    refine ⟨m, by simp, ?_⟩
    rw [ukNetbufChainLast, Netbufs.deref_ok (h.mem_live hc (by simp))]
    simp only [ok_bind, hnext, head?_nil]
  | cons y ys ih =>
    obtain ⟨fuel, rfl⟩ : ∃ k, fuel = k + 1 := ⟨fuel - 1, by omega⟩
    have hnext := (h.pointers hc).2
    have hsplit : xs ++ m :: y :: ys = (xs ++ [m]) ++ y :: ys := by simp
    rw [hsplit] at hc
    obtain ⟨last, hlast, heq⟩ := ih hc (by simpa using hfuel)
    refine ⟨last, hsplit ▸ hlast, ?_⟩
    rw [ukNetbufChainLast, Netbufs.deref_ok (h.mem_live hc (by simp))]
    simpa only [ok_bind, hnext, head?_cons] using heq

theorem chainLast_head (h : ChainInv s C) (hc : m :: ys ∈ C) :
    ∃ last, (m :: ys).getLast? = some last ∧ ukNetbufChainLast s s.live.length m = .ok last := by
  have hc' : [] ++ m :: ys ∈ C := hc
  exact h.chainLast hc' (Nat.lt_of_lt_of_le (Nat.lt_succ_self _) (h.length_le hc))

/-- **Joining two chains.** -/
theorem link (h : ChainInv s C) (hxs : xs ∈ C) (hys : ys ∈ C) (hne : xs ≠ ys)
    (hlast : xs.getLast? = some m) (hhead : ys.head? = some n) :
    ChainInv (Uknetdev.link s m n) (C \ {xs, ys} ∪ {xs ++ ys}) := by
  refine ⟨?_, fun x => ?_, h.nodup⟩
  · have hjoin := h.chains.join hxs hys hne
    rwa [hlast, hhead] at hjoin
  refine (h.live x).trans ⟨?_, ?_⟩
  · rintro ⟨c, hc, hx⟩
    by_cases hold : c ∈ ({xs, ys} : Set (List N))
    · refine ⟨xs ++ ys, .inr rfl, ?_⟩
      rcases hold with rfl | rfl <;> simp [hx]
    · exact ⟨c, .inl ⟨hc, hold⟩, hx⟩
  rintro ⟨c, hc | rfl, hx⟩
  · exact ⟨c, hc.1, hx⟩
  rcases mem_append.mp hx with hx | hx
  · exact ⟨xs, hxs, hx⟩
  · exact ⟨ys, hys, hx⟩

end ChainInv

/-- The state when `m` has been taken out of a chain between `xs` and `ys`. -/
def disconnected (s : Netbufs N) (xs : List N) (m : N) (ys : List N) : Netbufs N :=
  { s with
    next := update (relink s.next xs.getLast? ys.head?) m none
    prev := update (relink s.prev ys.head? xs.getLast?) m none }

namespace ChainInv

theorem disconnect_eq (h : ChainInv s C) (hc : xs ++ m :: ys ∈ C) :
    ukNetbufDisconnect s m = .ok (ys.head?, Uknetdev.disconnected s xs m ys) := by
  obtain ⟨hprev, hnext⟩ := h.pointers hc
  have hlive : ∀ x ∈ xs ++ m :: ys, x ∈ s.live := fun x hx => h.mem_live hc hx
  have hnd := (perm_middle.nodup_iff).mp (h.chains.nodup _ hc)
  have hmem := (nodup_cons.mp hnd).1
  have hself : relink s.next xs.getLast? ys.head? m = ys.head? := by
    rw [relink_of_notMem fun hlast => hmem (by simp [mem_of_getLast? hlast]), hnext]
  have hleft : ∀ p ∈ xs.getLast?, p ∈ s.live := fun p hp =>
    hlive p (by simp [mem_of_getLast? hp])
  have hright : ∀ n ∈ ys.head?, n ∈ s.live := fun n hn => hlive n (by simp [mem_of_head? hn])
  have hsecond := setPrev_eq (s := { s with next := relink s.next xs.getLast? ys.head? })
    (v := xs.getLast?) hright
  rw [ukNetbufDisconnect, Netbufs.deref_ok (hlive m (by simp)), hprev, hnext]
  simp only [ok_bind, setNext_eq hleft, hself, hprev, hsecond]
  rfl

theorem disconnected (h : ChainInv s C) (hc : xs ++ m :: ys ∈ C) :
    ChainInv (Uknetdev.disconnected s xs m ys)
      (C \ {xs ++ m :: ys} ∪ {c | c = [m] ∨ c = xs ++ ys ∧ c ≠ []}) := by
  refine ⟨h.chains.unlink hc, fun x => (h.live x).trans ⟨?_, ?_⟩, h.nodup⟩
  · rintro ⟨c, hcC, hx⟩
    by_cases hold : c = xs ++ m :: ys
    · subst hold
      rcases mem_append.mp hx with hx | hx
      · exact ⟨xs ++ ys, .inr (.inr ⟨rfl, ne_nil_of_mem (mem_append_left _ hx)⟩),
          mem_append_left _ hx⟩
      rcases mem_cons.mp hx with rfl | hx
      · exact ⟨[x], .inr (.inl rfl), mem_singleton_self _⟩
      exact ⟨xs ++ ys, .inr (.inr ⟨rfl, ne_nil_of_mem (mem_append_right _ hx)⟩),
        mem_append_right _ hx⟩
    · exact ⟨c, .inl ⟨hcC, hold⟩, hx⟩
  rintro ⟨c, hcC | rfl | ⟨rfl, -⟩, hx⟩
  · exact ⟨c, hcC.1, hx⟩
  · exact ⟨_, hc, by simp [mem_singleton.mp hx]⟩
  refine ⟨_, hc, ?_⟩
  rcases mem_append.mp hx with hx | hx <;> simp [hx]

end ChainInv

namespace ChainInv

omit [DecidableEq N] in
theorem prev_next (h : ChainInv s C) (hm : m ∈ s.live) (hn : s.next m = some n) :
    n ∈ s.live ∧ s.prev n = some m := by
  obtain ⟨xs, ys, hc⟩ := h.exists_chain hm
  rw [(h.pointers hc).2] at hn
  obtain ⟨ys, rfl⟩ := head?_eq_some_iff.mp hn
  have hsplit : xs ++ m :: n :: ys = (xs ++ [m]) ++ n :: ys := by simp
  rw [hsplit] at hc
  exact ⟨h.mem_live hc (by simp), by rw [(h.pointers hc).1]; simp⟩

omit [DecidableEq N] in
theorem next_prev (h : ChainInv s C) (hm : m ∈ s.live) (hn : s.prev m = some n) :
    n ∈ s.live ∧ s.next n = some m := by
  obtain ⟨xs, ys, hc⟩ := h.exists_chain hm
  rw [(h.pointers hc).1] at hn
  obtain ⟨xs, rfl⟩ := getLast?_eq_some_iff.mp hn
  rw [append_assoc] at hc
  exact ⟨h.mem_live hc (by simp), by rw [(h.pointers hc).2]; simp⟩

theorem release (h : ChainInv s C) (hm : [m] ∈ C) : ChainInv (releaseNetbuf s m) (C \ {[m]}) := by
  refine ⟨h.chains.forget _, fun x => ?_, h.nodup.erase m⟩
  refine (h.nodup.mem_erase_iff).trans ⟨?_, ?_⟩
  · rintro ⟨hne, hx⟩
    obtain ⟨c, hc, hx⟩ := (h.live x).mp hx
    refine ⟨c, ⟨hc, ?_⟩, hx⟩
    rintro rfl
    exact hne (mem_singleton.mp hx)
  rintro ⟨c, ⟨hc, hne⟩, hx⟩
  refine ⟨?_, (h.live x).mpr ⟨c, hc, hx⟩⟩
  rintro rfl
  exact hne (h.chains.unique c hc _ hm x hx (mem_singleton_self x))

end ChainInv

/-! ### The references -/

def Netbufs.releases (s : Netbufs N) (m : N) : List (Release N) :=
  s.released.filter (·.netbuf = m)

/-- The destructor is called if there is one, and the memory is given back if there is an allocator
and the destructor has not failed. -/
def Netbufs.proper (s : Netbufs N) (m : N) : Release N :=
  ⟨m, (s.dtor m).isSome, s.alloc m && (s.dtor m).getD 0 = 0⟩

/-- A netbuf that exists: some of its first references have not been dropped. -/
structure Held (s₀ s : Netbufs N) (m : N) : Prop where
  live : m ∈ s.live
  pos : 0 < s.refcount m
  lt : s.refcount m < 2 ^ 16
  count : s.refcount m + s.dropped.count m = s₀.refcount m
  releases : s.releases m = []

/-- A netbuf that does not exist any more: all its references have been dropped, and it has been
released once. -/
structure Gone (s₀ s : Netbufs N) (m : N) : Prop where
  notLive : m ∉ s.live
  count : s.dropped.count m = s₀.refcount m
  releases : s.releases m = [s₀.proper m]

/-- **Every netbuf is released exactly when its last reference is dropped.** -/
structure Ledger (s₀ s : Netbufs N) : Prop where
  sub : ∀ m ∈ s.live, m ∈ s₀.live
  proper : s.proper = s₀.proper
  each : ∀ m ∈ s₀.live, Held s₀ s m ∨ Gone s₀ s m

variable {s₀ : Netbufs N}

namespace Ledger

theorem held (h : Ledger s₀ s) (hm : m ∈ s.live) : Held s₀ s m :=
  (h.each m (h.sub m hm)).resolve_right fun hgone => hgone.notLive hm

theorem of_eq (h : Ledger s₀ s) (hrc : s'.refcount = s.refcount) (hlive : s'.live = s.live)
    (hdropped : s'.dropped = s.dropped) (hreleased : s'.released = s.released)
    (hproper : s'.proper = s.proper) : Ledger s₀ s' := by
  refine ⟨hlive ▸ h.sub, hproper.trans h.proper,
    fun m hm => (h.each m hm).imp (fun hh => ?_) fun hg => ?_⟩
  · exact ⟨hlive ▸ hh.live, hrc ▸ hh.pos, hrc ▸ hh.lt, by rw [hrc, hdropped]; exact hh.count,
      by rw [Netbufs.releases, hreleased]; exact hh.releases⟩
  exact ⟨hlive ▸ hg.notLive, hdropped ▸ hg.count,
    by rw [Netbufs.releases, hreleased]; exact hg.releases⟩

end Ledger

def dropRef (s : Netbufs N) (m : N) : Netbufs N :=
  { s with
    refcount := update s.refcount m (refcountRelease (s.refcount m))
    dropped := m :: s.dropped }

namespace Ledger

theorem drop (h : Ledger s₀ s) (hm : m ∈ s.live) (hmany : 1 < s.refcount m) :
    Ledger s₀ (dropRef s m) := by
  refine ⟨h.sub, h.proper, fun x hx => ?_⟩
  by_cases hxm : x = m
  · subst hxm
    have hheld := h.held hm
    have hrc : (dropRef s x).refcount x = s.refcount x - 1 :=
      (update_self _ _ _).trans (refcountRelease_eq hheld.pos hheld.lt)
    have hcount := hheld.count
    refine .inl ⟨hm, by omega, ?_, ?_, hheld.releases⟩
    · rw [hrc]
      exact (Nat.sub_le _ _).trans_lt hheld.lt
    rw [hrc, dropRef, count_cons_self]
    omega
  have hcount : (dropRef s m).dropped.count x = s.dropped.count x := count_cons_of_ne (Ne.symm hxm)
  have hrc : (dropRef s m).refcount x = s.refcount x := update_of_ne hxm _ _
  refine (h.each x hx).imp (fun hh => ?_) fun hg => ?_
  · exact ⟨hh.live, hrc ▸ hh.pos, hrc ▸ hh.lt, by rw [hrc, hcount]; exact hh.count, hh.releases⟩
  · exact ⟨hg.notLive, hcount.trans hg.count, hg.releases⟩

theorem release (h : Ledger s₀ s) (hm : m ∈ s.live) (hnd : s.live.Nodup)
    (hone : s.refcount m = 1) (hrc : ∀ x, x ≠ m → s'.refcount x = s.refcount x)
    (hlive : s'.live = s.live) (hdropped : s'.dropped = m :: s.dropped)
    (hreleased : s'.released = s.released) (hproper : s'.proper = s.proper) :
    Ledger s₀ (releaseNetbuf s' m) := by
  have hheld := h.held hm
  have hcount := hheld.count
  have hmem (x : N) : x ∈ (releaseNetbuf s' m).live ↔ x ≠ m ∧ x ∈ s.live := by
    rw [releaseNetbuf, hlive]
    exact hnd.mem_erase_iff
  have hlog : (releaseNetbuf s' m).released = s₀.proper m :: s.released := by
    rw [← h.proper, ← hproper, ← hreleased]
    rfl
  refine ⟨fun x hx => h.sub x ((hmem x).mp hx).2, hproper.trans h.proper, fun x hx => ?_⟩
  have hdrops : (releaseNetbuf s' m).dropped = m :: s.dropped := hdropped
  by_cases hxm : x = m
  · subst hxm
    refine .inr ⟨fun hx => ((hmem x).mp hx).1 rfl, ?_, ?_⟩
    · rw [hdrops, count_cons_self]
      omega
    have hself : (s₀.proper x).netbuf = x := rfl
    rw [Netbufs.releases, hlog, filter_cons_of_pos (by simp [hself])]
    exact congrArg _ hheld.releases
  have hcount' : (releaseNetbuf s' m).dropped.count x = s.dropped.count x := by
    rw [hdrops, count_cons_of_ne (Ne.symm hxm)]
  have hrel : (releaseNetbuf s' m).releases x = s.releases x := by
    have hself : (s₀.proper m).netbuf = m := rfl
    rw [Netbufs.releases, hlog, filter_cons_of_neg (by simp [hself, Ne.symm hxm])]
    rfl
  have hrcx : (releaseNetbuf s' m).refcount x = s.refcount x := hrc x hxm
  refine (h.each x hx).imp (fun hh => ?_) fun hg => ?_
  · exact ⟨(hmem x).mpr ⟨hxm, hh.live⟩, hrcx ▸ hh.pos, hrcx ▸ hh.lt,
      by rw [hrcx, hcount']; exact hh.count, hrel.trans hh.releases⟩
  exact ⟨fun hx => hg.notLive ((hmem x).mp hx).2, hcount'.trans hg.count, hrel.trans hg.releases⟩

end Ledger

/-! ### Freeing -/

theorem freeSingle_inv (h : ChainInv s C) (hled : Ledger s₀ s) (hc : xs ++ m :: ys ∈ C) :
    ∃ s' C' xs', ukNetbufFreeSingle s m = .ok s' ∧ ChainInv s' C' ∧ Ledger s₀ s' ∧
      (xs' ++ ys = [] ∨ xs' ++ ys ∈ C') := by
  have hm : m ∈ s.live := h.mem_live hc (by simp)
  have hheld := hled.held hm
  have hdrop : ChainInv (dropRef s m) C := ⟨h.chains, h.live, h.nodup⟩
  rw [ukNetbufFreeSingle, Netbufs.deref_ok hm]
  simp only [ok_bind, ukAssert_pos hheld.pos]
  by_cases hmany : s.refcount m > 1
  · rw [if_pos hmany]
    exact ⟨_, C, xs ++ [m], rfl, hdrop, hled.drop hm hmany, .inr (by simpa using hc)⟩
  have hone : s.refcount m = 1 := by
    have := hheld.pos
    omega
  rw [if_neg hmany]
  have hcall := hdrop.disconnect_eq hc
  rw [dropRef] at hcall
  rw [hcall]
  have hdisc := hdrop.disconnected hc
  refine ⟨_, _, xs, rfl, hdisc.release (.inr (.inl rfl)), ?_, ?_⟩
  · exact hled.release hm h.nodup hone (fun x hx => update_of_ne hx _ _) rfl rfl rfl rfl
  by_cases hnil : xs ++ ys = []
  · exact .inl hnil
  refine .inr ⟨.inr (.inr ⟨rfl, hnil⟩), fun hsingle => ?_⟩
  have hnd := (perm_middle.nodup_iff).mp (h.chains.nodup _ hc)
  rw [Set.mem_singleton_iff.mp hsingle] at hnd
  simp at hnd

/-- The loop of `uk_netbuf_free` over the rest `ys` of a chain, the netbufs `xs` before it being
those that are still referred to. -/
theorem freeLoop_inv {fuel : Nat} (h : ChainInv s C) (hled : Ledger s₀ s)
    (hc : xs ++ ys = [] ∨ xs ++ ys ∈ C) (hfuel : ys.length ≤ fuel) :
    ∃ s' C', freeLoop fuel ys.head? s = .ok s' ∧ ChainInv s' C' ∧ Ledger s₀ s' := by
  induction ys generalizing fuel xs s C with
  | nil =>
    refine ⟨s, C, ?_, h, hled⟩
    unfold freeLoop
    rfl
  | cons m ys ih =>
    obtain ⟨fuel, rfl⟩ : ∃ k, fuel = k + 1 := ⟨fuel - 1, by simp at hfuel; omega⟩
    have hc := hc.resolve_left (by simp)
    obtain ⟨s₁, C₁, xs₁, hcall, hinv, hled₁, hc₁⟩ := freeSingle_inv h hled hc
    obtain ⟨s', C', hloop, hinv', hled'⟩ := ih hinv hled₁ hc₁ (by simpa using hfuel)
    refine ⟨s', C', ?_, hinv', hled'⟩
    rw [head?_cons, freeLoop, Netbufs.deref_ok (h.mem_live hc (by simp)), (h.pointers hc).2]
    simp only [ok_bind, hcall]
    exact hloop

/-! ### Runs -/

/-- Netbufs at the start of a run: proper chains, and 16-bit counters of references none of which
has been dropped. -/
structure Start (s : Netbufs N) : Prop where
  chains : ∃ C, ChainInv s C
  refs : ∀ m ∈ s.live, 0 < s.refcount m ∧ s.refcount m < 2 ^ 16
  dropped : s.dropped = []
  released : s.released = []

theorem Start.ledger (h : Start s) : Ledger s s :=
  ⟨fun _ hm => hm, rfl, fun m hm => .inl ⟨hm, (h.refs m hm).1, (h.refs m hm).2,
    by rw [h.dropped]; rfl, by rw [Netbufs.releases, h.released]; rfl⟩⟩

/-- **One call.** A call that meets the assertions and does not close a chain to a ring returns,
and keeps the chains and the ledger. -/
theorem step_inv {e : NetbufEvent N} (h : ChainInv s C) (hled : Ledger s₀ s) (hok : Allowed s e)
    (hapart : Apart s e) : ∃ r s' C', step s e = .ok (r, s') ∧ ChainInv s' C' ∧ Ledger s₀ s' := by
  cases e with
  | connect headtail tail =>
    obtain ⟨hm, hnext, hn, hprev⟩ := hok
    obtain ⟨xs, hxs⟩ := h.exists_last hm hnext
    obtain ⟨ys, hys⟩ := h.exists_head hn hprev
    have hne : xs ++ [headtail] ≠ tail :: ys := by
      intro heq
      obtain ⟨last, hlast, hcall⟩ := h.chainLast_head hys
      rw [← heq, getLast?_concat] at hlast
      cases hlast
      exact hapart (by rw [hcall]; rfl)
    refine ⟨none, _, _, ?_, h.link hxs hys hne getLast?_concat rfl, hled.of_eq rfl rfl rfl rfl rfl⟩
    simp only [step, ukNetbufConnect, Netbufs.deref_ok hm, Netbufs.deref_ok hn,
      ukAssert_pos hnext, ukAssert_pos hprev, ok_bind]
  | append head tail =>
    obtain ⟨hm, hhead, hn, hprev⟩ := hok
    obtain ⟨xs, hxs⟩ := h.exists_head hm hhead
    obtain ⟨ys, hys⟩ := h.exists_head hn hprev
    have hne : head :: xs ≠ tail :: ys := fun heq => hapart (List.cons.inj heq).1
    obtain ⟨last, hlast, hcall⟩ := h.chainLast_head hxs
    refine ⟨none, _, _, ?_, h.link hxs hys hne hlast rfl, hled.of_eq rfl rfl rfl rfl rfl⟩
    simp only [step, ukNetbufAppend, Netbufs.deref_ok hm, Netbufs.deref_ok hn,
      ukAssert_pos hhead, ukAssert_pos hprev, ok_bind, hcall]
  | disconnect m =>
    obtain ⟨xs, ys, hc⟩ := h.exists_chain hok
    exact ⟨_, _, _, h.disconnect_eq hc, h.disconnected hc, hled.of_eq rfl rfl rfl rfl rfl⟩
  | freeSingle m =>
    obtain ⟨xs, ys, hc⟩ := h.exists_chain hok
    obtain ⟨s', C', -, hcall, hinv, hled', -⟩ := freeSingle_inv h hled hc
    exact ⟨none, s', C', by rw [step, hcall]; rfl, hinv, hled'⟩
  | free m =>
    obtain ⟨hm, hprev⟩ := hok
    obtain ⟨ys, hc⟩ := h.exists_head hm hprev
    have hc' : [] ++ m :: ys = [] ∨ [] ++ m :: ys ∈ C := .inr hc
    obtain ⟨s', C', hcall, hinv, hled'⟩ := freeLoop_inv h hled hc' (h.length_le hc)
    refine ⟨none, s', C', ?_, hinv, hled'⟩
    have hfree : ukNetbufFree s m = .ok s' := by
      rw [ukNetbufFree, Netbufs.deref_ok hm, ukAssert_pos hprev]
      exact hcall
    rw [step, hfree]
    rfl

/-- **Chains of network buffers.** In every run of calls that meet the assertions and in which
`connect` and `append` are called for two different chains, the netbufs form disjoint proper chains,
each is released exactly when its last reference is dropped, every further such call returns, and
`disconnect` of the first element returns the head of the rest. -/
theorem uk_netbuf_chains (s₀ s : Netbufs N) (hstart : Start s₀)
    (h : Reachable step (fun s e => Allowed s e ∧ Apart s e) s₀ s) :
    Ledger s₀ s ∧ (∃ C, ChainInv s C ∧ ∀ m ys, m :: ys ∈ C →
      ∃ s' C', ukNetbufDisconnect s m = .ok (ys.head?, s') ∧ ChainInv s' C' ∧ [m] ∈ C' ∧
        (ys ≠ [] → ys ∈ C')) ∧
    (∀ m ∈ s.live, (∀ n, s.next m = some n → n ∈ s.live ∧ s.prev n = some m) ∧
      ∀ n, s.prev m = some n → n ∈ s.live ∧ s.next n = some m) ∧
    ∀ e, Allowed s e → Apart s e → ∃ r s', step s e = .ok (r, s') := by
  obtain ⟨⟨C, hinv⟩, hled⟩ : (∃ C, ChainInv s C) ∧ Ledger s₀ s := by
    refine h.invariant_of_returns (I := fun s => (∃ C, ChainInv s C) ∧ Ledger s₀ s)
      ⟨hstart.chains, hstart.ledger⟩ ?_
    rintro s e ⟨⟨C, hinv⟩, hled⟩ ⟨hok, hapart⟩
    obtain ⟨r, s', C', hstep, hinv', hled'⟩ := step_inv hinv hled hok hapart
    exact ⟨r, s', hstep, ⟨C', hinv'⟩, hled'⟩
  refine ⟨hled, ⟨C, hinv, fun m ys hc => ?_⟩, fun m hm => ⟨fun n hn => hinv.prev_next hm hn,
    fun n hn => hinv.next_prev hm hn⟩, fun e hok hapart => ?_⟩
  · have hc' : [] ++ m :: ys ∈ C := hc
    exact ⟨_, _, hinv.disconnect_eq hc', hinv.disconnected hc', .inr (.inl rfl),
      fun hne => .inr (.inr ⟨rfl, hne⟩)⟩
  obtain ⟨r, s', -, heq, -⟩ := step_inv hinv hled hok hapart
  exact ⟨r, s', heq⟩

instance (s : Netbufs N) (e : NetbufEvent N) : Decidable (Allowed s e) := by
  cases e <;> dsimp only [Allowed] <;> infer_instance

instance (s : Netbufs N) (e : NetbufEvent N) : Decidable (Apart s e) := by
  cases e <;> dsimp only [Apart] <;> infer_instance

/-- Netbufs that have just been allocated, without a destructor; `refs` are their references. -/
def newNetbufs (live : List N) (refs : N → Nat) : Netbufs N :=
  ⟨fun _ => none, fun _ => none, refs, fun _ => true, fun _ => none, live, [], []⟩

omit [DecidableEq N] in
theorem start_newNetbufs {live : List N} {refs : N → Nat} (hnd : live.Nodup)
    (hrefs : ∀ m ∈ live, 0 < refs m ∧ refs m < 2 ^ 16) : Start (newNetbufs live refs) := by
  refine ⟨⟨{c | ∃ m ∈ live, c = [m]}, ⟨?_, ?_, ?_, ?_⟩, fun m => ⟨fun hm => ?_, ?_⟩, hnd⟩, hrefs,
    rfl, rfl⟩
  · rintro c ⟨m, -, rfl⟩
    simp
  · rintro c ⟨m, -, rfl⟩
    exact nodup_singleton m
  · rintro c ⟨m, -, rfl⟩
    exact ⟨rfl, rfl, trivial⟩
  · rintro c ⟨m, -, rfl⟩ c' ⟨n, -, rfl⟩ x hx hx'
    rw [mem_singleton] at hx hx'
    rw [← hx, ← hx']
  · exact ⟨[m], ⟨m, hm, rfl⟩, mem_singleton_self m⟩
  rintro ⟨c, ⟨n, hn, rfl⟩, hm⟩
  exact mem_singleton.mp hm ▸ hn

/-- A chain of three netbufs, the second of which has two references, is freed. The one that stays
is alone in its chain. -/
theorem uk_netbuf_chains_shared :
    ∃ s : Netbufs Nat, s.live = [1] ∧ s.next 1 = none ∧ s.dropped.count 0 = 1 ∧
      Ledger (newNetbufs [0, 1, 2] fun m => if m = 1 then 2 else 1) s ∧ ∃ C, ChainInv s C := by
  obtain ⟨s, hs, hlive, hnext, hcount⟩ : ∃ s : Netbufs Nat,
      Reachable step (fun s e => Allowed s e ∧ Apart s e)
        (newNetbufs [0, 1, 2] fun m => if m = 1 then 2 else 1) s ∧
      s.live = [1] ∧ s.next 1 = none ∧ s.dropped.count 0 = 1 :=
    Reachable.exists_of_run [.connect 1 2, .append 0 1, .free 0] (by decide +kernel)
  obtain ⟨hled, ⟨C, hinv, -⟩, -⟩ := uk_netbuf_chains _ s
    (start_newNetbufs (by decide) (by decide)) hs
  exact ⟨s, hlive, hnext, hcount, hled, C, hinv⟩

/-- Connecting the end of a chain of two to its head makes a ring, and disconnecting the end of the
chain returns `NULL` although the head remains. -/
theorem uk_netbuf_chains_ring :
    (∃ s, Reachable step Allowed (newNetbufs [0, 1] fun _ : Nat => 1) s ∧ ¬ ∃ C, ChainInv s C) ∧
    ∃ s s', Reachable step Allowed (newNetbufs [0, 1] fun _ : Nat => 1) s ∧ s.prev 1 = some 0 ∧
      step s (.disconnect 1) = .ok (none, s') ∧ 0 ∈ s'.live := by
  constructor
  · obtain ⟨s, hs, hlive, hprev0, hprev1⟩ : ∃ s, Reachable step Allowed
        (newNetbufs [0, 1] fun _ : Nat => 1) s ∧ s.live = [0, 1] ∧ s.prev 0 = some 1 ∧
        s.prev 1 = some 0 :=
      Reachable.exists_of_run [.connect 0 1, .connect 1 0] (by decide +kernel)
    refine ⟨s, hs, fun ⟨C, hinv⟩ => ?_⟩
    -- every chain has a first element, but each of the two netbufs has a `prev`
    obtain ⟨c, hc, -⟩ := (hinv.live 0).mp (by simp [hlive])
    obtain ⟨m, ys, rfl⟩ := exists_cons_of_ne_nil (hinv.chains.ne c hc)
    have hm : m ∈ s.live := hinv.mem_live hc mem_cons_self
    have hhead : s.prev m = none := (hinv.chains.linked _ hc).1
    rw [hlive] at hm
    rcases mem_pair.mp hm with rfl | rfl
    · simp [hprev0] at hhead
    · simp [hprev1] at hhead
  obtain ⟨s, hs, hprev, hcall⟩ : ∃ s, Reachable step Allowed
      (newNetbufs [0, 1] fun _ : Nat => 1) s ∧ s.prev 1 = some 0 ∧
      (step s (.disconnect 1)).toOption.map (fun r => (r.1, r.2.live)) = some (none, [0, 1]) :=
    Reachable.exists_of_run [.connect 0 1] (by decide +kernel)
  obtain ⟨s', hstep, hlive⟩ := exists_of_eval _ _ hcall
  exact ⟨s, s', hs, hprev, hstep, by simp [hlive]⟩

end Unikraft.Uknetdev
