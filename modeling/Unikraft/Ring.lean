import Unikraft.Basic
import Unikraft.Lib.Run

/-!
# Unikraft.Ring

**The ring of `include/uk/ring.h`**, called by one thread. A head reserves a slot with a
compare-exchange, a tail publishes it.

The exchange evaluates to the new value when it succeeds, and the loops take 0 for a failure. So
the exchange that takes a head back to 0 is repeated: the slot in between is lost. Until then the
ring is a queue (`uk_ring_fifo`). `dequeue_sc` compares with a local variable that is not set.
-/

namespace Unikraft.Ring

open Lib List

/-! ### The source -/

/-- The ring structure. The elements are pointers, with `none` for `NULL`. -/
structure UkRing (α : Type) where
  prodHead : Nat
  prodTail : Nat
  prodSize : Nat
  prodMask : Nat
  drops : Nat
  consHead : Nat
  consTail : Nat
  consSize : Nat
  consMask : Nat
  ring : List (Option α)
  deriving DecidableEq

variable {α : Type}

/-- `UK_RING_ALLOC`; `drops` and `ring` are what the allocated memory holds. -/
def ukRingAlloc (count drops : Nat) (ring : List (Option α)) : UkRing α where
  prodHead := 0
  prodTail := 0
  prodSize := count
  prodMask := count - 1
  drops := drops
  consHead := 0
  consTail := 0
  consSize := count
  consMask := count - 1
  ring := ring

/-- `ukarch_compare_exchange_sync`: its value, and what the variable holds afterwards. -/
def ukarchCompareExchangeSync (stored old new : Nat) : Nat × Nat :=
  if stored = old then (new, new) else (old, stored)

/-- The loop of `enqueue` that moves the head of the producers: the slot and the next head, or
nothing when the ring is full. `continue` goes to the compare-exchange. -/
def enqueueLoop : Nat → UkRing α → Outcome (Option (Nat × Nat) × UkRing α)
  | 0, _ => .error .divergence
  | fuel + 1, br =>
    let prodHead := br.prodHead
    let prodNext := addU32 prodHead 1 &&& br.prodMask
    let consTail := br.consTail
    if prodNext = consTail ∧ prodHead = br.prodHead ∧ consTail = br.consTail then
      .ok (none, { br with drops := (br.drops + 1) % 2 ^ 64 })
    else
      let (result, head) := ukarchCompareExchangeSync br.prodHead prodHead prodNext
      if result = 0 then enqueueLoop fuel { br with prodHead := head }
      else .ok (some (prodHead, prodNext), { br with prodHead := head })

/-- `enqueue`. No other thread moves the tail while it is waited for. -/
def ukRingEnqueue (br : UkRing α) (buf : Option α) : Outcome (Except Errno Unit × UkRing α) := do
  match ← enqueueLoop 3 br with
  | (none, br) => return (.error .enobufs, br)
  | (some (prodHead, prodNext), br) =>
    if prodHead < br.ring.length then
      if br.prodTail ≠ prodHead then .error .divergence
      else return (.ok (), { br with ring := br.ring.set prodHead buf, prodTail := prodNext })
    else .error .outOfBounds

/-- The loop of `dequeue_mc` that moves the head of the consumers: the slot and the next
head, or nothing when the ring is empty. -/
def dequeueLoop : Nat → UkRing α → Outcome (Option (Nat × Nat) × UkRing α)
  | 0, _ => .error .divergence
  | fuel + 1, br =>
    let consHead := br.consHead
    let consNext := addU32 consHead 1 &&& br.consMask
    if consHead = br.prodTail then .ok (none, br)
    else
      let (result, head) := ukarchCompareExchangeSync br.consHead consHead consNext
      if result = 0 then dequeueLoop fuel { br with consHead := head }
      else .ok (some (consHead, consNext), { br with consHead := head })

/-- `dequeue_mc`: the element, or `NULL`. -/
def ukRingDequeueMc (br : UkRing α) : Outcome (Option α × UkRing α) := do
  match ← dequeueLoop 3 br with
  | (none, br) => return (none, br)
  | (some (consHead, consNext), br) =>
    match br.ring[consHead]? with
    | none => .error .outOfBounds
    | some buf =>
      if br.consTail ≠ consHead then .error .divergence
      else return (buf, { br with consTail := consNext })

/-- `full`. -/
def ukRingFull (br : UkRing α) : Bool := addU32 br.prodHead 1 &&& br.prodMask = br.consTail

/-- `empty`. -/
def ukRingEmpty (br : UkRing α) : Bool := br.consHead = br.prodTail

/-- `count`. -/
def ukRingCount (br : UkRing α) : Nat :=
  subU32 (addU32 br.prodSize br.prodTail) br.consTail &&& br.prodMask

/-! ### The queue the ring stands for -/

inductive RingCall (α : Type)
  | enqueue (buf : α)
  | dequeueMc

inductive RingReply (α : Type)
  | enqueued
  | enobufs
  | dequeued (buf : Option α)
  deriving DecidableEq

/-- A FIFO queue of at most `cap` elements. -/
def fifoCall (cap : Nat) (q : List α) : RingCall α → RingReply α × List α
  | .enqueue buf => if q.length < cap then (.enqueued, q ++ [buf]) else (.enobufs, q)
  | .dequeueMc => (.dequeued q.head?, q.tail)

/-- The ring, with the queue of the same calls beside it. -/
structure RingSys (α : Type) where
  br : UkRing α
  queue : List α

/-- One call on the ring; the reply is the ring's. -/
def ringStep (cap : Nat) (s : RingSys α) (c : RingCall α) : Outcome (RingReply α × RingSys α) := do
  let queue := (fifoCall cap s.queue c).2
  match c with
  | .enqueue buf =>
    match ← ukRingEnqueue s.br (some buf) with
    | (.ok (), br) => return (.enqueued, ⟨br, queue⟩)
    | (.error _, br) => return (.enobufs, ⟨br, queue⟩)
  | .dequeueMc =>
    let (buf, br) ← ukRingDequeueMc s.br
    return (.dequeued buf, ⟨br, queue⟩)

/-- The calls that do not take the head of the producers back to 0: an `enqueue` finds the
head before the last slot, or the ring full. -/
def ringOk (cap : Nat) (s : RingSys α) : RingCall α → Prop
  | .enqueue _ => s.br.prodHead ≠ cap ∨ ukRingFull s.br
  | .dequeueMc => True

instance (cap : Nat) (s : RingSys α) (c : RingCall α) : Decidable (ringOk cap s c) :=
  match c with
  | .enqueue _ => instDecidableOr
  | .dequeueMc => instDecidableTrue

/-- The ring with `2 ^ k` slots holds the queue from its consumer index on, without a wrap. -/
structure RingRep (k : Nat) (br : UkRing α) (q : List α) : Prop where
  size : br.prodSize = 2 ^ k
  prodMask : br.prodMask = 2 ^ k - 1
  consMask : br.consMask = 2 ^ k - 1
  slots : br.ring.length = 2 ^ k
  prodTail : br.prodTail = br.prodHead
  consTail : br.consTail = br.consHead
  length : br.prodHead = br.consHead + q.length
  bound : br.prodHead < 2 ^ k
  items : ∀ j < q.length, br.ring[br.consHead + j]? = some q[j]?

variable {k cap : Nat} {br : UkRing α} {q : List α} {s : RingSys α}

theorem RingRep.alloc {drops : Nat} {ring : List (Option α)} (hring : ring.length = 2 ^ k) :
    RingRep k (ukRingAlloc (2 ^ k) drops ring) [] :=
  ⟨rfl, rfl, rfl, hring, rfl, rfl, rfl, Nat.two_pow_pos k, nofun⟩

theorem next_index {i : Nat} (hk : k ≤ 31) (hi : i < 2 ^ k) :
    addU32 i 1 &&& (2 ^ k - 1) = if i + 1 = 2 ^ k then 0 else i + 1 := by
  have hpow : 2 ^ k ≤ 2 ^ 31 := Nat.pow_le_pow_right (by decide) hk
  rw [addU32, Nat.mod_eq_of_lt (by omega), Nat.and_two_pow_sub_one_eq_mod]
  split
  · rename_i heq
    rw [heq, Nat.mod_self]
  · exact Nat.mod_eq_of_lt (by omega)

namespace RingRep

section

variable (h : RingRep k br q)

include h

theorem full_iff (hk : k ≤ 31) : ukRingFull br ↔ q.length = 2 ^ k - 1 := by
  have hb := h.bound
  have hl := h.length
  rw [ukRingFull, decide_eq_true_iff, h.prodMask, next_index hk hb, h.consTail]
  split <;> omega

theorem empty_iff : ukRingEmpty br ↔ q = [] := by
  have hl := h.length
  rw [ukRingEmpty, decide_eq_true_iff, h.prodTail, ← length_eq_zero_iff]
  omega

theorem count_eq (hk : k ≤ 31) : ukRingCount br = q.length := by
  have hb := h.bound
  have hl := h.length
  have hpow : 2 ^ k ≤ 2 ^ 31 := Nat.pow_le_pow_right (by decide) hk
  have hsub : subU32 (addU32 (2 ^ k) br.prodHead) br.consHead = 2 ^ k + q.length := by
    unfold subU32 addU32
    omega
  rw [ukRingCount, h.size, h.prodMask, h.prodTail, h.consTail, hsub,
    Nat.and_two_pow_sub_one_eq_mod, Nat.add_mod_left, Nat.mod_eq_of_lt (by omega)]

theorem enqueue_full (hfull : ukRingFull br) (buf : Option α) :
    ∃ br', ukRingEnqueue br buf = .ok (.error .enobufs, br') ∧ RingRep k br' q := by
  rw [ukRingFull, decide_eq_true_iff] at hfull
  refine ⟨{ br with drops := (br.drops + 1) % 2 ^ 64 }, ?_, ?_⟩
  · rw [ukRingEnqueue, enqueueLoop, if_pos ⟨hfull, rfl, rfl⟩]
    rfl
  exact ⟨h.size, h.prodMask, h.consMask, h.slots, h.prodTail, h.consTail, h.length, h.bound,
    h.items⟩

theorem enqueue_next (hk : k ≤ 31) (hnext : br.prodHead + 1 < 2 ^ k) (buf : α) :
    ∃ br', ukRingEnqueue br (some buf) = .ok (.ok (), br') ∧ RingRep k br' (q ++ [buf]) := by
  have hl := h.length
  have hidx : addU32 br.prodHead 1 &&& br.prodMask = br.prodHead + 1 := by
    rw [h.prodMask, next_index hk h.bound, if_neg (by omega)]
  have hct := h.consTail
  refine ⟨{ br with prodHead := br.prodHead + 1, ring := br.ring.set br.prodHead (some buf),
                    prodTail := br.prodHead + 1 }, ?_, ?_⟩
  · rw [ukRingEnqueue, enqueueLoop]
    simp only [hidx, ukarchCompareExchangeSync, if_true, Nat.succ_ne_zero, if_false]
    rw [if_neg (by omega)]
    simp only [Outcome.ok_bind, h.slots, if_pos h.bound, h.prodTail, ne_eq, not_true_eq_false,
      if_false]
    rfl
  refine ⟨h.size, h.prodMask, h.consMask, by simpa using h.slots, rfl, h.consTail, ?_, hnext, ?_⟩
  · simp only [length_append, length_singleton]
    omega
  intro j hj
  simp only [length_append, length_singleton] at hj
  by_cases hjq : j < q.length
  · rw [getElem?_append_left hjq, ← h.items j hjq]
    have hne : br.prodHead ≠ br.consHead + j := by omega
    exact getElem?_set_ne hne
  obtain rfl : j = q.length := by omega
  rw [getElem?_concat_length, ← hl]
  exact getElem?_set_self (h.slots ▸ h.bound)

end

theorem dequeue_empty (h : RingRep k br []) : ukRingDequeueMc br = .ok (none, br) := by
  have hl : br.consHead = br.prodTail := by
    rw [h.prodTail, h.length]
    rfl
  rw [ukRingDequeueMc, dequeueLoop, if_pos hl]
  rfl

theorem dequeue_head {x : α} (h : RingRep k br (x :: q)) (hk : k ≤ 31) :
    ∃ br', ukRingDequeueMc br = .ok (some x, br') ∧ RingRep k br' q := by
  have hl := h.length
  have hb := h.bound
  rw [length_cons] at hl
  have hidx : addU32 br.consHead 1 &&& br.consMask = br.consHead + 1 := by
    rw [h.consMask, next_index hk (by omega), if_neg (by omega)]
  have hx : br.ring[br.consHead]? = some (some x) := h.items 0 (Nat.succ_pos _)
  have hpt := h.prodTail
  refine ⟨{ br with consHead := br.consHead + 1, consTail := br.consHead + 1 }, ?_, ?_⟩
  · rw [ukRingDequeueMc, dequeueLoop]
    simp only [hidx, ukarchCompareExchangeSync, if_true, Nat.succ_ne_zero, if_false]
    rw [if_neg (by omega)]
    simp only [Outcome.ok_bind, hx, h.consTail, ne_eq, not_true_eq_false, if_false]
    rfl
  refine ⟨h.size, h.prodMask, h.consMask, h.slots, h.prodTail, rfl, ?_, hb, ?_⟩
  · simp only
    omega
  intro j hj
  have := h.items (j + 1) (Nat.succ_lt_succ hj)
  rwa [getElem?_cons_succ, ← Nat.add_assoc, Nat.add_right_comm] at this

end RingRep

theorem ringStep_rep (h : RingRep k s.br s.queue) (hk : k ≤ 31) {c : RingCall α}
    (hok : ringOk (2 ^ k - 1) s c) :
    ∃ s', ringStep (2 ^ k - 1) s c = .ok ((fifoCall (2 ^ k - 1) s.queue c).1, s') ∧
      RingRep k s'.br s'.queue := by
  cases c with
  | enqueue buf =>
    have hl := h.length
    have hb := h.bound
    by_cases hfull : ukRingFull s.br
    · obtain ⟨br', heq, hrep⟩ := h.enqueue_full hfull (some buf)
      have hlen := (h.full_iff hk).mp hfull
      rw [ringStep, heq, fifoCall, if_neg (by omega)]
      exact ⟨_, rfl, hrep⟩
    have hlast : s.br.prodHead ≠ 2 ^ k - 1 := hok.resolve_right hfull
    obtain ⟨br', heq, hrep⟩ := h.enqueue_next hk (by omega) buf
    rw [ringStep, heq, fifoCall, if_pos (by omega)]
    exact ⟨_, rfl, hrep⟩
  | dequeueMc =>
    obtain ⟨br, queue⟩ := s
    cases queue with
    | nil =>
      rw [ringStep, h.dequeue_empty]
      exact ⟨_, rfl, h⟩
    | cons x q =>
      obtain ⟨br', heq, hrep⟩ := h.dequeue_head hk
      rw [ringStep, heq]
      exact ⟨_, rfl, hrep⟩

/-- **Bounded FIFO.** In every run in which no `enqueue` takes the head of the producers back to 0,
every call returns what a queue of one element less than the ring has slots returns, and the
inspections agree with it. -/
theorem uk_ring_fifo (k : Nat) (hk : 1 ≤ k ∧ k ≤ 31) (drops : Nat) (ring : List (Option α))
    (hring : ring.length = 2 ^ k) (s : RingSys α)
    (hs : Reachable (ringStep (2 ^ k - 1)) (ringOk (2 ^ k - 1))
      ⟨ukRingAlloc (2 ^ k) drops ring, []⟩ s) :
    ukRingCount s.br = s.queue.length ∧
      (ukRingFull s.br ↔ s.queue.length = 2 ^ k - 1) ∧ (ukRingEmpty s.br ↔ s.queue = []) ∧
      ∀ c, ringOk (2 ^ k - 1) s c →
        ∃ s', ringStep (2 ^ k - 1) s c = .ok ((fifoCall (2 ^ k - 1) s.queue c).1, s') := by
  have hrep : RingRep k s.br s.queue := by
    refine hs.invariant_of_returns (I := fun s => RingRep k s.br s.queue) (.alloc hring) ?_
    exact fun s c h hok => ⟨_, ringStep_rep h hk.2 hok⟩
  refine ⟨hrep.count_eq hk.2, hrep.full_iff hk.2, hrep.empty_iff, fun c hok => ?_⟩
  obtain ⟨s', hstep, -⟩ := ringStep_rep hrep hk.2 hok
  exact ⟨s', hstep⟩

/-- Four slots: three elements go in, one comes out. -/
theorem uk_ring_fifo_four_slots :
    ∃ s : RingSys Nat, Reachable (ringStep 3) (ringOk 3)
        ⟨ukRingAlloc 4 0 [none, none, none, none], []⟩ s ∧ s.queue = [8, 9] ∧
      ukRingCount s.br = 2 ∧ ringStep 3 s .dequeueMc ≠ .error .divergence := by
  obtain ⟨s, hreach, hqueue⟩ : ∃ s : RingSys Nat, Reachable (ringStep 3) (ringOk 3)
      ⟨ukRingAlloc 4 0 [none, none, none, none], []⟩ s ∧ s.queue = [8, 9] :=
    Reachable.exists_of_run [.enqueue 7, .enqueue 8, .enqueue 9, .enqueue 10, .dequeueMc]
      (by decide +kernel)
  obtain ⟨hcount, -, -, hcall⟩ := uk_ring_fifo 2 (by decide) 0 _ rfl s hreach
  obtain ⟨s', hstep⟩ := hcall .dequeueMc trivial
  refine ⟨s, hreach, hqueue, by rw [hcount, hqueue]; rfl, ?_⟩
  rw [show ringStep 3 s .dequeueMc = _ from hstep]
  nofun

/-- Four slots: with two elements in the ring `enqueue` is refused, and with one element it
does not return. -/
theorem uk_ring_enqueue_wraps :
    (∃ s : RingSys Nat, Reachable (ringStep 3) (ringOk 3)
        ⟨ukRingAlloc 4 0 [none, none, none, none], []⟩ s ∧ s.queue = [8, 9] ∧
      (ringStep 3 s (.enqueue 10)).toOption.map Prod.fst = some .enobufs) ∧
    ∃ s : RingSys Nat, Reachable (ringStep 3) (ringOk 3)
        ⟨ukRingAlloc 4 0 [none, none, none, none], []⟩ s ∧ s.queue = [9] ∧
      (ringStep 3 s (.enqueue 10)).toOption.isNone := by
  constructor
  · exact Reachable.exists_of_run [.enqueue 7, .enqueue 8, .enqueue 9, .dequeueMc]
      (by decide +kernel)
  · exact Reachable.exists_of_run [.enqueue 7, .enqueue 8, .enqueue 9, .dequeueMc, .dequeueMc]
      (by decide +kernel)

/-! ### The single-consumer dequeue -/

/-- `dequeue_sc`; `prodTail` is what its local variable of this name holds, which is not set. -/
def ukRingDequeueSc (br : UkRing α) (prodTail : Nat) : Outcome (Option α × UkRing α) :=
  let consHead := br.consHead
  let consNext := addU32 consHead 1 &&& br.consMask
  if consHead = prodTail then .ok (none, br)
  else
    match br.ring[consHead]? with
    | none => .error .outOfBounds
    | some buf => .ok (buf, { br with consHead := consNext, consTail := consNext })

/-- A call of a single-element operation; any pointer can be put into the ring. -/
inductive PointerCall (α : Type)
  | enqueue (buf : Option α)
  | dequeueMc
  | dequeueSc (prodTail : Nat)

def pointerStep (br : UkRing α) : PointerCall α → Outcome (Option α × UkRing α)
  | .enqueue buf => do
    let (_, br) ← ukRingEnqueue br buf
    return (none, br)
  | .dequeueMc => ukRingDequeueMc br
  | .dequeueSc prodTail => ukRingDequeueSc br prodTail

/-- The value makes the test for an empty ring come out right. -/
def TellsEmpty (br : UkRing α) (prodTail : Nat) : Prop :=
  br.consHead = prodTail ↔ br.consHead = br.prodTail

def pointerOk (br : UkRing α) : PointerCall α → Prop
  | .dequeueSc prodTail => TellsEmpty br prodTail
  | _ => True

instance (br : UkRing α) : ∀ c, Decidable (pointerOk br c)
  | .dequeueSc prodTail =>
    inferInstanceAs (Decidable (br.consHead = prodTail ↔ br.consHead = br.prodTail))
  | .enqueue _ | .dequeueMc => .isTrue trivial

/-- What all calls keep: the indices of the consumers are together and not past the tail of the
producers. -/
structure IndexInv (k : Nat) (br : UkRing α) : Prop where
  prodMask : br.prodMask = 2 ^ k - 1
  consMask : br.consMask = 2 ^ k - 1
  slots : br.ring.length = 2 ^ k
  consTail : br.consTail = br.consHead
  head_le : br.consHead ≤ br.prodTail
  tail_lt : br.prodTail < 2 ^ k
  prodHead : br.prodHead = br.prodTail ∨ br.prodHead = 0 ∧ br.prodTail + 1 = 2 ^ k

theorem enqueueLoop_moves {fuel : Nat} {br' : UkRing α} {found : Option (Nat × Nat)}
    (h : enqueueLoop fuel br = .ok (found, br')) :
    ∃ head drops, br' = { br with prodHead := head, drops := drops } ∧ match found with
      | none => head = br.prodHead ∨ head = 0 ∧ addU32 br.prodHead 1 &&& br.prodMask = 0
      | some (slot, next) => head = next ∧ next ≠ 0 ∧ next = addU32 slot 1 &&& br.prodMask := by
  induction fuel generalizing br with
  | zero => cases h
  | succ fuel ih =>
    rw [enqueueLoop] at h
    split at h
    · cases h
      exact ⟨br.prodHead, _, rfl, .inl rfl⟩
    simp only [ukarchCompareExchangeSync, if_true] at h
    split at h
    · rename_i hzero
      obtain ⟨head, drops, rfl, hfound⟩ := ih h
      refine ⟨head, drops, rfl, ?_⟩
      cases found with
      | none => exact .inr ⟨hfound.elim (·.trans hzero) And.left, hzero⟩
      | some move => exact hfound
    rename_i hne
    cases h
    exact ⟨_, br.drops, rfl, rfl, hne, rfl⟩

namespace IndexInv

theorem enqueue (h : IndexInv k br) (hk : k ≤ 31) {buf : Option α} {res : Except Errno Unit}
    {br' : UkRing α} (hcall : ukRingEnqueue br buf = .ok (res, br')) : IndexInv k br' := by
  have hlt := h.tail_lt
  rw [ukRingEnqueue] at hcall
  obtain ⟨⟨found, br₁⟩, hloop, hrest⟩ := Outcome.bind_ok.mp hcall
  obtain ⟨head, drops, rfl, hfound⟩ := enqueueLoop_moves hloop
  cases found with
  | none =>
    cases hrest
    refine ⟨h.prodMask, h.consMask, h.slots, h.consTail, h.head_le, hlt, ?_⟩
    rcases hfound with rfl | ⟨rfl, hwrap⟩
    · exact h.prodHead
    rcases h.prodHead with heq | ⟨-, hlast⟩
    · rw [h.prodMask, heq, next_index hk hlt] at hwrap
      split at hwrap
      · rename_i hlast
        exact .inr ⟨rfl, hlast⟩
      · cases hwrap
    · exact .inr ⟨rfl, hlast⟩
  | some move =>
    obtain ⟨slot, next⟩ := move
    obtain ⟨rfl, hne, hnext⟩ := hfound
    simp only at hrest
    split at hrest
    · split at hrest
      · cases hrest
      rename_i htail
      have htail : br.prodTail = slot := not_not.mp htail
      cases hrest
      rw [h.prodMask, ← htail, next_index hk hlt] at hnext
      split at hnext
      · exact absurd hnext hne
      have hle := h.head_le
      exact ⟨h.prodMask, h.consMask, by simpa using h.slots, h.consTail, by simp only; omega,
        by simp only; omega, .inl rfl⟩
    · cases hrest

theorem dequeue (h : IndexInv k br) (hk : k ≤ 31) {prodTail : Nat}
    (htells : TellsEmpty br prodTail) :
    ∃ buf br', ukRingDequeueMc br = .ok (buf, br') ∧
      ukRingDequeueSc br prodTail = .ok (buf, br') ∧ IndexInv k br' := by
  by_cases hempty : br.consHead = br.prodTail
  · refine ⟨none, br, ?_, ?_, h⟩
    · rw [ukRingDequeueMc, dequeueLoop, if_pos hempty]
      rfl
    · rw [ukRingDequeueSc, if_pos (htells.mpr hempty)]
  have hle := h.head_le
  have hlt := h.tail_lt
  have hidx : addU32 br.consHead 1 &&& br.consMask = br.consHead + 1 := by
    rw [h.consMask, next_index hk (by omega), if_neg (by omega)]
  obtain ⟨buf, hbuf⟩ : ∃ buf, br.ring[br.consHead]? = some buf :=
    ⟨_, getElem?_eq_getElem (by rw [h.slots]; omega)⟩
  refine ⟨buf, { br with consHead := br.consHead + 1, consTail := br.consHead + 1 }, ?_, ?_, ?_⟩
  · rw [ukRingDequeueMc, dequeueLoop]
    simp only [hidx, ukarchCompareExchangeSync, if_true, if_neg hempty, Nat.succ_ne_zero,
      if_false, Outcome.ok_bind, hbuf, h.consTail, ne_eq, not_true_eq_false]
    rfl
  · simp only [ukRingDequeueSc, if_neg (mt htells.mp hempty), hidx, hbuf]
  · exact ⟨h.prodMask, h.consMask, h.slots, rfl, by simp only; omega, hlt, h.prodHead⟩

end IndexInv

/-- **`dequeue_sc` agrees with `dequeue_mc`** in every state that single-element calls reach, for
every value of the variable that tells whether the ring is empty. -/
theorem uk_ring_dequeue_sc_eq_mc (k : Nat) (hk : k ≤ 31) (drops : Nat) (ring : List (Option α))
    (hring : ring.length = 2 ^ k) (br : UkRing α)
    (hbr : Reachable pointerStep pointerOk (ukRingAlloc (2 ^ k) drops ring) br) (prodTail : Nat)
    (htells : TellsEmpty br prodTail) :
    ∃ buf br', ukRingDequeueMc br = .ok (buf, br') ∧
      ukRingDequeueSc br prodTail = .ok (buf, br') := by
  have h : IndexInv k br := by
    refine hbr.invariant (I := IndexInv k)
      ⟨rfl, rfl, hring, rfl, le_rfl, Nat.two_pow_pos k, .inl rfl⟩ ?_
    intro br c r br' h hok hstep
    cases c with
    | enqueue buf =>
      obtain ⟨⟨res, br₁⟩, hcall, hrest⟩ := Outcome.bind_ok.mp hstep
      cases hrest
      exact h.enqueue hk hcall
    | dequeueMc =>
      have htail : TellsEmpty br br.prodTail := Iff.rfl
      obtain ⟨buf, br₁, hmc, -, h₁⟩ := h.dequeue hk htail
      cases hmc.symm.trans hstep
      exact h₁
    | dequeueSc prodTail =>
      obtain ⟨buf, br₁, -, hsc, h₁⟩ := h.dequeue hk hok
      cases hsc.symm.trans hstep
      exact h₁
  obtain ⟨buf, br', hmc, hsc, -⟩ := h.dequeue hk htells
  exact ⟨buf, br', hmc, hsc⟩

/-- Two elements in four slots, and the variable holds the tail of the producers. -/
theorem uk_ring_dequeue_sc_eq_mc_two :
    ∃ br : UkRing Nat, Reachable pointerStep pointerOk
        (ukRingAlloc 4 0 [none, none, none, none]) br ∧ TellsEmpty br 2 ∧
      ∃ buf br', ukRingDequeueMc br = .ok (buf, br') ∧ ukRingDequeueSc br 2 = .ok (buf, br') := by
  obtain ⟨br, hreach, htail⟩ : ∃ br : UkRing Nat, Reachable pointerStep pointerOk
      (ukRingAlloc 4 0 [none, none, none, none]) br ∧ br.prodTail = 2 :=
    Reachable.exists_of_run [.enqueue (some 7), .enqueue (some 8)] (by decide +kernel)
  have htells : TellsEmpty br 2 := by rw [TellsEmpty, htail]
  exact ⟨br, hreach, htells, uk_ring_dequeue_sc_eq_mc 2 (by decide) 0 _ rfl br hreach 2 htells⟩

/-- With one element in the ring and 0 in the variable, only `dequeue_mc` returns it. On the empty
ring, with 1 in the variable, `dequeue_sc` moves its index. -/
theorem uk_ring_dequeue_sc_differs :
    (∃ br : UkRing Nat, Reachable pointerStep pointerOk
        (ukRingAlloc 4 0 [none, none, none, none]) br ∧
      (ukRingDequeueMc br).toOption.map Prod.fst = some (some 7) ∧
      (ukRingDequeueSc br 0).toOption.map Prod.fst = some none) ∧
    let br : UkRing Nat := ukRingAlloc 4 0 [none, none, none, none]
    (ukRingDequeueMc br).toOption.map (·.2.consHead) = some 0 ∧
      (ukRingDequeueSc br 1).toOption.map (·.2.consHead) = some 1 := by
  refine ⟨?_, by decide, by decide⟩
  exact Reachable.exists_of_run [.enqueue (some 7)] (by decide +kernel)

end Unikraft.Ring
