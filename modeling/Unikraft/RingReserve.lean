import Mathlib.Data.List.Nodup
import Unikraft.Ring

/-!
# Unikraft.RingReserve

**Producers that reserve slots side by side** (`move_prod_head` of `include/uk/ring.h`), each with
a compare-exchange of the head.

The value of the exchange is the old head after a failure and the new one after a success, and only
0 makes the loop go on. So a call whose exchange has failed returns with the slots of another one,
and a call that takes the head to 0 reserves slots twice. If both are avoided (`exchangeOk`), every
slot is returned once.
-/

namespace Unikraft.Ring

open Lib Function List

/-! ### The source -/

/-- What a call of `move_prod_head` returns: the number of slots, and the heads around them. -/
structure Reservation where
  oldHead : Nat
  newHead : Nat
  n : Nat
  deriving DecidableEq

/-- Where a caller is: it is to load the head, to load the tail, or to exchange the head. -/
inductive MovePc
  | idle
  | loadHead (max : Nat)
  | loadTail (max oldHead : Nat)
  | exchange (max : Nat) (r : Reservation)
  deriving DecidableEq

/-- The fields of the ring that the calls use, the callers, and what the calls have returned.
Nobody moves the tail of the consumers. -/
structure MoveSys (T : Type) where
  prodHead : Nat
  consTail : Nat
  prodSize : Nat
  pc : T → MovePc
  returned : List Reservation

/-- A caller starts a call for `n` slots, or takes its next atomic step. -/
inductive MoveEvent (T : Type)
  | call (t : T) (n : Nat)
  | step (t : T)

variable {T : Type} [DecidableEq T]

/-- `*free_entries`. -/
def freeEntries (s : MoveSys T) (oldHead : Nat) : Nat :=
  subU32 (addU32 s.prodSize s.consTail) oldHead

/-- One event. A call for which there is no slot returns 0 and sets no new head. -/
def moveStep (s : MoveSys T) : MoveEvent T → Outcome (Unit × MoveSys T)
  | .call t n =>
    match s.pc t with
    | .idle => .ok ((), { s with pc := update s.pc t (.loadHead n) })
    | _ => .ok ((), s)
  | .step t =>
    match s.pc t with
    | .idle => .ok ((), s)
    | .loadHead max => .ok ((), { s with pc := update s.pc t (.loadTail max s.prodHead) })
    | .loadTail max oldHead =>
      let n := min max (freeEntries s oldHead)
      if n = 0 then .ok ((), { s with pc := update s.pc t .idle })
      else .ok ((), { s with
        pc := update s.pc t (.exchange max ⟨oldHead, addU32 oldHead n, n⟩) })
    | .exchange max r =>
      let (success, head) := ukarchCompareExchangeSync s.prodHead r.oldHead r.newHead
      if success = 0 then
        .ok ((), { s with prodHead := head, pc := update s.pc t (.loadHead max) })
      else .ok ((), { s with
        prodHead := head
        pc := update s.pc t .idle
        returned := s.returned ++ [r] })

/-- An exchange is taken for what it is: the new head of one that succeeds is not 0, and the old
head of one that fails is. -/
def MovePc.Recognised (prodHead : Nat) : MovePc → Prop
  | .exchange _ r => if prodHead = r.oldHead then r.newHead ≠ 0 else r.oldHead = 0
  | _ => True

instance (prodHead : Nat) (pc : MovePc) : Decidable (pc.Recognised prodHead) := by
  cases pc <;> dsimp only [MovePc.Recognised] <;> infer_instance

def exchangeOk (s : MoveSys T) : MoveEvent T → Prop
  | .call _ _ => True
  | .step t => (s.pc t).Recognised s.prodHead

instance (s : MoveSys T) (e : MoveEvent T) : Decidable (exchangeOk s e) := by
  cases e <;> dsimp only [exchangeOk] <;> infer_instance

def MoveSys.start (prodHead consTail prodSize : Nat) : MoveSys T :=
  ⟨prodHead, consTail, prodSize, fun _ => .idle, []⟩

/-! ### The slots -/

/-- The indices from the old head to the new one, modulo `2 ^ 32`. -/
def Reservation.slots (r : Reservation) : List Nat := (range r.n).map (addU32 r.oldHead)

def reserved (rs : List Reservation) : Nat := (rs.map Reservation.n).sum

/-- What the steps keep, from the head `first` on. -/
structure ReserveInv (first : Nat) (s : MoveSys T) : Prop where
  head : s.prodHead = addU32 first (reserved s.returned)
  slots : s.returned.flatMap Reservation.slots = (range (reserved s.returned)).map (addU32 first)
  fits : reserved s.returned ≤ freeEntries s first
  ends : ∀ r ∈ s.returned, r.newHead = addU32 r.oldHead r.n
  pending : ∀ t max r, s.pc t = .exchange max r →
    r.newHead = addU32 r.oldHead r.n ∧ r.n ≤ freeEntries s r.oldHead

variable {first : Nat} {s s' : MoveSys T} {t : T} {r : Reservation}

section

variable (h : ReserveInv first s)

include h

theorem ReserveInv.goto {pc : MovePc} (hpc : ∀ max r, pc = .exchange max r →
      r.newHead = addU32 r.oldHead r.n ∧ r.n ≤ freeEntries s r.oldHead) :
    ReserveInv first { s with pc := update s.pc t pc } := by
  refine ⟨h.head, h.slots, h.fits, h.ends, fun t' max r hr => ?_⟩
  by_cases ht : t' = t
  · subst ht
    exact hpc max r (by simpa using hr)
  · exact h.pending t' max r (by simpa [update_of_ne ht] using hr)

/-- A successful exchange reserves the slots behind the ones that are reserved. -/
theorem ReserveInv.reserve (hold : s.prodHead = r.oldHead)
    (hnew : r.newHead = addU32 r.oldHead r.n) (hn : r.n ≤ freeEntries s r.oldHead) :
    ReserveInv first { s with
      prodHead := r.newHead
      pc := update s.pc t .idle
      returned := s.returned ++ [r] } := by
  have hsum : reserved (s.returned ++ [r]) = reserved s.returned + r.n := by simp [reserved]
  have hfirst : r.oldHead = addU32 first (reserved s.returned) := hold ▸ h.head
  have hslots : r.slots = (range r.n).map (addU32 first <| reserved s.returned + ·) := by
    refine map_congr_left fun i _ => ?_
    rw [hfirst, addU32, addU32, addU32, Nat.mod_add_mod, Nat.add_assoc]
  have hfits := h.fits
  have hidle : ReserveInv first { s with pc := update s.pc t .idle } :=
    h.goto fun max r heq => by cases heq
  refine ⟨?_, ?_, ?_, ?_, hidle.pending⟩
  · rw [hsum, hnew, hfirst, addU32, addU32, addU32, Nat.mod_add_mod, Nat.add_assoc]
  · rw [flatMap_append, h.slots, hsum, range_add, map_append, map_map, flatMap_singleton, hslots]
    rfl
  · rw [hfirst] at hn
    rw [hsum]
    unfold freeEntries subU32 addU32 at hn hfits ⊢
    simp only
    omega
  intro r' hr'
  rcases mem_append.mp hr' with hr' | hr'
  · exact h.ends r' hr'
  · exact mem_singleton.mp hr' ▸ hnew

theorem ReserveInv.step {e : MoveEvent T} (hok : exchangeOk s e)
    (hstep : moveStep s e = .ok ((), s')) : ReserveInv first s' := by
  cases e with
  | call t n =>
    cases hpc : s.pc t <;> simp only [moveStep, hpc] at hstep <;> cases hstep
    · exact h.goto nofun
    all_goals exact h
  | step t =>
    cases hpc : s.pc t with
    | idle =>
      simp only [moveStep, hpc] at hstep
      cases hstep
      exact h
    | loadHead max =>
      simp only [moveStep, hpc] at hstep
      cases hstep
      exact h.goto nofun
    | loadTail max oldHead =>
      simp only [moveStep, hpc] at hstep
      split at hstep
      · cases hstep
        exact h.goto nofun
      cases hstep
      refine h.goto fun max r hr => ?_
      cases hr
      exact ⟨rfl, Nat.min_le_right _ _⟩
    | exchange max r =>
      obtain ⟨hnew, hn⟩ := h.pending t max r hpc
      simp only [exchangeOk, MovePc.Recognised, hpc] at hok
      simp only [moveStep, hpc, ukarchCompareExchangeSync] at hstep
      by_cases hold : s.prodHead = r.oldHead
      · rw [if_pos hold] at hok
        simp only [if_pos hold, if_neg hok] at hstep
        cases hstep
        exact h.reserve hold hnew hn
      rw [if_neg hold] at hok
      simp only [if_neg hold, if_pos hok] at hstep
      cases hstep
      exact h.goto nofun

end

/-- **Disjoint reservations.** In every run in which every exchange is taken for what it is, no two
calls return a common index, the slots that are returned add up to the advance of the head, and a
call returns as soon as its exchange succeeds. -/
theorem move_prod_head_reserves (prodHead consTail prodSize : Nat) (hhead : prodHead < 2 ^ 32)
    (s : MoveSys T) (hs : Reachable moveStep exchangeOk (.start prodHead consTail prodSize) s) :
    s.returned.Pairwise (fun r r' => r.slots.Disjoint r'.slots) ∧
      (∀ r ∈ s.returned, r.newHead = addU32 r.oldHead r.n) ∧
      (s.returned.map Reservation.n).sum = subU32 s.prodHead prodHead ∧
      ∀ t max r, s.pc t = .exchange max r → exchangeOk s (.step t) → s.prodHead = r.oldHead →
        ∃ s', moveStep s (.step t) = .ok ((), s') ∧ s'.pc t = .idle ∧
          s'.returned = s.returned ++ [r] := by
  have h : ReserveInv prodHead s := by
    refine hs.invariant ⟨?_, rfl, Nat.zero_le _, nofun, nofun⟩ fun s e r s' hs => hs.step
    exact (Nat.mod_eq_of_lt hhead).symm
  have hfits := h.fits
  have hlt : freeEntries s prodHead < 2 ^ 32 := Nat.mod_lt _ (by decide)
  refine ⟨?_, h.ends, ?_, fun t max r hpc hok hold => ?_⟩
  · refine (nodup_flatMap.mp ?_).2
    rw [h.slots]
    refine nodup_range.map_on fun i hi j hj heq => ?_
    rw [mem_range] at hi hj
    unfold addU32 at heq
    omega
  · change reserved s.returned = _
    rw [h.head]
    unfold addU32 subU32
    omega
  simp only [exchangeOk, MovePc.Recognised, hpc, if_pos hold] at hok
  simp only [moveStep, hpc, ukarchCompareExchangeSync, if_pos hold, if_neg hok]
  exact ⟨_, rfl, update_self .., rfl⟩

/-- Two callers, one after the other. -/
theorem move_prod_head_reserves_two :
    ∃ s : MoveSys Bool, Reachable moveStep exchangeOk (.start 5 5 8) s ∧
      s.returned = [⟨5, 7, 2⟩, ⟨7, 10, 3⟩] ∧
      s.returned.Pairwise (fun r r' => r.slots.Disjoint r'.slots) := by
  obtain ⟨s, hreach, hreturned⟩ : ∃ s : MoveSys Bool,
      Reachable moveStep exchangeOk (.start 5 5 8) s ∧ s.returned = [⟨5, 7, 2⟩, ⟨7, 10, 3⟩] :=
    Reachable.exists_of_run [.call true 2, .call false 3, .step true, .step true, .step true,
      .step false, .step false, .step false] (by decide +kernel)
  exact ⟨s, hreach, hreturned, (move_prod_head_reserves 5 5 8 (by decide) s hreach).1⟩

/-- Two callers that load the same head return common slots. And a call that takes the head to 0
starts again. -/
theorem move_prod_head_overlaps :
    (∃ s : MoveSys Bool, Reachable moveStep (fun _ _ => True) (.start 5 5 8) s ∧
      s.returned = [⟨5, 7, 2⟩, ⟨5, 8, 3⟩] ∧ s.prodHead = 7) ∧
    ∃ s : MoveSys Bool, Reachable moveStep (fun _ _ => True)
        (.start (2 ^ 32 - 2) (2 ^ 32 - 2) 8) s ∧
      s.returned = [] ∧ s.prodHead = 0 ∧ s.pc true = .loadHead 2 := by
  constructor
  · exact Reachable.exists_of_run [.call true 2, .call false 3, .step true, .step true, .step false,
      .step false, .step true, .step false] (by decide +kernel)
  · exact Reachable.exists_of_run [.call true 2, .step true, .step true, .step true]
      (by decide +kernel)

end Unikraft.Ring
