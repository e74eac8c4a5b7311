import Unikraft.Lib.Run
import Unikraft.Xen.Gnttab

/-!
# Unikraft.Xen.Revoke

**Taking grants back while the other domain moves** (`plat/xen/gnttab.c`) between any two accesses
to memory of the call.

The calls are sound as long as the other domain does not change the flags between a load and the
exchange that follows it (`grant_revocation_sound`). The exchange returns the new value if it has
succeeded and the expected one if it has failed, and the callers take the second for a success
(`grant_revocation_unsound`).
-/

namespace Unikraft.Xen

open Lib

variable {g : Gnttab} {gref : Nat}

/-! ### The other domain -/

/-- The flags the other domain sets while it uses a page. -/
inductive AccessFlag
  | reading
  | writing

def AccessFlag.bit : AccessFlag → Nat
  | reading => gtfReading
  | writing => gtfWriting

/-- A move of the other domain. A transfer that is offered is committed, then the frame is written,
and then it is completed. -/
inductive OtherMove
  | set (flag : AccessFlag)
  | clear (flag : AccessFlag)
  | commit
  | transfer (mfn : Nat)
  | complete

namespace GntRun

/-- What a move does to the entry. -/
def otherStep (s : GntRun) : OtherMove → GntRun
  | .set flag => s.setFlags (s.entry.flags ||| flag.bit)
  | .clear flag => s.setFlags (s.entry.flags ^^^ (s.entry.flags &&& flag.bit))
  | .commit => s.setFlags (s.entry.flags ||| gtfTransferCommitted)
  | .transfer mfn =>
    { s.setEntry { s.entry with frame := mfn % 2 ^ 32 } with moved := some (mfn % 2 ^ 32) }
  | .complete => s.setFlags (s.entry.flags ||| gtfTransferCompleted)

/-- An entry that grants access is marked as in use and as free; an entry that offers a transfer is
committed once, and completed when the frame has been written. -/
def Allows (s : GntRun) (m : OtherMove) : Prop :=
  match s.call with
  | .endTransfer =>
    match m with
    | .commit => s.entry.flags &&& gtfTypeMask = gtfAcceptTransfer ∧
        s.entry.flags &&& gtfTransferCommitted = 0
    | .transfer _ => s.entry.flags &&& gtfTransferCommitted ≠ 0 ∧ s.moved = none
    | .complete => s.moved ≠ none
    | _ => False
  | _ =>
    match m with
    | .set _ => True
    | .clear _ => True
    | _ => False

/-- Between a load of the flags and the exchange that follows it. -/
def Loaded (s : GntRun) : Prop :=
  match s.pc with
  | .resetExchange _ => s.exchanged = []
  | .transferExchange _ => True
  | _ => False

end GntRun

/-- A step of the code or a move of the other domain. -/
inductive GntEvent
  | code
  | other (m : OtherMove)

def gntStep (s : GntRun) : GntEvent → Outcome (Unit × GntRun)
  | .code => .ok ((), s.codeStep)
  | .other m => .ok ((), s.otherStep m)

/-- The other domain makes any of the moves that are possible. -/
def gntAny (s : GntRun) : GntEvent → Prop
  | .code => True
  | .other m => s.Allows m

/-- It makes none between a load of the flags and the exchange that follows it. -/
def gntOk (s : GntRun) : GntEvent → Prop
  | .code => True
  | .other m => s.Allows m ∧ ¬ s.Loaded

/-- **What a call that returns has done.** Access has ended by an exchange for zero when the entry
was not in use. A transfer has been withdrawn before it was committed, or the frame is returned. -/
def GntRun.Sound (s : GntRun) : Prop :=
  ∀ ret, s.pc = .returned ret → match s.call with
    | .endTransfer =>
      (ret = 0 ∧ ∃ f ∈ s.exchanged, f &&& gtfTransferCommitted = 0) ∨ s.moved = some ret
    | _ => ret ≠ 0 → ∃ f ∈ s.exchanged, f &&& (gtfReading ||| gtfWriting) = 0

/-! ### Access -/

namespace GntRun

variable {s : GntRun}

/-- What a call on an entry that grants access knows at each place, if no flags have changed
between a load and the exchange that follows it. -/
def AccessPc (s : GntRun) : Prop :=
  match s.pc with
  | .resetLoad => True
  | .resetExchange flags => flags &&& (gtfReading ||| gtfWriting) = 0 ∧
      (s.exchanged = [] → s.entry.flags = flags)
  | .grantFrame => s.exchanged ≠ []
  | .grantDomid => s.exchanged ≠ []
  | .grantFlags => s.exchanged ≠ []
  | .put _ => s.exchanged ≠ []
  | .returned ret => ret ≠ 0 → s.exchanged ≠ []
  | _ => False

/-- Every exchange has found an entry that was not in use. -/
structure AccessInv (s : GntRun) : Prop where
  call : s.call ≠ .endTransfer
  unused : ∀ f ∈ s.exchanged, f &&& (gtfReading ||| gtfWriting) = 0
  pc : s.AccessPc

theorem AccessInv.resetCheck {nflags : Nat} (hcall : s.call ≠ .endTransfer)
    (hunused : ∀ f ∈ s.exchanged, f &&& (gtfReading ||| gtfWriting) = 0)
    (hflags : s.exchanged = [] → s.entry.flags = nflags) : (s.resetCheck nflags).AccessInv := by
  unfold GntRun.resetCheck
  split
  · exact ⟨hcall, hunused, fun h => absurd rfl h⟩
  rename_i hfree
  exact ⟨hcall, hunused, not_not.mp hfree, hflags⟩

theorem AccessInv.resetDone (hcall : s.call ≠ .endTransfer)
    (hunused : ∀ f ∈ s.exchanged, f &&& (gtfReading ||| gtfWriting) = 0)
    (hdone : s.exchanged ≠ []) : s.resetDone.AccessInv := by
  unfold GntRun.resetDone
  split
  · exact ⟨hcall, hunused, hdone⟩
  · exact ⟨hcall, hunused, hdone⟩

section

variable (h : s.AccessInv)

include h

/-- **An exchange.** The first one finds the flags that were loaded. -/
theorem AccessInv.exchange {flags : Nat} (hpc : s.pc = .resetExchange flags) :
    s.codeStep.AccessInv := by
  obtain ⟨hcall, hunused, hat⟩ := h
  rw [AccessPc, hpc] at hat
  obtain ⟨hfree, hfirst⟩ := hat
  rw [codeStep, hpc]
  simp only
  by_cases heq : s.entry.flags = flags
  · have hunused' : ∀ f ∈ s.exchanged ++ [flags], f &&& (gtfReading ||| gtfWriting) = 0 :=
      List.forall_mem_append.mpr ⟨hunused, List.forall_mem_singleton.mpr hfree⟩
    have hne : s.exchanged ++ [flags] ≠ [] := by simp
    rw [exchange_of_eq heq]
    split
    · exact AccessInv.resetCheck hcall hunused' fun hnil => absurd hnil hne
    · exact AccessInv.resetDone hcall hunused' hne
  -- The call takes a failed exchange for a success; it has succeeded before.
  rw [exchange_of_ne heq]
  simp only [ne_eq, not_true_eq_false, if_false]
  exact AccessInv.resetDone hcall hunused fun hnil => heq (hfirst hnil)

/-- **A step of the code.** -/
theorem AccessInv.codeStep : s.codeStep.AccessInv := by
  obtain ⟨hcall, hunused, hat⟩ := id h
  rw [AccessPc] at hat
  cases hpc : s.pc with
  | resetLoad =>
    rw [GntRun.codeStep, hpc]
    exact AccessInv.resetCheck hcall hunused fun _ => rfl
  | resetExchange flags => exact h.exchange hpc
  | grantFrame | grantDomid =>
    rw [hpc] at hat
    rw [GntRun.codeStep, hpc]
    simp only
    split
    · exact ⟨hcall, hunused, hat⟩
    · exact h
  | grantFlags =>
    rw [hpc] at hat
    rw [GntRun.codeStep, hpc]
    simp only
    split
    · exact ⟨hcall, hunused, fun _ => hat⟩
    · exact h
  | put ret =>
    rw [hpc] at hat
    rw [GntRun.codeStep, hpc]
    exact ⟨hcall, hunused, fun _ => hat⟩
  | returned ret =>
    rw [GntRun.codeStep, hpc]
    exact h
  | transferLoad => rw [hpc] at hat; exact hat.elim
  | transferExchange flags | transferWait | transferFrame => rw [hpc] at hat; exact hat.elim

/-- **A move of the other domain**, outside of a load and the exchange that follows it. -/
theorem AccessInv.setFlags (hloaded : ¬ s.Loaded) (flags : Nat) : (s.setFlags flags).AccessInv := by
  obtain ⟨hcall, hunused, hat⟩ := h
  refine ⟨hcall, hunused, ?_⟩
  rw [AccessPc] at hat ⊢
  rw [Loaded] at hloaded
  cases hpc : s.pc with
  | resetExchange expected =>
    rw [hpc] at hat hloaded
    have hgoto : (s.setFlags flags).pc = .resetExchange expected := hpc
    rw [hgoto]
    exact ⟨hat.1, fun hnil => absurd hnil hloaded⟩
  | _ =>
    have hgoto : (s.setFlags flags).pc = s.pc := rfl
    rw [hgoto, hpc]
    rw [hpc] at hat
    exact hat

theorem AccessInv.otherStep {m : OtherMove} (hallows : s.Allows m)
    (hloaded : ¬ s.Loaded) : (s.otherStep m).AccessInv := by
  have hcall := h.call
  cases m with
  | set flag | clear flag => exact h.setFlags hloaded _
  | _ =>
    rw [Allows] at hallows
    cases hc : s.call with
    | endTransfer => exact absurd hc hcall
    | _ =>
      rw [hc] at hallows
      exact hallows.elim

theorem AccessInv.sound : s.Sound := by
  intro ret hret
  have hat := h.pc
  rw [AccessPc, hret] at hat
  have hdone : ret ≠ 0 → ∃ f ∈ s.exchanged, f &&& (gtfReading ||| gtfWriting) = 0 := by
    intro hne
    obtain ⟨f, hf⟩ := List.exists_mem_of_ne_nil _ (hat hne)
    exact ⟨f, hf, h.unused f hf⟩
  cases hc : s.call with
  | endTransfer => exact absurd hc h.call
  | _ => exact hdone

end

/-! ### Transfers -/

/-- What a call on an entry that offers a transfer knows at each place. -/
def TransferPc (s : GntRun) : Prop :=
  match s.pc with
  | .transferLoad => True
  | .transferWait => True
  | .transferExchange flags => flags &&& gtfTransferCommitted = 0 ∧ s.entry.flags = flags
  | .transferFrame => s.moved ≠ none
  | .put ret => (ret = 0 ∧ s.exchanged ≠ []) ∨ s.moved = some ret
  | .returned ret => (ret = 0 ∧ s.exchanged ≠ []) ∨ s.moved = some ret
  | _ => False

/-- Every exchange has found a transfer that was not committed, and the frame of a completed
transfer is in the entry. -/
structure TransferInv (s : GntRun) : Prop where
  call : s.call = .endTransfer
  uncommitted : ∀ f ∈ s.exchanged, f &&& gtfTransferCommitted = 0
  completed : s.entry.flags &&& gtfTransferCompleted ≠ 0 → s.moved ≠ none
  frame : ∀ m, s.moved = some m → s.entry.frame = m
  pc : s.TransferPc

section

variable (h : s.TransferInv)

include h

/-- **A step of the code.** -/
theorem TransferInv.codeStep : s.codeStep.TransferInv := by
  obtain ⟨hcall, huncommitted, hcompleted, hframe, hat⟩ := id h
  rw [TransferPc] at hat
  cases hpc : s.pc with
  | transferLoad =>
    rw [GntRun.codeStep, hpc]
    simp only
    split
    · rename_i hfree
      exact ⟨hcall, huncommitted, hcompleted, hframe, hfree, rfl⟩
    split
    · exact ⟨hcall, huncommitted, hcompleted, hframe, trivial⟩
    rename_i hdone
    exact ⟨hcall, huncommitted, hcompleted, hframe, hcompleted hdone⟩
  | transferExchange flags =>
    rw [hpc] at hat
    obtain ⟨hfree, hflags⟩ := hat
    have huncommitted' : ∀ f ∈ s.exchanged ++ [flags], f &&& gtfTransferCommitted = 0 :=
      List.forall_mem_append.mpr ⟨huncommitted, List.forall_mem_singleton.mpr hfree⟩
    have hcleared : (s.setFlags 0).entry.flags &&& gtfTransferCompleted ≠ 0 → s.moved ≠ none := by
      intro hne
      rw [setFlags, entry_setEntry] at hne
      exact absurd (Nat.zero_and _) hne
    have hframe' : ∀ m, s.moved = some m → (s.setFlags 0).entry.frame = m := by
      intro m hm
      rw [setFlags, entry_setEntry]
      exact hframe m hm
    rw [GntRun.codeStep, hpc]
    simp only
    rw [exchange_of_eq hflags]
    split
    · exact ⟨hcall, huncommitted', hcleared, hframe', .inl ⟨rfl, by simp [goto]⟩⟩
    · exact ⟨hcall, huncommitted', hcleared, hframe', trivial⟩
  | transferWait =>
    rw [GntRun.codeStep, hpc]
    simp only
    split
    · exact h
    rename_i hdone
    exact ⟨hcall, huncommitted, hcompleted, hframe, hcompleted hdone⟩
  | transferFrame =>
    rw [hpc] at hat
    obtain ⟨m, hm⟩ := Option.ne_none_iff_exists'.mp hat
    rw [GntRun.codeStep, hpc]
    refine ⟨hcall, huncommitted, hcompleted, hframe, .inr ?_⟩
    rw [hframe m hm]
    exact hm
  | put ret =>
    rw [hpc] at hat
    rw [GntRun.codeStep, hpc]
    exact ⟨hcall, huncommitted, hcompleted, hframe, hat⟩
  | returned ret =>
    rw [GntRun.codeStep, hpc]
    exact h
  | _ =>
    rw [hpc] at hat
    exact hat.elim

theorem TransferInv.setFlags {flags : Nat} (hloaded : ¬ s.Loaded)
    (hcompleted : flags &&& gtfTransferCompleted ≠ 0 → s.moved ≠ none) :
    (s.setFlags flags).TransferInv := by
  have hentry : (s.setFlags flags).entry = { s.entry with flags := flags } := entry_setEntry ..
  refine ⟨h.call, h.uncommitted, ?_, ?_, ?_⟩
  · rw [hentry]
    exact hcompleted
  · rw [hentry]
    exact h.frame
  have hat := h.pc
  rw [TransferPc] at hat ⊢
  rw [Loaded] at hloaded
  have hgoto : (s.setFlags flags).pc = s.pc := rfl
  cases hpc : s.pc with
  | transferExchange expected =>
    rw [hpc] at hloaded
    exact absurd trivial hloaded
  | _ =>
    rw [hgoto, hpc]
    rw [hpc] at hat
    exact hat

/-- **A move of the other domain.** -/
theorem TransferInv.otherStep {m : OtherMove} (hallows : s.Allows m)
    (hloaded : ¬ s.Loaded) : (s.otherStep m).TransferInv := by
  unfold Allows at hallows
  rw [h.call] at hallows
  cases m with
  | commit =>
    refine h.setFlags hloaded fun hne => h.completed ?_
    rwa [Nat.and_or_distrib_right, show gtfTransferCommitted &&& gtfTransferCompleted = 0 from rfl,
      Nat.or_zero] at hne
  | complete => exact h.setFlags hloaded fun _ => hallows
  | transfer mfn =>
    obtain ⟨-, hnone⟩ := hallows
    have hentry : (s.otherStep (.transfer mfn)).entry =
        { s.entry with frame := mfn % 2 ^ 32 } := entry_setEntry ..
    refine ⟨h.call, h.uncommitted, fun _ => Option.some_ne_none _, ?_, ?_⟩
    · intro m hm
      rw [hentry]
      exact Option.some.inj hm
    have hat := h.pc
    rw [TransferPc] at hat ⊢
    have hgoto : (s.otherStep (.transfer mfn)).pc = s.pc := rfl
    have hexch : (s.otherStep (.transfer mfn)).exchanged = s.exchanged := rfl
    rw [hgoto, hexch]
    cases hpc : s.pc with
    | transferExchange flags =>
      rw [hpc] at hat
      rw [hentry]
      exact hat
    | transferFrame => exact Option.some_ne_none _
    | put ret | returned ret =>
      rw [hpc] at hat
      exact .inl (hat.resolve_right (by rw [hnone]; exact (Option.some_ne_none _).symm))
    | _ =>
      rw [hpc] at hat
      exact hat
  | set flag | clear flag => exact hallows.elim

theorem TransferInv.sound : s.Sound := by
  intro ret hret
  have hat := h.pc
  rw [TransferPc, hret] at hat
  rw [h.call]
  refine hat.imp_left fun hzero => ⟨hzero.1, ?_⟩
  obtain ⟨f, hf⟩ := List.exists_mem_of_ne_nil _ hzero.2
  exact ⟨f, hf, h.uncommitted f hf⟩

end

end GntRun

/-! ### Whole calls -/

def GntRun.Inv (s : GntRun) : Prop := s.AccessInv ∨ s.TransferInv

/-- **The start of a call.** -/
theorem GntRun.Inv.start {call : GntCall}
    (hstart : call = .endTransfer → (g.table gref).flags &&& gtfTransferCompleted = 0) :
    (GntRun.start g call gref).Inv := by
  cases call with
  | endTransfer =>
    exact .inr ⟨rfl, List.forall_mem_nil _, absurd (hstart rfl), nofun, trivial⟩
  | endAccess | updateGrant domid mfn readonly => exact .inl ⟨nofun, List.forall_mem_nil _, trivial⟩

/-- **A step of the code or a move of the other domain.** -/
theorem GntRun.Inv.step {s s' : GntRun} {e : GntEvent} {r : Unit} (h : s.Inv) (hok : gntOk s e)
    (hs : gntStep s e = .ok (r, s')) : s'.Inv := by
  cases e with
  | code =>
    obtain rfl : s.codeStep = s' := congrArg Prod.snd (Except.ok.inj hs)
    exact h.imp AccessInv.codeStep TransferInv.codeStep
  | other m =>
    obtain rfl : s.otherStep m = s' := congrArg Prod.snd (Except.ok.inj hs)
    exact h.imp (·.otherStep hok.1 hok.2) (·.otherStep hok.1 hok.2)

/-- **Revocation is sound**, at every moment of every call during which the other domain does not
move between a load of the flags and the exchange. -/
theorem grant_revocation_sound (g : Gnttab) (call : GntCall) (gref : Nat) (s₀ s : GntRun)
    (hcall : gntCall g call gref = .ok s₀)
    (hstart : call = .endTransfer → (g.table gref).flags &&& gtfTransferCompleted = 0)
    (hs : Reachable gntStep gntOk s₀ s) : s.Sound := by
  obtain ⟨-, -, hs₀⟩ := Outcome.bind_ok.mp hcall
  obtain rfl : GntRun.start g call gref = s₀ := Except.ok.inj hs₀
  have hinv : s.Inv := hs.invariant (.start hstart) fun _ _ _ _ h hok hs => h.step hok hs
  exact hinv.elim (·.sound) (·.sound)

def oneFree : Gnttab := ⟨fun _ => ⟨0, 0, 0⟩, fun _ => 8, 1⟩

def oneGranted (flags : Nat) : Gnttab :=
  Gnttab.setEntry ⟨oneFree.table, Function.update oneFree.grefList 0 8, 0⟩ 8 ⟨flags, 0, 1⟩

theorem reachable_code {ok : GntRun → GntEvent → Prop} {s₀ s : GntRun}
    (h : Reachable gntStep ok s₀ s) (hok : ok s .code) : Reachable gntStep ok s₀ s.codeStep :=
  h.tail hok rfl

theorem reachable_other {ok : GntRun → GntEvent → Prop} {s₀ s : GntRun} (m : OtherMove)
    (h : Reachable gntStep ok s₀ s) (hok : ok s (.other m)) :
    Reachable gntStep ok s₀ (s.otherStep m) :=
  h.tail hok rfl

/-- A transfer that is committed before the first load and completed during the wait. -/
theorem grant_revocation_sound_transfer :
    ∃ g s₀ s, gnttabGrantTransfer oneFree 0 1 = .ok (8, g) ∧ gntCall g .endTransfer 8 = .ok s₀ ∧
      Reachable gntStep gntOk s₀ s ∧ s.pc = .returned 5 ∧ s.Sound := by
  have hgrant : gnttabGrantTransfer oneFree 0 1 = .ok (8, oneGranted gtfAcceptTransfer) := rfl
  have hcall : gntCall (oneGranted gtfAcceptTransfer) .endTransfer 8 = .ok _ := rfl
  have hcommit := reachable_other .commit .refl (show gntOk
    (GntRun.start (oneGranted gtfAcceptTransfer) .endTransfer 8) _ from ⟨⟨rfl, rfl⟩, id⟩)
  have hwait := reachable_code hcommit trivial
  have htransfer := reachable_other (.transfer 5) hwait ⟨⟨by decide, rfl⟩, id⟩
  have hwait := reachable_code htransfer trivial
  have hcomplete := reachable_other .complete hwait ⟨nofun, id⟩
  have hrun := reachable_code (reachable_code (reachable_code hcomplete trivial) trivial) trivial
  exact ⟨_, _, _, hgrant, hcall, hrun, rfl,
    grant_revocation_sound _ _ _ _ _ hcall (fun _ => rfl) hrun⟩

/-- **A failed exchange is taken for a success.** The other domain starts to read the page between
the load and the exchange. -/
theorem grant_revocation_unsound :
    ∃ g s₀ s, gnttabGrantAccess oneFree 0 1 0 = .ok (8, g) ∧ gntCall g .endAccess 8 = .ok s₀ ∧
      Reachable gntStep gntAny s₀ s ∧ s.pc = .returned 1 ∧
      s.entry.flags = gtfPermitAccess ||| gtfReading ∧ ¬ s.Sound := by
  have hgrant : gnttabGrantAccess oneFree 0 1 0 = .ok (8, oneGranted gtfPermitAccess) := rfl
  have hcall : gntCall (oneGranted gtfPermitAccess) .endAccess 8 = .ok _ := rfl
  have hload := reachable_code .refl (show gntAny
    (GntRun.start (oneGranted gtfPermitAccess) .endAccess 8) _ from trivial)
  have hread := reachable_other (.set .reading) hload trivial
  have hrun := reachable_code (reachable_code hread trivial) trivial
  refine ⟨_, _, _, hgrant, hcall, hrun, rfl, rfl, fun hsound => ?_⟩
  obtain ⟨f, hf, -⟩ := hsound 1 rfl one_ne_zero
  exact List.not_mem_nil hf

end Unikraft.Xen
