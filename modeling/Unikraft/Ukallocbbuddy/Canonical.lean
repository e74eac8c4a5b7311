import Unikraft.Ukallocbbuddy.Runs

/-!
# The free lists are canonical

When no two free chunks are buddies, they are the unique such partition of the addresses they cover
(`Tiling.eq_of_canonical`). Every call keeps this, so once everything allocated in between is freed
again, the free lists have the chunks they had.
-/

namespace Unikraft.Ukallocbbuddy

open Lib

/-- The chunk at `va` is on the list `free_head[i]`. -/
def OnFreeList (b : Bbpalloc) (i va : Nat) : Prop := ∃ fl, FreeLists b fl ∧ va ∈ fl i

/-- No two free chunks of equal order are buddies of each other inside one region. -/
def NoFreeBuddies (b : Bbpalloc) : Prop :=
  ∀ i < freelistSize, ∀ va, 2 ^ (i + 13) ∣ va → OnFreeList b i va →
    OnFreeList b i (va + 2 ^ (i + 12)) → ¬ Inside b.memrs ⟨va, i + 13⟩

variable {b : Bbpalloc} {fl : Nat → List Nat} {live : List (Nat × Nat)} {i va nrFree : Nat}

theorem FreeLists.onFreeList (h : FreeLists b fl) (hi : i < freelistSize) :
    OnFreeList b i va ↔ va ∈ fl i := by
  constructor
  · rintro ⟨fl', h', hmem⟩
    have hset := h'.freeSet_eq h
    exact (mem_freeSet hi).mp (hset ▸ (mem_freeSet hi).mpr hmem)
  · exact fun hmem => ⟨fl, h, hmem⟩

/-- Buddies on the free lists are always inside one region, so that the regions can be
left out of `NoFreeBuddies`. -/
theorem noFreeBuddies_iff (hlists : FreeLists b fl)
    (hpages : PagesOk b.memrs nrFree (freeSet fl) live) :
    NoFreeBuddies b ↔ Canonical (freeSet fl) := by
  constructor
  · intro h x k halign hlo hhi
    obtain ⟨i, hi, hk, -⟩ := id hlo
    obtain rfl : k = i + 12 := hk
    refine h i hi x halign ?_ ?_ ((hpages.inside _ hlo).join hpages.regions (hpages.inside _ hhi))
    · exact (hlists.onFreeList hi).mpr ((mem_freeSet hi).mp hlo)
    · exact (hlists.onFreeList hi).mpr ((mem_freeSet hi).mp hhi)
  intro h i hi va halign hlo hhi _
  refine h va (i + 12) halign ?_ ?_
  · exact (mem_freeSet hi).mpr ((hlists.onFreeList hi).mp hlo)
  · exact (mem_freeSet hi).mpr ((hlists.onFreeList hi).mp hhi)

/-! ### Registering a region -/

theorem canonical_of_extends {b' : Bbpalloc} {m : Memr} {fl' : Nat → List Nat}
    (hext : Extends (freeSet fl) (freeSet fl') m.firstPage m.stop)
    (hpages : PagesOk b'.memrs nrFree (freeSet fl') live) (hm : m ∈ b'.memrs)
    (hcan : Canonical (freeSet fl)) : Canonical (freeSet fl') := by
  intro x k halign hlo hhi
  have hpos := Nat.two_pow_pos k
  obtain ⟨m', hm', hstart, hstop⟩ := (hpages.inside _ hlo).join hpages.regions (hpages.inside _ hhi)
  simp only [Block.stop] at hstart hstop
  by_cases hmm : m' = m
  · subst hmm
    exact hext.canonical x k halign hstart hstop hlo hhi
  -- a chunk of another region was there before
  have hold : ∀ y, x ≤ y → y + 2 ^ k ≤ x + 2 ^ (k + 1) → (⟨y, k⟩ : Block) ∈ freeSet fl' →
      (⟨y, k⟩ : Block) ∈ freeSet fl := by
    intro y hxy hyx hy
    refine (hext.chunk _ hy).resolve_right fun h => ?_
    simp only [Block.stop] at h
    have hh := (hpages.regions.wf m hm).header
    have hh' := (hpages.regions.wf m' hm').header
    rcases hpages.regions.apart.forall hm' hm hmm with h' | h' <;> omega
  exact hcan x k halign (hold x le_rfl (by omega) hlo) (hold _ (by omega) (by omega) hhi)

theorem bbuddyAddmem_noFreeBuddies {base len : Nat} (dirty : Nat → BitVec 64)
    (hinv : BuddyInv b live) (hnb : NoFreeBuddies b) (hacc : AddmemAccepts b base len)
    (hfits : AddmemFits (addmemPages base len)) :
    ∃ b', bbuddyAddmem b base len dirty = .ok (.ok (), b') ∧ BuddyInv b' live ∧
      NoFreeBuddies b' := by
  obtain ⟨fl, hlists, hpages⟩ := hinv
  obtain ⟨b', m, fl', heq, hlists', hpages', hmemrs, -, -, hext, -⟩ :=
    addmem_pagesOk dirty hlists hpages hacc hfits
  refine ⟨b', heq, ⟨fl', hlists', hpages'⟩, (noFreeBuddies_iff hlists' hpages').mpr ?_⟩
  refine canonical_of_extends hext hpages' ?_ ((noFreeBuddies_iff hlists hpages).mp hnb)
  rw [hmemrs]
  exact List.mem_cons_self

theorem bbuddyInit_noFreeBuddies : NoFreeBuddies bbuddyInit := by
  rintro i hi va - - - ⟨m, hm, -⟩
  exact (List.not_mem_nil hm).elim

/-! ### Runs -/

/-- The addresses of the free chunks and of the live allocations. -/
def Held (fl : Nat → List Nat) (live : List (Nat × Nat)) (a : Nat) : Prop :=
  Covers (freeSet fl) a ∨ ∃ l ∈ live, a ∈ allocBlock l

/-- In `s` the free lists `fl` are canonical, and `own` are the addresses it holds. -/
structure Settled (own : Nat → Prop) (s : BuddySys) (fl : Nat → List Nat) : Prop where
  lists : FreeLists s.alloc fl
  pages : PagesOk s.alloc.memrs s.alloc.nrFreePages (freeSet fl) s.live
  canonical : Canonical (freeSet fl)
  held : ∀ a, Held fl s.live a ↔ own a

variable {own : Nat → Prop} {s s₀ : BuddySys}

theorem BuddyInv.settled (h : BuddyInv s.alloc s.live) (hnb : NoFreeBuddies s.alloc) :
    ∃ fl, Settled (Held fl s.live) s fl := by
  obtain ⟨fl, hlists, hpages⟩ := h
  exact ⟨fl, hlists, hpages, (noFreeBuddies_iff hlists hpages).mp hnb, fun _ => Iff.rfl⟩

/-- One event moves addresses between the free chunks and the live allocations. -/
theorem Settled.step {fl : Nat → List Nat} (h : Settled own s fl) {e : BuddyEvent}
    {r : Option Nat} {s' : BuddySys} (hok : buddyOk s e) (hstep : buddyStep s e = .ok (r, s')) :
    ∃ fl', Settled own s' fl' := by
  cases e with
  | palloc n =>
    rw [buddyStep] at hstep
    rcases h.pages.palloc h.lists hok.1 hok.2 with
      ⟨heq, -⟩ | ⟨va, b', fl', heq, hlists', hpages', hg⟩
    · rw [heq] at hstep
      cases hstep
      exact ⟨fl, h.lists, h.pages, h.canonical, h.held⟩
    rw [heq] at hstep
    cases hstep
    refine ⟨fl', hlists', hpages', hg.canonical h.canonical, fun a => ?_⟩
    rw [← h.held a, Held, Held, ← hg.covers a, List.exists_mem_cons_iff, or_left_comm, or_assoc]
  | pfree obj n =>
    rw [buddyStep] at hstep
    obtain ⟨b', fl', heq, hlists', hpages', hcov, hcan⟩ := h.pages.pfree (l := (obj, n)) h.lists hok
    rw [heq] at hstep
    cases hstep
    refine ⟨fl', hlists', hpages', hcan h.canonical, fun a => ?_⟩
    have herase : (∃ l ∈ s.live, a ∈ allocBlock l) ↔
        a ∈ allocBlock (obj, n) ∨ ∃ l ∈ s.live.erase (obj, n), a ∈ allocBlock l := by
      refine Iff.trans ?_ (List.exists_mem_cons_iff (fun l => a ∈ allocBlock l) (obj, n) _)
      simp only [(List.perm_cons_erase hok).mem_iff]
    rw [← h.held a, Held, Held, hcov, herase, or_left_comm, or_assoc]
  | store va next pprev level =>
    cases hstep
    obtain ⟨l, hl, hva⟩ := hok
    exact ⟨fl, h.lists.storeHeader (h.pages.notMem_freeList hl hva) next pprev level, h.pages,
      h.canonical, h.held⟩

theorem Settled.covers (h : Settled own s fl) (a : Nat) :
    Covers (freeSet fl) a ↔ own a ∧ ¬ ∃ l ∈ s.live, a ∈ allocBlock l := by
  rw [← h.held a, Held]
  constructor
  · intro hcov
    refine ⟨.inl hcov, ?_⟩
    rintro ⟨l, hl, ha⟩
    obtain ⟨c, hc, hac⟩ := hcov
    exact (h.pages.liveFree l hl c hc).not_mem hac ha
  rintro ⟨hcov | hlive, hnot⟩
  · exact hcov
  · exact absurd hlive hnot

theorem Settled.onFreeList_iff {fl₀ : Nat → List Nat} (h₀ : Settled own s₀ fl₀)
    (h : Settled own s fl) (hlive : s.live.Perm s₀.live) (hi : i < freelistSize) :
    OnFreeList s.alloc i va ↔ OnFreeList s₀.alloc i va := by
  have hset : freeSet fl = freeSet fl₀ := by
    refine h.pages.tiling.eq_of_canonical h₀.pages.tiling h.canonical h₀.canonical fun a => ?_
    rw [h.covers, h₀.covers]
    simp only [hlive.mem_iff]
  rw [h.lists.onFreeList hi, h₀.lists.onFreeList hi, ← mem_freeSet hi, ← mem_freeSet hi, hset]

/-- **Canonical coalescing.** In every run from a state without free buddies, of allocations of at
most `2 ^ 52` pages, releases and stores of the owners, no free buddies appear, and whenever the
live allocations are those of the start, every free list has the chunks it had. -/
theorem bbuddy_run_canonical (s₀ s : BuddySys) (hinv : BuddyInv s₀.alloc s₀.live)
    (hnb : NoFreeBuddies s₀.alloc) (hs : Reachable buddyStep buddyOk s₀ s) :
    NoFreeBuddies s.alloc ∧ (s.live.Perm s₀.live → ∀ i < freelistSize, ∀ va,
        OnFreeList s.alloc i va ↔ OnFreeList s₀.alloc i va) := by
  obtain ⟨fl₀, h₀⟩ := BuddyInv.settled hinv hnb
  obtain ⟨fl, h⟩ : ∃ fl, Settled (Held fl₀ s₀.live) s fl := by
    refine hs.invariant (I := fun s => ∃ fl, Settled (Held fl₀ s₀.live) s fl) ⟨fl₀, h₀⟩ ?_
    rintro s e r s' ⟨fl, h⟩ hok hstep
    exact h.step hok hstep
  refine ⟨(noFreeBuddies_iff h.lists h.pages).mpr h.canonical, fun hlive i hi va => ?_⟩
  exact h₀.onFreeList_iff h hlive hi

/-- A region of four pages behind its header. -/
theorem bbuddyAddmem_fourPages :
    ∃ b, bbuddyAddmem bbuddyInit 4096 (5 * 4096) (fun _ => 0#64) = .ok (.ok (), b) ∧
      BuddyInv b [] ∧ NoFreeBuddies b := by
  have hfive : addmemPages 4096 (5 * 4096) = 5 := by decide +kernel
  exact bbuddyAddmem_noFreeBuddies (fun _ => 0#64) bbuddyInit_inv bbuddyInit_noFreeBuddies
    ⟨by decide, by decide +kernel, by decide +kernel, nofun⟩ (hfive ▸ by decide +kernel)

/-- Out of a region of four pages behind its header, two and then one page are
allocated and freed in the order of allocation. -/
theorem bbuddy_run_canonical_four_pages :
    ∃ s₀ s, BuddyInv s₀.alloc s₀.live ∧ NoFreeBuddies s₀.alloc ∧
      Reachable buddyStep buddyOk s₀ s ∧ s.alloc.nrFreePages = 4 ∧ NoFreeBuddies s.alloc ∧
      ∀ i < freelistSize, ∀ va, OnFreeList s.alloc i va ↔ OnFreeList s₀.alloc i va := by
  obtain ⟨b, heq, hinv, hnb⟩ := bbuddyAddmem_fourPages
  have hrun : ∃ s ∈ (bbuddyAddmem bbuddyInit 4096 (5 * 4096) (fun _ => 0#64)).toOption.bind fun r =>
      runEvents buddyStep buddyOk ⟨r.2, []⟩ [.palloc 2, .palloc 1, .pfree 16384 2, .pfree 8192 1],
      s.live = [] ∧ s.alloc.nrFreePages = 4 := by decide +kernel
  rw [heq] at hrun
  obtain ⟨s, hreach, hlive, hnr⟩ := Reachable.exists_of_run _ hrun
  obtain ⟨hnb', hsame⟩ := bbuddy_run_canonical ⟨b, []⟩ s hinv hnb hreach
  exact ⟨⟨b, []⟩, s, hinv, hnb, hreach, hnr, hnb', hsame (hlive ▸ .refl _)⟩

/-- On an allocator without memory, a request for more than `2 ^ 52` pages leaves the array of the
free lists. -/
theorem bbuddy_run_canonical_too_large :
    ∃ s₀, BuddyInv s₀.alloc s₀.live ∧ NoFreeBuddies s₀.alloc ∧
      buddyStep s₀ (.palloc (2 ^ 52 + 1)) = .error .outOfBounds := by
  refine ⟨⟨bbuddyInit, []⟩, bbuddyInit_inv, bbuddyInit_noFreeBuddies, ?_⟩
  rw [buddyStep, bbuddyPalloc_too_large (Nat.lt_succ_self _)]
  rfl

end Unikraft.Ukallocbbuddy
