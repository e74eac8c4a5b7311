import Unikraft.Ukalloc.IfPages
import Unikraft.Ukallocbbuddy.Canonical

/-!
# Allocation is complete

`bbuddy_palloc` looks at the free lists only. When no two free chunks are buddies, an aligned block
of free pages always lies in one of them (`Tiling.not_canonical`).
-/

namespace Unikraft.Ukallocbbuddy

open Lib Nat

/-- The `2 ^ order` pages from `va` on are a naturally aligned block of a region, and none of
them is allocated. -/
structure FreeBlock (b : Bbpalloc) (order va : Nat) : Prop where
  aligned : 2 ^ (order + 12) ∣ va
  inside : Inside b.memrs ⟨va, order + 12⟩
  free : ∀ p < 2 ^ order, allocatedInMap b (va + p * pageSize) = false

variable {b : Bbpalloc} {fl : Nat → List Nat} {live : List (Nat × Nat)} {order va nrFree : Nat}

theorem pageSize_dvd (h : 2 ^ (order + 12) ∣ va) : pageSize ∣ va :=
  (pow_dvd_pow 2 (le_add_left 12 order)).trans h

section

variable (h : PagesOk b.memrs nrFree (freeSet fl) live)

include h

theorem PagesOk.covers_page {a x : Nat}
    (ha : pageSize ∣ a) (hcov : Covers (freeSet fl) a) (hle : a ≤ x) (hlt : x < a + pageSize) :
    Covers (freeSet fl) x := by
  obtain ⟨c, hc, hac⟩ := hcov
  refine ⟨c, hc, hac.1.trans hle, hlt.trans_le ?_⟩
  -- the end of the chunk is a page boundary, too
  have hexp : pageSize ∣ 2 ^ c.exp := pow_dvd_pow 2 (h.page c hc)
  have hstop : pageSize ∣ c.stop := (hexp.trans (h.tiling.aligned c hc)).add hexp
  obtain ⟨p, rfl⟩ := ha
  obtain ⟨q, hq⟩ := hstop
  have hpq : pageSize * p < pageSize * q := hq ▸ hac.2
  rw [hq, ← mul_succ]
  exact Nat.mul_le_mul_left _ (Nat.lt_of_mul_lt_mul_left hpq)

theorem PagesOk.freeBlock_iff :
    FreeBlock b order va ↔ 2 ^ (order + 12) ∣ va ∧ Inside b.memrs ⟨va, order + 12⟩ ∧
      ∀ a ∈ (⟨va, order + 12⟩ : Block), Covers (freeSet fl) a := by
  have hsize : 2 ^ (order + 12) = 2 ^ order * pageSize := pow_add _ _ _
  constructor
  · rintro ⟨halign, hin, hfree⟩
    refine ⟨halign, hin, fun a ⟨hlo, hhi⟩ => ?_⟩
    simp only [Block.stop, hsize] at hlo hhi
    -- the page of `a`
    let p := (a - va) / pageSize
    have hmod := div_add_mod' (a - va) pageSize
    have hlt := mod_lt (a - va) (show 0 < pageSize by decide)
    have hp : p < 2 ^ order := (div_lt_iff_lt_mul (by decide)).mpr (by omega)
    have hpage : pageSize ∣ va + p * pageSize := (pageSize_dvd halign).add (dvd_mul_left _ _)
    exact h.covers_page hpage ((h.allocatedInMap_iff hpage).mp (hfree p hp))
      (show va + (a - va) / pageSize * pageSize ≤ a by omega)
      (show a < va + (a - va) / pageSize * pageSize + pageSize by omega)
  rintro ⟨halign, hin, hcov⟩
  refine ⟨halign, hin, fun p hp => ?_⟩
  refine (h.allocatedInMap_iff ((pageSize_dvd halign).add (dvd_mul_left _ _))).mpr ?_
  refine hcov _ ⟨le_add_right _ _, ?_⟩
  rw [Block.stop, hsize]
  exact Nat.add_lt_add_left (Nat.mul_lt_mul_of_pos_right hp (by decide)) _

theorem PagesOk.exists_chunk (hcan : Canonical (freeSet fl)) (halign : 2 ^ (order + 12) ∣ va)
    (hcov : ∀ a ∈ (⟨va, order + 12⟩ : Block), Covers (freeSet fl) a) :
    ∃ c ∈ freeSet fl, order + 12 ≤ c.exp ∧ c.start ≤ va ∧ va + 2 ^ (order + 12) ≤ c.stop := by
  obtain ⟨c, hc, hvac⟩ := hcov va (Block.start_mem _)
  have hle : order + 12 ≤ c.exp := by
    by_contra hlt
    have hstart : va = c.start := Block.eq_start_of_dvd (h.tiling.aligned c hc) hvac
      ((pow_dvd_pow 2 (Nat.le_of_not_le hlt)).trans halign)
    exact h.tiling.not_canonical (b := ⟨va, order + 12⟩) halign hcov hc
      (hstart ▸ Block.start_mem _) (Nat.lt_of_not_le hlt) hcan
  refine ⟨c, hc, hle, ?_⟩
  rcases Block.nested (b := ⟨va, order + 12⟩) halign (h.tiling.aligned c hc) hle with hapart | hin
  · exact absurd hvac (hapart.not_mem (Block.start_mem _))
  · exact hin

end

/-- **Complete allocation.** In a state without free buddies, a request for at most `2 ^ 52` pages
is served whenever an aligned block of this many free pages, rounded up to a power of two, exists in
a region, with such a block. Otherwise the call returns `NULL` and changes nothing. -/
theorem bbuddy_palloc_complete (b : Bbpalloc) (live : List (Nat × Nat)) (n : Nat)
    (hinv : BuddyInv b live) (hnb : NoFreeBuddies b) (hn : 1 ≤ n) (hmax : n ≤ 2 ^ 52) :
    ((∃ va, FreeBlock b (clog 2 n) va) →
      ∃ va b', bbuddyPalloc b n = .ok (some va, b') ∧ FreeBlock b (clog 2 n) va ∧
        BuddyInv b' ((va, n) :: live)) ∧
    ((¬ ∃ va, FreeBlock b (clog 2 n) va) → bbuddyPalloc b n = .ok (none, b)) := by
  obtain ⟨fl, hlists, hpages⟩ := hinv
  have hcan := (noFreeBuddies_iff hlists hpages).mp hnb
  rcases hpages.palloc hlists hn hmax with
    ⟨hnone, hempty⟩ | ⟨va, b', fl', heq, hlists', hpages', hcarved⟩
  · refine ⟨fun ⟨va, hva⟩ => ?_, fun _ => hnone⟩
    -- the chunk around the block is on a list that the search looks at
    obtain ⟨halign, -, hcov⟩ := hpages.freeBlock_iff.mp hva
    obtain ⟨c, ⟨k, hk, hexp, hmem⟩, hle, -⟩ := hpages.exists_chunk hcan halign hcov
    rw [hempty k (by omega) hk] at hmem
    exact absurd hmem List.not_mem_nil
  have hblock : FreeBlock b (clog 2 n) va := by
    have halign := (hpages'.liveOk (va, n) List.mem_cons_self).2.1
    have hcov : ∀ a ∈ allocBlock (va, n), Covers (freeSet fl) a :=
      fun a ha => (hcarved.covers a).mp (.inl ha)
    obtain ⟨c, hc, -, hstart, hstop⟩ := hpages.exists_chunk hcan halign hcov
    obtain ⟨m, hm, hfirst, hlast⟩ := hpages.inside c hc
    exact hpages.freeBlock_iff.mpr ⟨halign, ⟨m, hm, hfirst.trans hstart, hstop.trans hlast⟩, hcov⟩
  exact ⟨fun _ => ⟨va, b', heq, hblock, fl', hlists', hpages'⟩, fun hno => absurd ⟨va, hblock⟩ hno⟩

/-- A region of four pages behind its header: two pages are served, four are not, since the header
is in the way. -/
theorem bbuddy_palloc_complete_four_pages :
    ∃ b, BuddyInv b [] ∧ NoFreeBuddies b ∧ FreeBlock b (clog 2 2) 16384 ∧
      ¬ ∃ va, FreeBlock b (clog 2 4) va := by
  obtain ⟨b, heq, hinv, hnb⟩ := bbuddyAddmem_fourPages
  have hrun : (bbuddyAddmem bbuddyInit 4096 (5 * 4096) (fun _ => 0#64)).toOption.map (fun r =>
      ((bbuddyPalloc r.2 2).toOption.map Prod.fst, (bbuddyPalloc r.2 4).toOption.map Prod.fst)) =
      some (some (some 16384), some none) := by decide +kernel
  rw [heq] at hrun
  obtain ⟨htwo, hfour⟩ := Prod.mk.inj (Option.some.inj hrun)
  refine ⟨b, hinv, hnb, ?_, fun hex => ?_⟩
  · obtain ⟨hserved, hnone⟩ := bbuddy_palloc_complete b [] 2 hinv hnb (by decide) (by decide)
    by_cases hex : ∃ va, FreeBlock b (clog 2 2) va
    · obtain ⟨va, b', hcall, hfree, -⟩ := hserved hex
      rw [hcall] at htwo
      obtain rfl : va = 16384 := Option.some.inj (Option.some.inj htwo)
      exact hfree
    rw [hnone hex] at htwo
    cases htwo
  obtain ⟨va, b', hcall, -⟩ :=
    (bbuddy_palloc_complete b [] 4 hinv hnb (by decide) (by decide)).1 hex
  rw [hcall] at hfour
  cases hfour

/-- A request for `2 ^ 52 + 1` pages, for which no region has room, does not return `NULL`: the
search for a chunk starts behind the last list. -/
theorem bbuddy_palloc_complete_too_large :
    BuddyInv bbuddyInit [] ∧ NoFreeBuddies bbuddyInit ∧
      (¬ ∃ va, FreeBlock bbuddyInit (clog 2 (2 ^ 52 + 1)) va) ∧
      bbuddyPalloc bbuddyInit (2 ^ 52 + 1) = .error .outOfBounds := by
  refine ⟨bbuddyInit_inv, bbuddyInit_noFreeBuddies, ?_, bbuddyPalloc_too_large (lt_succ_self _)⟩
  rintro ⟨va, -, ⟨m, hm, -⟩, -⟩
  exact absurd hm List.not_mem_nil

/-! ### Pages and the malloc layer -/

/-- The page at `a` is free, or a live allocation has it. -/
def Accounted (s : BuddySys) (a : Nat) : Prop :=
  allocatedInMap s.alloc a = false ∨ ∃ l ∈ s.live, a ∈ allocBlock l

/-- **No page is lost.** In every run from a state without free buddies, a page is free or in use if
and only if it was at the start. -/
theorem bbuddy_run_keeps_pages (s₀ s : BuddySys) (hinv : BuddyInv s₀.alloc s₀.live)
    (hnb : NoFreeBuddies s₀.alloc) (hs : Reachable buddyStep buddyOk s₀ s) (a : Nat)
    (ha : pageSize ∣ a) : Accounted s a ↔ Accounted s₀ a := by
  obtain ⟨fl₀, h₀⟩ := BuddyInv.settled hinv hnb
  obtain ⟨fl, h⟩ : ∃ fl, Settled (Held fl₀ s₀.live) s fl := by
    refine hs.invariant (I := fun s => ∃ fl, Settled (Held fl₀ s₀.live) s fl) ⟨fl₀, h₀⟩ ?_
    rintro s e r s' ⟨fl, h⟩ hok hstep
    exact h.step hok hstep
  rw [Accounted, Accounted, h.pages.allocatedInMap_iff ha, h₀.pages.allocatedInMap_iff ha]
  exact h.held a

/-- A page is allocated out of the region of four pages. -/
theorem bbuddy_run_keeps_pages_one :
    ∃ s₀ s, s.live = [(16384, 1)] ∧ (Accounted s 16384 ↔ Accounted s₀ 16384) := by
  obtain ⟨b, heq, hinv, hnb⟩ := bbuddyAddmem_fourPages
  have hrun : ∃ s ∈ (bbuddyAddmem bbuddyInit 4096 (5 * 4096) (fun _ => 0#64)).toOption.bind fun r =>
      runEvents buddyStep buddyOk ⟨r.2, []⟩ [.palloc 1], s.live = [(16384, 1)] := by decide +kernel
  rw [heq] at hrun
  obtain ⟨s, hs, hlive⟩ := Reachable.exists_of_run _ hrun
  exact ⟨_, s, hlive, bbuddy_run_keeps_pages ⟨b, []⟩ s hinv hnb hs 16384 (by decide)⟩

theorem pages_le_stop (l : Nat × Nat) : l.1 + l.2 * pageSize ≤ (allocBlock l).stop := by
  have hpow := le_pow_clog (b := 2) (by decide) l.2
  rw [Block.stop, allocBlock, pow_add]
  exact Nat.add_le_add_left (Nat.mul_le_mul_right _ hpow) _

/-- **A backend of the malloc layer.** While the blocks of the layer are cut from live allocations,
`bbuddy_palloc` answers every number of pages up to `2 ^ 52` as the layer assumes: with `NULL`, or
with a run that no block has a page of and that is live from then on. -/
theorem bbuddy_serves_ifpages (b : Bbpalloc) (live : List (Nat × Nat)) (hinv : BuddyInv b live)
    (blocks : List Ukalloc.Block) (hlive : ∀ c ∈ blocks, (c.base, c.numPages) ∈ live) (n : Nat)
    (hn : 1 ≤ n) (hmax : n ≤ 2 ^ 52) :
    bbuddyPalloc b n = .ok (none, b) ∨ ∃ va b', bbuddyPalloc b n = .ok (some va, b') ∧
      Ukalloc.GoodRun blocks n va ∧ BuddyInv b' ((va, n) :: live) := by
  rcases hinv.palloc hn hmax with heq | ⟨va, b', heq, hinv'⟩
  · exact .inl heq
  refine .inr ⟨va, b', heq, ?_, hinv'⟩
  obtain ⟨fl, -, hpages⟩ := hinv'
  obtain ⟨-, halign, hin⟩ := hpages.liveOk (va, n) List.mem_cons_self
  have hstop := (hin.stop_lt hpages.regions).le
  refine ⟨mod_eq_zero_of_dvd (pageSize_dvd halign), (pages_le_stop (va, n)).trans hstop, ?_⟩
  intro c hc
  have hapart := (List.pairwise_cons.mp hpages.liveApart).1 _ (List.mem_map_of_mem (hlive c hc))
  exact hapart.imp (pages_le_stop (va, n)).trans (pages_le_stop (c.base, c.numPages)).trans

/-- The region of four pages, with one page in use for a block of 100 bytes. -/
theorem bbuddy_serves_ifpages_second_page :
    ∃ b va b', bbuddyPalloc b 1 = .ok (some va, b') ∧
      Ukalloc.GoodRun [⟨16400, 100, 1, 16384, 1⟩] 1 va := by
  obtain ⟨b, heq, hinv, -⟩ := bbuddyAddmem_fourPages
  have hrun : ∃ s ∈ (bbuddyAddmem bbuddyInit 4096 (5 * 4096) (fun _ => 0#64)).toOption.bind fun r =>
      runEvents buddyStep buddyOk ⟨r.2, []⟩ [.palloc 1],
      s.live = [(16384, 1)] ∧ ((bbuddyPalloc s.alloc 1).toOption.bind (·.1)).isSome := by
    decide +kernel
  rw [heq] at hrun
  obtain ⟨s, hs, hlive, hsome⟩ := Reachable.exists_of_run _ hrun
  have hinv' : BuddyInv s.alloc [(16384, 1)] := by
    rw [← hlive]
    exact hs.invariant_of_returns (I := fun s => BuddyInv s.alloc s.live) hinv
      fun _ _ h => buddyStep_inv h
  rcases bbuddy_serves_ifpages s.alloc _ hinv' [⟨16400, 100, 1, 16384, 1⟩] (by simp) 1 (by decide)
    (by decide) with hnone | ⟨va, b', hva, hgood, -⟩
  · simp [hnone, Except.toOption] at hsome
  · exact ⟨s.alloc, va, b', hva, hgood⟩

end Unikraft.Ukallocbbuddy
