import Unikraft.Ukallocbbuddy.AddMem

/-!
# Runs of the buddy allocator

Callers allocate, free and write pages in any order. As long as no call asks for more than `2 ^ 52`
pages the invariant holds and every call returns; a larger request reads the array of free lists out
of bounds.
-/

namespace Unikraft.Ukallocbbuddy

open Lib

/-- The allocator and the live allocations, each with the number of pages asked for. -/
structure BuddySys where
  alloc : Bbpalloc
  live : List (Nat × Nat)

/-- A call, or a store of an owner into a live allocation. -/
inductive BuddyEvent
  | palloc (numPages : Nat)
  | pfree (obj numPages : Nat)
  /-- The owner of the page at `va` overwrites what would be a chunk header there. -/
  | store (va : Nat) (next : Option ChunkHead) (pprev : Slot Nat ChunkHead) (level : Nat)

/-- A store into the fields of a chunk header at `va`. -/
def storeHeader (b : Bbpalloc) (va : Nat) (next : Option ChunkHead)
    (pprev : Slot Nat ChunkHead) (level : Nat) : Bbpalloc :=
  { b with
    links := (b.links.setCell (.next (.chunk va)) next).setPrev (.chunk va) pprev
    level := Function.update b.level va level }

/-- One event; the reply of `bbuddy_palloc` is the address it returns. -/
def buddyStep (s : BuddySys) : BuddyEvent → Outcome (Option Nat × BuddySys)
  | .palloc n => do
      match ← bbuddyPalloc s.alloc n with
      | (some va, b) => return (some va, ⟨b, (va, n) :: s.live⟩)
      | (none, b) => return (none, ⟨b, s.live⟩)
  | .pfree obj n => do
      let b ← bbuddyPfree s.alloc obj n
      return (none, ⟨b, s.live.erase (obj, n)⟩)
  | .store va next pprev level => return (none, { s with
      alloc := storeHeader s.alloc va next pprev level })

/-- What callers keep to: they ask for at least one and at most `2 ^ 52` pages, free what
is live, and write to their own pages. -/
def buddyOk (s : BuddySys) : BuddyEvent → Prop
  | .palloc n => 1 ≤ n ∧ n ≤ 2 ^ 52
  | .pfree obj n => (obj, n) ∈ s.live
  | .store va .. => ∃ l ∈ s.live, va ∈ allocBlock l

instance (s : BuddySys) (e : BuddyEvent) : Decidable (buddyOk s e) := by
  cases e <;> dsimp only [buddyOk] <;> infer_instance

variable {b : Bbpalloc} {live : List (Nat × Nat)} {s : BuddySys}

theorem FreeLists.storeHeader {fl : Nat → List Nat} {va : Nat} (h : FreeLists b fl)
    (hfree : ∀ i < freelistSize, va ∉ fl i) (next : Option ChunkHead)
    (pprev : Slot Nat ChunkHead) (level : Nat) :
    FreeLists (storeHeader b va next pprev level) fl := by
  have hnext : ∀ n, n ≠ .chunk va →
      (Ukallocbbuddy.storeHeader b va next pprev level).links.cell (.next n) =
        b.links.cell (.next n) :=
    fun n hn => Links.setCell_cell_of_ne (by simpa using hn)
  refine ⟨fun i hi => ?_, fun i hi => ?_, h.nodup, fun i hi va' hva' => ?_⟩
  · have hown : ∀ x ∈ nodes i (fl i), x ≠ .chunk va := by
      rintro x hx rfl
      exact hfree i hi (mem_nodes_chunk.mp hx)
    refine (h.seg i hi).congr (fun t ht => ?_) fun x hx => ?_
    · rcases mem_slots ht with rfl | ⟨x, hx, rfl⟩
      · have hne : Slot.head i ≠ Slot.next (ChunkHead.chunk va) := nofun
        exact Links.setCell_cell_of_ne (v := next) hne
      · exact hnext x (hown x hx)
    · exact Links.setPrev_prev_of_ne (hown x hx)
  · rw [hnext _ (by simp), h.tail i hi]
  refine (Function.update_of_ne (ne_of_mem_of_not_mem hva' (hfree i hi)) _ _).trans ?_
  exact h.level i hi va' hva'

theorem PagesOk.notMem_freeList {memrs : List Memr} {nrFree va : Nat} {fl : Nat → List Nat}
    (h : PagesOk memrs nrFree (freeSet fl) live) {l : Nat × Nat} (hl : l ∈ live)
    (hva : va ∈ allocBlock l) : ∀ i < freelistSize, va ∉ fl i := fun i hi hmem =>
  (h.liveFree l hl ⟨va, i + 12⟩ ((mem_freeSet hi).mpr hmem)).not_mem (Block.start_mem _) hva

theorem BuddyInv.store (h : BuddyInv b live) {l : Nat × Nat} (hl : l ∈ live) {va : Nat}
    (hva : va ∈ allocBlock l) (next : Option ChunkHead) (pprev : Slot Nat ChunkHead)
    (level : Nat) : BuddyInv (storeHeader b va next pprev level) live := by
  obtain ⟨fl, hlists, hpages⟩ := h
  exact ⟨fl, hlists.storeHeader (hpages.notMem_freeList hl hva) next pprev level, hpages⟩

theorem buddyStep_inv (h : BuddyInv s.alloc s.live) {e : BuddyEvent} (hok : buddyOk s e) :
    ∃ r s', buddyStep s e = .ok (r, s') ∧ BuddyInv s'.alloc s'.live := by
  cases e with
  | palloc n =>
    rcases h.palloc hok.1 hok.2 with heq | ⟨va, b', heq, hinv⟩
    · exact ⟨none, s, by rw [buddyStep, heq]; rfl, h⟩
    · exact ⟨some va, ⟨b', (va, n) :: s.live⟩, by rw [buddyStep, heq]; rfl, hinv⟩
  | pfree obj n =>
    obtain ⟨b', heq, hinv⟩ := h.pfree (l := (obj, n)) hok
    exact ⟨none, ⟨b', s.live.erase (obj, n)⟩, by rw [buddyStep, heq]; rfl, hinv⟩
  | store va next pprev level =>
    obtain ⟨l, hl, hva⟩ := hok
    exact ⟨_, _, rfl, h.store hl hva next pprev level⟩

theorem bbuddyPalloc_too_large {n : Nat} (hn : 2 ^ 52 < n) :
    bbuddyPalloc b n = .error .outOfBounds := by
  have horder : freelistSize < Nat.clog 2 n := (Nat.lt_clog_iff_pow_lt (by decide)).mpr hn
  have hfuel : freelistSize - Nat.clog 2 n = 0 := by omega
  rw [bbuddyPalloc, numPagesToOrder_eq (by omega)]
  simp only [Outcome.ok_bind, hfuel, findOrder]
  rw [if_neg (by omega), if_neg (by omega)]

/-- **The run invariant.** In every run from a state that satisfies the invariant, of allocations of
at most `2 ^ 52` pages, releases and stores of the owners, every state satisfies it and every such
call returns. A larger request does not return. -/
theorem bbuddy_run_inv (s₀ s : BuddySys) (hinv : BuddyInv s₀.alloc s₀.live)
    (hs : Reachable buddyStep buddyOk s₀ s) :
    BuddyInv s.alloc s.live ∧ (∀ e, buddyOk s e → ∃ r s', buddyStep s e = .ok (r, s')) ∧
      ∀ n, 2 ^ 52 < n → buddyStep s (.palloc n) = .error .outOfBounds := by
  have hrun : BuddyInv s.alloc s.live := by
    refine hs.invariant_of_returns (I := fun s => BuddyInv s.alloc s.live) hinv ?_
    exact fun s e h hok => buddyStep_inv h hok
  refine ⟨hrun, fun e hok => ?_, fun n hn => ?_⟩
  · obtain ⟨r, s', hstep, -⟩ := buddyStep_inv hrun hok
    exact ⟨r, s', hstep⟩
  rw [buddyStep, bbuddyPalloc_too_large hn]
  rfl

/-- Two pages of a region are allocated one by one and one of them is freed. -/
theorem bbuddy_run_two_pages :
    ∃ s₀ s, BuddyInv s₀.alloc s₀.live ∧ Reachable buddyStep buddyOk s₀ s ∧
      s.live = [(12288, 1)] ∧ BuddyInv s.alloc s.live := by
  obtain ⟨fl, hlists, hpages⟩ := bbuddyInit_inv
  have hthree : addmemPages 4096 (3 * 4096) = 3 := by decide +kernel
  obtain ⟨b, m, fl', heq, hlists', hpages', -⟩ := addmem_pagesOk (fun _ => 0#64) hlists hpages
      (⟨by decide, by decide +kernel, by decide +kernel, nofun⟩ :
        AddmemAccepts bbuddyInit 4096 (3 * 4096)) (hthree ▸ by decide +kernel)
  have hrun : ∃ s ∈ (bbuddyAddmem bbuddyInit 4096 (3 * 4096) (fun _ => 0#64)).toOption.bind fun r =>
      runEvents buddyStep buddyOk ⟨r.2, []⟩ [.palloc 1, .palloc 1, .store 8192 none (.head 3) 7,
        .pfree 8192 1], s.live = [(12288, 1)] := by decide +kernel
  rw [heq] at hrun
  obtain ⟨s, hreach, hlive⟩ := Reachable.exists_of_run _ hrun
  have hinv : BuddyInv b [] := ⟨fl', hlists', hpages'⟩
  exact ⟨⟨b, []⟩, s, hinv, hreach, hlive, (bbuddy_run_inv _ s hinv hreach).1⟩

/-- `bbuddy_palloc` of `2 ^ 52 + 1` pages on a freshly initialised allocator. -/
theorem bbuddy_palloc_out_of_bounds :
    BuddyInv bbuddyInit [] ∧
      buddyStep ⟨bbuddyInit, []⟩ (.palloc (2 ^ 52 + 1)) = .error .outOfBounds := by
  refine ⟨bbuddyInit_inv, ?_⟩
  rw [buddyStep, bbuddyPalloc_too_large (Nat.lt_succ_self _)]
  rfl

end Unikraft.Ukallocbbuddy
