import Mathlib.Data.List.Pairwise
import Unikraft.Essentials
import Unikraft.Lib.Run

/-!
# The region allocator (`ukallocregion/region.c`)

A heap from which blocks are cut off at its lower end and never given back.

The wrapped end of a block is compared with the old `heap_base`, not with the start of the block,
so a size that wraps right into the gap between the two is accepted. `RegionOp.Fits` excludes these
requests.
-/

namespace Unikraft.Ukallocregion

open Lib

/-! ### The allocator -/

/-- `struct uk_allocregion`. -/
structure Allocregion where
  heapTop : Nat
  heapBase : Nat
  deriving DecidableEq

/-- `sizeof(void *)`. -/
abbrev sizeofPtr : Nat := 8

/-- `sizeof(struct uk_alloc) + sizeof(struct uk_allocregion)`; some fields depend on the
configuration. -/
def metalen (ifmalloc ifstats : Bool) : Nat :=
  (10 + (if ifmalloc then 2 else 0) + (if ifstats then 1 else 0)) * sizeofPtr + 2 * sizeofPtr

def ukAllocregionInit (ifmalloc ifstats : Bool) (base len : Nat) : Option Allocregion :=
  if len ≤ pageSize then none
  else if len < metalen ifmalloc ifstats then none
  else some ⟨addU64 base len, addU64 base (metalen ifmalloc ifstats)⟩

/-- `uk_allocregion_malloc`; `NULL` is 0. -/
def ukAllocregionMalloc (b : Allocregion) (size : Nat) : Nat × Allocregion :=
  let intptr := alignUp b.heapBase sizeofPtr
  let newbase := addU64 intptr size
  if b.heapTop < newbase then (0, b)
  else if newbase ≤ b.heapBase then (0, b)
  else (intptr, { b with heapBase := newbase })

/-- `uk_allocregion_posix_memalign`: the error, if there is one, and `*memptr`. -/
def ukAllocregionPosixMemalign (b : Allocregion) (memptr align size : Nat) :
    Outcome ((Option Errno × Nat) × Allocregion) := do
  ukAssert (subU64 align 1 &&& align = 0)
  ukAssert (align % sizeofPtr = 0)
  if size = 0 then return ((some .einval, 0), b)
  let intptr := alignUp b.heapBase align
  let newbase := addU64 intptr size
  if b.heapTop < newbase then return ((some .enomem, memptr), b)
  if newbase ≤ b.heapBase then return ((some .einval, memptr), b)
  return ((none, intptr), { b with heapBase := newbase })

/-! ### Runs -/

inductive RegionOp
  | malloc (size : Nat)
  | memalign (memptr align size : Nat)

inductive RegionRet
  | malloc (ptr : Nat)
  | memalign (err : Option Errno) (memptr : Nat)
  deriving DecidableEq

namespace RegionOp

def size : RegionOp → Nat
  | malloc size => size
  | memalign _ _ size => size

def align : RegionOp → Nat
  | malloc _ => sizeofPtr
  | memalign _ align _ => align

/-- A 64-bit size, and an alignment that is a power of two and a multiple of the size of a
pointer. -/
def Valid (op : RegionOp) : Prop :=
  op.size < 2 ^ 64 ∧ ∃ k < 64, 3 ≤ k ∧ op.align = 2 ^ k

/-- The end of the block as the source computes it. -/
def newbase (op : RegionOp) (b : Allocregion) : Nat := addU64 (alignUp b.heapBase op.align) op.size

/-- The end of the block does not wrap, or the wrapped value is refused. -/
def Fits (op : RegionOp) (b : Allocregion) : Prop :=
  (b.heapBase + (op.align - 1)) / op.align * op.align + op.size < 2 ^ 64 ∨
    op.newbase b ≤ b.heapBase ∨ b.heapTop < op.newbase b
  deriving Decidable

def call (op : RegionOp) (b : Allocregion) : Outcome (RegionRet × Allocregion) :=
  match op with
  | malloc size =>
    let (ptr, b) := ukAllocregionMalloc b size
    .ok (.malloc ptr, b)
  | memalign memptr align size => do
      let ((err, memptr), b) ← ukAllocregionPosixMemalign b memptr align size
      return (.memalign err memptr, b)

/-- The block a successful call hands out: its address and size. -/
def block (op : RegionOp) : RegionRet → Option (Nat × Nat)
  | .malloc ptr => if ptr = 0 then none else some (ptr, op.size)
  | .memalign none memptr => some (memptr, op.size)
  | .memalign (some _) _ => none

end RegionOp

/-- The allocator with the blocks it has handed out, the newest one first. -/
structure RegionSys where
  region : Allocregion
  blocks : List (Nat × Nat)

def regionStep (s : RegionSys) (op : RegionOp) : Outcome (RegionRet × RegionSys) := do
  let (r, b) ← op.call s.region
  return (r, ⟨b, (op.block r).toList ++ s.blocks⟩)

def Apart (c d : Nat × Nat) : Prop := c.1 + c.2 ≤ d.1 ∨ d.1 + d.2 ≤ c.1

/-- **What a call must do**: a failing one leaves the heap as it is, a successful one cuts
its block off between the old and the new `heap_base`. -/
def Served (op : RegionOp) (b : Allocregion) (r : RegionRet) (b' : Allocregion) : Prop :=
  match op.block r with
  | none => b' = b
  | some (p, n) => n = op.size ∧ op.align ∣ p ∧ b.heapBase ≤ p ∧ p + n ≤ b'.heapBase ∧
      b'.heapBase ≤ b.heapTop ∧ b'.heapTop = b.heapTop

/-! ### One call -/

variable {b : Allocregion} {op : RegionOp} {k : Nat}

theorem placed (hk : k < 64) (halign : op.align = 2 ^ k)
    (hfits : (b.heapBase + (op.align - 1)) / op.align * op.align + op.size < 2 ^ 64) :
    op.align ∣ alignUp b.heapBase op.align ∧ b.heapBase ≤ alignUp b.heapBase op.align ∧
      op.newbase b = alignUp b.heapBase op.align + op.size := by
  rw [RegionOp.newbase]
  rw [halign] at hfits ⊢
  have hnowrap : b.heapBase + (2 ^ k - 1) < 2 ^ 64 := by
    -- the rounded value would be at least `2 ^ 64`, a multiple of `2 ^ k`
    by_contra hwrap
    have hdvd : 2 ^ k ∣ 2 ^ 64 := Nat.pow_dvd_pow 2 hk.le
    have hdiv : 2 ^ 64 / 2 ^ k ≤ (b.heapBase + (2 ^ k - 1)) / 2 ^ k :=
      Nat.div_le_div_right (Nat.le_of_not_lt hwrap)
    have hmul := Nat.mul_le_mul_right (2 ^ k) hdiv
    rw [Nat.div_mul_cancel hdvd] at hmul
    omega
  obtain ⟨hdvd, hle, -⟩ := alignUp_bounds hk.le hnowrap
  rw [← alignUp_two_pow hk.le hnowrap] at hfits
  exact ⟨hdvd, hle, addU64_eq hfits⟩

theorem align_asserts (hk : k < 64) (h3 : 3 ≤ k) :
    subU64 (2 ^ k) 1 &&& 2 ^ k = 0 ∧ 2 ^ k % sizeofPtr = 0 := by
  have hlt : 2 ^ k < 2 ^ 64 := Nat.pow_lt_pow_right (by omega) hk
  rw [subU64_eq Nat.one_le_two_pow hlt]
  refine ⟨?_, Nat.mod_eq_zero_of_dvd (Nat.pow_dvd_pow 2 h3)⟩
  rw [Nat.and_comm, Nat.and_two_pow_sub_one_eq_mod, Nat.mod_self]

/-- A call fails and changes nothing, or it is accepted and moves `heap_base` to the end of
the block, which begins at the aligned old one. -/
theorem call_cases (b : Allocregion) (hvalid : op.Valid) :
    (∃ r, op.call b = .ok (r, b) ∧ op.block r = none ∧
        (op.size = 0 ∨ b.heapTop < op.newbase b ∨ op.newbase b ≤ b.heapBase)) ∨
      b.heapBase < op.newbase b ∧ op.newbase b ≤ b.heapTop ∧
        ∃ r, op.call b = .ok (r, { b with heapBase := op.newbase b }) ∧
          (alignUp b.heapBase op.align ≠ 0 →
            op.block r = some (alignUp b.heapBase op.align, op.size)) := by
  obtain ⟨-, k, hk, h3, halign⟩ := hvalid
  cases op with
  | malloc size =>
    simp only [RegionOp.call, ukAllocregionMalloc, RegionOp.newbase, RegionOp.align, RegionOp.size]
    split_ifs with htop hbase
    · exact .inl ⟨_, rfl, rfl, .inr (.inl htop)⟩
    · exact .inl ⟨_, rfl, rfl, .inr (.inr hbase)⟩
    · exact .inr ⟨by omega, by omega, _, rfl, fun h0 => if_neg h0⟩
  | memalign memptr align size =>
    have halign : align = 2 ^ k := halign
    subst halign
    obtain ⟨hpow, hmul⟩ := align_asserts hk h3
    simp only [RegionOp.call, ukAllocregionPosixMemalign, ukAssert_pos hpow, ukAssert_pos hmul,
      Outcome.ok_bind, RegionOp.newbase, RegionOp.align, RegionOp.size]
    split_ifs with hsize htop hbase
    · exact .inl ⟨_, rfl, rfl, .inl hsize⟩
    · exact .inl ⟨_, rfl, rfl, .inr (.inl htop)⟩
    · exact .inl ⟨_, rfl, rfl, .inr (.inr hbase)⟩
    · exact .inr ⟨by omega, by omega, _, rfl, fun _ => rfl⟩

/-- **Step lemma.** A call that fits is served. -/
theorem call_served (hvalid : op.Valid) (hfits : op.Fits b) (hpos : 0 < b.heapBase) :
    ∃ r b', op.call b = .ok (r, b') ∧ Served op b r b' := by
  obtain ⟨-, k, hk, -, halign⟩ := id hvalid
  rcases call_cases b hvalid with ⟨r, hcall, hnone, -⟩ | ⟨hlt, hle, r, hcall, hblock⟩
  · refine ⟨r, b, hcall, ?_⟩
    rw [Served, hnone]
  have hexact := hfits.resolve_right (by omega)
  obtain ⟨hdvd, hbase, hend⟩ := placed hk halign hexact
  refine ⟨r, _, hcall, ?_⟩
  rw [Served, hblock (by omega)]
  exact ⟨rfl, hdvd, hbase, hend.ge, hle, rfl⟩

/-! ### Runs -/

/-- What holds of a heap that started at `lo`. -/
structure RegionInv (lo top : Nat) (s : RegionSys) : Prop where
  top_eq : s.region.heapTop = top
  lo_le : lo ≤ s.region.heapBase
  base_le : s.region.heapBase ≤ top
  inside : ∀ c ∈ s.blocks, lo ≤ c.1 ∧ c.1 + c.2 ≤ s.region.heapBase
  apart : s.blocks.Pairwise Apart

theorem RegionInv.served {lo top : Nat} {s : RegionSys} {r : RegionRet} {b' : Allocregion}
    (h : RegionInv lo top s) (hs : Served op s.region r b') :
    RegionInv lo top ⟨b', (op.block r).toList ++ s.blocks⟩ := by
  unfold Served at hs
  cases hblock : op.block r with
  | none =>
    rw [hblock] at hs
    rw [hs]
    exact h
  | some c =>
    rw [hblock] at hs
    obtain ⟨-, -, hlo, hhi, hle, htop⟩ := hs
    have hbase := h.lo_le
    refine ⟨htop.trans h.top_eq, by simp only; omega, h.top_eq ▸ hle, fun d hd => ?_, ?_⟩
    · rcases List.mem_cons.mp hd with rfl | hd
      · exact ⟨by omega, hhi⟩
      obtain ⟨hdlo, hdhi⟩ := h.inside d hd
      exact ⟨hdlo, by simp only; omega⟩
    refine List.pairwise_cons.mpr ⟨fun d hd => ?_, h.apart⟩
    exact .inr ((h.inside d hd).2.trans hlo)

theorem regionInit_inv {ifmalloc ifstats : Bool} {base len : Nat} {b : Allocregion}
    (hlen : base + len < 2 ^ 64) (hinit : ukAllocregionInit ifmalloc ifstats base len = some b) :
    0 < b.heapBase ∧ RegionInv b.heapBase b.heapTop ⟨b, []⟩ := by
  unfold ukAllocregionInit at hinit
  split_ifs at hinit with hpage hmeta
  cases hinit
  have hpos : 0 < metalen ifmalloc ifstats := by
    unfold metalen sizeofPtr
    omega
  have htop : addU64 base len = base + len := addU64_eq hlen
  have hbase : addU64 base (metalen ifmalloc ifstats) = base + metalen ifmalloc ifstats :=
    addU64_eq (by omega)
  refine ⟨by simp only [hbase]; omega, rfl, le_rfl, ?_, nofun, List.Pairwise.nil⟩
  simp only [htop, hbase]
  omega

/-- **Every run of the region allocator.** In every run of requests that fit, on every heap,
`heap_base` stays between its first value and `heap_top`, the blocks lie below it and are pairwise
apart, and every further request that fits is served: `heap_base` does not decrease, a block lies
between its old and its new value at the required alignment, and a failing call changes nothing. -/
theorem region_blocks {ifmalloc ifstats : Bool} {base len : Nat} {b : Allocregion}
    {s : RegionSys} (hlen : base + len < 2 ^ 64)
    (hinit : ukAllocregionInit ifmalloc ifstats base len = some b)
    (h : Reachable regionStep (fun s op => op.Valid ∧ op.Fits s.region) ⟨b, []⟩ s) :
    RegionInv b.heapBase b.heapTop s ∧ ∀ op : RegionOp, op.Valid → op.Fits s.region →
        ∃ r s', regionStep s op = .ok (r, s') ∧ Served op s.region r s'.region ∧
          s'.blocks = (op.block r).toList ++ s.blocks ∧
          s.region.heapBase ≤ s'.region.heapBase := by
  obtain ⟨hpos, hstart⟩ := regionInit_inv hlen hinit
  have hstep : ∀ s : RegionSys, RegionInv b.heapBase b.heapTop s → ∀ op : RegionOp, op.Valid →
      op.Fits s.region → ∃ r b', regionStep s op =
        .ok (r, ⟨b', (op.block r).toList ++ s.blocks⟩) ∧ Served op s.region r b' := by
    intro s hs op hvalid hfits
    obtain ⟨r, b', hcall, hserved⟩ := call_served hvalid hfits (hpos.trans_le hs.lo_le)
    refine ⟨r, b', ?_, hserved⟩
    rw [regionStep, hcall]
    rfl
  have hinv : RegionInv b.heapBase b.heapTop s := by
    refine h.invariant_of_returns hstart fun s op hs hok => ?_
    obtain ⟨r, b', heq, hserved⟩ := hstep s hs op hok.1 hok.2
    exact ⟨r, _, heq, hs.served hserved⟩
  refine ⟨hinv, fun op hvalid hfits => ?_⟩
  obtain ⟨r, b', heq, hserved⟩ := hstep s hinv op hvalid hfits
  refine ⟨r, _, heq, hserved, rfl, ?_⟩
  unfold Served at hserved
  cases hblock : op.block r with
  | none =>
    rw [hblock] at hserved
    rw [hserved]
  | some c =>
    rw [hblock] at hserved
    obtain ⟨-, -, hlo, hhi, -⟩ := hserved
    simp only
    omega

instance (op : RegionOp) : Decidable op.Valid := instDecidableAnd

/-- The heap of three pages from address 4096 on. -/
def threePages : Allocregion := ⟨16384, 4192⟩

/-- One byte, then a block at a page boundary, then a request that is too large. -/
theorem region_blocks_three_pages :
    ∃ s : RegionSys, s.blocks = [(8192, 100), (4192, 1)] ∧
      ukAllocregionInit false false 4096 12288 = some threePages ∧
      RegionInv threePages.heapBase threePages.heapTop s := by
  have hinit : ukAllocregionInit false false 4096 12288 = some threePages := by decide +kernel
  obtain ⟨s, hs, hblocks⟩ : ∃ s, Reachable regionStep (fun s op => op.Valid ∧ op.Fits s.region)
      ⟨threePages, []⟩ s ∧ s.blocks = [(8192, 100), (4192, 1)] :=
    Reachable.exists_of_run [.malloc 1, .memalign 0 4096 100, .malloc (2 ^ 64 - 100)]
      (by decide +kernel)
  exact ⟨s, hblocks, hinit, (region_blocks (by omega) hinit hs).1⟩

/-- `malloc(1)`, then `malloc(2^64 - 3)`: the end of the second block wraps to a value just above
the unaligned `heap_base`. -/
theorem region_malloc_wraps :
    ∃ s : RegionSys, ukAllocregionInit false false 4096 12288 = some threePages ∧
      Reachable regionStep (fun _ op => op.Valid) ⟨threePages, []⟩ s ∧
      s.blocks = [(4200, 2 ^ 64 - 3), (4192, 1)] ∧ s.region.heapBase = 4197 ∧
      ¬ RegionInv threePages.heapBase threePages.heapTop s := by
  obtain ⟨s, hs, hblocks, hbase⟩ : ∃ s, Reachable regionStep (fun _ op => op.Valid)
      ⟨threePages, []⟩ s ∧ s.blocks = [(4200, 2 ^ 64 - 3), (4192, 1)] ∧
      s.region.heapBase = 4197 :=
    Reachable.exists_of_run [.malloc 1, .malloc (2 ^ 64 - 3)] (by decide +kernel)
  refine ⟨s, by decide +kernel, hs, hblocks, hbase, fun hinv => ?_⟩
  have hin := (hinv.inside (4200, 2 ^ 64 - 3) (by simp [hblocks])).2
  rw [hbase] at hin
  omega

end Unikraft.Ukallocregion
