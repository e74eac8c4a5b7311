import Unikraft.Lib.ByteMem
import Unikraft.Ukallocregion.Region

/-!
# Unikraft.Ukallocregion.Compat

`uk_calloc_compat` and `uk_realloc_compat` of `ukalloc/alloc.c` over the region allocator.

The layer does not know the size of a block: `uk_realloc_compat` copies as many bytes as the *new*
block has, so it reads behind the old one, where the region allocator puts the new block. The
accesses of `memset` and `memcpy` are checked against the blocks they are made to.
-/

namespace Unikraft.Ukallocregion

open Lib

/-! ### The calls -/

/-- The allocator and the memory. -/
structure RegionMem where
  region : Allocregion
  mem : ByteMem

/-- An access to `n` bytes of a block: they belong to the block and to the heap. -/
def Accessible (b : Allocregion) (block : Nat × Nat) (n : Nat) : Prop :=
  n ≤ block.2 ∧ block.1 + n ≤ b.heapTop
  deriving Decidable

/-- `memset` of the first `n` bytes of a block to 0. -/
def memsetBlock (s : RegionMem) (block : Nat × Nat) (n : Nat) : Outcome RegionMem :=
  if Accessible s.region block n then .ok { s with mem := fillBytes s.mem block.1 0 n }
  else .error .outOfBounds

/-- `memcpy` of the first `n` bytes of the block `src` to the block `dst`. -/
def memcpyBlock (s : RegionMem) (dst src : Nat × Nat) (n : Nat) : Outcome RegionMem :=
  if Accessible s.region dst n ∧ Accessible s.region src n then
    .ok { s with mem := copyBytes s.mem dst.1 src.1 n }
  else .error .outOfBounds

/-- `uk_malloc`, which is `uk_allocregion_malloc`. -/
def ukMalloc (s : RegionMem) (size : Nat) : Nat × RegionMem :=
  let (ptr, region) := ukAllocregionMalloc s.region size
  (ptr, { s with region := region })

/-- `uk_calloc_compat`; the check for an overflow divides by `size`. -/
def ukCallocCompat (s : RegionMem) (nmemb size : Nat) : Outcome (Nat × RegionMem) :=
  let tlen := nmemb * size % 2 ^ 64
  if size = 0 then .error .undefinedArith
  else if (2 ^ 64 - 1) / size < nmemb then .ok (0, s)
  else
    let (ptr, s) := ukMalloc s tlen
    if ptr = 0 then .ok (0, s)
    else do
      let s ← memsetBlock s (ptr, tlen) tlen
      .ok (ptr, s)

/-- `uk_realloc_compat` of a block of the caller, `none` for `NULL`, with its size, which only the
check of the accesses uses. -/
def ukReallocCompat (s : RegionMem) (old : Option (Nat × Nat)) (size : Nat) :
    Outcome (Nat × RegionMem) :=
  match old with
  | none => .ok (ukMalloc s size)
  | some old =>
    if size = 0 then .ok (0, s)
    else
      let (retptr, s) := ukMalloc s size
      if retptr = 0 then .ok (0, s)
      else do
        let s ← memcpyBlock s (retptr, size) old size
        .ok (retptr, s)

/-! ### Runs -/

/-- The allocator, the memory and the blocks of the callers, the newest one first. -/
structure CompatSys where
  heap : RegionMem
  blocks : List (Nat × Nat)

/-- A call, or code of the callers that writes to the memory. -/
inductive CompatOp
  | malloc (size : Nat)
  | calloc (nmemb size : Nat)
  | realloc (old : Option (Nat × Nat)) (size : Nat)
  | write (mem : ByteMem)

/-- The pointer a call returns, and the allocator after it. -/
def CompatOp.call (s : RegionMem) : CompatOp → Outcome (Nat × RegionMem)
  | malloc size => .ok (ukMalloc s size)
  | calloc nmemb size => ukCallocCompat s nmemb size
  | realloc old size => ukReallocCompat s old size
  | write mem => .ok (0, { s with mem := mem })

/-- The bytes the caller has asked for, as an exact number. -/
def CompatOp.size : CompatOp → Nat
  | malloc size => size
  | calloc nmemb size => nmemb * size
  | realloc _ size => size
  | write _ => 0

/-- The blocks the callers still have after a call that returned `ptr`. -/
def CompatOp.kept (op : CompatOp) (ptr : Nat) (blocks : List (Nat × Nat)) : List (Nat × Nat) :=
  match op with
  | realloc (some old) size => if ptr ≠ 0 ∨ size = 0 then blocks.erase old else blocks
  | _ => blocks

/-- The blocks after a call that returned `ptr`. -/
def CompatOp.blocks (op : CompatOp) (ptr : Nat) (blocks : List (Nat × Nat)) : List (Nat × Nat) :=
  if ptr = 0 then op.kept ptr blocks else (ptr, op.size) :: op.kept ptr blocks

def compatStep (s : CompatSys) (op : CompatOp) : Outcome (Nat × CompatSys) := do
  let (ptr, heap) ← op.call s.heap
  .ok (ptr, ⟨heap, op.blocks ptr s.blocks⟩)

/-- The calls with 64-bit arguments on blocks of the caller. -/
def CompatOp.Valid (s : CompatSys) : CompatOp → Prop
  | malloc size => size < 2 ^ 64
  | calloc nmemb size => nmemb < 2 ^ 64 ∧ size < 2 ^ 64
  | realloc old size => size < 2 ^ 64 ∧ ∀ b ∈ old, b ∈ s.blocks
  | write _ => True

/-- `calloc` is not asked for elements of no bytes, and `realloc` does not succeed with a block that
is larger than the old one; no block wraps around the address space. -/
def CompatOp.Fine (s : CompatSys) : CompatOp → Prop
  | malloc size => (RegionOp.malloc size).Fits s.heap.region
  | calloc nmemb size =>
    size ≠ 0 ∧ (nmemb * size < 2 ^ 64 → (RegionOp.malloc (nmemb * size)).Fits s.heap.region)
  | realloc old size => (RegionOp.malloc size).Fits s.heap.region ∧
      ∀ b ∈ old, size ≤ b.2 ∨ (ukAllocregionMalloc s.heap.region size).1 = 0
  | write _ => True

/-- **What a call must do** to the memory when it returns `ptr`. -/
def CompatOp.Done (s : CompatSys) (ptr : Nat) (s' : CompatSys) : CompatOp → Prop
  | malloc _ => s'.heap.mem = s.heap.mem
  | calloc nmemb size =>
    (ptr = 0 → s'.heap.mem = s.heap.mem) ∧
      (ptr ≠ 0 → s'.heap.mem = fillBytes s.heap.mem ptr 0 (nmemb * size))
  | realloc old size =>
    (ptr = 0 → s'.heap.mem = s.heap.mem) ∧
      (∀ x, x < ptr ∨ ptr + size ≤ x → s'.heap.mem x = s.heap.mem x) ∧
      (ptr ≠ 0 → ∀ b ∈ old, ∀ i < min b.2 size, s'.heap.mem (ptr + i) = s.heap.mem (b.1 + i))
  | write mem => s'.heap.mem = mem

/-! ### One call -/

variable {s : CompatSys} {op : CompatOp} {lo top size : Nat}

/-- A call returns `NULL` and changes nothing, or hands out a new block of `size` bytes, with the
memory as `mem` says. -/
def Answer (h : RegionMem) (size : Nat) (mem : Nat → ByteMem) (call : Outcome (Nat × RegionMem)) :
    Prop :=
  call = .ok (0, h) ∨ ∃ ptr region, call = .ok (ptr, ⟨region, mem ptr⟩) ∧ ptr ≠ 0 ∧
      Served (.malloc size) h.region (.malloc ptr) region

variable {h : RegionMem}

theorem ukMalloc_answer (hsize : size < 2 ^ 64) (hfits : (RegionOp.malloc size).Fits h.region)
    (hpos : 0 < h.region.heapBase) : Answer h size (fun _ => h.mem) (.ok (ukMalloc h size)) := by
  have hvalid : (RegionOp.malloc size).Valid := ⟨hsize, 3, by omega, le_rfl, rfl⟩
  obtain ⟨r, region, hcall, hserved⟩ := call_served hvalid hfits hpos
  have heq : ukAllocregionMalloc h.region size = ((ukAllocregionMalloc h.region size).1, region) ∧
      r = .malloc (ukAllocregionMalloc h.region size).1 := by
    rw [RegionOp.call] at hcall
    obtain ⟨rfl, rfl⟩ := Prod.mk.inj (Except.ok.inj hcall)
    exact ⟨rfl, rfl⟩
  obtain ⟨heq, rfl⟩ := heq
  by_cases h0 : (ukAllocregionMalloc h.region size).1 = 0
  · rw [Served, RegionOp.block, if_pos h0] at hserved
    rw [h0] at heq
    exact .inl (by rw [ukMalloc, heq, hserved])
  · exact .inr ⟨_, region, by rw [ukMalloc, heq], h0, hserved⟩

theorem Served.bounds {b b' : Allocregion} {ptr : Nat} (hne : ptr ≠ 0)
    (h : Served (.malloc size) b (.malloc ptr) b') :
    b.heapBase ≤ ptr ∧ ptr + size ≤ b'.heapTop ∧ b'.heapTop = b.heapTop := by
  rw [Served, RegionOp.block, if_neg hne] at h
  obtain ⟨-, -, hlo, hhi, hle, htop⟩ := h
  have hhi : ptr + size ≤ b'.heapBase := hhi
  exact ⟨hlo, by omega, htop⟩

theorem calloc_overflow_iff {nmemb : Nat} (hsize : size ≠ 0) :
    (2 ^ 64 - 1) / size < nmemb ↔ 2 ^ 64 ≤ nmemb * size := by
  rw [Nat.div_lt_iff_lt_mul (Nat.pos_of_ne_zero hsize)]
  omega

theorem ukCallocCompat_answer {nmemb : Nat} (hsize : size ≠ 0)
    (hfits : nmemb * size < 2 ^ 64 → (RegionOp.malloc (nmemb * size)).Fits h.region)
    (hpos : 0 < h.region.heapBase) :
    Answer h (nmemb * size) (fun ptr => fillBytes h.mem ptr 0 (nmemb * size))
      (ukCallocCompat h nmemb size) := by
  have hiff : (2 ^ 64 - 1) / size < nmemb ↔ 2 ^ 64 ≤ nmemb * size := calloc_overflow_iff hsize
  rw [ukCallocCompat, if_neg hsize]
  by_cases hover : 2 ^ 64 ≤ nmemb * size
  · exact .inl (if_pos (hiff.mpr hover))
  have hlt := Nat.lt_of_not_le hover
  rw [if_neg fun hdiv => hover (hiff.mp hdiv), Nat.mod_eq_of_lt hlt]
  rcases ukMalloc_answer hlt (hfits hlt) hpos with hcall | ⟨ptr, region, hcall, hne, hserved⟩
  · rw [Except.ok.inj hcall]
    exact .inl rfl
  have hacc : Accessible region (ptr, nmemb * size) (nmemb * size) :=
    ⟨le_rfl, (hserved.bounds hne).2.1⟩
  rw [Except.ok.inj hcall]
  simp only [if_neg hne, memsetBlock, if_pos hacc]
  exact .inr ⟨ptr, region, rfl, hne, hserved⟩

theorem ukReallocCompat_answer {old : Nat × Nat} (hsize : size < 2 ^ 64)
    (hfits : (RegionOp.malloc size).Fits h.region) (hpos : 0 < h.region.heapBase)
    (hin : old.1 + old.2 ≤ h.region.heapTop)
    (hshrink : size ≤ old.2 ∨ (ukAllocregionMalloc h.region size).1 = 0) :
    Answer h size (fun ptr => copyBytes h.mem ptr old.1 size)
      (ukReallocCompat h (some old) size) := by
  by_cases h0 : size = 0
  · exact .inl (if_pos h0)
  rw [ukReallocCompat, if_neg h0]
  rcases ukMalloc_answer hsize hfits hpos with hcall | ⟨ptr, region, hcall, hne, hserved⟩
  · rw [Except.ok.inj hcall]
    exact .inl rfl
  obtain ⟨-, hend, htop⟩ := hserved.bounds hne
  have hptr : (ukAllocregionMalloc h.region size).1 = ptr := (Prod.mk.inj (Except.ok.inj hcall)).1
  have hle : size ≤ old.2 := hshrink.resolve_right fun hnull => hne (hptr ▸ hnull)
  have hacc : Accessible region (ptr, size) size ∧ Accessible region old size :=
    ⟨⟨le_rfl, hend⟩, hle, by omega⟩
  rw [Except.ok.inj hcall]
  simp only [if_neg hne, memcpyBlock, if_pos hacc]
  exact .inr ⟨ptr, region, rfl, hne, hserved⟩

/-! ### Steps -/

theorem RegionInv.sublist {b : Allocregion} {blocks blocks' : List (Nat × Nat)}
    (h : RegionInv lo top ⟨b, blocks⟩) (hsub : blocks'.Sublist blocks) :
    RegionInv lo top ⟨b, blocks'⟩ :=
  ⟨h.top_eq, h.lo_le, h.base_le, fun c hc => h.inside c (hsub.subset hc), h.apart.sublist hsub⟩

theorem CompatOp.kept_sublist (op : CompatOp) (ptr : Nat) (blocks : List (Nat × Nat)) :
    (op.kept ptr blocks).Sublist blocks := by
  unfold kept
  split
  · split
    · exact List.erase_sublist
    · exact .refl _
  · exact .refl _

theorem compatStep_of_answer (op : CompatOp) {mem : Nat → ByteMem}
    (hinv : RegionInv lo top ⟨s.heap.region, s.blocks⟩)
    (hanswer : Answer s.heap op.size mem (op.call s.heap)) :
    ∃ ptr s', compatStep s op = .ok (ptr, s') ∧ s'.blocks = op.blocks ptr s.blocks ∧
      RegionInv lo top ⟨s'.heap.region, s'.blocks⟩ ∧
      (ptr = 0 ∧ s'.heap.mem = s.heap.mem ∨
        ptr ≠ 0 ∧ s'.heap.mem = mem ptr ∧ s.heap.region.heapBase ≤ ptr) := by
  rcases hanswer with hcall | ⟨ptr, region, hcall, hne, hserved⟩
  · refine ⟨0, ⟨s.heap, op.blocks 0 s.blocks⟩, by rw [compatStep, hcall]; rfl, rfl, ?_,
      .inl ⟨rfl, rfl⟩⟩
    exact hinv.sublist (op.kept_sublist 0 s.blocks)
  refine ⟨ptr, ⟨⟨region, mem ptr⟩, op.blocks ptr s.blocks⟩, by rw [compatStep, hcall]; rfl, rfl, ?_,
    .inr ⟨hne, rfl, (hserved.bounds hne).1⟩⟩
  have hgrant := hinv.served hserved
  rw [RegionOp.block, if_neg hne] at hgrant
  rw [CompatOp.blocks, if_neg hne]
  exact hgrant.sublist ((op.kept_sublist ptr s.blocks).cons_cons _)

/-- **Step lemma.** A valid call with the condition returns, does what it must and keeps the
blocks apart. -/
theorem compat_call (hinv : RegionInv lo top ⟨s.heap.region, s.blocks⟩) (hlo : 0 < lo)
    (hvalid : op.Valid s) (hfine : op.Fine s) :
    ∃ ptr s', compatStep s op = .ok (ptr, s') ∧ s'.blocks = op.blocks ptr s.blocks ∧
      op.Done s ptr s' ∧ RegionInv lo top ⟨s'.heap.region, s'.blocks⟩ := by
  have hpos : 0 < s.heap.region.heapBase := hlo.trans_le hinv.lo_le
  cases op with
  | malloc size =>
    obtain ⟨ptr, s', hstep, hblocks, hinv', hmem⟩ :=
      compatStep_of_answer (.malloc size) hinv (ukMalloc_answer hvalid hfine hpos)
    exact ⟨ptr, s', hstep, hblocks, hmem.elim And.right fun h => h.2.1, hinv'⟩
  | calloc nmemb size =>
    obtain ⟨ptr, s', hstep, hblocks, hinv', hmem⟩ := compatStep_of_answer (.calloc nmemb size) hinv
        (ukCallocCompat_answer hfine.1 hfine.2 hpos)
    refine ⟨ptr, s', hstep, hblocks, ?_, hinv'⟩
    rcases hmem with ⟨rfl, hmem⟩ | ⟨hne, hmem, -⟩
    · exact ⟨fun _ => hmem, fun h => absurd rfl h⟩
    · exact ⟨fun h => absurd h hne, fun _ => hmem⟩
  | realloc old size =>
    obtain ⟨hsize, hlive⟩ := hvalid
    obtain ⟨hfits, hshrink⟩ := hfine
    cases old with
    | none =>
      obtain ⟨ptr, s', hstep, hblocks, hinv', hmem⟩ :=
        compatStep_of_answer (.realloc none size) hinv (ukMalloc_answer hsize hfits hpos)
      have hsame : s'.heap.mem = s.heap.mem := hmem.elim And.right fun h => h.2.1
      exact ⟨ptr, s', hstep, hblocks, ⟨fun _ => hsame, fun x _ => congrFun hsame x, fun _ => nofun⟩,
        hinv'⟩
    | some old =>
      have hold := hinv.inside old (hlive old rfl)
      have hend : old.1 + old.2 ≤ s.heap.region.heapBase := hold.2
      have hbase := hinv.base_le
      have htop := hinv.top_eq
      obtain ⟨ptr, s', hstep, hblocks, hinv', hmem⟩ :=
        compatStep_of_answer (.realloc (some old) size) hinv
          (ukReallocCompat_answer hsize hfits hpos (hend.trans (htop ▸ hbase)) (hshrink old rfl))
      refine ⟨ptr, s', hstep, hblocks, ?_, hinv'⟩
      rcases hmem with ⟨rfl, hmem⟩ | ⟨hne, hmem, hptr⟩
      · exact ⟨fun _ => hmem, fun x _ => congrFun hmem x, fun h => absurd rfl h⟩
      have hmem : s'.heap.mem = copyBytes s.heap.mem ptr old.1 size := hmem
      refine ⟨fun h => absurd h hne, fun x hx => ?_, fun _ b hb i hi => ?_⟩
      · rw [hmem]
        exact if_neg (by omega)
      cases hb
      rw [hmem, copyBytes, if_pos (by omega), Nat.add_sub_cancel_left]
  | write mem => exact ⟨0, _, rfl, rfl, rfl, hinv⟩

/-- **The compatibility layer over the region allocator.** In every run of valid calls that meet the
condition, on every heap, the blocks lie in the heap and are pairwise apart, and every further such
call returns: `calloc` with `NULL` or a zero-filled block of the exact product, `realloc` with
`NULL` and an unchanged memory or a block with the common bytes of the old one. No access is made
outside of the old and the new block. -/
theorem region_compat {ifmalloc ifstats : Bool} {base len : Nat} {b : Allocregion}
    {s : CompatSys} (mem₀ : ByteMem) (hlen : base + len < 2 ^ 64)
    (hinit : ukAllocregionInit ifmalloc ifstats base len = some b)
    (h : Reachable compatStep (fun s op => op.Valid s ∧ op.Fine s) ⟨⟨b, mem₀⟩, []⟩ s) :
    RegionInv b.heapBase b.heapTop ⟨s.heap.region, s.blocks⟩ ∧
      ∀ op : CompatOp, op.Valid s → op.Fine s →
        ∃ ptr s', compatStep s op = .ok (ptr, s') ∧ s'.blocks = op.blocks ptr s.blocks ∧
          op.Done s ptr s' := by
  obtain ⟨hpos, hstart⟩ := regionInit_inv hlen hinit
  have hinv : RegionInv b.heapBase b.heapTop ⟨s.heap.region, s.blocks⟩ := by
    refine h.invariant (I := fun s => RegionInv b.heapBase b.heapTop ⟨s.heap.region, s.blocks⟩)
      hstart ?_
    intro s op ptr s' hs hok hstep
    obtain ⟨ptr', s₁, hstep', -, -, hinv'⟩ := compat_call hs hpos hok.1 hok.2
    rw [hstep] at hstep'
    cases hstep'
    exact hinv'
  refine ⟨hinv, fun op hvalid hfine => ?_⟩
  obtain ⟨ptr, s', hstep, hblocks, hdone, -⟩ := compat_call hinv hpos hvalid hfine
  exact ⟨ptr, s', hstep, hblocks, hdone⟩

instance (s : CompatSys) (op : CompatOp) : Decidable (op.Valid s) :=
  match op with
  | .malloc _ => Nat.decLt ..
  | .calloc _ _ => instDecidableAnd
  | .realloc none _ => inferInstanceAs (Decidable (_ ∧ ∀ b ∈ none, _))
  | .realloc (some _) _ => inferInstanceAs (Decidable (_ ∧ ∀ b ∈ some _, _))
  | .write _ => instDecidableTrue

instance (s : CompatSys) (op : CompatOp) : Decidable (op.Fine s) := by
  rcases op with _ | _ | ⟨_ | _, _⟩ | _ <;> dsimp only [CompatOp.Fine] <;> infer_instance

/-- 100 bytes are written by their owner and shrunk to 50, then 4 times 10 zero bytes are
asked for. -/
theorem region_compat_shrink :
    ∃ s : CompatSys, s.blocks = [(4352, 40), (4296, 50)] ∧
      RegionInv threePages.heapBase threePages.heapTop ⟨s.heap.region, s.blocks⟩ := by
  have hinit : ukAllocregionInit false false 4096 12288 = some threePages := by decide +kernel
  obtain ⟨s, hs, hblocks⟩ : ∃ s, Reachable compatStep (fun s op => op.Valid s ∧ op.Fine s)
      ⟨⟨threePages, fun _ => 0⟩, []⟩ s ∧ s.blocks = [(4352, 40), (4296, 50)] :=
    Reachable.exists_of_run [.malloc 100, .write (fun _ => 7), .realloc (some (4192, 100)) 50,
      .calloc 4 10] (by decide +kernel)
  exact ⟨s, hblocks, (region_compat (fun _ => 0) (by omega) hinit hs).1⟩

/-- A block of one byte is reallocated with 100 bytes: `memcpy` reads 99 bytes behind it. And
elements of no bytes: the check for an overflow divides by zero. -/
theorem region_compat_faults :
    ukAllocregionInit false false 4096 12288 = some threePages ∧ (∃ s : CompatSys,
        Reachable compatStep (fun s op => op.Valid s) ⟨⟨threePages, fun _ => 0⟩, []⟩ s ∧
        (CompatOp.realloc (some (4192, 1)) 100).Valid s ∧
        compatStep s (.realloc (some (4192, 1)) 100) = .error .outOfBounds) ∧
      compatStep ⟨⟨threePages, fun _ => 0⟩, []⟩ (.calloc 1 0) = .error .undefinedArith := by
  refine ⟨by decide +kernel, ⟨⟨⟨⟨16384, 4193⟩, fun _ => 0⟩, [(4192, 1)]⟩, ?_, by decide, ?_⟩, rfl⟩
  · have hstep : compatStep ⟨⟨threePages, fun _ => 0⟩, []⟩ (.malloc 1) =
        .ok (4192, ⟨⟨⟨16384, 4193⟩, fun _ => 0⟩, [(4192, 1)]⟩) := by
      have hcall : ukAllocregionMalloc threePages 1 = (4192, ⟨16384, 4193⟩) := by decide +kernel
      rw [compatStep, CompatOp.call, ukMalloc, hcall]
      rfl
    exact Reachable.refl.tail (by decide) hstep
  have hcall : ukAllocregionMalloc ⟨16384, 4193⟩ 100 = (4200, ⟨16384, 4300⟩) := by decide +kernel
  rw [compatStep, CompatOp.call, ukReallocCompat, if_neg (by decide), ukMalloc, hcall]
  rfl

end Unikraft.Ukallocregion
