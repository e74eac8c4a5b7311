import Unikraft.Essentials
import Unikraft.Lib.ByteMem

/-!
# Unikraft.Ukalloc.IfMalloc

The layer of `lib/ukalloc/alloc.c` over a backend `malloc` (`CONFIG_LIBUKALLOC_IFMALLOC`). It asks
for some bytes more than it needs and stores a record in the 16 bytes before the block, where
`free` finds the pointer of the backend.

For an alignment below 16 the layer asks for 16 bytes more and rounds up to a multiple of 16: 8
bytes too little when the backend's block is not aligned to 16 (`ifmalloc_memalign_fits`).
-/

namespace Unikraft.Ukalloc

open Lib

/-- A call to the `malloc` backend, for `malloc_backend` with its answer. -/
inductive MallocCall
  | malloc (size ptr : Nat)
  | free (ptr : Nat)
  deriving DecidableEq

/-- The pointer (`0` is `NULL`, for `posix_memalign` the value of `*memptr`), the error code, the
memory and the backend calls. -/
structure MallocRet where
  ptr : Nat
  err : Option Errno
  mem : ByteMem
  calls : List MallocCall

/-- `METADATA_IFMALLOC_SIZE_POW2`, which is also the size of the record. -/
abbrev metadataIfmallocSizePow2 : Nat := 16

def ukGetMetadataIfmalloc (ptr : Nat) : Nat := subU64 ptr metadataIfmallocSizePow2

/-- `metadata->size = size; metadata->base = base`. -/
def setMetadataIfmalloc (mem : ByteMem) (metadata size base : Nat) : ByteMem :=
  storeLE (storeLE mem metadata size 8) (metadata + 8) base 8

/-- `uk_free_ifmalloc`: the call it makes to the backend. -/
def ukFreeIfmalloc (mem : ByteMem) (ptr : Nat) : List MallocCall :=
  if ptr = 0 then [] else [.free (loadLE mem (ukGetMetadataIfmalloc ptr + 8) 8)]

def ukMallocIfmalloc (mem : ByteMem) (malloc : Nat → Nat) (size : Nat) : MallocRet :=
  let realsize := addU64 size metadataIfmallocSizePow2
  if realsize < size then ⟨0, none, mem, []⟩
  else
    let ptr := malloc realsize
    if ptr = 0 then ⟨0, none, mem, [.malloc realsize ptr]⟩
    else ⟨addU64 ptr metadataIfmallocSizePow2, none, setMetadataIfmalloc mem ptr realsize ptr,
      [.malloc realsize ptr]⟩

/-- The alignment `uk_posix_memalign_ifmalloc` works with, and the padding it adds. -/
def memalignIfmallocClass (align : Nat) : Nat × Nat :=
  if align < metadataIfmallocSizePow2 then (metadataIfmallocSizePow2, 0)
  else (align, metadataIfmallocSizePow2)

def ukPosixMemalignIfmalloc (mem : ByteMem) (malloc : Nat → Nat) (memptr align size : Nat) :
    Outcome MallocRet :=
  if (subU64 align 1 &&& align) ≠ 0 ∨ align < 8 then .ok ⟨memptr, some .einval, mem, []⟩
  else if size = 0 then .ok ⟨memptr, some .einval, mem, []⟩
  else
    let (align, padding) := memalignIfmallocClass align
    let realsize := addU64 (addU64 size padding) align
    if realsize < size then .ok ⟨memptr, some .enomem, mem, []⟩
    else
      let intptr := malloc realsize
      if intptr = 0 then .ok ⟨memptr, some .enomem, mem, [.malloc realsize intptr]⟩
      else do
        let memptr := alignUp (addU64 intptr metadataIfmallocSizePow2) align
        let metadata := ukGetMetadataIfmalloc memptr
        ukAssert (intptr ≤ metadata)
        .ok ⟨memptr, none, setMetadataIfmalloc mem metadata realsize intptr,
          [.malloc realsize intptr]⟩

/-! ### The record -/

variable {mem mem' : ByteMem} {malloc : Nat → Nat} {ptr size base k : Nat}

theorem ukFreeIfmalloc_eq (hptr : 16 ≤ ptr) (hlt : ptr < 2 ^ 64) (hbase : base < 2 ^ 64)
    (hmem : AgreeOn mem' (setMetadataIfmalloc mem (ptr - 16) size base) (ptr - 16) 16) :
    ukFreeIfmalloc mem' ptr = [.free base] := by
  have hmeta : ukGetMetadataIfmalloc ptr = ptr - 16 := subU64_eq hptr hlt
  rw [ukFreeIfmalloc, if_neg (by omega), hmeta, loadLE_congr (hmem.mono (by omega) (by omega)),
    setMetadataIfmalloc, loadLE_storeLE (by norm_num; omega)]

theorem agreeOn_setMetadataIfmalloc {metadata a n : Nat}
    (h : metadata + 16 ≤ a ∨ a + n ≤ metadata) :
    AgreeOn (setMetadataIfmalloc mem metadata size base) mem a n := by
  intro x h1 h2
  rw [setMetadataIfmalloc, storeLE_of_outside (by omega), storeLE_of_outside (by omega)]

/-! ### Blocks -/

/-- The bytes that `uk_posix_memalign_ifmalloc` asks for. -/
def memalignIfmallocNeed (align size : Nat) : Nat :=
  size + (memalignIfmallocClass align).2 + (memalignIfmallocClass align).1

/-- The backend returns `NULL`, or blocks of the requested size in the address space that are
aligned to the size of a pointer. -/
def MallocBackend (malloc : Nat → Nat) : Prop :=
  ∀ n, malloc n ≠ 0 → 8 ∣ malloc n ∧ malloc n + n ≤ 2 ^ 64

/-- What a block of `size` bytes at `align` must be like that was cut out of the `realsize` bytes
at `base`. -/
structure CutFrom (base realsize align size : Nat) (mem : ByteMem) (r : MallocRet) : Prop where
  err : r.err = none
  aligned : align ∣ r.ptr
  metadata : base + 16 ≤ r.ptr
  inside : r.ptr + size ≤ base + realsize
  writes : ∀ x, x < r.ptr - 16 ∨ r.ptr ≤ x → r.mem x = mem x
  /-- Whatever happens to the other memory, the block is freed with the backend's pointer. -/
  free : ∀ mem', AgreeOn mem' r.mem (r.ptr - 16) 16 → ukFreeIfmalloc mem' r.ptr = [.free base]

theorem cutFrom_record {realsize align : Nat} (mem : ByteMem) (calls : List MallocCall)
    (hdvd : align ∣ ptr) (hle : base + 16 ≤ ptr) (hend : ptr + size ≤ base + realsize)
    (hpos : 1 ≤ size) (hrun : base + realsize ≤ 2 ^ 64) :
    CutFrom base realsize align size mem
      ⟨ptr, none, setMetadataIfmalloc mem (ptr - 16) realsize base, calls⟩ where
  err := rfl
  aligned := hdvd
  metadata := hle
  inside := hend
  writes x hx := by
    have hout : ptr - 16 + 16 ≤ x ∨ x + 1 ≤ ptr - 16 := by
      have hx : x < ptr - 16 ∨ ptr ≤ x := hx
      omega
    exact agreeOn_setMetadataIfmalloc hout x le_rfl (Nat.lt_succ_self x)
  free mem' hmem := ukFreeIfmalloc_eq (show 16 ≤ ptr by omega) (show ptr < 2 ^ 64 by omega)
    (by omega) hmem

theorem memalign_block {a padding : Nat} (hcl : memalignIfmallocClass (2 ^ k) = (a, padding))
    (hk : 3 ≤ k) (hk' : k < 64) (hpos : 1 ≤ size) (hrun : base + (size + padding + a) ≤ 2 ^ 64)
    (hbase : 16 ≤ 2 ^ k ∨ 16 ∣ base) :
    2 ^ k ∣ alignUp (base + 16) a ∧ base + 16 ≤ alignUp (base + 16) a ∧
      alignUp (base + 16) a + size ≤ base + (size + padding + a) := by
  by_cases h16 : 2 ^ k < 16
  · -- the alignment is 8, and the block is put right behind the record
    have h4 : k < 4 := (Nat.pow_lt_pow_iff_right (a := 2) (by norm_num)).mp h16
    obtain rfl : k = 3 := by omega
    have hclass : memalignIfmallocClass (2 ^ 3) = (16, 0) := rfl
    obtain ⟨rfl, rfl⟩ := Prod.mk.inj (hclass.symm.trans hcl)
    obtain ⟨q, rfl⟩ := hbase.resolve_left (by omega)
    have hup : alignUp (16 * q + 16) 16 = 16 * q + 16 := by
      have h := alignUp_two_pow (k := 4) (v := 16 * q + 16) (by omega) (by omega)
      rw [show 2 ^ 4 = 16 from rfl] at h
      omega
    rw [hup]
    omega
  have hclass : memalignIfmallocClass (2 ^ k) = (2 ^ k, 16) := if_neg h16
  obtain ⟨rfl, rfl⟩ := Prod.mk.inj (hclass.symm.trans hcl)
  obtain ⟨hdvd, hle, hlt⟩ := alignUp_bounds (v := base + 16) hk'.le (by omega)
  exact ⟨hdvd, hle, by omega⟩

/-- **Aligned allocation fits.** For every backend, every alignment from 8 on and every size whose
sum with the slack does not wrap: if the alignment is at least 16 or the backend's block is aligned
to 16, `uk_posix_memalign_ifmalloc` asks the backend once, and returns `ENOMEM` or a block that lies
with its record in the bytes of the backend and is freed with the backend's pointer. -/
theorem ifmalloc_memalign_fits (malloc : Nat → Nat) (hbackend : MallocBackend malloc)
    (mem : ByteMem) (memptr k size realsize base : Nat) (hk : 3 ≤ k) (hk' : k < 64)
    (hpos : 1 ≤ size) (hreal : memalignIfmallocNeed (2 ^ k) size = realsize)
    (hfit : realsize < 2 ^ 64) (hm : malloc realsize = base) (hbase : 16 ≤ 2 ^ k ∨ 16 ∣ base) :
    ∃ r, ukPosixMemalignIfmalloc mem malloc memptr (2 ^ k) size = .ok r ∧
      r.calls = [.malloc realsize base] ∧
      (base = 0 → r = ⟨memptr, some .enomem, mem, r.calls⟩) ∧
      (base ≠ 0 → CutFrom base realsize (2 ^ k) size mem r) := by
  have hlt : 2 ^ k < 2 ^ 64 := Nat.pow_lt_pow_right (by norm_num) hk'
  have h8 : 2 ^ 3 ≤ 2 ^ k := Nat.pow_le_pow_right (by norm_num) hk
  have hacc : ¬ ((subU64 (2 ^ k) 1 &&& 2 ^ k) ≠ 0 ∨ 2 ^ k < 8) := by
    rw [subU64_eq Nat.one_le_two_pow hlt, Nat.and_comm, Nat.and_two_pow_sub_one_eq_mod,
      Nat.mod_self]
    omega
  obtain ⟨⟨a, padding⟩, hcl⟩ : ∃ c, memalignIfmallocClass (2 ^ k) = c := ⟨_, rfl⟩
  obtain rfl : size + padding + a = realsize := by rw [← hreal, memalignIfmallocNeed, hcl]
  have hsum : addU64 (addU64 size padding) a = size + padding + a := by
    unfold addU64
    omega
  rw [ukPosixMemalignIfmalloc, if_neg hacc, if_neg (by omega), hcl]
  simp only [hsum, hm]
  rw [if_neg (by omega)]
  by_cases h0 : base = 0
  · rw [if_pos h0]
    exact ⟨_, rfl, rfl, fun _ => rfl, fun hne => absurd h0 hne⟩
  obtain ⟨-, hrun⟩ := hbackend (size + padding + a) (hm ▸ h0)
  rw [hm] at hrun
  obtain ⟨hdvd, hle, hend⟩ := memalign_block hcl hk hk' hpos hrun hbase
  have hsum : addU64 base metadataIfmallocSizePow2 = base + 16 :=
    addU64_eq (show base + 16 < 2 ^ 64 by omega)
  rw [if_neg h0, hsum]
  generalize alignUp (base + 16) a = ptr at hdvd hle hend
  have hmeta : ukGetMetadataIfmalloc ptr = ptr - 16 := subU64_eq (show 16 ≤ ptr by omega) (by omega)
  rw [hmeta, ukAssert_pos (by omega), Outcome.ok_bind]
  exact ⟨_, rfl, rfl, fun h => absurd h h0, fun _ => cutFrom_record mem _ hdvd hle hend hpos hrun⟩

/-- A backend with one block of 180 bytes, at an odd multiple of 8. -/
def oddBackend (n : Nat) : Nat := if n ≤ 180 then 4104 else 0

theorem oddBackend_ok : MallocBackend oddBackend := by
  intro n hn
  unfold oddBackend at hn ⊢
  split_ifs at hn ⊢
  · exact ⟨⟨513, rfl⟩, by omega⟩
  · exact absurd rfl hn

/-- 100 bytes at a multiple of 64 fit into it. -/
theorem ifmalloc_memalign_fits_64 :
    ∃ r, ukPosixMemalignIfmalloc (fun _ => 0) oddBackend 0 (2 ^ 6) 100 = .ok r ∧
      CutFrom 4104 180 (2 ^ 6) 100 (fun _ => 0) r := by
  obtain ⟨r, hr, -, -, hcut⟩ := ifmalloc_memalign_fits oddBackend oddBackend_ok (fun _ => 0) 0 6 100
    180 4104 (by decide) (by decide) (by decide) rfl (by decide) rfl (.inl (by decide))
  exact ⟨r, hr, hcut (by decide)⟩

/-- One byte at a multiple of 8: the layer asks for 17 bytes, gets those from 4104 on, and hands
out the byte at 4128, behind their end. -/
theorem ifmalloc_memalign_overruns :
    MallocBackend oddBackend ∧ memalignIfmallocNeed 8 1 = 17 ∧ oddBackend 17 = 4104 ∧
      ∃ r, ukPosixMemalignIfmalloc (fun _ => 0) oddBackend 0 8 1 = .ok r ∧ r.err = none ∧
        r.ptr = 4128 ∧ 4104 + 17 < r.ptr + 1 := by
  have hcall : (ukPosixMemalignIfmalloc (fun _ => 0) oddBackend 0 8 1).toOption.map
      (fun r => (r.err, r.ptr)) = some (none, 4128) := by decide +kernel
  refine ⟨oddBackend_ok, rfl, rfl, ?_⟩
  rcases hr : ukPosixMemalignIfmalloc (fun _ => 0) oddBackend 0 8 1 with fault | r
  · rw [hr] at hcall
    cases hcall
  rw [hr, Except.toOption] at hcall
  obtain ⟨herr, hptr⟩ := Prod.mk.inj (Option.some.inj hcall)
  exact ⟨r, rfl, herr, hptr, by omega⟩

end Unikraft.Ukalloc
