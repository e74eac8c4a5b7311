import Unikraft.Essentials
import Unikraft.Lib.ByteMem
import Unikraft.Lib.Run

/-!
# Unikraft.Ukalloc.IfPages

The page-based malloc layer of `lib/ukalloc/alloc.c`, on top of a backend that hands out runs of
pages (`palloc`).

A block carries a record with the run it was cut from, at the start of the pointer's page or, when
the pointer is page aligned, of the page before. The records are really stored in the memory of the
model. Each call also returns the calls it made to the backend.
-/

namespace Unikraft.Ukalloc

open Lib Outcome

/-- A call to the page backend, for `palloc` with its answer. -/
inductive BackendCall
  | palloc (numPages base : Nat)
  | pfree (base numPages : Nat)
  deriving DecidableEq

/-- The pointer (`0` is `NULL`, for `posix_memalign` the value of `*memptr`), the error code, the
memory and the backend calls. -/
structure Ret where
  ptr : Nat
  err : Option Errno
  mem : ByteMem
  calls : List BackendCall

/-- `sizeof(struct metadata_ifpages)`, two 64-bit words. -/
abbrev metadataSize : Nat := 16

abbrev metadataIfpagesSizePow2 : Nat := 16

/-- `metadata->num_pages`. -/
def metadataNumPages (mem : ByteMem) (metadata : Nat) : Nat := loadLE mem metadata 8

/-- `metadata->base`. -/
def metadataBase (mem : ByteMem) (metadata : Nat) : Nat := loadLE mem (metadata + 8) 8

/-- `metadata->num_pages = numPages; metadata->base = base`. -/
def setMetadata (mem : ByteMem) (metadata numPages base : Nat) : ByteMem :=
  storeLE (storeLE mem metadata numPages 8) (metadata + 8) base 8

def sizeToNumPages (size : Nat) : Nat := alignUp size pageSize / pageSize

def ukGetMetadata (ptr : Nat) : Outcome Nat := do
  ukAssert (pageSize + metadataSize ≤ ptr)
  let metadata := alignDown ptr pageSize
  -- special case: a page-aligned block has its record in the page before
  .ok (if metadata = ptr then subU64 metadata pageSize else metadata)

def ukGetmallocsize (mem : ByteMem) (ptr : Nat) : Outcome Nat := do
  let metadata ← ukGetMetadata ptr
  .ok (subU64 (addU64 (metadataBase mem metadata)
    (metadataNumPages mem metadata * pageSize % 2 ^ 64)) ptr)

def ukMallocIfpages (mem : ByteMem) (palloc : Nat → Nat) (size : Nat) : Outcome Ret :=
  let realsize := addU64 metadataSize size
  if size = 0 ∨ realsize < size then .ok ⟨0, none, mem, []⟩
  else
    let numPages := sizeToNumPages realsize
    let intptr := palloc numPages
    if intptr = 0 then .ok ⟨0, none, mem, [.palloc numPages intptr]⟩
    else
      .ok ⟨addU64 intptr metadataSize, none, setMetadata mem intptr numPages intptr,
        [.palloc numPages intptr]⟩

/-- `uk_free_ifpages`: the call it makes to the backend. -/
def ukFreeIfpages (mem : ByteMem) (ptr : Nat) : Outcome (List BackendCall) :=
  if ptr = 0 then .ok []
  else do
    let metadata ← ukGetMetadata ptr
    ukAssert (metadataBase mem metadata ≠ 0)
    ukAssert (metadataNumPages mem metadata ≠ 0)
    .ok [.pfree (metadataBase mem metadata) (metadataNumPages mem metadata)]

def ukReallocIfpages (mem : ByteMem) (palloc : Nat → Nat) (ptr size : Nat) : Outcome Ret :=
  if ptr = 0 then ukMallocIfpages mem palloc size
  else if size = 0 then do
    let calls ← ukFreeIfpages mem ptr
    .ok ⟨0, none, mem, calls⟩
  else do
    let ret ← ukMallocIfpages mem palloc size
    if ret.ptr = 0 then .ok ret
    else
      let mallocsize ← ukGetmallocsize ret.mem ptr
      let mem := copyBytes ret.mem ret.ptr ptr (if size < mallocsize then size else mallocsize)
      let calls ← ukFreeIfpages mem ptr
      .ok ⟨ret.ptr, none, mem, ret.calls ++ calls⟩

/-- The alignment `uk_posix_memalign_ifpages` works with and the padding it adds,
for the four classes of a requested alignment. -/
def memalignClass (align : Nat) : Nat × Nat :=
  if pageSize < align then (align, pageSize)
  else if align = pageSize then (align, 0)
  else if align < metadataIfpagesSizePow2 then (metadataIfpagesSizePow2, 0)
  else (align, metadataSize)

def ukPosixMemalignIfpages (mem : ByteMem) (palloc : Nat → Nat) (memptr align size : Nat) :
    Outcome Ret :=
  if (subU64 align 1 &&& align) ≠ 0 ∨ align % 8 ≠ 0 then .ok ⟨memptr, some .einval, mem, []⟩
  else if size = 0 then .ok ⟨memptr, some .einval, mem, []⟩
  else
    let (align, padding) := memalignClass align
    let realsize := addU64 (addU64 size padding) align
    if realsize < size then .ok ⟨memptr, some .einval, mem, []⟩
    else
      let numPages := sizeToNumPages realsize
      let intptr := palloc numPages
      if intptr = 0 then .ok ⟨memptr, some .enomem, mem, [.palloc numPages intptr]⟩
      else do
        let memptr := alignUp (addU64 intptr metadataSize) align
        let metadata ← ukGetMetadata memptr
        ukAssert (intptr ≤ metadata)
        .ok ⟨memptr, none, setMetadata mem metadata numPages intptr, [.palloc numPages intptr]⟩

/-! ### The record of a block -/

variable {mem mem' : ByteMem} {palloc : Nat → Nat} {ptr size align base n : Nat}

/-- Where `uk_get_metadata` finds the record of a block: at the last page
boundary strictly below its pointer. -/
def recordOf (ptr : Nat) : Nat := (ptr - 1) / pageSize * pageSize

theorem ukGetMetadata_eq (h : pageSize + metadataSize ≤ ptr) (hp : ptr < 2 ^ 64) :
    ukGetMetadata ptr = .ok (recordOf ptr) := by
  have hdown : alignDown ptr pageSize = ptr / 4096 * 4096 := roundPgdown_eq hp
  rw [ukGetMetadata, ukAssert_pos h, ok_bind, hdown]
  simp only [pageSize, metadataSize, recordOf, subU64, Except.ok.injEq] at h ⊢
  split <;> omega

/-- The record at `metadata` holds this run. -/
def Recorded (mem : ByteMem) (metadata n base : Nat) : Prop :=
  metadataNumPages mem metadata = n ∧ metadataBase mem metadata = base

theorem recorded_setMetadata (metadata : Nat) (hn : n < 2 ^ 64) (hbase : base < 2 ^ 64) :
    Recorded (setMetadata mem metadata n base) metadata n base := by
  constructor
  · -- the base is written behind the page count
    rw [metadataNumPages, setMetadata, loadLE_congr (agreeOn_storeLE (by omega))]
    exact loadLE_storeLE (by norm_num; omega)
  · exact loadLE_storeLE (by norm_num; omega)

theorem Recorded.congr {metadata : Nat} (h : Recorded mem metadata n base)
    (hmem : AgreeOn mem' mem metadata metadataSize) : Recorded mem' metadata n base := by
  simp only [metadataSize] at hmem
  constructor
  · rw [metadataNumPages, loadLE_congr (hmem.mono le_rfl (by omega))]
    exact h.1
  rw [metadataBase, loadLE_congr (hmem.mono (by omega) (by omega))]
  exact h.2

theorem agreeOn_setMetadata {metadata a k : Nat}
    (h : metadata + metadataSize ≤ a ∨ a + k ≤ metadata) :
    AgreeOn (setMetadata mem metadata n base) mem a k := by
  simp only [metadataSize] at h
  intro x h1 h2
  rw [setMetadata, storeLE_of_outside (by omega), storeLE_of_outside (by omega)]

/-! ### Blocks -/

/-- A block that was handed out: what the caller asked for, and the run of pages
that the backend returned for it. -/
structure Block where
  ptr : Nat
  size : Nat
  align : Nat
  base : Nat
  numPages : Nat
  deriving DecidableEq

/-- The block lies inside its run, aligned, behind its record. -/
structure Block.Placed (b : Block) : Prop where
  base_ne : b.base ≠ 0
  base_aligned : b.base % pageSize = 0
  numPages_pos : 0 < b.numPages
  run_le : b.base + b.numPages * pageSize ≤ 2 ^ 64
  base_le_record : b.base ≤ recordOf b.ptr
  record_le_ptr : recordOf b.ptr + metadataSize ≤ b.ptr
  end_le : b.ptr + b.size ≤ b.base + b.numPages * pageSize
  ptr_lt : b.ptr < b.base + b.numPages * pageSize
  aligned : b.align ≠ 0 → b.align ∣ b.ptr

def Block.Kept (mem : ByteMem) (b : Block) : Prop :=
  Recorded mem (recordOf b.ptr) b.numPages b.base

variable {b : Block}

section

variable (h : b.Placed)

include h

/-- The record and the block, in the order they have in the run. -/
theorem Block.Placed.order :
    b.base ≤ recordOf b.ptr ∧ recordOf b.ptr + metadataSize ≤ b.ptr ∧
      b.ptr < b.base + b.numPages * pageSize ∧ b.ptr + b.size ≤ b.base + b.numPages * pageSize :=
  ⟨h.base_le_record, h.record_le_ptr, h.ptr_lt, h.end_le⟩

theorem Block.Placed.ptr_ge : pageSize + metadataSize ≤ b.ptr := by
  have h1 := h.base_ne
  have h2 := h.base_aligned
  have h3 := h.base_le_record
  have h4 := h.record_le_ptr
  simp only [pageSize] at h2 ⊢
  omega

theorem Block.Placed.getMetadata : ukGetMetadata b.ptr = .ok (recordOf b.ptr) :=
  ukGetMetadata_eq h.ptr_ge (h.ptr_lt.trans_le h.run_le)

theorem Block.Placed.ptr_ne : b.ptr ≠ 0 :=
  Nat.ne_of_gt (Nat.lt_of_lt_of_le (by decide) h.ptr_ge)

theorem ukFreeIfpages_eq (hk : b.Kept mem) :
    ukFreeIfpages mem b.ptr = .ok [.pfree b.base b.numPages] := by
  rw [ukFreeIfpages, if_neg h.ptr_ne, h.getMetadata, ok_bind, hk.1, hk.2,
    ukAssert_pos h.base_ne, ukAssert_pos h.numPages_pos.ne']
  rfl

theorem ukGetmallocsize_eq (hk : b.Kept mem) :
    ukGetmallocsize mem b.ptr = .ok (b.base + b.numPages * pageSize - b.ptr) := by
  have h1 := h.run_le
  have h2 := h.ptr_lt
  have h3 := h.ptr_ge
  rw [ukGetmallocsize, h.getMetadata, ok_bind, hk.1, hk.2]
  simp only [pageSize, addU64, subU64, Except.ok.injEq] at *
  omega

end

/-! ### Allocation

Both ways to allocate ask the backend for the pages of `realsize` bytes, cut the
block out of the run and write the record. What the backend may answer is
`Backend`: `NULL`, or a run that is page aligned, ends inside the address space
and has no page in common with a live run. -/

theorem sizeToNumPages_eq (h : size + 4095 < 2 ^ 64) :
    sizeToNumPages size = (size + 4095) / 4096 := by
  have hup : alignUp size pageSize = (size + 4095) / 4096 * 4096 := roundPgup_eq h
  rw [sizeToNumPages, hup, Nat.mul_div_cancel _ (by norm_num)]

/-- A run of `n` pages from `base` on that the backend may hand out. -/
structure GoodRun (live : List Block) (n base : Nat) : Prop where
  aligned : base % pageSize = 0
  run_le : base + n * pageSize ≤ 2 ^ 64
  disjoint : ∀ b ∈ live, base + n * pageSize ≤ b.base ∨ b.base + b.numPages * pageSize ≤ base

/-- The answers the backend may give while the blocks of `live` are in use. -/
def Backend (live : List Block) (palloc : Nat → Nat) : Prop :=
  ∀ n, 0 < n → palloc n ≠ 0 → GoodRun live n (palloc n)

/-- What a call that hands out `b` leaves behind. -/
def grant (mem : ByteMem) (b : Block) : Ret :=
  ⟨b.ptr, none, setMetadata mem (recordOf b.ptr) b.numPages b.base, [.palloc b.numPages b.base]⟩

variable {live : List Block}

/-- The rounding of `realsize` to whole pages does not wrap. -/
def RoundsUp (realsize : Nat) : Prop := realsize + (pageSize - 1) < 2 ^ 64
  deriving Decidable

/-- The `realsize` of `uk_malloc_ifpages`. -/
def mallocRealsize (size : Nat) : Nat := addU64 metadataSize size

/-- The `realsize` of `uk_posix_memalign_ifpages`. -/
def memalignRealsize (align size : Nat) : Nat :=
  addU64 (addU64 size (memalignClass align).2) (memalignClass align).1

theorem mallocRealsize_cases (hsize : size < 2 ^ 64) :
    16 + size < 2 ^ 64 ∧ mallocRealsize size = 16 + size ∨
      2 ^ 64 ≤ 16 + size ∧ mallocRealsize size < size := by
  unfold mallocRealsize addU64 metadataSize
  omega

theorem ukMallocIfpages_cases (hsize : size < 2 ^ 64)
    (hround : RoundsUp (mallocRealsize size)) (hp : Backend live palloc) :
    (∃ calls, (∀ n base, .pfree base n ∉ calls) ∧
      ∀ mem, ukMallocIfpages mem palloc size = .ok ⟨0, none, mem, calls⟩) ∨
    ∃ b : Block, b.size = size ∧ b.align = 1 ∧ b.Placed ∧ GoodRun live b.numPages b.base ∧
      ∀ mem, ukMallocIfpages mem palloc size = .ok (grant mem b) := by
  by_cases h0 : size = 0
  · exact .inl ⟨[], by simp, fun _ => if_pos (.inl h0)⟩
  rcases mallocRealsize_cases hsize with ⟨hfit, hreal⟩ | ⟨-, hover⟩
  swap
  · exact .inl ⟨[], by simp, fun _ => if_pos (.inr hover)⟩
  rw [hreal] at hround
  have hn : sizeToNumPages (16 + size) = (16 + size + 4095) / 4096 := sizeToNumPages_eq hround
  rw [mallocRealsize] at hreal
  simp only [ukMallocIfpages, hreal, hn, if_neg (show ¬ (size = 0 ∨ 16 + size < size) by omega)]
  generalize hm : (16 + size + 4095) / 4096 = m
  by_cases h0 : palloc m = 0
  · exact .inl ⟨_, by simp, fun _ => if_pos h0⟩
  have hrun := hp m (by omega) h0
  have h1 := hrun.aligned
  have h2 := hrun.run_le
  simp only [pageSize] at h1 h2
  have hrec : recordOf (palloc m + 16) = palloc m := by
    simp only [recordOf, pageSize]
    omega
  refine .inr ⟨⟨palloc m + 16, size, 1, palloc m, m⟩, rfl, rfl, ?_, hrun, fun mem => ?_⟩
  · constructor <;> simp only [hrec, pageSize, metadataSize] <;> omega
  have hptr : addU64 (palloc m) metadataSize = palloc m + 16 :=
    addU64_eq (show palloc m + 16 < 2 ^ 64 by omega)
  rw [if_neg h0, grant, hptr, hrec]

theorem alignUp_in_run {k : Nat} (hk : 4 ≤ k) (hk' : k ≤ 64) (hbase : base % pageSize = 0)
    (hfit : base + 16 + (2 ^ k - 1) < 2 ^ 64) :
    let m := alignUp (base + 16) (2 ^ k)
    2 ^ k ∣ m ∧ m ≤ base + 2 ^ k ∧ base ≤ recordOf m ∧ recordOf m + metadataSize ≤ m := by
  intro m
  have hpos : 16 ≤ 2 ^ k := Nat.pow_le_pow_right (n := 2) (by norm_num) hk
  -- `m` is the least multiple of `2 ^ k` from `base + 16` on
  obtain ⟨hdvd, hle, hlt⟩ : 2 ^ k ∣ m ∧ base + 16 ≤ m ∧ m ≤ base + 16 + (2 ^ k - 1) :=
    alignUp_bounds hk' hfit
  simp only [pageSize, metadataSize, recordOf] at *
  refine ⟨hdvd, ?_⟩
  rcases Nat.le_total k 12 with hk12 | hk12
  · -- the alignment divides the page size: the block starts one alignment into the run
    have hpage : 2 ^ k ∣ base := (Nat.pow_dvd_pow 2 hk12).trans (Nat.dvd_of_mod_eq_zero hbase)
    have hle12 : 2 ^ k ≤ 4096 := Nat.pow_le_pow_right (n := 2) (by norm_num) hk12
    have hmb : m = base + 2 ^ k := by
      obtain ⟨q, hq⟩ := hpage
      obtain ⟨t, ht⟩ := hdvd
      have h1 : q < t := Nat.lt_of_mul_lt_mul_left (a := 2 ^ k) (by omega)
      have h2 : t < q + 2 := Nat.lt_of_mul_lt_mul_left (a := 2 ^ k) (by rw [Nat.mul_add]; omega)
      rw [ht, hq, show t = q + 1 by omega, Nat.mul_add, Nat.mul_one]
    omega
  -- the block is page aligned: its record is in the page before
  obtain ⟨c, hc⟩ : 2 ^ 12 ∣ 2 ^ k := Nat.pow_dvd_pow 2 hk12
  obtain ⟨w, hw⟩ : 2 ^ 12 ∣ m := (Nat.pow_dvd_pow 2 hk12).trans hdvd
  omega

theorem memalignClass_spec (hacc : ¬ ((subU64 align 1 &&& align) ≠ 0 ∨ align % 8 ≠ 0))
    (hlt : align < 2 ^ 64) :
    ∃ k padding, memalignClass align = (2 ^ k, padding) ∧ 4 ≤ k ∧ k < 64 ∧ padding ≤ 4096 ∧
      (align ≠ 0 → align ∣ 2 ^ k) ∧
      (2 ^ k = 16 ∨ 2 ^ k = 4096 ∨ 16 ≤ padding) := by
  obtain ⟨hpow, h8⟩ : (subU64 align 1 &&& align) = 0 ∧ align % 8 = 0 := by simpa using hacc
  rcases Nat.lt_or_ge align 16 with h16 | h16
  · -- too small for the record: only 0 and 8 are left
    have hcl : memalignClass align = (2 ^ 4, 0) := by
      simp [memalignClass, h16, show align ≠ 4096 by omega, show ¬ 4096 < align by omega]
    refine ⟨4, 0, hcl, le_rfl, by omega, by omega, ?_, .inl rfl⟩
    intro hne
    obtain rfl : align = 8 := by omega
    exact ⟨2, rfl⟩
  rw [subU64_eq (by omega) hlt, Nat.and_comm,
    Nat.and_sub_one_eq_zero_iff_isPowerOfTwo (by omega)] at hpow
  obtain ⟨k, rfl⟩ := hpow
  have hk : 4 ≤ k := (Nat.pow_le_pow_iff_right (a := 2) (by norm_num)).mp h16
  have hk' : k < 64 := (Nat.pow_lt_pow_iff_right (a := 2) (by norm_num)).mp hlt
  rcases lt_trichotomy 4096 (2 ^ k) with h | h | h
  · have hcl : memalignClass (2 ^ k) = (2 ^ k, 4096) := by simp [memalignClass, h]
    exact ⟨k, 4096, hcl, hk, hk', le_rfl, fun _ => dvd_rfl, .inr (.inr (by omega))⟩
  · have hcl : memalignClass (2 ^ k) = (2 ^ k, 0) := by simp [memalignClass, ← h]
    exact ⟨k, 0, hcl, hk, hk', by omega, fun _ => dvd_rfl, .inr (.inl h.symm)⟩
  have hcl : memalignClass (2 ^ k) = (2 ^ k, 16) := by
    simp [memalignClass, h.ne, Nat.not_lt.mpr h.le, Nat.not_lt.mpr h16]
  exact ⟨k, 16, hcl, hk, hk', by omega, fun _ => dvd_rfl, .inr (.inr le_rfl)⟩

theorem memalignRealsize_cases {k padding : Nat} (hcl : memalignClass align = (2 ^ k, padding))
    (hk : k < 64) (hpad : padding ≤ 4096) (hsize : size < 2 ^ 64) :
    size + padding + 2 ^ k < 2 ^ 64 ∧ memalignRealsize align size = size + padding + 2 ^ k ∨
      2 ^ 64 ≤ size + padding + 2 ^ k ∧ memalignRealsize align size < size := by
  have hle : 2 ^ k ≤ 2 ^ 63 := Nat.pow_le_pow_right (by norm_num) (Nat.le_of_lt_succ hk)
  have hpos := Nat.two_pow_pos k
  rw [memalignRealsize, hcl]
  simp only [addU64]
  omega

theorem ukPosixMemalignIfpages_cases (mem : ByteMem) (memptr : Nat) (hword : size < 2 ^ 64)
    (halign : align < 2 ^ 64) (hround : RoundsUp (memalignRealsize align size))
    (hp : Backend live palloc) :
    (∃ err calls, ukPosixMemalignIfpages mem palloc memptr align size =
      .ok ⟨memptr, some err, mem, calls⟩) ∨
    ∃ b : Block, b.size = size ∧ b.align = align ∧ b.Placed ∧ GoodRun live b.numPages b.base ∧
      ukPosixMemalignIfpages mem palloc memptr align size = .ok (grant mem b) := by
  by_cases hacc : (subU64 align 1 &&& align) ≠ 0 ∨ align % 8 ≠ 0
  · exact .inl ⟨.einval, [], if_pos hacc⟩
  by_cases hsize : size = 0
  · exact .inl ⟨.einval, [], by rw [ukPosixMemalignIfpages, if_neg hacc, if_pos hsize]⟩
  obtain ⟨k, padding, hcl, hk, hk', hpad, hdvd, hroom⟩ := memalignClass_spec hacc halign
  have hpos := Nat.two_pow_pos k
  rcases memalignRealsize_cases hcl hk' hpad hword with ⟨hfit, hreal⟩ | ⟨-, hover⟩
  swap
  · refine .inl ⟨.einval, [], ?_⟩
    rw [memalignRealsize, hcl] at hover
    rw [ukPosixMemalignIfpages, if_neg hacc, if_neg hsize, hcl]
    exact if_pos hover
  rw [hreal] at hround
  have hn := sizeToNumPages_eq hround
  rw [memalignRealsize, hcl] at hreal
  simp only [ukPosixMemalignIfpages, if_neg hacc, if_neg hsize, hcl, hreal, hn]
  rw [if_neg (by omega)]
  generalize hm : (size + padding + 2 ^ k + 4095) / 4096 = m
  by_cases h0 : palloc m = 0
  · exact .inl ⟨.enomem, _, if_pos h0⟩
  have hrun := hp m (by omega) h0
  have h1 := hrun.aligned
  have h2 := hrun.run_le
  simp only [pageSize] at h2
  have hfit' : palloc m + 16 + (2 ^ k - 1) < 2 ^ 64 := by omega
  have hptr : addU64 (palloc m) metadataSize = palloc m + 16 :=
    addU64_eq (show palloc m + 16 < 2 ^ 64 by omega)
  obtain ⟨hdiv, hle, hbase, hrec⟩ := alignUp_in_run hk hk'.le h1 hfit'
  rw [if_neg h0, hptr]
  generalize alignUp (palloc m + 16) (2 ^ k) = q at *
  have hb : Block.Placed ⟨q, size, align, palloc m, m⟩ := by
    constructor <;> simp only [pageSize, metadataSize] at * <;> try omega
    exact fun hne => (hdvd hne).trans hdiv
  refine .inr ⟨_, rfl, rfl, hb, hrun, ?_⟩
  rw [hb.getMetadata, ok_bind, ukAssert_pos hb.base_le_record]
  rfl

/-! ### The heap and its calls -/

/-- The memory, and the blocks in use. -/
structure Heap where
  mem : ByteMem
  live : List Block

/-- A call of the layer, with the answers its backend gives, or a write to the
memory by code outside of it. -/
inductive Op
  | malloc (palloc : Nat → Nat) (size : Nat)
  | memalign (palloc : Nat → Nat) (memptr align size : Nat)
  | realloc (palloc : Nat → Nat) (ptr size : Nat)
  | free (ptr : Nat)
  | write (mem : ByteMem)

def Op.call (mem : ByteMem) : Op → Outcome Ret
  | .malloc palloc size => ukMallocIfpages mem palloc size
  | .memalign palloc memptr align size => ukPosixMemalignIfpages mem palloc memptr align size
  | .realloc palloc ptr size => ukReallocIfpages mem palloc ptr size
  | .free ptr => do
      let calls ← ukFreeIfpages mem ptr
      .ok ⟨0, none, mem, calls⟩
  | .write mem' => .ok ⟨0, none, mem', []⟩

/-- The block a returned pointer stands for: what was asked for, and the run that
the call's `palloc` returned. -/
def Ret.block (r : Ret) (size align : Nat) : Option Block :=
  match r.calls with
  | .palloc n base :: _ => some ⟨r.ptr, size, align, base, n⟩
  | _ => none

/-- The size and the alignment of the block that the caller of an operation sees it hand out:
`malloc` and `realloc` return a pointer other than `NULL`, `posix_memalign` returns `0`. -/
def Op.granted (r : Ret) : Op → Option (Nat × Nat)
  | .malloc _ size => if r.ptr = 0 then none else some (size, 1)
  | .memalign _ _ align size => if r.err = none then some (size, align) else none
  | .realloc _ _ size => if r.ptr = 0 then none else some (size, 1)
  | .free _ => none
  | .write _ => none

def Op.handsOut (r : Ret) (op : Op) : Option Block :=
  (op.granted r).bind fun asked => r.block asked.1 asked.2

def Op.releases (r : Ret) : Op → Option Nat
  | .realloc _ ptr size => if r.ptr ≠ 0 ∨ size = 0 then some ptr else none
  | .free ptr => some ptr
  | _ => none

/-- The heap after a call that returned `r`. -/
def Heap.after (h : Heap) (op : Op) (r : Ret) : Heap :=
  ⟨r.mem, (op.handsOut r).toList ++ h.live.filter (fun b => op.releases r ≠ some b.ptr)⟩

def step (h : Heap) (op : Op) : Outcome (Ret × Heap) := do
  let r ← op.call h.mem
  .ok (r, h.after op r)

/-- A pointer that may be passed to `realloc` and `free`. -/
def Heap.Owns (h : Heap) (ptr : Nat) : Prop := ptr = 0 ∨ ∃ b ∈ h.live, b.ptr = ptr

/-- Sizes and alignments stay two pages below the end of the address space, pointers are live, and
what other code writes keeps the part of each run before its block. -/
def Op.Valid (h : Heap) : Op → Prop
  | .malloc palloc size => size + 2 * pageSize < 2 ^ 64 ∧ Backend h.live palloc
  | .memalign palloc _ align size =>
    size + align + 2 * pageSize < 2 ^ 64 ∧ Backend h.live palloc
  | .realloc palloc ptr size =>
    size + 2 * pageSize < 2 ^ 64 ∧ Backend h.live palloc ∧ h.Owns ptr
  | .free ptr => h.Owns ptr
  | .write mem => ∀ b ∈ h.live, AgreeOn mem h.mem b.base (b.ptr - b.base)

/-- The `realsize` of a call that allocates. -/
def Op.realsize : Op → Nat
  | .malloc _ size => mallocRealsize size
  | .memalign _ _ align size => memalignRealsize align size
  | .realloc _ _ size => mallocRealsize size
  | .free _ => 0
  | .write _ => 0

/-- The calls of a client whose page counts are not wrapped, with any sizes and alignments. -/
def Op.Rounds (h : Heap) (op : Op) : Prop :=
  RoundsUp op.realsize ∧ match op with
    | .malloc palloc size => size < 2 ^ 64 ∧ Backend h.live palloc
    | .memalign palloc _ align size => size < 2 ^ 64 ∧ align < 2 ^ 64 ∧ Backend h.live palloc
    | .realloc palloc ptr size => size < 2 ^ 64 ∧ Backend h.live palloc ∧ h.Owns ptr
    | .free ptr => h.Owns ptr
    | .write mem => ∀ b ∈ h.live, AgreeOn mem h.mem b.base (b.ptr - b.base)

/-! ### The invariant -/

/-- The runs of two blocks have no page in common. -/
def Block.Apart (b c : Block) : Prop :=
  b.base + b.numPages * pageSize ≤ c.base ∨ c.base + c.numPages * pageSize ≤ b.base

/-- Every block in use is where it should be, its record is intact, and no two
runs overlap. -/
structure Heap.Inv (h : Heap) : Prop where
  placed : ∀ b ∈ h.live, b.Placed
  kept : ∀ b ∈ h.live, b.Kept h.mem
  apart : h.live.Pairwise Block.Apart

section

variable (h : Heap.Inv ⟨mem, live⟩)

include h

theorem Heap.Inv.sublist {live' : List Block}
    (hsub : live'.Sublist live) : Heap.Inv ⟨mem, live'⟩ where
  placed b hb := h.placed b (hsub.subset hb)
  kept b hb := h.kept b (hsub.subset hb)
  apart := h.apart.sublist hsub

theorem Heap.Inv.write
    (hmem : ∀ b ∈ live, AgreeOn mem' mem b.base (b.ptr - b.base)) : Heap.Inv ⟨mem', live⟩ where
  placed := h.placed
  kept b hb := by
    have hp := h.placed b hb
    have hrec := hp.base_le_record
    have hptr := hp.record_le_ptr
    exact (h.kept b hb).congr ((hmem b hb).mono hrec (by omega))
  apart := h.apart

theorem Heap.Inv.grant (hb : b.Placed)
    (hrun : GoodRun live b.numPages b.base) : Heap.Inv ⟨(grant mem b).mem, b :: live⟩ where
  placed := List.forall_mem_cons.mpr ⟨hb, h.placed⟩
  kept := by
    refine List.forall_mem_cons.mpr ⟨?_, ?_⟩
    · have h1 := hb.run_le
      have h2 := hb.numPages_pos
      simp only [pageSize] at h1
      exact recorded_setMetadata _ (by omega) (by omega)
    intro c hc
    have hc' := (h.placed c hc).order
    have hb' := hb.order
    have hapart := hrun.disjoint c hc
    exact (h.kept c hc).congr (agreeOn_setMetadata (by omega))
  apart := List.pairwise_cons.mpr ⟨hrun.disjoint, h.apart⟩

/-- The bytes from a block to the end of its run, what `uk_getmallocsize` counts. -/
def Block.room (b : Block) : Nat := b.base + b.numPages * pageSize - b.ptr

/-- The memory after the block `b` was reallocated as `c`. -/
def reallocated (mem : ByteMem) (b c : Block) : ByteMem :=
  copyBytes (grant mem c).mem c.ptr b.ptr (if c.size < b.room then c.size else b.room)

theorem ukReallocIfpages_grant {c : Block} (hb : b ∈ live)
    (hsize : size ≠ 0) (hc : c.Placed) (hcs : c.size = size) (hrun : GoodRun live c.numPages c.base)
    (hm : ukMallocIfpages mem palloc size = .ok (grant mem c)) :
    ukReallocIfpages mem palloc b.ptr size = .ok ⟨c.ptr, none, reallocated mem b c,
        [.palloc c.numPages c.base, .pfree b.base b.numPages]⟩ ∧
      Heap.Inv ⟨reallocated mem b c, c :: live⟩ := by
  have hinv := h.grant hc hrun
  have hbp := h.placed b hb
  have hms : ukGetmallocsize (grant mem c).mem b.ptr = .ok b.room :=
    ukGetmallocsize_eq hbp (hinv.kept b (List.mem_cons_of_mem c hb))
  have horder := hc.order
  -- the copy stays inside the new block
  have hinv' : Heap.Inv ⟨reallocated mem b c, c :: live⟩ := by
    refine hinv.write (List.forall_mem_cons.mpr ⟨agreeOn_copyBytes ?_, ?_⟩)
    · omega
    intro d hd
    refine agreeOn_copyBytes ?_
    have hapart := hrun.disjoint d hd
    have hd' := (h.placed d hd).ptr_lt
    split <;> omega
  refine ⟨?_, hinv'⟩
  have hfree := ukFreeIfpages_eq hbp (hinv'.kept b (List.mem_cons_of_mem c hb))
  have hne : (grant mem c).ptr ≠ 0 := hc.ptr_ne
  rw [ukReallocIfpages, if_neg hbp.ptr_ne, if_neg hsize, hm, ok_bind, if_neg hne, hms, ok_bind]
  simp only [reallocated, grant, hcs] at hfree ⊢
  rw [hfree]
  rfl

end

variable {h : Heap} {op : Op}

theorem Heap.Inv.after_none {r : Ret} (hinv : h.Inv)
    (hout : op.handsOut r = none) (hmem : r.mem = h.mem) : (h.after op r).Inv := by
  rw [Heap.after, hout, hmem]
  exact hinv.sublist List.filter_sublist

theorem Heap.Inv.after_grant (hinv : h.Inv) (hb : b.Placed)
    (hrun : GoodRun h.live b.numPages b.base)
    (hout : op.handsOut (Ukalloc.grant h.mem b) = some b) :
    (h.after op (Ukalloc.grant h.mem b)).Inv := by
  rw [Heap.after, hout]
  exact (Heap.Inv.grant hinv hb hrun).sublist (List.filter_sublist.cons_cons b)

/-- **Step lemma.** A call that does not wrap its page count returns, and the heap after it is
good. -/
theorem call_ok (hinv : h.Inv) (hop : op.Rounds h) :
    ∃ r, op.call h.mem = .ok r ∧ (h.after op r).Inv := by
  obtain ⟨hround, hop⟩ := hop
  cases op with
  | malloc palloc size =>
    obtain ⟨hsize, hp⟩ := hop
    rcases ukMallocIfpages_cases hsize hround hp with ⟨calls, -, hr⟩ | ⟨b, rfl, ha, hb, hrun, hr⟩
    · exact ⟨_, hr h.mem, hinv.after_none rfl rfl⟩
    refine ⟨_, hr h.mem, hinv.after_grant hb hrun ?_⟩
    simp [Op.handsOut, Op.granted, grant, hb.ptr_ne, Ret.block, ← ha]
  | memalign palloc memptr align size =>
    obtain ⟨hsize, halign, hp⟩ := hop
    rcases ukPosixMemalignIfpages_cases h.mem memptr hsize halign hround hp with
      ⟨err, calls, hr⟩ | ⟨b, rfl, rfl, hb, hrun, hr⟩
    · exact ⟨_, hr, hinv.after_none rfl rfl⟩
    · exact ⟨_, hr, hinv.after_grant hb hrun rfl⟩
  | realloc palloc ptr size =>
    obtain ⟨hword, hp, rfl | ⟨b, hb, rfl⟩⟩ := hop
    · -- `realloc(NULL, size)` is `malloc(size)`
      rcases ukMallocIfpages_cases hword hround hp with ⟨calls, -, hr⟩ | ⟨c, rfl, ha, hc, hrun, hr⟩
      · exact ⟨_, hr h.mem, hinv.after_none rfl rfl⟩
      refine ⟨_, hr h.mem, hinv.after_grant hc hrun ?_⟩
      simp [Op.handsOut, Op.granted, grant, hc.ptr_ne, Ret.block, ← ha]
    have hbp := hinv.placed b hb
    by_cases hsize : size = 0
    · have hfree := ukFreeIfpages_eq hbp (hinv.kept b hb)
      refine ⟨⟨0, none, h.mem, [.pfree b.base b.numPages]⟩, ?_, hinv.after_none rfl rfl⟩
      rw [Op.call, ukReallocIfpages, if_neg hbp.ptr_ne, if_pos hsize, hfree]
      rfl
    rcases ukMallocIfpages_cases hword hround hp with ⟨calls, -, hr⟩ | ⟨c, hcs, ha, hc, hrun, hr⟩
    · -- no pages: the old block stays
      refine ⟨⟨0, none, h.mem, calls⟩, ?_, hinv.after_none rfl rfl⟩
      rw [Op.call, ukReallocIfpages, if_neg hbp.ptr_ne, if_neg hsize, hr h.mem]
      rfl
    obtain ⟨hre, hinv'⟩ := ukReallocIfpages_grant hinv hb hsize hc hcs hrun (hr h.mem)
    refine ⟨_, hre, ?_⟩
    simp only [Heap.after, Op.handsOut, Op.granted, if_neg hc.ptr_ne, Option.bind_some, Ret.block,
      ← hcs, ← ha]
    exact hinv'.sublist (List.filter_sublist.cons_cons c)
  | free ptr =>
    rcases hop with rfl | ⟨b, hb, rfl⟩
    · exact ⟨_, rfl, hinv.after_none rfl rfl⟩
    refine ⟨⟨0, none, h.mem, [.pfree b.base b.numPages]⟩, ?_, hinv.after_none rfl rfl⟩
    rw [Op.call, ukFreeIfpages_eq (hinv.placed b hb) (hinv.kept b hb)]
    rfl
  | write mem =>
    exact ⟨_, rfl, (Heap.Inv.write hinv hop).sublist List.filter_sublist⟩

theorem Op.Valid.rounds (hop : op.Valid h) : op.Rounds h := by
  have hmalloc : ∀ size, size + 2 * pageSize < 2 ^ 64 → RoundsUp (mallocRealsize size) := by
    intro size hfit
    simp only [pageSize] at hfit
    unfold RoundsUp mallocRealsize addU64 metadataSize pageSize
    omega
  cases op with
  | malloc palloc size => exact ⟨hmalloc size hop.1, by have := hop.1; omega, hop.2⟩
  | memalign palloc memptr align size =>
    obtain ⟨hfit, hp⟩ := hop
    refine ⟨?_, by omega, by omega, hp⟩
    have hcl : (memalignClass align).1 + (memalignClass align).2 ≤ align + 4096 := by
      unfold memalignClass metadataIfpagesSizePow2 metadataSize pageSize
      split_ifs <;> omega
    simp only [pageSize] at hfit
    simp only [RoundsUp, Op.realsize, memalignRealsize, addU64, pageSize]
    omega
  | realloc palloc ptr size => exact ⟨hmalloc size hop.1, by have := hop.1; omega, hop.2⟩
  | free ptr | write mem => exact ⟨(by decide : RoundsUp 0), hop⟩

theorem step_ok (hinv : h.Inv) (hop : op.Rounds h) :
    ∃ r, step h op = .ok (r, h.after op r) ∧ (h.after op r).Inv := by
  obtain ⟨r, hr, hinv'⟩ := call_ok hinv hop
  refine ⟨r, ?_, hinv'⟩
  rw [step, hr]
  rfl

theorem Heap.Inv.of_reachable {mem₀ : ByteMem}
    (hreach : Reachable step Op.Rounds ⟨mem₀, []⟩ h) : h.Inv := by
  refine hreach.invariant_of_returns ⟨nofun, nofun, .nil⟩ fun h op hinv hop => ?_
  obtain ⟨r, hstep, hinv'⟩ := step_ok hinv hop
  exact ⟨_, _, hstep, hinv'⟩

theorem ukMallocIfpages_asks {mem : ByteMem} {palloc : Nat → Nat} {size : Nat} {r : Ret}
    (hr : ukMallocIfpages mem palloc size = .ok r) (hne : r.ptr ≠ 0) :
    ∃ n base, r.calls = [.palloc n base] := by
  unfold ukMallocIfpages at hr
  simp only at hr
  split_ifs at hr <;> cases hr
  · exact absurd rfl hne
  · exact absurd rfl hne
  · exact ⟨_, _, rfl⟩

/-- A block is handed out only after a call of `palloc`. -/
theorem Op.asks_of_granted {mem : ByteMem} {r : Ret} {asked : Nat × Nat}
    (hr : op.call mem = .ok r) (hg : op.granted r = some asked) :
    ∃ n base calls, r.calls = .palloc n base :: calls := by
  have hmalloc : ∀ {palloc size r}, ukMallocIfpages mem palloc size = .ok r → r.ptr ≠ 0 →
      ∃ n base calls, r.calls = .palloc n base :: calls := by
    intro palloc size r hr hne
    obtain ⟨n, base, hcalls⟩ := ukMallocIfpages_asks hr hne
    exact ⟨n, base, [], hcalls⟩
  cases op with
  | malloc palloc size =>
    exact hmalloc hr fun h0 => by simp [Op.granted, h0] at hg
  | memalign palloc memptr align size =>
    have herr : r.err = none := by
      by_contra hne
      simp [Op.granted, hne] at hg
    rw [Op.call, ukPosixMemalignIfpages] at hr
    split_ifs at hr with h1 h2
    · cases hr
      cases herr
    · cases hr
      cases herr
    simp only at hr
    split_ifs at hr
    · cases hr
      cases herr
    · cases hr
      cases herr
    · obtain ⟨metadata, -, hr⟩ := Outcome.bind_ok.mp hr
      obtain ⟨-, -, hr⟩ := Outcome.bind_ok.mp hr
      cases hr
      exact ⟨_, _, [], rfl⟩
  | realloc palloc ptr size =>
    have hne : r.ptr ≠ 0 := fun h0 => by simp [Op.granted, h0] at hg
    rw [Op.call, ukReallocIfpages] at hr
    split_ifs at hr
    · exact hmalloc hr hne
    · obtain ⟨calls, -, hr⟩ := Outcome.bind_ok.mp hr
      cases hr
      exact absurd rfl hne
    · obtain ⟨ret, hret, hr⟩ := Outcome.bind_ok.mp hr
      split_ifs at hr with h0
      · cases hr
        exact absurd h0 hne
      obtain ⟨n, base, hcalls⟩ := ukMallocIfpages_asks hret h0
      obtain ⟨mallocsize, -, hr⟩ := Outcome.bind_ok.mp hr
      obtain ⟨calls, -, hr⟩ := Outcome.bind_ok.mp hr
      cases hr
      exact ⟨n, base, calls, by simp [hcalls]⟩
  | free ptr | write mem' => cases hg

/-- **The page-based malloc layer.** In every run of valid calls, a block in use lies inside the
pages its `palloc` returned, aligned and behind its own record; freeing it gives exactly these pages
back, and its size is counted to their end. No valid call fails an assertion, and what it hands out
is a block in use of the size and the alignment that were asked for. -/
theorem ifpages_blocks (mem₀ : ByteMem) (h : Heap) (hreach : Reachable step Op.Valid ⟨mem₀, []⟩ h) :
    (∀ b ∈ h.live, b.base ≤ b.ptr ∧ b.ptr + b.size ≤ b.base + b.numPages * pageSize ∧
      (b.align ≠ 0 → b.align ∣ b.ptr) ∧
      (∃ metadata, ukGetMetadata b.ptr = .ok metadata ∧ b.base ≤ metadata ∧
        metadata + metadataSize ≤ b.ptr) ∧
      ukFreeIfpages h.mem b.ptr = .ok [.pfree b.base b.numPages] ∧
      ukGetmallocsize h.mem b.ptr = .ok (b.base + b.numPages * pageSize - b.ptr)) ∧
    ∀ op : Op, op.Valid h → ∃ r, step h op = .ok (r, h.after op r) ∧
      ∀ size align, op.granted r = some (size, align) →
        ∃ b ∈ (h.after op r).live, b.ptr = r.ptr ∧ b.size = size ∧ b.align = align ∧
          .palloc b.numPages b.base ∈ r.calls := by
  have hinv := Heap.Inv.of_reachable (hreach.mono fun _ _ hop => hop.rounds)
  refine ⟨?_, fun op hop => ?_⟩
  · intro b hb
    have hp := hinv.placed b hb
    have hk := hinv.kept b hb
    have h1 := hp.base_le_record
    have h2 := hp.record_le_ptr
    exact ⟨by omega, hp.end_le, hp.aligned, ⟨_, hp.getMetadata, h1, h2⟩, ukFreeIfpages_eq hp hk,
      ukGetmallocsize_eq hp hk⟩
  obtain ⟨r, hr, -⟩ := step_ok hinv hop.rounds
  refine ⟨r, hr, fun size align hg => ?_⟩
  obtain ⟨r', hcall, heq⟩ := Outcome.bind_ok.mp hr
  cases heq
  obtain ⟨n, base, calls, hcalls⟩ := Op.asks_of_granted hcall hg
  have hout : op.handsOut r = some ⟨r.ptr, size, align, base, n⟩ := by
    simp [Op.handsOut, hg, Ret.block, hcalls]
  refine ⟨_, List.mem_append_left _ (by rw [hout]; exact List.mem_singleton_self _), rfl,
    rfl, rfl, ?_⟩
  simp [hcalls]

/-- A block of 100 bytes at a multiple of 8192 is cut from a run of four pages,
one page behind its record, and freed with that run. -/
theorem ifpages_blocks_memalign :
    ∃ h, Reachable step Op.Valid ⟨fun _ => 0, []⟩ h ∧ h.live = [⟨73728, 100, 8192, 65536, 4⟩] ∧
      ukFreeIfpages h.mem 73728 = .ok [.pfree 65536 4] := by
  let op : Op := .memalign (fun n => if n = 4 then 65536 else 0) 0 8192 100
  have hop : op.Valid ⟨fun _ => 0, []⟩ := by
    refine ⟨by decide, fun n _ hne => ?_⟩
    obtain rfl : n = 4 := by
      by_contra hn
      exact hne (if_neg hn)
    exact ⟨rfl, by decide, nofun⟩
  obtain ⟨r, hr, -⟩ := (ifpages_blocks (fun _ => 0) _ .refl).2 op hop
  have hlive : ((step ⟨fun _ => 0, []⟩ op).toOption.map fun x => x.2.live) =
      some [⟨73728, 100, 8192, 65536, 4⟩] := by decide +kernel
  rw [hr] at hlive
  have hreach := Reachable.refl.tail hop hr
  have hlive : (Heap.after ⟨fun _ => 0, []⟩ op r).live = _ := Option.some.inj hlive
  have hb := (ifpages_blocks _ _ hreach).1 ⟨73728, 100, 8192, 65536, 4⟩ (by rw [hlive]; simp)
  exact ⟨_, hreach, hlive, hb.2.2.2.2.1⟩

end Unikraft.Ukalloc
