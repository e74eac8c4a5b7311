import Mathlib.Data.List.Pairwise
import Unikraft.Basic
import Unikraft.Lib.ByteMem
import Unikraft.Lib.Run

/-!
# Anonymous mappings (`lib/ukmmap/mmap.c`)

`mmap` allocates a block and keeps a record with its bounds; `munmap` is to find the record of its
block and to free both.

`Recorded` ties the mappings that are live to the state of the code. `munmap` does not keep it: it
compares the wrong way round and passes over the very record it is called for.
-/

namespace Unikraft.Ukmmap

open Lib

/-! ### The code -/

/-- `struct mmap_addr`, allocated at `node`. -/
structure MmapAddr where
  node : Nat
  begin : Nat
  end_ : Nat
  deriving DecidableEq

/-- `sizeof(struct mmap_addr)`. -/
def sizeofMmapAddr : Nat := 24

/-- The list `mmap_addr`, the blocks the allocator has given away, and the memory. -/
structure Mmaps where
  mmapAddr : List MmapAddr
  heap : List (Nat × Nat)
  mem : ByteMem

/-- `uk_free` of a block that has been allocated. -/
def ukFree (s : Mmaps) (ptr : Nat) : Outcome Mmaps :=
  match s.heap.find? (·.1 = ptr) with
  | some block => .ok { s with heap := s.heap.erase block }
  | none => .error .badPointer

/-- `memcpy` within the allocated blocks. -/
def memcpy (s : Mmaps) (dst src n : Nat) : Outcome Mmaps :=
  if s.heap.any fun block => block.1 ≤ src ∧ src + n ≤ block.1 + block.2 then
    .ok { s with mem := copyBytes s.mem dst src n }
  else .error .outOfBounds

def protRead : Nat := 1

def protWrite : Nat := 2

def mapPrivate : Nat := 0x02

def mapFixed : Nat := 0x10

def mapAnon : Nat := 0x20

def mapNoreserve : Nat := 0x4000

/-- The protections and flags that `mmap` takes. -/
def Supported (prot flags : Nat) : Prop :=
  ¬ (prot &&& (protRead ||| protWrite) = 0 ∧ prot ≠ 0) ∧ ¬ (flags &&& (mapAnon ||| mapPrivate) = 0 ∧
      flags &&& (mapFixed ||| mapAnon ||| mapPrivate) = 0 ∧
      flags &&& (mapNoreserve ||| mapAnon ||| mapPrivate) = 0)
  deriving Decidable

def Hit (addr : Nat) (r : MmapAddr) : Prop := addr ≠ 0 ∧ r.begin ≤ addr ∧ addr < r.end_
  deriving Decidable

/-- `mmap`, where `mem` and `new` are what `uk_malloc` answers for the block and its record: the
address, or `-1`. -/
def mmap (s : Mmaps) (addr len prot flags : Nat) (fildes off : Int) (mem new : Option Nat) :
    Except (Option Errno) Nat × Mmaps :=
  if len = 0 then (.error (some .einval), s)
  else if fildes ≠ -1 ∨ off ≠ 0 then (.error none, s)
  else if ¬ Supported prot flags then (.error none, s)
  else if ∃ r ∈ s.mmapAddr, Hit addr r then (.ok addr, s)
  else
    match mem, new with
    | none, _ => (.error (some .enomem), s)
    | some _, none => (.error (some .enomem), s)
    | some mem, some new =>
      (.ok mem, { s with
        heap := (new, sizeofMmapAddr) :: (mem, len) :: s.heap
        mmapAddr := s.mmapAddr ++ [⟨new, mem, addU64 mem len⟩] })

/-- The loop of `munmap`, behind the records `seen`; `malloc` is what `uk_malloc` answers for a
size. -/
def munmapLoop (s : Mmaps) (addr len : Nat) (malloc : Nat → Option Nat) (seen : List MmapAddr) :
    List MmapAddr → Outcome (Except (Option Errno) Unit × Mmaps)
  | [] => .ok (.ok (), s)
  | tmp :: rest =>
    if addr ≠ tmp.begin then
      if tmp.end_ > addU64 addr len then .ok (.error (some .einval), s)
      else
        let remainMem := subU64 (subU64 tmp.end_ addr) len
        if remainMem ≠ 0 then
          match malloc remainMem with
          | none => .ok (.error (some .enomem), s)
          | some mem => do
              let s ← memcpy { s with heap := (mem, remainMem) :: s.heap } mem
                (addU64 addr len) remainMem
              let s ← ukFree { s with mmapAddr := seen ++ { tmp with begin := mem } :: rest } addr
              .ok (.ok (), s)
        else do
          let s ← ukFree { s with mmapAddr := seen ++ rest } tmp.node
          let s ← ukFree s addr
          .ok (.ok (), s)
    else munmapLoop s addr len malloc (seen ++ [tmp]) rest

def munmap (s : Mmaps) (addr len : Nat) (malloc : Nat → Option Nat) :
    Outcome (Except (Option Errno) Unit × Mmaps) :=
  if len = 0 then .ok (.error (some .einval), s)
  else if addr = 0 then .ok (.ok (), s)
  else munmapLoop s addr len malloc [] s.mmapAddr

/-! ### Runs -/

/-- A call, with what the allocator answers. -/
inductive MmapEvent
  | mmap (addr len prot flags : Nat) (mem new : Option Nat)
  | munmap (addr len : Nat) (malloc : Nat → Option Nat)

/-- The code and the mappings that are live, by their starts and lengths. -/
structure MmapRun where
  code : Mmaps
  live : List (Nat × Nat)

def InMapping (addr : Nat) (mapping : Nat × Nat) : Prop :=
  addr ≠ 0 ∧ mapping.1 ≤ addr ∧ addr < mapping.1 + mapping.2
  deriving Decidable

/-- A call, and what it should do to the mappings: `mmap` makes a new one, unless the hint is
inside one that is live, and `munmap` ends its one. -/
def step (s : MmapRun) : MmapEvent → Outcome (Except (Option Errno) Nat × MmapRun)
  | .mmap addr len prot flags mem new =>
    match Ukmmap.mmap s.code addr len prot flags (-1) 0 mem new with
    | (.error e, code) => .ok (.error e, ⟨code, s.live⟩)
    | (.ok p, code) =>
      .ok (.ok p, ⟨code,
        if ∃ mapping ∈ s.live, InMapping addr mapping then s.live else s.live ++ [(p, len)]⟩)
  | .munmap addr len malloc => do
      let (res, code) ← Ukmmap.munmap s.code addr len malloc
      .ok (res.map fun _ => 0, ⟨code, s.live.erase (addr, len)⟩)

/-- What `uk_malloc` may answer: a block of `size` bytes that is not in use. -/
def Fresh (heap : List (Nat × Nat)) (size ptr : Nat) : Prop :=
  0 < ptr ∧ ptr + size < 2 ^ 64 ∧ ∀ block ∈ heap, ptr + size ≤ block.1 ∨ block.1 + block.2 ≤ ptr
  deriving Decidable

/-- The calls of a run: anonymous mappings of at least one byte, and `munmap` of a live mapping,
by its start and its full length. -/
def Allowed (s : MmapRun) : MmapEvent → Prop
  | .mmap _ len prot flags mem new => 0 < len ∧ Supported prot flags ∧
      (∀ p ∈ mem, Fresh s.code.heap len p) ∧
      ∀ p ∈ mem, ∀ q ∈ new, Fresh ((p, len) :: s.code.heap) sizeofMmapAddr q
  | .munmap addr len malloc => (addr, len) ∈ s.live ∧
      ∀ size, ∀ p ∈ malloc size, Fresh s.code.heap size p

/-- The call is not `munmap`. -/
def Maps : MmapEvent → Prop
  | .mmap .. => True
  | .munmap .. => False

def Apart (r r' : MmapAddr) : Prop := r.end_ ≤ r'.begin ∨ r'.end_ ≤ r.begin

/-- **The bookkeeping.** The records are the live mappings, each of which is an allocated block,
apart from those of the others. -/
structure Recorded (code : Mmaps) (live : List (Nat × Nat)) : Prop where
  records : code.mmapAddr.map (fun r => (r.begin, r.end_ - r.begin)) = live
  bounds : ∀ r ∈ code.mmapAddr, 0 < r.begin ∧ r.begin < r.end_ ∧ r.end_ < 2 ^ 64
  apart : code.mmapAddr.Pairwise Apart
  allocated : ∀ r ∈ code.mmapAddr, (r.begin, r.end_ - r.begin) ∈ code.heap ∧
    (r.node, sizeofMmapAddr) ∈ code.heap

variable {s s' : MmapRun} {code code' : Mmaps} {live : List (Nat × Nat)} {addr len : Nat}

theorem Recorded.hit_iff (h : Recorded code live) :
    (∃ r ∈ code.mmapAddr, Hit addr r) ↔ ∃ mapping ∈ live, InMapping addr mapping := by
  have hbounds := h.bounds
  rw [← h.records]
  simp only [List.mem_map, exists_exists_and_eq_and, Hit, InMapping]
  refine exists_congr fun r => and_congr_right fun hr => ?_
  have hr := hbounds r hr
  omega

theorem Recorded.push {mem new : Nat} (h : Recorded code live) (hlen : 0 < len)
    (hmem : Fresh code.heap len mem) :
    Recorded { code with
        heap := (new, sizeofMmapAddr) :: (mem, len) :: code.heap
        mmapAddr := code.mmapAddr ++ [⟨new, mem, addU64 mem len⟩] }
      (live ++ [(mem, len)]) := by
  obtain ⟨hpos, hlt, hfree⟩ := hmem
  have hend : addU64 mem len = mem + len := addU64_eq hlt
  simp only [hend]
  refine ⟨?_, fun r hr => ?_, ?_, fun r hr => ?_⟩
  · rw [List.map_append, h.records]
    simp
  · rcases List.mem_append.mp hr with hr | hr
    · exact h.bounds r hr
    cases List.mem_singleton.mp hr
    exact ⟨hpos, by simp only; omega, hlt⟩
  · refine List.pairwise_append.mpr ⟨h.apart, List.pairwise_singleton _ _, fun r hr r' hr' => ?_⟩
    cases List.mem_singleton.mp hr'
    have hbounds := h.bounds r hr
    have hapart := hfree _ (h.allocated r hr).1
    simp only [Apart] at hapart ⊢
    omega
  rcases List.mem_append.mp hr with hr | hr
  · obtain ⟨h1, h2⟩ := h.allocated r hr
    exact ⟨by simp [h1], by simp [h2]⟩
  cases List.mem_singleton.mp hr
  simp

/-- **`mmap` keeps the bookkeeping**, and does not touch the memory. -/
theorem Recorded.mmap {prot flags : Nat} {mem new : Option Nat} {r : Except (Option Errno) Nat}
    (h : Recorded s.code s.live) (hok : Allowed s (.mmap addr len prot flags mem new))
    (hs : step s (.mmap addr len prot flags mem new) = .ok (r, s')) :
    Recorded s'.code s'.live ∧ s'.code.mem = s.code.mem := by
  obtain ⟨hlen, hsupp, hmem, -⟩ := hok
  have hargs : ¬ ((-1 : Int) ≠ -1 ∨ (0 : Int) ≠ 0) := by decide
  unfold step Ukmmap.mmap at hs
  simp only [if_neg hlen.ne', if_neg hargs, if_neg (not_not.mpr hsupp)] at hs
  by_cases hhit : ∃ r ∈ s.code.mmapAddr, Hit addr r
  · rw [if_pos hhit] at hs
    simp only [if_pos (h.hit_iff.mp hhit)] at hs
    cases hs
    exact ⟨h, rfl⟩
  rw [if_neg hhit] at hs
  cases mem with
  | none =>
    cases hs
    exact ⟨h, rfl⟩
  | some mem =>
    cases new with
    | none =>
      cases hs
      exact ⟨h, rfl⟩
    | some new =>
      simp only [if_neg (mt h.hit_iff.mpr hhit)] at hs
      cases hs
      exact ⟨h.push hlen (hmem mem rfl), rfl⟩

/-- The start of a run, in a system that has allocated `heap`. -/
def start (heap : List (Nat × Nat)) (mem : ByteMem) : MmapRun := ⟨⟨[], heap, mem⟩, []⟩

/-- **Runs without `munmap`** have a record for every live mapping and for nothing else, and leave
the memory of all mappings as it is. -/
theorem mmap_bookkeeping (heap : List (Nat × Nat)) (mem : ByteMem) (s : MmapRun)
    (h : Reachable step (fun s e => Allowed s e ∧ Maps e) (start heap mem) s) :
    Recorded s.code s.live ∧ s.code.mem = mem := by
  refine h.invariant (I := fun s => Recorded s.code s.live ∧ s.code.mem = mem) ?_ ?_
  · exact ⟨⟨rfl, by simp [start], List.Pairwise.nil, by simp [start]⟩, rfl⟩
  intro s e r s' ⟨hrec, hmem⟩ ⟨hok, hmaps⟩ hs
  cases e with
  | mmap addr len prot flags ptr new =>
    obtain ⟨hrec', hmem'⟩ := hrec.mmap hok hs
    exact ⟨hrec', hmem'.trans hmem⟩
  | munmap addr len malloc => exact hmaps.elim

instance decidableAllowedMaps (s : MmapRun) : (e : MmapEvent) → Decidable (Allowed s e ∧ Maps e)
  | .mmap .. => inferInstanceAs (Decidable ((_ ∧ _ ∧ _ ∧ _) ∧ True))
  | .munmap .. => isFalse fun h => h.2

/-- Two mappings, and between them a call with a hint inside the first one. -/
theorem mmap_bookkeeping_two_mappings :
    ∃ s : MmapRun, s.live = [(0x10000, 8192), (0x30000, 1)] ∧ Recorded s.code s.live ∧
      s.code.mem = fun _ => 0 := by
  obtain ⟨s, hs, hlive⟩ : ∃ s, Reachable step (fun s e => Allowed s e ∧ Maps e)
      (start [] fun _ => 0) s ∧ s.live = [(0x10000, 8192), (0x30000, 1)] :=
    Reachable.exists_of_run [.mmap 0 8192 3 0x22 (some 0x10000) (some 0x20000),
      .mmap 0x11000 4096 3 0x32 (some 0x40000) (some 0x50000),
      .mmap 0x90000 1 0 0x22 (some 0x30000) (some 0x20020)] (by decide +kernel)
  exact ⟨s, hlive, mmap_bookkeeping [] (fun _ => 0) s hs⟩

/-- A mapping is made and unmapped: `munmap` returns 0, but the record and the block stay. -/
theorem munmap_keeps_record :
    ∃ s, Reachable step Allowed (start [] fun _ => 0) s ∧ s.live = [] ∧
      s.code.mmapAddr = [⟨0x20000, 0x10000, 0x11000⟩] ∧ (0x10000, 4096) ∈ s.code.heap ∧
      ¬ Recorded s.code s.live := by
  have hmap : Allowed (start [] fun _ => 0)
      (.mmap 0 4096 3 0x22 (some 0x10000) (some 0x20000)) := by
    refine ⟨by decide, by decide, ?_, ?_⟩
    · rintro p ⟨rfl⟩
      decide
    rintro p ⟨rfl⟩ q ⟨rfl⟩
    decide
  have hreach : Reachable step Allowed (start [] fun _ => 0) _ := Reachable.refl.tail hmap rfl
  refine ⟨_, hreach.tail (e := .munmap 0x10000 4096 fun _ => none) (r := .ok 0)
    ⟨List.mem_singleton_self _, fun _ _ h => nomatch h⟩ rfl, rfl, rfl, by decide, fun h => ?_⟩
  exact absurd h.records (by decide)

end Unikraft.Ukmmap
