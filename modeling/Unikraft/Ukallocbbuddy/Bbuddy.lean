import Unikraft.Basic
import Unikraft.Lib.BitWords
import Unikraft.Lib.LinkSeg

/-!
# Unikraft.Ukallocbbuddy.Bbuddy

**The binary buddy page allocator** (`lib/ukallocbbuddy/bbuddy.c`) as the source computes it: the
bitmap of each region, the lists of free chunks, `bbuddy_palloc` with its splitting loop and
`bbuddy_pfree` with its merging loop.

The header of a chunk lies in its first page. The `level` in its last bytes is never read and not
in the model.
-/

namespace Unikraft.Ukallocbbuddy

open Lib Function

/-- `FREELIST_SIZE`, `(sizeof(void *) << 3) - __PAGE_SHIFT`. -/
def freelistSize : Nat := 52

/-- A `chunk_head_t`: in the page at `va`, or an element of the `free_tail` array. -/
inductive ChunkHead
  | chunk (va : Nat)
  | tail (i : Nat)
  deriving DecidableEq

/-- `struct uk_bbpalloc_memr`, which lies at the address `va`. -/
structure Memr where
  va : Nat
  firstPage : Nat
  nrPages : Nat
  bitmap : Nat → BitVec 64

/-- `struct uk_bbpalloc` with the chunk headers in the pages. The links are the
`free_head` array and the `next` and `pprev` fields. -/
structure Bbpalloc where
  nrFreePages : Nat
  links : Links Nat ChunkHead
  level : Nat → Nat
  memrs : List Memr

/-- The allocator after the initialisation loop of `uk_allocbbuddy_init`: every list has
only its tail, and there is no region. -/
def bbuddyInit : Bbpalloc where
  nrFreePages := 0
  links :=
    { cell := fun
        | .head i => some (.tail i)
        | .next _ => none
      prev := fun
        | .tail i => .head i
        | .chunk _ => .head 0 }
  level _ := 0
  memrs := []

/-! ### The allocation bitmap -/

/-- The first address behind the pages of a region,
`memr->first_page + (memr->nr_pages << __PAGE_SHIFT)`. -/
def Memr.endPage (m : Memr) : Nat := addU64 m.firstPage (m.nrPages * pageSize % 2 ^ 64)

def mapGetMemr (b : Bbpalloc) (pageVa : Nat) : Option Memr :=
  b.memrs.find? fun m => m.firstPage ≤ pageVa ∧ pageVa < m.endPage

def allocatedInMap (b : Bbpalloc) (pageVa : Nat) : Bool :=
  match mapGetMemr b pageVa with
  | none => true
  | some m =>
    let pageIdx := (pageVa - m.firstPage) / pageSize
    m.bitmap (pageIdx / 64) &&& (1#64 <<< (pageIdx &&& 63)) ≠ 0#64

/-- The bitmap updates of `map_alloc`, for `nr` pages from index `first` on. -/
def bitmapAlloc (bm : Nat → BitVec 64) (first nr : Nat) : Nat → BitVec 64 :=
  let currIdx := first / 64
  let startOff := first &&& 63
  let endIdx := (first + nr) / 64
  let endOff := (first + nr) &&& 63
  if currIdx = endIdx then
    update bm currIdx
      (bm currIdx ||| (((1#64 <<< endOff) - 1#64) &&& -(1#64 <<< startOff)))
  else
    let bm := update bm currIdx (bm currIdx ||| -(1#64 <<< startOff))
    let bm := fillWords (~~~0#64) (currIdx + 1) (endIdx - (currIdx + 1)) bm
    update bm endIdx (bm endIdx ||| ((1#64 <<< endOff) - 1#64))

/-- The bitmap updates of `map_free`. The loop `while (++curr_idx != end_idx)`
starts below `end_idx`, as the one of `map_alloc` does. -/
def bitmapFree (bm : Nat → BitVec 64) (first nr : Nat) : Nat → BitVec 64 :=
  let currIdx := first / 64
  let startOff := first &&& 63
  let endIdx := (first + nr) / 64
  let endOff := (first + nr) &&& 63
  if currIdx = endIdx then
    update bm currIdx
      (bm currIdx &&& (-(1#64 <<< endOff) ||| ((1#64 <<< startOff) - 1#64)))
  else
    let bm := update bm currIdx (bm currIdx &&& ((1#64 <<< startOff) - 1#64))
    let bm := fillWords 0#64 (currIdx + 1) (endIdx - (currIdx + 1)) bm
    update bm endIdx (bm endIdx &&& -(1#64 <<< endOff))

/-- Write the bitmap of the region whose `struct uk_bbpalloc_memr` is at `va`. -/
def setBitmap (va : Nat) (bm : Nat → BitVec 64) (memrs : List Memr) : List Memr :=
  memrs.map fun m => if m.va = va then { m with bitmap := bm } else m

/-- What `map_alloc` and `map_free` share: find the region of the pages and update
its bitmap with `update`. -/
def mapUpdate (update : (Nat → BitVec 64) → Nat → Nat → Nat → BitVec 64) (b : Bbpalloc)
    (firstPage nrPages : Nat) : Outcome (List Memr) :=
  match mapGetMemr b firstPage with
  | none => .error .assertion
  | some m => do
      ukAssert (addU64 firstPage (nrPages * pageSize % 2 ^ 64) ≤ m.endPage)
      return setBitmap m.va (update m.bitmap ((firstPage - m.firstPage) / pageSize) nrPages) b.memrs

def mapAlloc (b : Bbpalloc) (firstPage nrPages : Nat) : Outcome Bbpalloc := do
  let memrs ← mapUpdate bitmapAlloc b firstPage nrPages
  return { b with memrs := memrs, nrFreePages := subU64 b.nrFreePages nrPages }

def mapFree (b : Bbpalloc) (firstPage nrPages : Nat) : Outcome Bbpalloc := do
  let memrs ← mapUpdate bitmapFree b firstPage nrPages
  return { b with memrs := memrs, nrFreePages := addU64 b.nrFreePages nrPages }

/-- `num_pages_to_order`; `ukarch_flsl` is the index of the highest set bit. -/
def numPagesToOrder (numPages : Nat) : Outcome Nat := do
  ukAssert (numPages ≠ 0)
  return if numPages = 1 then 0 else Nat.log2 (numPages - 1) + 1

/-! ### The lists of free chunks -/

/-- Write the header of the chunk at `va` and put it in front of list `i`. -/
def linkChunk (b : Bbpalloc) (i va : Nat) : Outcome Bbpalloc :=
  if i < freelistSize then
    match b.links.cell (.head i) with
    | some first => .ok
        { b with
          level := update b.level va i
          links := b.links.pushFront i (.chunk va) first }
    | none => .error .badPointer
  else .error .outOfBounds

/-- `FREELIST_EMPTY(b->free_head[i])`. -/
def freelistEmpty (b : Bbpalloc) (i : Nat) : Outcome Bool :=
  match b.links.cell (.head i) with
  | some first => .ok (b.links.cell (.next first) = none)
  | none => .error .badPointer

/-! ### Allocation -/

/-- The search of `bbuddy_palloc` for a list with a chunk, from `i` on. -/
def findOrder (b : Bbpalloc) : Nat → Nat → Outcome Nat
  | 0, i => .ok i
  | fuel + 1, i => do if ← freelistEmpty b i then findOrder b fuel (i + 1) else return i

/-- The loop of `bbuddy_palloc` that breaks the chunk at `va`, of `order` plus a
number of orders, until it has this order. -/
def splitLoop (va order : Nat) : Nat → Bbpalloc → Outcome Bbpalloc
  | 0, b => .ok b
  | d + 1, b => do
      let b ← linkChunk b (order + d) (addU64 va (2 ^ (order + d + 12)))
      splitLoop va order d b

/-- `bbuddy_palloc`: the address of the pages, or `NULL` when out of memory. -/
def bbuddyPalloc (b : Bbpalloc) (numPages : Nat) : Outcome (Option Nat × Bbpalloc) := do
  let order ← numPagesToOrder numPages
  let i ← findOrder b (freelistSize - order) order
  if i = freelistSize then return (none, b)
  else if i < freelistSize then
    match b.links.cell (.head i) with
    | some (.chunk va) =>
      match b.links.cell (.next (.chunk va)) with
      | some second =>
        let b := { b with
          links := (b.links.setCell (.head i) (some second)).setPrev second
            (b.links.prev (.chunk va)) }
        let b ← splitLoop va order (i - order) b
        let b ← mapAlloc b va (2 ^ order)
        return (some va, b)
      | none => .error .badPointer
    | _ => .error .badPointer
  else .error .outOfBounds

/-! ### Release -/

/-- The loop of `bbuddy_pfree` that merges the chunk at `freed` with its buddies. -/
def mergeLoop : Nat → Bbpalloc → Nat → Nat → Outcome (Bbpalloc × Nat × Nat)
  | 0, b, freed, order => .ok (b, freed, order)
  | fuel + 1, b, freed, order =>
    let mask := 2 ^ (order + 12)
    let toMerge := if freed &&& mask ≠ 0 then freed - mask else addU64 freed mask
    if allocatedInMap b toMerge ∨ b.level toMerge ≠ order then .ok (b, freed, order)
    else
      match b.links.cell (.next (.chunk toMerge)) with
      | some second =>
        mergeLoop fuel { b with links := b.links.unlink (.chunk toMerge) second }
          (if freed &&& mask ≠ 0 then toMerge else freed) (order + 1)
      | none => .error .badPointer

def bbuddyPfree (b : Bbpalloc) (obj numPages : Nat) : Outcome Bbpalloc := do
  let order ← numPagesToOrder numPages
  ukAssert (obj &&& (pageSize - 1) = 0)
  if order < 64 then
    let b ← mapFree b obj (2 ^ order)
    let (b, freed, order) ← mergeLoop (freelistSize - order) b obj order
    linkChunk b order freed
  else .error .undefinedArith

end Unikraft.Ukallocbbuddy
