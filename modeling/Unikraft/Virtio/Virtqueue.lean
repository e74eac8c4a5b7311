import Mathlib.Data.List.Perm.Basic
import Mathlib.Data.List.Range
import Unikraft.Basic
import Unikraft.Lib.Chain
import Unikraft.Lib.Run

/-!
# The split virtqueue of the virtio drivers (`plat/drivers/virtio/virtio_ring.c`)

The descriptors, the ring of heads the driver made available and the ring of heads the device has
used. The free descriptors and the chains of the buffers in flight are linked through the same
`next` fields.

Beside them runs the abstract queue: buffers that wait for the device, are held by it, or are done.
`DescAccounting` says how the shared tables represent the buffers in flight.
-/

namespace Unikraft.Virtio

open Lib

/-! ### The shared tables -/

/-- The number of descriptors of a ring, a power of two of at most
`VIRTQUEUE_MAX_SIZE`. -/
structure RingSize where
  order : Nat
  order_le : order ≤ 15
  deriving DecidableEq

theorem two_le_maxOrder : 2 ≤ 15 := by decide

/-- `vring.num`. -/
def RingSize.num (n : RingSize) : Nat := 2 ^ n.order

/-- `VIRTQUEUE_MAX_SIZE`, also the mark at the end of the free descriptors. -/
def virtqueueMaxSize : Nat := 32768

def vringDescFNext : Nat := 1

def vringDescFWrite : Nat := 2

theorem RingSize.num_pos (n : RingSize) : 0 < n.num := Nat.two_pow_pos _

theorem RingSize.num_le (n : RingSize) : n.num ≤ virtqueueMaxSize :=
  Nat.pow_le_pow_right (by norm_num) n.order_le

theorem RingSize.num_dvd (n : RingSize) : n.num ∣ 2 ^ 16 :=
  pow_dvd_pow 2 (n.order_le.trans (by decide))

/-- The slot of a free-running index, `idx & (vring.num - 1)`. -/
def RingSize.slot (n : RingSize) (idx : Nat) : Fin n.num :=
  ⟨idx &&& (n.num - 1), Nat.lt_of_le_of_lt Nat.and_le_right (Nat.sub_one_lt_of_lt n.num_pos)⟩

theorem RingSize.slot_val (n : RingSize) (idx : Nat) : (n.slot idx : Nat) = idx % n.num :=
  Nat.and_two_pow_sub_one_eq_mod idx n.order

structure VringDesc where
  addr : Nat
  len : Nat
  flags : Nat
  next : Nat
  deriving DecidableEq

structure VringUsedElem where
  id : Nat
  len : Nat
  deriving DecidableEq

/-- `struct virtqueue_desc_info`; the cookie 0 is `NULL`. -/
structure VirtqueueDescInfo where
  cookie : Nat
  descCount : Nat
  deriving DecidableEq

/-- `struct virtqueue_vring`, together with the ring memory it points to. -/
structure VirtqueueVring (n : RingSize) where
  desc : Nat → VringDesc
  availRing : Vector Nat n.num
  availIdx : Nat
  usedRing : Vector VringUsedElem n.num
  usedIdx : Nat
  descAvail : Nat
  headFreeDesc : Nat
  lastUsedDescIdx : Nat
  vqAvailIdx : Nat
  vqInfo : Nat → VirtqueueDescInfo

/-- `struct uk_sglist_seg`. -/
structure SglistSeg where
  paddr : Nat
  len : Nat
  deriving DecidableEq

/-- Addition of two `__u16`. -/
def addU16 (a b : Nat) : Nat := (a + b) % 2 ^ 16

/-- Subtraction of two `__u16`. -/
def subU16 (a b : Nat) : Nat := (a + (2 ^ 16 - b % 2 ^ 16)) % 2 ^ 16

variable {n : RingSize}

def VirtqueueVring.next (vrq : VirtqueueVring n) (i : Nat) : Nat := (vrq.desc i).next

/-! ### The driver's calls -/

/-- `virtqueue_vring_init` on the zeroed ring memory of `virtqueue_create`; `info`
is what the uninitialised `vq_info` array holds. -/
def virtqueueVringInit (n : RingSize) (info : Nat → VirtqueueDescInfo) : VirtqueueVring n where
  desc i := ⟨0, 0, 0, if i < n.num - 1 then i + 1 else virtqueueMaxSize⟩
  availRing := Vector.replicate n.num 0
  availIdx := 0
  usedRing := Vector.replicate n.num ⟨0, 0⟩
  usedIdx := 0
  descAvail := n.num
  headFreeDesc := 0
  lastUsedDescIdx := 0
  vqAvailIdx := 0
  vqInfo := info

/-- The flags of segment `i` of a buffer. -/
def segmentFlags (readBufs totalDesc i : Nat) : Nat :=
  (if i ≥ readBufs then vringDescFWrite else 0) |||
    (if i + 1 < totalDesc then vringDescFNext else 0)

/-- The loop of `virtqueue_buffer_enqueue_segments`: the descriptors and the index after the last
one written. -/
def segmentsLoop (n : RingSize) (sg : List SglistSeg) (off readBufs totalDesc : Nat) :
    Nat → (Nat → VringDesc) → Nat → Outcome ((Nat → VringDesc) × Nat)
  | 0, desc, idx => .ok (desc, idx)
  | rem + 1, desc, idx =>
    match sg[off + (totalDesc - (rem + 1))]? with
    | none => .error .outOfBounds
    | some seg =>
      if idx < n.num then
        segmentsLoop n sg off readBufs totalDesc rem
          (Function.update desc idx
            { addr := seg.paddr
              len := seg.len % 2 ^ 32
              flags := segmentFlags readBufs totalDesc (totalDesc - (rem + 1))
              next := (desc idx).next })
          (desc idx).next
      else .error .outOfBounds

def virtqueueBufferEnqueueSegments (vrq : VirtqueueVring n) (head : Nat) (sg : List SglistSeg)
    (off readBufs writeBufs : Nat) : Outcome ((Nat → VringDesc) × Nat) :=
  segmentsLoop n sg off readBufs (readBufs + writeBufs) (readBufs + writeBufs) vrq.desc head

def virtqueueRingUpdateAvail (vrq : VirtqueueVring n) (idx : Nat) : VirtqueueVring n :=
  { vrq with
    availRing := vrq.availRing.set (n.slot vrq.vqAvailIdx) idx
    vqAvailIdx := addU16 vrq.vqAvailIdx 1 }

def virtqueueRingUpdateAvailIdx (vrq : VirtqueueVring n) : VirtqueueVring n :=
  { vrq with availIdx := vrq.vqAvailIdx }

/-- The core of an enqueue, `_virtqueue_buffer_enqueue`. -/
def bufferEnqueue (vrq : VirtqueueVring n) (cookie : Nat) (sg : List SglistSeg)
    (off readBufs writeBufs : Nat) : Outcome (Except Errno Nat × VirtqueueVring n) :=
  if vrq.descAvail < readBufs + writeBufs then .ok (.error .enospc, vrq)
  else do
    ukAssert (cookie ≠ 0)
    if vrq.headFreeDesc < n.num then
      let info := Function.update vrq.vqInfo vrq.headFreeDesc
        ⟨cookie, (readBufs + writeBufs) % 2 ^ 16⟩
      let (desc, idx) ←
        virtqueueBufferEnqueueSegments vrq vrq.headFreeDesc sg off readBufs writeBufs
      let vrq' := virtqueueRingUpdateAvail
        { vrq with
          vqInfo := info
          desc := desc
          headFreeDesc := idx
          descAvail := subU16 vrq.descAvail (readBufs + writeBufs) }
        vrq.headFreeDesc
      return (.ok vrq'.descAvail, vrq')
    else .error .outOfBounds

/-- `virtqueue_buffer_enqueue`: the free descriptors left, or an error. -/
def virtqueueBufferEnqueue (vrq : VirtqueueVring n) (cookie : Nat) (sg : List SglistSeg)
    (readBufs writeBufs : Nat) : Outcome (Except Errno Nat × VirtqueueVring n) := do
  ukAssert (cookie ≠ 0)
  if addU16 readBufs writeBufs < 1 ∨ addU16 readBufs writeBufs > n.num then
    return (.error .einval, vrq)
  else
    match ← bufferEnqueue vrq cookie sg 0 readBufs writeBufs with
    | (.ok rc, vrq') => return (.ok rc, virtqueueRingUpdateAvailIdx vrq')
    | (.error e, vrq') => return (.error e, vrq')

/-- The loop of `virtqueue_detach_desc`, to the end of the chain. One that does not end within
`fuel` descriptors has a cycle. -/
def detachLoop (n : RingSize) (desc : Nat → VringDesc) : Nat → Nat → Nat → Outcome (Nat × Nat)
  | 0, _, _ => .error .divergence
  | fuel + 1, idx, count =>
    if (desc idx).flags &&& vringDescFNext ≠ 0 then
      if (desc idx).next < n.num then detachLoop n desc fuel (desc idx).next (subU16 count 1)
      else .error .outOfBounds
    else .ok (idx, count)

def virtqueueDetachDesc (vrq : VirtqueueVring n) (headIdx : Nat) : Outcome (VirtqueueVring n) := do
  let info := vrq.vqInfo headIdx
  let (last, count) ← detachLoop n vrq.desc n.num headIdx (subU16 info.descCount 1)
  ukAssert (count = 0)
  return { vrq with
    descAvail := addU16 vrq.descAvail info.descCount
    vqInfo := Function.update vrq.vqInfo headIdx { info with descCount := count }
    desc := Function.update vrq.desc last { vrq.desc last with next := vrq.headFreeDesc }
    headFreeDesc := headIdx }

def virtqueueHasdata (vrq : VirtqueueVring n) : Prop := vrq.lastUsedDescIdx ≠ vrq.usedIdx
  deriving Decidable

/-- The core of a dequeue, `_virtqueue_buffer_dequeue`: the cookie and the length
of the next used buffer. -/
def bufferDequeue (vrq : VirtqueueVring n) : Outcome ((Nat × Nat) × VirtqueueVring n) :=
  let elem := vrq.usedRing[n.slot vrq.lastUsedDescIdx]
  let headIdx := elem.id % 2 ^ 16
  if headIdx < n.num then do
    let vrq' ← virtqueueDetachDesc
      { vrq with lastUsedDescIdx := addU16 vrq.lastUsedDescIdx 1 } headIdx
    return (((vrq.vqInfo headIdx).cookie, elem.len),
      { vrq' with
        vqInfo := Function.update vrq'.vqInfo headIdx { vrq'.vqInfo headIdx with cookie := 0 } })
  else .error .outOfBounds

/-- `virtqueue_buffer_dequeue`: the cookie and the length, and the number of
descriptors in use; or an error. -/
def virtqueueBufferDequeue (vrq : VirtqueueVring n) :
    Outcome (Except Errno ((Nat × Nat) × Int) × VirtqueueVring n) :=
  if virtqueueHasdata vrq then do
    let (buf, vrq') ← bufferDequeue vrq
    return (.ok (buf, n.num - vrq'.descAvail), vrq')
  else return (.error .enomsg, vrq)

/-- The loop of `virtqueue_buffer_dequeue_burst`. -/
def dequeueLoop : Nat → VirtqueueVring n → Outcome (List (Nat × Nat) × VirtqueueVring n)
  | 0, vrq => .ok ([], vrq)
  | count + 1, vrq => do
      let (buf, vrq') ← bufferDequeue vrq
      let (bufs, vrq'') ← dequeueLoop count vrq'
      return (buf :: bufs, vrq'')

/-- The number of buffers `virtqueue_buffer_dequeue_burst` takes for `*cnt`, a
`__u16`. -/
def burstCount (vrq : VirtqueueVring n) (cnt : Int) : Nat :=
  (min (subU16 vrq.usedIdx vrq.lastUsedDescIdx : Int) cnt % 2 ^ 16).toNat

/-- `virtqueue_buffer_dequeue_burst`: the cookies and lengths, and the number of
descriptors in use. -/
def virtqueueBufferDequeueBurst (vrq : VirtqueueVring n) (cnt : Int) :
    Outcome ((List (Nat × Nat) × Int) × VirtqueueVring n) := do
  let (bufs, vrq') ← dequeueLoop (burstCount vrq cnt) vrq
  return ((bufs, n.num - vrq'.descAvail), vrq')

end Unikraft.Virtio
