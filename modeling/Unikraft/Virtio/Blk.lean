import Unikraft.Uksglist.Sglist
import Unikraft.Virtio.DeviceView

/-!
# Requests of the virtio block driver (`plat/drivers/virtio/virtio_blk.c`)

A request becomes a scatter/gather list of header, data and status byte; the driver counts the
segments the device reads and writes as if these were segments of their own, but the list joins
adjacent parts.

`BlkChain` is what the device has to find, and finds for reads and writes of less than 4 GiB. In a
flush the header and the status byte become one segment, so that the status is not writable.
-/

namespace Unikraft.Virtio

open Lib Uksglist Outcome

variable {n : RingSize} {r : Nat}

/-! ### The driver -/

inductive UkBlkreqOp
  | read
  | write
  | fflush
  /-- A value that names no operation. -/
  | other (code : Nat)
  deriving DecidableEq

structure UkBlkreq where
  operation : UkBlkreqOp
  startSector : Nat
  nbSectors : Nat
  aioBuf : Nat

structure UkBlkdevCap where
  sectors : Nat
  ssize : Nat
  rdonly : Bool
  maxSectorsPerReq : Nat

structure VirtioBlkDevice where
  cap : UkBlkdevCap
  maxSizeSegment : Nat
  writeback : Bool
  maxSizeSegment_lt : maxSizeSegment < 2 ^ 32

structure UkBlkdevQueue (n : RingSize) where
  vrq : VirtqueueVring n
  vbd : VirtioBlkDevice
  sg : Sglist

/-- `struct virtio_blk_outhdr`; the driver leaves `ioprio` as it is. -/
structure VirtioBlkOuthdr where
  type : Nat
  sector : Nat
  deriving DecidableEq

def virtioBlkTIn : Nat := 0

def virtioBlkTOut : Nat := 1

def virtioBlkTFlush : Nat := 4

/-- The offset of the header in `struct virtio_blkdev_request`, behind a pointer. -/
def offsetofOuthdr : Nat := 8

/-- `sizeof(struct virtio_blk_outhdr)`. -/
def sizeofOuthdr : Nat := 16

/-- The offset of the status byte in `struct virtio_blkdev_request`. -/
def offsetofStatus : Nat := 24

/-- `sizeof(struct virtio_blkdev_request)`, with the padding behind the status byte. -/
def sizeofRequest : Nat := 32

/-- The loop of `virtio_blkdev_request_set_sglist` over the data. An offset that is met twice is met
for ever. -/
def dataLoop (start dataSize maxSize : Nat) :
    Nat → Sglist → Nat → Outcome (Except Errno Unit × Sglist)
  | fuel, sg, idx =>
    if idx < dataSize then
      match fuel with
      | 0 => .error .divergence
      | fuel + 1 => do
          let segmentSize := if dataSize - idx > maxSize then maxSize else dataSize - idx
          match ← ukSglistAppend sg (addU64 start idx) segmentSize with
          | (.error e, sg) => return (.error e, sg)
          | (.ok (), sg) => dataLoop start dataSize maxSize fuel sg (addU64 idx maxSize)
    else .ok (.ok (), sg)

/-- `virtio_blkdev_request_set_sglist`, with the request structure at `addr`. -/
def virtioBlkdevRequestSetSglist (queue : UkBlkdevQueue n) (req : UkBlkreq) (addr sectorSize : Nat)
    (haveData : Bool) : Outcome (Except Errno Unit × Sglist) := do
  let dataSize := req.nbSectors * sectorSize % 2 ^ 64
  match ← ukSglistAppend (ukSglistReset queue.sg) (addU64 addr offsetofOuthdr) sizeofOuthdr with
  | (.error e, sg) => return (.error e, sg)
  | (.ok (), sg) =>
    match ← (if haveData then
        dataLoop req.aioBuf dataSize queue.vbd.maxSizeSegment (dataSize + 1) sg 0
      else return (.ok (), sg)) with
    | (.error e, sg) => return (.error e, sg)
    | (.ok (), sg) => ukSglistAppend sg (addU64 addr offsetofStatus) 1

/-- What the two request functions hand back: the segment counts and the header. -/
structure Prepared where
  readSegs : Nat
  writeSegs : Nat
  hdr : VirtioBlkOuthdr

/-- `virtio_blkdev_request_write`, for reads and writes. -/
def virtioBlkdevRequestWrite (queue : UkBlkdevQueue n) (req : UkBlkreq) (addr : Nat) :
    Outcome (Except Errno Prepared × Sglist) :=
  let cap := queue.vbd.cap
  if req.operation = .write ∧ cap.rdonly then .ok (.error .eperm, queue.sg)
  else if req.aioBuf = 0 then .ok (.error .einval, queue.sg)
  else if req.nbSectors = 0 then .ok (.error .einval, queue.sg)
  else if addU64 req.startSector req.nbSectors > cap.sectors then .ok (.error .einval, queue.sg)
  else if req.nbSectors > cap.maxSectorsPerReq then .ok (.error .einval, queue.sg)
  else do
    match ← virtioBlkdevRequestSetSglist queue req addr cap.ssize true with
    | (.error e, sg) => return (.error e, sg)
    | (.ok (), sg) =>
      if req.operation = .write then
        return (.ok ⟨subU16 sg.nseg 1, 1, ⟨virtioBlkTOut, req.startSector⟩⟩, sg)
      else return (.ok ⟨1, subU16 sg.nseg 1, ⟨virtioBlkTIn, req.startSector⟩⟩, sg)

def virtioBlkdevRequestFlush (queue : UkBlkdevQueue n) (req : UkBlkreq) (addr : Nat) :
    Outcome (Except Errno Prepared × Sglist) :=
  if queue.vbd.writeback = false then .ok (.error .enotsup, queue.sg)
  else do
    match ← virtioBlkdevRequestSetSglist queue req addr 0 false with
    | (.error e, sg) => return (.error e, sg)
    | (.ok (), sg) => return (.ok ⟨1, 1, ⟨virtioBlkTFlush, 0⟩⟩, sg)

/-- `virtio_blkdev_queue_enqueue`, where `addr` is the memory of the request structure: the free
descriptors that are left and the header, or an error. -/
def virtioBlkdevQueueEnqueue (queue : UkBlkdevQueue n) (req : UkBlkreq) (addr : Nat) :
    Outcome (Except Errno (Nat × VirtioBlkOuthdr) × UkBlkdevQueue n) :=
  if queue.vrq.descAvail = 0 then .ok (.error .enospc, queue)
  else if addr = 0 then .ok (.error .enomem, queue)
  else do
    match ← (match req.operation with
        | .write | .read => virtioBlkdevRequestWrite queue req addr
        | .fflush => virtioBlkdevRequestFlush queue req addr
        | .other _ => return (.error .einval, queue.sg)) with
    | (.error e, sg) => return (.error e, { queue with sg := sg })
    | (.ok prep, sg) =>
      match ← virtqueueBufferEnqueue queue.vrq addr sg.segs prep.readSegs prep.writeSegs with
      | (.ok rc, vrq) => return (.ok (rc, prep.hdr), { queue with sg := sg, vrq := vrq })
      | (.error e, vrq) => return (.error e, { queue with sg := sg, vrq := vrq })

/-! ### The segments of a request -/

variable {queue queue' : UkBlkdevQueue n} {req : UkBlkreq} {sl sl' : Sglist}
  {addr start size maxSize fuel idx : Nat}

theorem dataLoop_done (hidx : ¬ idx < size) :
    dataLoop start size maxSize fuel sl idx = .ok (.ok (), sl) := by
  cases fuel <;> exact if_neg hidx

theorem dataLoop_zero (hidx : idx < size) :
    dataLoop start size 0 fuel sl idx ≠ .ok (.ok (), sl') := by
  induction fuel generalizing sl idx with
  | zero =>
    rw [dataLoop, if_pos hidx]
    nofun
  | succ fuel ih =>
    rw [dataLoop, if_pos hidx]
    intro h
    obtain ⟨u, sl₁, -, h⟩ := bind_except h nofun
    have hlt : addU64 idx 0 < size := (Nat.mod_le _ _).trans_lt hidx
    exact ih hlt h

/-- What every piece of the data keeps holds at the end of the loop. -/
theorem dataLoop_induct {P : Sglist → Nat → Prop} (hmax : size + maxSize ≤ 2 ^ 64)
    (hkeep : ∀ {sl sl₁ idx piece}, P sl idx → 0 < piece → idx + piece ≤ size →
      ukSglistAppend sl (addU64 start idx) piece = .ok (.ok (), sl₁) → P sl₁ (idx + piece))
    (hP : P sl (min idx size)) (h : dataLoop start size maxSize fuel sl idx = .ok (.ok (), sl')) :
    P sl' size := by
  induction fuel generalizing sl idx with
  | zero =>
    by_cases hidx : idx < size
    · rw [dataLoop, if_pos hidx] at h
      cases h
    rw [dataLoop_done hidx] at h
    cases h
    rwa [Nat.min_eq_right (Nat.not_lt.mp hidx)] at hP
  | succ fuel ih =>
    by_cases hidx : idx < size
    · rcases Nat.eq_zero_or_pos maxSize with rfl | hmaxpos
      · exact absurd h (dataLoop_zero hidx)
      rw [dataLoop, if_pos hidx] at h
      obtain ⟨u, sl₁, happend, h⟩ := bind_except h nofun
      have hnext : min (idx + maxSize) size =
          idx + if size - idx > maxSize then maxSize else size - idx := by
        split <;> omega
      rw [Nat.min_eq_left hidx.le] at hP
      simp only [addU64_eq (show idx + maxSize < 2 ^ 64 by omega)] at h
      refine ih ?_ h
      rw [hnext]
      exact hkeep hP (by split <;> omega) (by split <;> omega) happend
    rw [dataLoop_done hidx] at h
    cases h
    rwa [Nat.min_eq_right (Nat.not_lt.mp hidx)] at hP

/-- The segments when `k` bytes of the data at `start` follow the header `s`. -/
def dataUsed (s : SglistSeg) (start k : Nat) : List SglistSeg :=
  if k = 0 then [s] else [s, ⟨start, k⟩]

theorem pushBuf_dataUsed {s : SglistSeg} {piece : Nat} (hs : s.paddr + s.len ≠ start)
    (hpiece : 0 < piece) :
    pushBuf (dataUsed s start idx) (start + idx) piece = dataUsed s start (idx + piece) := by
  rw [dataUsed, dataUsed, if_neg (show idx + piece ≠ 0 by omega)]
  split
  · rename_i hidx
    rw [hidx, Nat.add_zero, Nat.zero_add, pushBuf, if_neg hs]
  · rw [pushBuf, pushBuf, if_pos rfl]

theorem dataLoop_ok {s : SglistSeg} (hrep : sl.Rep [s])
    (hs : s.paddr + s.len ≠ start) (hspos : 0 < s.paddr) (hslt : s.paddr + s.len < 2 ^ 64)
    (hstart : 0 < start) (hend : start + size < 2 ^ 64) (hmax : size + maxSize ≤ 2 ^ 64)
    (h : dataLoop start size maxSize fuel sl 0 = .ok (.ok (), sl')) :
    sl'.Rep (dataUsed s start size) := by
  refine dataLoop_induct (P := fun sl k => sl.Rep (dataUsed s start k)) hmax ?_
    (by rwa [Nat.zero_min]) h
  intro sl sl₁ idx piece hrep hpiece hle happend
  have hused : ∀ t ∈ dataUsed s start idx, 0 < t.paddr ∧ t.paddr + t.len < 2 ^ 64 := by
    intro t ht
    have ht' : t = s ∨ t = ⟨start, idx⟩ := by
      rw [dataUsed] at ht
      split at ht
      · exact .inl (List.mem_singleton.mp ht)
      · simpa using ht
    rcases ht' with rfl | rfl
    · exact ⟨hspos, hslt⟩
    · exact ⟨hstart, by simp only; omega⟩
  have hlen : (dataUsed s start idx).length + 2 < 2 ^ 16 := by
    rw [dataUsed]
    split <;> simp
  rw [addU64_eq (by omega)] at happend
  rw [← pushBuf_dataUsed hs hpiece]
  exact ukSglistAppend_ok hrep hlen hused (by omega) (by omega) (by omega) happend

section

variable (haddr : addr + sizeofRequest < 2 ^ 64)

include haddr

theorem appendHeader_rep
    (h : ukSglistAppend (ukSglistReset sl) (addU64 addr offsetofOuthdr) sizeofOuthdr =
      .ok (.ok (), sl')) : sl'.Rep [⟨addr + offsetofOuthdr, sizeofOuthdr⟩] := by
  simp only [sizeofRequest, offsetofOuthdr, sizeofOuthdr] at *
  rw [addU64_eq (by omega)] at h
  exact ukSglistAppend_ok (Sglist.Rep.reset _) (by simp) (by simp) (by omega) (by omega)
    (by omega) h

theorem appendData_rep (hstart : 0 < start) (hpos : 0 < size)
    (hend : start + size < 2 ^ 64) (hapart : addr + sizeofRequest ≤ start ∨ start + size ≤ addr)
    (hmax : size + maxSize ≤ 2 ^ 64) (hrep : sl.Rep [⟨addr + offsetofOuthdr, sizeofOuthdr⟩])
    (h : dataLoop start size maxSize fuel sl 0 = .ok (.ok (), sl')) :
    sl'.Rep [⟨addr + offsetofOuthdr, sizeofOuthdr⟩, ⟨start, size⟩] := by
  simp only [sizeofRequest, offsetofOuthdr, sizeofOuthdr] at *
  have hrep' := dataLoop_ok hrep (by simp only; omega) (by simp) (by simp only; omega) hstart
    hend hmax h
  rwa [dataUsed, if_neg (by omega)] at hrep'

/-- **The list of a read or write**: header, data and status are segments of their own. -/
theorem virtioBlkdevRequestSetSglist_data {sectorSize : Nat} (hstart : 0 < req.aioBuf)
    (hsize : req.nbSectors * sectorSize = size) (hpos : 0 < size)
    (hend : req.aioBuf + size < 2 ^ 64)
    (hapart : addr + sizeofRequest ≤ req.aioBuf ∨ req.aioBuf + size ≤ addr)
    (hmax : size + queue.vbd.maxSizeSegment ≤ 2 ^ 64)
    (h : virtioBlkdevRequestSetSglist queue req addr sectorSize true = .ok (.ok (), sl')) :
    sl'.Rep [⟨addr + offsetofOuthdr, sizeofOuthdr⟩, ⟨req.aioBuf, size⟩,
      ⟨addr + offsetofStatus, 1⟩] := by
  rw [virtioBlkdevRequestSetSglist, hsize, Nat.mod_eq_of_lt (by omega)] at h
  obtain ⟨u, sl₁, hhdr, h⟩ := bind_except h nofun
  obtain ⟨u, sl₂, hdata, h⟩ := bind_except h nofun
  have hrep₂ := appendData_rep haddr hstart hpos hend hapart hmax
    (appendHeader_rep haddr hhdr) hdata
  have hstatus : ukSglistAppend sl₂ (addU64 addr offsetofStatus) 1 = .ok (.ok (), sl') := h
  simp only [sizeofRequest, offsetofOuthdr, sizeofOuthdr, offsetofStatus] at *
  rw [addU64_eq (by omega)] at hstatus
  have hrep₃ := ukSglistAppend_ok hrep₂ (by simp)
    (by simp; omega) (by omega) (by omega) (by omega) hstatus
  rwa [pushBuf, pushBuf, if_neg (by simp only; omega)] at hrep₃

theorem virtioBlkdevRequestSetSglist_flush
    (h : virtioBlkdevRequestSetSglist queue req addr 0 false = .ok (.ok (), sl')) :
    sl'.Rep [⟨addr + offsetofOuthdr, sizeofOuthdr + 1⟩] := by
  rw [virtioBlkdevRequestSetSglist] at h
  obtain ⟨u, sl₁, hhdr, h⟩ := bind_except h nofun
  have hrep₁ := appendHeader_rep haddr hhdr
  have hstatus : ukSglistAppend sl₁ (addU64 addr offsetofStatus) 1 = .ok (.ok (), sl') := h
  simp only [sizeofRequest, offsetofOuthdr, sizeofOuthdr, offsetofStatus] at *
  rw [addU64_eq (by omega)] at hstatus
  have hrep₂ := ukSglistAppend_ok hrep₁ (by simp) (by simp; omega)
    (by omega) (by omega) (by omega) hstatus
  rwa [pushBuf, if_pos (Nat.add_assoc addr 8 16)] at hrep₂

end

/-! ### The chain of a request -/

/-- Readable descriptors for the header, descriptors for `size` bytes of data, which are writable
for a read only, and a writable descriptor for the status byte. -/
def BlkChain (req : UkBlkreq) (size addr : Nat) (chain : List DescPart) : Prop :=
  ∃ hdr data status, chain = hdr ++ data ++ [status] ∧ (∀ d ∈ hdr, d.writable = false) ∧
    partBytes hdr = List.range' (addr + offsetofOuthdr) sizeofOuthdr ∧
    (∀ d ∈ data, d.writable = (req.operation = .read : Bool)) ∧
    partBytes data = (if req.operation = .fflush then [] else List.range' req.aioBuf size) ∧
    status.writable = true ∧ partBytes [status] = [addr + offsetofStatus]

theorem not_blkChain {d : DescPart} {rest : List DescPart} (hlen : sizeofOuthdr < d.len) :
    ¬ BlkChain req size addr (d :: rest) := by
  rintro ⟨hdr, data, status, hchain, -, hbytes, -⟩
  have hcount := congrArg List.length hbytes
  cases hdr with
  | nil => simp [partBytes, sizeofOuthdr] at hcount
  | cons d' hdr =>
    obtain rfl : d = d' := (List.cons.inj hchain).1
    simp only [partBytes, List.flatMap_cons, List.length_append, List.length_range'] at hcount
    omega

variable {hdr : VirtioBlkOuthdr}

theorem virtioBlkdevQueueEnqueue_inv {rc : Nat}
    (h : virtioBlkdevQueueEnqueue queue req addr = .ok (.ok (rc, hdr), queue')) :
    ∃ prep sl, (match req.operation with
        | .write | .read => virtioBlkdevRequestWrite queue req addr
        | .fflush => virtioBlkdevRequestFlush queue req addr
        | .other _ => return (.error .einval, queue.sg)) = .ok (.ok prep, sl) ∧
      virtqueueBufferEnqueue queue.vrq addr sl.segs prep.readSegs prep.writeSegs =
        .ok (.ok rc, queue'.vrq) ∧ queue'.sg = sl ∧ hdr = prep.hdr := by
  rw [virtioBlkdevQueueEnqueue] at h
  split at h
  · cases h
  split at h
  · cases h
  obtain ⟨prep, sl, hprep, h⟩ := bind_except h nofun
  obtain ⟨rc', vrq, henq, h⟩ := bind_except h nofun
  cases h
  exact ⟨prep, sl, hprep, henq, rfl, rfl⟩

theorem virtioBlkdevRequestWrite_inv {prep : Prepared}
    (h : virtioBlkdevRequestWrite queue req addr = .ok (.ok prep, sl)) :
    0 < req.aioBuf ∧
      virtioBlkdevRequestSetSglist queue req addr queue.vbd.cap.ssize true = .ok (.ok (), sl) ∧
      (prep.readSegs, prep.writeSegs) =
        (if req.operation = .write then (subU16 sl.nseg 1, 1) else (1, subU16 sl.nseg 1)) ∧
      addU64 req.startSector req.nbSectors ≤ queue.vbd.cap.sectors ∧
      req.nbSectors ≤ queue.vbd.cap.maxSectorsPerReq ∧ prep.hdr.sector = req.startSector ∧
      0 < req.nbSectors := by
  rw [virtioBlkdevRequestWrite] at h
  split at h
  · cases h
  split at h
  · cases h
  rename_i hbuf
  split at h
  · cases h
  rename_i hsectors
  split at h
  · cases h
  rename_i hrange
  split at h
  · cases h
  rename_i hmax
  obtain ⟨u, sl₁, hset, h⟩ := bind_except h nofun
  refine ⟨Nat.pos_of_ne_zero hbuf, ?_⟩
  simp only at h
  split at h
  · rename_i hop
    obtain ⟨hprep, hsl⟩ := Prod.mk.inj (Except.ok.inj h)
    rw [if_pos hop, ← Except.ok.inj hprep, ← hsl]
    exact ⟨hset, rfl, Nat.not_lt.mp hrange, Nat.not_lt.mp hmax, rfl, Nat.pos_of_ne_zero hsectors⟩
  rename_i hop
  obtain ⟨hprep, hsl⟩ := Prod.mk.inj (Except.ok.inj h)
  rw [if_neg hop, ← Except.ok.inj hprep, ← hsl]
  exact ⟨hset, rfl, Nat.not_lt.mp hrange, Nat.not_lt.mp hmax, rfl, Nat.pos_of_ne_zero hsectors⟩

theorem chain_three {a b c : SglistSeg} (hrep : sl.Rep [a, b, c]) :
    (List.range' 0 3).filterMap (segPart sl.segs 0 r) =
      [⟨a.paddr, a.len % 2 ^ 32, r ≤ 0⟩, ⟨b.paddr, b.len % 2 ^ 32, r ≤ 1⟩,
        ⟨c.paddr, c.len % 2 ^ 32, r ≤ 2⟩] := by
  obtain ⟨-, rest, hsegs⟩ := hrep
  rw [hsegs]
  rfl

theorem virtioBlkdevQueueEnqueue_chain {bufs : List Buf} {rc : Nat}
    (hacc : DescAccounting queue.vrq bufs) (hop : req.operation = .read ∨ req.operation = .write)
    (hsize : req.nbSectors * queue.vbd.cap.ssize = size) (hpos : 0 < size)
    (hmax : size + 2 ^ 32 ≤ 2 ^ 64) (haddr : addr + sizeofRequest < 2 ^ 64)
    (hbuf : req.aioBuf + size < 2 ^ 64)
    (hapart : addr + sizeofRequest ≤ req.aioBuf ∨ req.aioBuf + size ≤ addr)
    (h : virtioBlkdevQueueEnqueue queue req addr = .ok (.ok (rc, hdr), queue')) :
    readChain queue'.vrq.desc n.num (queue'.vrq.availRing.get (n.slot queue.vrq.vqAvailIdx)) =
      [⟨addr + offsetofOuthdr, sizeofOuthdr, false⟩,
        ⟨req.aioBuf, size % 2 ^ 32, (req.operation = .read : Bool)⟩,
        ⟨addr + offsetofStatus, 1, true⟩] := by
  obtain ⟨prep, sl, hprep, henq, -⟩ := virtioBlkdevQueueEnqueue_inv h
  have hwrite : virtioBlkdevRequestWrite queue req addr = .ok (.ok prep, sl) := by
    rcases hop with hop | hop <;> rwa [hop] at hprep
  obtain ⟨hstart, hset, hcounts, -⟩ := virtioBlkdevRequestWrite_inv hwrite
  have hlt := queue.vbd.maxSizeSegment_lt
  have hrep := virtioBlkdevRequestSetSglist_data haddr hstart hsize hpos hbuf hapart (by omega) hset
  have hnseg : subU16 sl.nseg 1 = 2 := by
    simp [hrep.1, subU16]
  rw [hnseg] at hcounts
  rcases hop with hop | hop
  · rw [hop, if_neg (by simp)] at hcounts
    obtain ⟨hr, hw⟩ := Prod.mk.inj hcounts
    rw [hr, hw] at henq
    rw [virtqueueBufferEnqueue_chain hacc (by decide) henq, chain_three hrep, hop]
    rfl
  rw [hop, if_pos rfl] at hcounts
  obtain ⟨hr, hw⟩ := Prod.mk.inj hcounts
  rw [hr, hw] at henq
  rw [virtqueueBufferEnqueue_chain hacc (by decide) henq, chain_three hrep, hop]
  rfl

/-- **Reads and writes** of less than 4 GiB whose buffer does not overlap the request structure. -/
theorem virtio_blk_request_chain (queue queue' : UkBlkdevQueue n) (bufs : List Buf)
    (req : UkBlkreq) (addr rc : Nat) (hdr : VirtioBlkOuthdr)
    (hacc : DescAccounting queue.vrq bufs)
    (hop : req.operation = .read ∨ req.operation = .write)
    (hpos : 0 < req.nbSectors * queue.vbd.cap.ssize)
    (hsmall : req.nbSectors * queue.vbd.cap.ssize < 2 ^ 32)
    (haddr : addr + sizeofRequest < 2 ^ 64)
    (hbuf : req.aioBuf + req.nbSectors * queue.vbd.cap.ssize < 2 ^ 64)
    (hapart : addr + sizeofRequest ≤ req.aioBuf ∨
      req.aioBuf + req.nbSectors * queue.vbd.cap.ssize ≤ addr)
    (h : virtioBlkdevQueueEnqueue queue req addr = .ok (.ok (rc, hdr), queue')) :
    BlkChain req (req.nbSectors * queue.vbd.cap.ssize) addr (readChain queue'.vrq.desc n.num
        (queue'.vrq.availRing.get (n.slot queue.vrq.vqAvailIdx))) := by
  have hflush : req.operation ≠ .fflush := by
    rcases hop with hop | hop <;> rw [hop] <;> nofun
  rw [virtioBlkdevQueueEnqueue_chain hacc hop rfl hpos (by omega) haddr hbuf hapart h,
    Nat.mod_eq_of_lt hsmall]
  refine ⟨[_], [_], _, rfl, ?_, ?_, ?_, ?_, rfl, ?_⟩
  · simp
  · simp [partBytes]
  · simp
  · simp [partBytes, hflush]
  · simp [partBytes]

theorem flush_not_blkChain {bufs : List Buf} {rc : Nat} (hacc : DescAccounting queue.vrq bufs)
    (hop : req.operation = .fflush) (haddr : addr + sizeofRequest < 2 ^ 64)
    (h : virtioBlkdevQueueEnqueue queue req addr = .ok (.ok (rc, hdr), queue')) :
    ¬ BlkChain req size addr (readChain queue'.vrq.desc n.num
      (queue'.vrq.availRing.get (n.slot queue.vrq.vqAvailIdx))) := by
  obtain ⟨prep, sl, hprep, henq, -⟩ := virtioBlkdevQueueEnqueue_inv h
  rw [hop] at hprep
  simp only [virtioBlkdevRequestFlush] at hprep
  split at hprep
  · cases hprep
  obtain ⟨u, sl₁, hset, hprep⟩ := bind_except hprep nofun
  cases hprep
  obtain ⟨-, rest, hsegs⟩ := virtioBlkdevRequestSetSglist_flush haddr hset
  rw [virtqueueBufferEnqueue_chain hacc (by decide) henq, hsegs]
  exact not_blkChain (Nat.lt_succ_self _)

/-- A queue with four descriptors, on a device with segments of up to 4096 bytes. The
array of segments is as `uk_malloc` has returned it. -/
def blkQueue : UkBlkdevQueue ⟨2, by decide⟩ where
  vrq := virtqueueVringInit _ fun _ => ⟨0, 0⟩
  vbd := ⟨⟨1024, 512, false, 8⟩, 4096, true, by decide⟩
  sg := ⟨[⟨0, 0⟩, ⟨0, 0⟩, ⟨0, 0⟩], 0, 3⟩

theorem blkQueue_accounting : DescAccounting blkQueue.vrq [] := (QueueRep.init _ _).desc

/-- A read of three sectors into a buffer that starts in the middle of a page. -/
theorem virtio_blk_request_chain_three_sectors :
    ∃ queue', virtioBlkdevQueueEnqueue blkQueue ⟨.read, 16, 3, 0x20fff⟩ 0x30ff0 =
        .ok (.ok (1, ⟨0, 16⟩), queue') ∧
      BlkChain ⟨.read, 16, 3, 0x20fff⟩ 1536 0x30ff0
        (readChain queue'.vrq.desc 4 (queue'.vrq.availRing.get (RingSize.slot _ 0))) := by
  have hrun : (virtioBlkdevQueueEnqueue blkQueue ⟨.read, 16, 3, 0x20fff⟩ 0x30ff0).toOption.map
      (fun r => r.1.toOption) = some (some (1, ⟨0, 16⟩)) := by decide +kernel
  obtain ⟨queue', hcall⟩ := exists_of_toOption hrun
  exact ⟨queue', hcall, virtio_blk_request_chain blkQueue queue' [] ⟨.read, 16, 3, 0x20fff⟩ 0x30ff0
    1 ⟨0, 16⟩ blkQueue_accounting (.inl rfl) (by decide) (by decide) (by decide) (by decide)
    (.inr (by decide)) hcall⟩

/-- A flush is accepted, and its chain is not the one of a request. -/
theorem virtio_blk_flush_chain :
    ∃ queue', virtioBlkdevQueueEnqueue blkQueue ⟨.fflush, 0, 0, 0⟩ 0x30000 =
        .ok (.ok (2, ⟨4, 0⟩), queue') ∧
      ¬ BlkChain ⟨.fflush, 0, 0, 0⟩ 0 0x30000
        (readChain queue'.vrq.desc 4 (queue'.vrq.availRing.get (RingSize.slot _ 0))) := by
  have hrun : (virtioBlkdevQueueEnqueue blkQueue ⟨.fflush, 0, 0, 0⟩ 0x30000).toOption.map
      (fun r => r.1.toOption) = some (some (2, ⟨4, 0⟩)) := by decide +kernel
  obtain ⟨queue', hcall⟩ := exists_of_toOption hrun
  exact ⟨queue', hcall, flush_not_blkChain blkQueue_accounting rfl (by decide) hcall⟩

end Unikraft.Virtio
