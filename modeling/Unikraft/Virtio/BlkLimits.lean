import Unikraft.Lib.ByteMem
import Unikraft.Uksglist.Append
import Unikraft.Virtio.Blk

/-!
# What a virtio block device reports (`virtio_blkdev_feature_negotiate`)

Its capacity, a sector size, and the largest number and size of the data segments of a request.

A request names a unit of 512 bytes, while the driver counts sectors: they address different bytes
as long as a sector is not larger (`blk_requests_address_apart`). The pieces of the largest size
are joined again, so that the limits are respected if all the data fit into one
(`blk_segments_within_limits`).
-/

namespace Unikraft.Virtio

open Lib Uksglist Outcome Nat List

variable {n : RingSize}

/-! ### Negotiation -/

/-- The device as the driver reads it: the feature bits, the bytes of the configuration space, and
which fields read the same in both passes. -/
structure VirtioBlkHost where
  features : Nat
  config : ByteMem
  stable : Nat → Bool

def virtioBlkFSizeMax : Nat := 1

def virtioBlkFSegMax : Nat := 2

def virtioBlkFRo : Nat := 5

def virtioBlkFBlkSize : Nat := 6

def virtioBlkFFlush : Nat := 9

def virtioBlkFMq : Nat := 12

def defaultSectorSize : Nat := 512

namespace VirtioBlkHost

/-- `virtio_has_features`. -/
def hasFeatures (host : VirtioBlkHost) (bpos : Nat) : Bool := host.features.testBit bpos

def capacity (host : VirtioBlkHost) : Nat := loadLE host.config 0 8

/-- The size of a sector. The driver reads eight bytes from the place of `blk_size`, which has
four. -/
def ssize (host : VirtioBlkHost) : Nat :=
  if host.hasFeatures virtioBlkFBlkSize then loadLE host.config 20 8 else defaultSectorSize

def numQueues (host : VirtioBlkHost) : Nat :=
  if host.hasFeatures virtioBlkFMq then loadLE host.config 34 2 else 1

def segMax (host : VirtioBlkHost) : Nat :=
  if host.hasFeatures virtioBlkFSegMax then loadLE host.config 12 4 else 1

def sizeMax (host : VirtioBlkHost) : Nat :=
  if host.hasFeatures virtioBlkFSizeMax then loadLE host.config 8 4 else pageSize

theorem sizeMax_lt (host : VirtioBlkHost) : host.sizeMax < 2 ^ 32 := by
  unfold sizeMax
  split
  · exact loadLE_lt host.config 8 4
  · decide

theorem segMax_lt (host : VirtioBlkHost) : host.segMax < 2 ^ 32 := by
  unfold segMax
  split
  · exact loadLE_lt host.config 12 4
  · decide

end VirtioBlkHost

/-- The fields of `struct virtio_blk_device` that the negotiation sets. -/
structure NegotiatedBlk where
  vbd : VirtioBlkDevice
  maxVqueuePairs : Nat
  maxSegments : Nat

/-- `virtio_blkdev_feature_negotiate`. Two segments are added for the header and the status. -/
def virtioBlkdevFeatureNegotiate (host : VirtioBlkHost) : Outcome (Except Errno NegotiatedBlk) :=
  if host.stable 0 = false then .ok (.error .eagain)
  else if host.hasFeatures virtioBlkFBlkSize ∧ host.stable 20 = false then .ok (.error .eagain)
  else if host.hasFeatures virtioBlkFMq ∧ host.stable 34 = false then .ok (.error .eagain)
  else if host.hasFeatures virtioBlkFSegMax ∧ host.stable 12 = false then .ok (.error .eagain)
  else if host.hasFeatures virtioBlkFSizeMax ∧ host.stable 8 = false then .ok (.error .eagain)
  else if host.ssize = 0 then .error .undefinedArith
  else
    let maxSegments := addU32 host.segMax 2
    .ok (.ok
      { vbd :=
          { cap :=
              { sectors := host.capacity
                ssize := host.ssize
                rdonly := host.hasFeatures virtioBlkFRo
                maxSectorsPerReq :=
                  host.sizeMax / host.ssize * subU32 maxSegments 2 % 2 ^ 64 }
            maxSizeSegment := host.sizeMax
            writeback := host.hasFeatures virtioBlkFFlush
            maxSizeSegment_lt := host.sizeMax_lt }
        maxVqueuePairs := host.numQueues
        maxSegments := maxSegments })

/-- The queue as `virtio_blkdev_queue_setup` sets it up with a virtqueue and an array of segments;
`sg_maxseg` has 16 bits. -/
def virtioBlkdevQueueSetup (dev : NegotiatedBlk) (vrq : VirtqueueVring n)
    (sgsegs : List SglistSeg) : UkBlkdevQueue n :=
  ⟨vrq, dev.vbd, ⟨sgsegs, 0, dev.maxSegments % 2 ^ 16⟩⟩

/-- A queue of the device, whatever its requests so far. -/
structure UkBlkdevQueue.SetUp (queue : UkBlkdevQueue n) (dev : NegotiatedBlk) : Prop where
  vbd : queue.vbd = dev.vbd
  maxseg : queue.sg.maxseg = dev.maxSegments % 2 ^ 16
  room : queue.sg.maxseg ≤ queue.sg.segs.length

theorem virtioBlkdevQueueSetup_setUp (dev : NegotiatedBlk) (vrq : VirtqueueVring n)
    {sgsegs : List SglistSeg} (h : sgsegs.length = dev.maxSegments) :
    (virtioBlkdevQueueSetup dev vrq sgsegs).SetUp dev :=
  ⟨rfl, rfl, (mod_le _ _).trans_eq h.symm⟩

variable {host : VirtioBlkHost} {dev : NegotiatedBlk} {queue queue' : UkBlkdevQueue n}
  {req : UkBlkreq} {sl sl' : Sglist} {addr start size maxSize : Nat}

section

variable (h : virtioBlkdevFeatureNegotiate host = .ok (.ok dev))

include h

theorem virtioBlkdevFeatureNegotiate_inv :
    0 < host.ssize ∧ dev.vbd.cap.sectors = host.capacity ∧ dev.vbd.cap.ssize = host.ssize ∧
      dev.vbd.cap.maxSectorsPerReq = host.sizeMax / host.ssize * host.segMax % 2 ^ 64 ∧
      dev.vbd.maxSizeSegment = host.sizeMax ∧ dev.maxSegments = addU32 host.segMax 2 := by
  have hseg : subU32 (addU32 host.segMax 2) 2 = host.segMax := by
    have := host.segMax_lt
    unfold subU32 addU32
    omega
  unfold virtioBlkdevFeatureNegotiate at h
  iterate 5
    split at h
    · cases h
  split at h
  · cases h
  rename_i hssize
  obtain rfl := Except.ok.inj (Except.ok.inj h)
  exact ⟨pos_of_ne_zero hssize, rfl, rfl, by rw [hseg], rfl, rfl⟩

/-- A request of at most `max_sectors_per_req` sectors has no more bytes than the segments can
have. -/
theorem bytes_le_of_sectors (hmax : req.nbSectors ≤ dev.vbd.cap.maxSectorsPerReq) :
    req.nbSectors * host.ssize ≤ host.sizeMax * host.segMax := by
  obtain ⟨-, -, -, hper, -⟩ := virtioBlkdevFeatureNegotiate_inv h
  rw [hper] at hmax
  calc req.nbSectors * host.ssize
      ≤ host.sizeMax / host.ssize * host.segMax * host.ssize :=
        mul_le_mul_right _ (hmax.trans (mod_le _ _))
    _ = host.sizeMax / host.ssize * host.ssize * host.segMax := mul_right_comm ..
    _ ≤ host.sizeMax * host.segMax := mul_le_mul_right _ (div_mul_le_self _ _)

theorem bytes_lt_of_sectors (hmax : req.nbSectors ≤ dev.vbd.cap.maxSectorsPerReq) :
    req.nbSectors * host.ssize + 2 ^ 32 ≤ 2 ^ 64 := by
  have hle := bytes_le_of_sectors h hmax
  have hbound : host.sizeMax * host.segMax ≤ (2 ^ 32 - 1) * (2 ^ 32 - 1) :=
    Nat.mul_le_mul (Nat.le_sub_one_of_lt host.sizeMax_lt) (Nat.le_sub_one_of_lt host.segMax_lt)
  omega

end

/-! ### The bytes of a list -/

theorem dataLoop_grown {fuel : Nat} (hok : sl.Ok) (hsize : sl.content.length + size < 2 ^ 64)
    (hmax : size + maxSize ≤ 2 ^ 64)
    (h : dataLoop start size maxSize fuel sl 0 = .ok (.ok (), sl')) :
    sl'.Ok ∧ sl'.maxseg = sl.maxseg ∧ sl'.content.length = sl.content.length + size := by
  refine dataLoop_induct (P := fun x k =>
    x.Ok ∧ x.maxseg = sl.maxseg ∧ x.content.length = sl.content.length + k) hmax ?_
    ⟨hok, rfl, by simp⟩ h
  intro x x₁ idx piece ⟨hok, hmaxseg, hlen⟩ _ hle happend
  have hgrown := ukSglistAppend_grown hok (addU64_lt ..) (by omega) happend
  have hlen₁ := congrArg length hgrown.content
  simp only [length_append, VirtToPhys.bytes_length] at hlen₁
  exact ⟨hgrown.ok, hgrown.maxseg.trans hmaxseg, by omega⟩

theorem UkBlkdevQueue.SetUp.reset_ok (h : queue.SetUp dev) : (ukSglistReset queue.sg).Ok :=
  ⟨zero_le _, h.room, h.maxseg ▸ mod_lt _ (by decide)⟩

theorem UkBlkdevQueue.SetUp.reset_takes {buf : Nat} (h : queue.SetUp dev)
    (hroom : 0 < queue.sg.maxseg) (hbuf : buf < 2 ^ 64) : (ukSglistReset queue.sg).Takes buf :=
  h.reset_ok.takes (show 0 < 2 ^ 64 by decide) hroom hbuf

theorem UkBlkdevQueue.SetUp.header_grown (h : queue.SetUp dev)
    (hhdr : ukSglistAppend (ukSglistReset queue.sg) (addU64 addr offsetofOuthdr) sizeofOuthdr =
      .ok (.ok (), sl)) : sl.Ok ∧ sl.maxseg = queue.sg.maxseg ∧ sl.content.length = 16 := by
  have hnil : (ukSglistReset queue.sg).content.length = 0 := by
    rw [Sglist.content, (Sglist.Rep.reset queue.sg).used_eq]
    rfl
  have hgrown := ukSglistAppend_grown h.reset_ok (addU64_lt ..)
    (by rw [hnil, sizeofOuthdr]; decide) hhdr
  have hlen := congrArg length hgrown.content
  simp only [length_append, VirtToPhys.bytes_length, hnil, sizeofOuthdr, zero_add] at hlen
  exact ⟨hgrown.ok, hgrown.maxseg, hlen⟩

/-- The number of data bytes in the list of a read or write. -/
def dataLen (sg : Sglist) : Nat := sg.content.length - (sizeofOuthdr + 1)

/-- **The list of a read or write has all the data.** -/
theorem virtioBlkdevRequestSetSglist_dataLen {sectorSize : Nat} (hset : queue.SetUp dev)
    (hsize : req.nbSectors * sectorSize = size) (hlt : size + 2 ^ 32 ≤ 2 ^ 64)
    (h : virtioBlkdevRequestSetSglist queue req addr sectorSize true = .ok (.ok (), sl')) :
    dataLen sl' = size := by
  have hmax := queue.vbd.maxSizeSegment_lt
  rw [virtioBlkdevRequestSetSglist, hsize, mod_eq_of_lt (by omega)] at h
  obtain ⟨u, sl₁, hhdr, h⟩ := bind_except h fun _ _ h => by cases h
  obtain ⟨hok₁, -, hlen₁⟩ := hset.header_grown hhdr
  obtain ⟨u, sl₂, hdata, h⟩ := bind_except h fun _ _ h => by cases h
  obtain ⟨hok₂, -, hlen₂⟩ := dataLoop_grown hok₁ (by omega) (by omega) hdata
  have hgrown₃ := ukSglistAppend_grown hok₂ (addU64_lt ..) (by omega) h
  have hlen₃ := congrArg length hgrown₃.content
  simp only [length_append, VirtToPhys.bytes_length] at hlen₃
  rw [dataLen, sizeofOuthdr]
  omega

/-! ### What requests address -/

def sectorRange (req : UkBlkreq) : Set Nat :=
  Set.Ico req.startSector (req.startSector + req.nbSectors)

/-- The bytes a request addresses on the device: the sector of the header counts units of 512
bytes. -/
def deviceBytes (hdr : VirtioBlkOuthdr) (sg : Sglist) : Set Nat :=
  Set.Ico (512 * hdr.sector) (512 * hdr.sector + dataLen sg)

def Apart (r r' : Set Nat) : Prop := ∀ x ∈ r, x ∉ r'

/-- A read or write that a queue of the device has accepted, with its header and its list. -/
def Accepted (dev : NegotiatedBlk) (req : UkBlkreq) (hdr : VirtioBlkOuthdr) (sg : Sglist) : Prop :=
  (req.operation = .read ∨ req.operation = .write) ∧
    ∃ (n : RingSize) (queue queue' : UkBlkdevQueue n) (addr rc : Nat), queue.SetUp dev ∧
      virtioBlkdevQueueEnqueue queue req addr = .ok (.ok (rc, hdr), queue') ∧ queue'.sg = sg

variable {hdr : VirtioBlkOuthdr}

theorem Accepted.inv {sg : Sglist} (hdev : virtioBlkdevFeatureNegotiate host = .ok (.ok dev))
    (h : Accepted dev req hdr sg) :
    hdr.sector = req.startSector ∧ dataLen sg = req.nbSectors * host.ssize ∧ 0 < dataLen sg := by
  obtain ⟨hop, n, queue, queue', addr, rc, hset, hcall, hsg⟩ := h
  obtain ⟨prep, sl, hprep, -, hsl, hhdr⟩ := virtioBlkdevQueueEnqueue_inv hcall
  have hwrite : virtioBlkdevRequestWrite queue req addr = .ok (.ok prep, sl) := by
    rcases hop with hop | hop <;> rwa [hop] at hprep
  obtain ⟨-, hlist, -, -, hmax, hsector, hpos⟩ := virtioBlkdevRequestWrite_inv hwrite
  obtain ⟨hssize_pos, -, hssize, -⟩ := virtioBlkdevFeatureNegotiate_inv hdev
  rw [hset.vbd] at hlist hmax
  rw [hssize] at hlist
  have hlen : dataLen sg = req.nbSectors * host.ssize := by
    rw [← hsg, hsl]
    exact virtioBlkdevRequestSetSglist_dataLen hset rfl (bytes_lt_of_sectors hdev hmax) hlist
  exact ⟨by rw [hhdr, hsector], hlen, hlen ▸ Nat.mul_pos hpos hssize_pos⟩

/-- The data of a request, which count sectors of `ssize` bytes, end at a unit of 512 bytes. -/
def EndsBy (host : VirtioBlkHost) (req : UkBlkreq) (unit : Nat) : Prop :=
  512 * req.startSector + req.nbSectors * host.ssize ≤ 512 * unit
  deriving Decidable

theorem Accepted.subset_iff {sg : Sglist}
    (hdev : virtioBlkdevFeatureNegotiate host = .ok (.ok dev)) (h : Accepted dev req hdr sg)
    (unit : Nat) :
    deviceBytes hdr sg ⊆ Set.Ico 0 (512 * unit) ↔ EndsBy host req unit := by
  obtain ⟨hsector, hlen, hpos⟩ := h.inv hdev
  rw [deviceBytes, EndsBy, ← hlen, hsector]
  constructor
  · intro hsub
    have hlast := (hsub (a := 512 * req.startSector + dataLen sg - 1) ⟨by omega, by omega⟩).2
    omega
  · rintro hle b ⟨-, hhi⟩
    exact ⟨zero_le b, hhi.trans_le hle⟩

/-- Sectors of at most 512 bytes keep disjoint sectors apart. -/
theorem EndsBy.of_le_512 {unit : Nat} (hssize : host.ssize ≤ 512)
    (hle : req.startSector + req.nbSectors ≤ unit) : EndsBy host req unit := by
  have hbytes : req.nbSectors * host.ssize ≤ req.nbSectors * 512 := mul_le_mul_left _ hssize
  unfold EndsBy
  omega

/-- **Requests for different sectors** address different bytes, and none behind the end of the
device, exactly if the data end, in units of 512 bytes, by the end of the device and one of the
requests by the start of the other. -/
theorem blk_requests_address_apart (host : VirtioBlkHost) (dev : NegotiatedBlk)
    (req₁ req₂ : UkBlkreq) (hdr₁ hdr₂ : VirtioBlkOuthdr) (sg₁ sg₂ : Sglist)
    (hdev : virtioBlkdevFeatureNegotiate host = .ok (.ok dev))
    (h₁ : Accepted dev req₁ hdr₁ sg₁) (h₂ : Accepted dev req₂ hdr₂ sg₂) :
    (Apart (deviceBytes hdr₁ sg₁) (deviceBytes hdr₂ sg₂) ∧
      deviceBytes hdr₁ sg₁ ⊆ Set.Ico 0 (512 * host.capacity) ∧
      deviceBytes hdr₂ sg₂ ⊆ Set.Ico 0 (512 * host.capacity)) ↔
    (EndsBy host req₁ req₂.startSector ∨ EndsBy host req₂ req₁.startSector) ∧
      EndsBy host req₁ host.capacity ∧ EndsBy host req₂ host.capacity := by
  rw [h₁.subset_iff hdev, h₂.subset_iff hdev]
  refine and_congr_left fun _ => ?_
  obtain ⟨hsector₁, hlen₁, hpos₁⟩ := h₁.inv hdev
  obtain ⟨hsector₂, hlen₂, hpos₂⟩ := h₂.inv hdev
  rw [EndsBy, EndsBy, ← hlen₁, ← hlen₂, ← hsector₁, ← hsector₂]
  constructor
  · intro hapart
    by_contra hnot
    -- the range that starts later starts inside of the other one
    exact hapart (max (512 * hdr₁.sector) (512 * hdr₂.sector)) ⟨by omega, by omega⟩
      ⟨by omega, by omega⟩
  · rintro h b ⟨hlo, hhi⟩ ⟨hlo', hhi'⟩
    omega

/-- A device with the features and limits given. -/
def reportingHost (features capacity sizeMax segMax blkSize : Nat) : VirtioBlkHost where
  features := features
  config := storeLE (storeLE (storeLE (storeLE (fun _ => 0) 0 capacity 8) 8 sizeMax 4) 12 segMax 4)
    20 blkSize 4
  stable _ := true

/-- What is negotiated with such a device of 1024 units. -/
def negotiated (ssize sizeMax segMax : Nat) (hlt : sizeMax < 2 ^ 32) : NegotiatedBlk :=
  ⟨⟨⟨1024, ssize, false, sizeMax / ssize * segMax⟩, sizeMax, false, hlt⟩, 1, segMax + 2⟩

/-- A fresh queue of four descriptors and three segments. -/
def freshBlkQueue (dev : NegotiatedBlk) : UkBlkdevQueue ⟨2, two_le_maxOrder⟩ :=
  virtioBlkdevQueueSetup dev (virtqueueVringInit _ fun _ => ⟨0, 0⟩) (replicate 3 ⟨0, 0⟩)

theorem freshBlkQueue_accepts {dev : NegotiatedBlk} {req : UkBlkreq} (addr : Nat)
    (hsegs : dev.maxSegments = 3) (hop : req.operation = .read ∨ req.operation = .write)
    (h : (virtioBlkdevQueueEnqueue (freshBlkQueue dev) req addr).toOption.map
      (fun r => r.1.toOption) = some (some (1, hdr))) : ∃ sg, Accepted dev req hdr sg := by
  obtain ⟨queue', hcall⟩ := exists_of_toOption h
  exact ⟨queue'.sg, hop, _, freshBlkQueue dev, queue', addr, 1,
    virtioBlkdevQueueSetup_setUp dev _ (by rw [hsegs]; rfl), hcall, rfl⟩

theorem pageSize_lt_u32 : pageSize < 2 ^ 32 := by decide

theorem negotiate_512 : virtioBlkdevFeatureNegotiate (reportingHost 64 1024 0 0 512) =
    .ok (.ok (negotiated 512 pageSize 1 pageSize_lt_u32)) := rfl

theorem negotiate_two : virtioBlkdevFeatureNegotiate (reportingHost 6 1024 4096 2 0) =
    .ok (.ok (negotiated 512 4096 2 pageSize_lt_u32)) := rfl

/-- Two requests for neighbouring sectors of 512 bytes. -/
theorem blk_requests_address_apart_512 :
    ∃ dev hdr₁ hdr₂ sg₁ sg₂,
      virtioBlkdevFeatureNegotiate (reportingHost 64 1024 0 0 512) = .ok (.ok dev) ∧
      Accepted dev ⟨.write, 0, 2, 0x20000⟩ hdr₁ sg₁ ∧
      Accepted dev ⟨.read, 2, 3, 0x30000⟩ hdr₂ sg₂ ∧
      Apart (deviceBytes hdr₁ sg₁) (deviceBytes hdr₂ sg₂) := by
  obtain ⟨sg₁, h₁⟩ : ∃ sg, Accepted (negotiated 512 pageSize 1 pageSize_lt_u32)
      ⟨.write, 0, 2, 0x20000⟩ ⟨1, 0⟩ sg :=
    freshBlkQueue_accepts 0x40000 rfl (.inr rfl) (by decide +kernel)
  obtain ⟨sg₂, h₂⟩ : ∃ sg, Accepted (negotiated 512 pageSize 1 pageSize_lt_u32)
      ⟨.read, 2, 3, 0x30000⟩ ⟨0, 2⟩ sg :=
    freshBlkQueue_accepts 0x41000 rfl (.inl rfl) (by decide +kernel)
  exact ⟨_, _, _, sg₁, sg₂, negotiate_512, h₁, h₂,
    ((blk_requests_address_apart _ _ _ _ _ _ sg₁ sg₂ negotiate_512 h₁ h₂).mpr
      ⟨.inl (.of_le_512 le_rfl (by decide)), .of_le_512 le_rfl (by decide),
        .of_le_512 le_rfl (by decide)⟩).1⟩

/-- With sectors of 4096 bytes two requests for neighbouring sectors overlap. -/
theorem blk_requests_overlap :
    ∃ dev hdr₁ hdr₂ sg₁ sg₂,
      virtioBlkdevFeatureNegotiate (reportingHost 64 1024 0 0 4096) = .ok (.ok dev) ∧
      Accepted dev ⟨.write, 0, 1, 0x20000⟩ hdr₁ sg₁ ∧
      Accepted dev ⟨.write, 1, 1, 0x30000⟩ hdr₂ sg₂ ∧
      Apart (sectorRange ⟨.write, 0, 1, 0x20000⟩) (sectorRange ⟨.write, 1, 1, 0x30000⟩) ∧
      ¬ Apart (deviceBytes hdr₁ sg₁) (deviceBytes hdr₂ sg₂) := by
  have hdev : virtioBlkdevFeatureNegotiate (reportingHost 64 1024 0 0 4096) =
      .ok (.ok (negotiated 4096 pageSize 1 pageSize_lt_u32)) := rfl
  obtain ⟨sg₁, h₁⟩ : ∃ sg, Accepted (negotiated 4096 pageSize 1 pageSize_lt_u32)
      ⟨.write, 0, 1, 0x20000⟩ ⟨1, 0⟩ sg :=
    freshBlkQueue_accepts 0x40000 rfl (.inr rfl) (by decide +kernel)
  obtain ⟨sg₂, h₂⟩ : ∃ sg, Accepted (negotiated 4096 pageSize 1 pageSize_lt_u32)
      ⟨.write, 1, 1, 0x30000⟩ ⟨1, 1⟩ sg :=
    freshBlkQueue_accepts 0x41000 rfl (.inr rfl) (by decide +kernel)
  have hssize : (reportingHost 64 1024 0 0 4096).ssize = 4096 := rfl
  have hlen₁ := (h₁.inv hdev).2.1
  have hlen₂ := (h₂.inv hdev).2.1
  rw [hssize] at hlen₁ hlen₂
  refine ⟨_, _, _, sg₁, sg₂, hdev, h₁, h₂,
    fun _ h h' => absurd (h.2.trans_le h'.1) (lt_irrefl _), fun hapart => ?_⟩
  exact hapart 512 ⟨by decide, by simp only [hlen₁]; decide⟩
    ⟨by decide, by simp only [hlen₂]; decide⟩

/-! ### The segments of the data -/

theorem dataLoop_takes {fuel idx : Nat} (htakes : sl.Takes (addU64 start idx))
    (hpos : 0 < maxSize) (hmax : size + maxSize ≤ 2 ^ 64) (hfuel : size - idx ≤ fuel) :
    ∃ sl', dataLoop start size maxSize fuel sl idx = .ok (.ok (), sl') := by
  induction fuel generalizing sl idx with
  | zero => exact ⟨sl, dataLoop_done (by omega)⟩
  | succ fuel ih =>
    by_cases hidx : idx < size
    · have hpiece : 0 < if size - idx > maxSize then maxSize else size - idx := by
        split <;> omega
      obtain ⟨sl₁, hcall, hends⟩ := htakes _ hpiece
      rw [dataLoop, if_pos hidx]
      simp only [hcall, ok_bind, addU64_eq (show idx + maxSize < 2 ^ 64 by omega)]
      -- Behind a piece that is not the last one the list ends where the next one starts.
      by_cases hmore : idx + maxSize < size
      · rw [if_pos (by omega), addU64_assoc] at hends
        exact ih (hends.takes (addU64_lt ..)) (by omega)
      · exact ⟨sl₁, dataLoop_done hmore⟩
    · exact ⟨sl, dataLoop_done hidx⟩

/-- Where the request structure and the buffer are: both in the address space, and apart. -/
structure InMemory (req : UkBlkreq) (size addr : Nat) : Prop where
  addr_lt : addr + sizeofRequest < 2 ^ 64
  buf_lt : req.aioBuf + size < 2 ^ 64
  apart : addr + sizeofRequest ≤ req.aioBuf ∨ req.aioBuf + size ≤ addr

/-- **A list of three segments is enough** for every read or write; it is the header, the data
and the status then. -/
theorem virtioBlkdevRequestSetSglist_fits {sectorSize : Nat} (hset : queue.SetUp dev)
    (hthree : 3 ≤ queue.sg.maxseg) (hmem : InMemory req size addr) (hstart : 0 < req.aioBuf)
    (hsize : req.nbSectors * sectorSize = size) (hpos : 0 < size) (hlt : size + 2 ^ 32 ≤ 2 ^ 64)
    (hmax : 0 < queue.vbd.maxSizeSegment) :
    ∃ sl', virtioBlkdevRequestSetSglist queue req addr sectorSize true = .ok (.ok (), sl') ∧
      sl'.Ok ∧ sl'.maxseg = queue.sg.maxseg ∧
      sl'.Rep [⟨addr + offsetofOuthdr, sizeofOuthdr⟩, ⟨req.aioBuf, size⟩,
        ⟨addr + offsetofStatus, 1⟩] := by
  have hmaxlt := queue.vbd.maxSizeSegment_lt
  obtain ⟨sl₁, hhdr, -⟩ := hset.reset_takes (by omega) (addU64_lt ..) sizeofOuthdr (by decide)
  have hrep₁ := appendHeader_rep hmem.addr_lt hhdr
  obtain ⟨hok₁, hmax₁, hlen₁⟩ := hset.header_grown hhdr
  have hnseg₁ : sl₁.nseg = 1 := hrep₁.1
  obtain ⟨sl₂, hdata⟩ := dataLoop_takes
    (hok₁.takes (by omega) (by omega) (addU64_lt req.aioBuf 0)) hmax (by omega) (le_succ size)
  have hrep₂ :=
    appendData_rep hmem.addr_lt hstart hpos hmem.buf_lt hmem.apart (by omega) hrep₁ hdata
  obtain ⟨hok₂, hmax₂, hlen₂⟩ := dataLoop_grown hok₁ (by omega) (by omega) hdata
  have hnseg₂ : sl₂.nseg = 2 := hrep₂.1
  obtain ⟨sl₃, hstatus, -⟩ := hok₂.takes (by omega) (by omega) (addU64_lt addr offsetofStatus) 1
    one_pos
  have hgrown₃ := ukSglistAppend_grown hok₂ (addU64_lt ..) (by omega) hstatus
  have hcall : virtioBlkdevRequestSetSglist queue req addr sectorSize true = .ok (.ok (), sl₃) := by
    rw [virtioBlkdevRequestSetSglist, hsize, mod_eq_of_lt (by omega), hhdr, ok_bind]
    simp only [if_true, hdata, ok_bind]
    exact hstatus
  exact ⟨sl₃, hcall, hgrown₃.ok, hgrown₃.maxseg.trans (hmax₂.trans hmax₁),
    virtioBlkdevRequestSetSglist_data hmem.addr_lt hstart hsize hpos hmem.buf_lt hmem.apart
      (by omega) hcall⟩

/-- **What the limits ask for**: between the header and the status the list has at most `seg_max`
segments, of at most `size_max` bytes each. -/
def WithinLimits (host : VirtioBlkHost) (addr : Nat) (sg : Sglist) : Prop :=
  ∃ data, sg.used =
      ⟨addr + offsetofOuthdr, sizeofOuthdr⟩ :: (data ++ [⟨addr + offsetofStatus, 1⟩]) ∧
    data.length ≤ host.segMax ∧ ∀ s ∈ data, s.len ≤ host.sizeMax

/-- The reads and writes that pass the checks on the buffer and the number of sectors. -/
def Checked (dev : NegotiatedBlk) (req : UkBlkreq) : Prop :=
  0 < req.aioBuf ∧ 0 < req.nbSectors ∧ req.nbSectors ≤ dev.vbd.cap.maxSectorsPerReq

theorem Checked.pos (hdev : virtioBlkdevFeatureNegotiate host = .ok (.ok dev))
    (h : Checked dev req) :
    0 < req.nbSectors * host.ssize ∧ 0 < host.sizeMax ∧ 0 < host.segMax := by
  have hbytes : 0 < req.nbSectors * host.ssize :=
    mul_pos h.2.1 (virtioBlkdevFeatureNegotiate_inv hdev).1
  have hsum := lt_of_lt_of_le hbytes (bytes_le_of_sectors hdev h.2.2)
  exact ⟨hbytes, Nat.pos_of_mul_pos_right hsum, Nat.pos_of_mul_pos_left hsum⟩

/-- The lists that respect the limits: the data fit into one segment, and the list, whose size is
kept in 16 bits, has three. -/
def FitsOneSegment (host : VirtioBlkHost) (req : UkBlkreq) (addr : Nat) : Prop :=
  req.nbSectors * host.ssize ≤ host.sizeMax ∧ 3 ≤ (host.segMax + 2) % 2 ^ 16 ∧
    InMemory req (req.nbSectors * host.ssize) addr

/-- **Segment limits.** If the data of a request that passes the checks fit into one segment, its
list respects the limits of the device. -/
theorem blk_segments_within_limits (host : VirtioBlkHost) (dev : NegotiatedBlk)
    (queue : UkBlkdevQueue n) (req : UkBlkreq) (addr : Nat)
    (hdev : virtioBlkdevFeatureNegotiate host = .ok (.ok dev)) (hset : queue.SetUp dev)
    (hchecked : Checked dev req) (hfits : FitsOneSegment host req addr) :
    ∃ sg, virtioBlkdevRequestSetSglist queue req addr dev.vbd.cap.ssize true = .ok (.ok (), sg) ∧
      WithinLimits host addr sg := by
  obtain ⟨hone, hthree, hmem⟩ := hfits
  obtain ⟨hbytes, hsizeMax, hsegMax⟩ := hchecked.pos hdev
  obtain ⟨-, -, hssize, -, hmaxSize, hsegs⟩ := virtioBlkdevFeatureNegotiate_inv hdev
  have hmaxseg : 3 ≤ queue.sg.maxseg := by
    rw [hset.maxseg, hsegs]
    unfold addU32
    omega
  have hsize : req.nbSectors * dev.vbd.cap.ssize = req.nbSectors * host.ssize := by rw [hssize]
  obtain ⟨sg, hcall, -, -, hrep⟩ := virtioBlkdevRequestSetSglist_fits hset hmaxseg hmem hchecked.1
    hsize hbytes (bytes_lt_of_sectors hdev hchecked.2.2)
    (by rw [hset.vbd, hmaxSize]; exact hsizeMax)
  refine ⟨sg, hcall, [⟨req.aioBuf, req.nbSectors * host.ssize⟩], hrep.used_eq, hsegMax, ?_⟩
  intro s hs
  rw [mem_singleton.mp hs]
  exact hone

/-- A read of eight sectors on a device with two segments of 4096 bytes. -/
theorem blk_segments_within_limits_page :
    ∃ dev sg, virtioBlkdevFeatureNegotiate (reportingHost 6 1024 4096 2 0) = .ok (.ok dev) ∧
      virtioBlkdevRequestSetSglist (virtioBlkdevQueueSetup dev
          (virtqueueVringInit ⟨2, two_le_maxOrder⟩ fun _ => ⟨0, 0⟩) (replicate 4 ⟨0, 0⟩))
        ⟨.read, 0, 8, 0x20000⟩ 0x40000 dev.vbd.cap.ssize true = .ok (.ok (), sg) ∧
      WithinLimits (reportingHost 6 1024 4096 2 0) 0x40000 sg := by
  obtain ⟨sg, hcall, hlimits⟩ := blk_segments_within_limits _ _ _ ⟨.read, 0, 8, 0x20000⟩ 0x40000
    negotiate_two (virtioBlkdevQueueSetup_setUp _ _ (length_replicate (n := 4)))
    ⟨by decide, by decide, by decide⟩
    ⟨by decide, by decide, ⟨by decide, by decide, .inr (by decide)⟩⟩
  exact ⟨_, sg, negotiate_two, hcall, hlimits⟩

/-- A read of sixteen sectors there, which the checks allow: its two pieces become one segment of
8192 bytes. -/
theorem blk_segment_exceeds_limit :
    ∃ dev sg, virtioBlkdevFeatureNegotiate (reportingHost 6 1024 4096 2 0) = .ok (.ok dev) ∧
      Checked dev ⟨.read, 0, 16, 0x20000⟩ ∧
      virtioBlkdevRequestSetSglist (virtioBlkdevQueueSetup dev
          (virtqueueVringInit ⟨2, two_le_maxOrder⟩ fun _ => ⟨0, 0⟩) (replicate 4 ⟨0, 0⟩))
        ⟨.read, 0, 16, 0x20000⟩ 0x40000 dev.vbd.cap.ssize true = .ok (.ok (), sg) ∧
      ¬ WithinLimits (reportingHost 6 1024 4096 2 0) 0x40000 sg := by
  have hset : (virtioBlkdevQueueSetup (negotiated 512 4096 2 pageSize_lt_u32)
      (virtqueueVringInit ⟨2, two_le_maxOrder⟩ fun _ => ⟨0, 0⟩) (replicate 4 ⟨0, 0⟩)).SetUp
        (negotiated 512 4096 2 pageSize_lt_u32) :=
    virtioBlkdevQueueSetup_setUp _ _ (length_replicate (n := 4))
  have hmem : InMemory ⟨.read, 0, 16, 0x20000⟩ 8192 0x40000 :=
    ⟨by decide, by decide, .inr (by decide)⟩
  obtain ⟨sg, hcall, -, -, hrep⟩ := virtioBlkdevRequestSetSglist_fits hset (by decide) hmem
    (by decide) (show (16 : Nat) * 512 = 8192 from rfl) (by decide) (by decide) (by decide)
  refine ⟨_, sg, negotiate_two, ⟨by decide, by decide, by decide⟩, hcall, ?_⟩
  rintro ⟨data, hused, -, hsize⟩
  rw [hrep.used_eq] at hused
  have hdata : [⟨0x20000, 8192⟩] ++ [⟨0x40000 + offsetofStatus, 1⟩] =
      data ++ [⟨0x40000 + offsetofStatus, 1⟩] := (cons.inj hused).2
  obtain rfl := append_cancel_right hdata
  exact absurd (hsize _ mem_cons_self) (by decide)

end Unikraft.Virtio
