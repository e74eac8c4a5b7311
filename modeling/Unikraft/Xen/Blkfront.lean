import Unikraft.Essentials
import Unikraft.Lib.Blocks
import Unikraft.Virtio.Blk

/-!
# Segments of a block request (`plat/xen/drivers/blk/blkfront.c`)

A request grants the backend the pages its buffer lies in, one segment each, and says which sectors
of each page belong to the buffer. A request never has more segments than fit, and their sectors are
those of the buffer in order (`blkfront_segments_cover_buffer`), with at most 256 sectors in a page.
-/

namespace Unikraft.Xen

open Lib Nat List
open Virtio (UkBlkreq UkBlkreqOp UkBlkdevCap)

def blkifMaxSegmentsPerRequest : Nat := 11

def blkifOpRead : Nat := 0

def blkifOpWrite : Nat := 1

structure BlkifRequestSegment where
  gref : Nat
  firstSect : Nat
  lastSect : Nat

/-- `struct blkif_request`, a slot of the ring. -/
structure BlkifRequest where
  operation : Nat
  nrSegments : Nat
  sectorNumber : Nat
  seg : Nat → BlkifRequestSegment

/-- `max_sectors_per_req`, as `blkfront_xb_get_capabilities` sets it. -/
def maxSectorsPerReq (ssize : Nat) : Nat :=
  (blkifMaxSegmentsPerRequest - 1) * (pageSize / ssize) + 1

/-- `SECTOR_INDEX_IN_PAGE(a, sector_size)`. -/
def sectorIndexInPage (a ssize : Nat) : Nat := (a &&& (pageSize - 1)) / ssize

/-- The number of pages `blkif_request_init` finds the buffer in. -/
def nbSegments (req : UkBlkreq) (ssize : Nat) : Nat :=
  subU64 (roundPgup (addU64 req.aioBuf (req.nbSectors * ssize))) (roundPgdown req.aioBuf) /
    pageSize % 2 ^ 16

/-- The sector indices of segment `k` of `nb`: those of a whole page, of the first page, and of the
last one. -/
def initSegment (req : UkBlkreq) (ssize nb k : Nat) (seg : BlkifRequestSegment) :
    BlkifRequestSegment :=
  let seg :=
    if k < nb then { seg with firstSect := 0, lastSect := (pageSize / ssize - 1) % 2 ^ 8 } else seg
  let seg :=
    if k = 0 then { seg with firstSect := sectorIndexInPage req.aioBuf ssize % 2 ^ 8 } else seg
  if k = nb - 1 then
    { seg with
      lastSect :=
        sectorIndexInPage (subU64 (addU64 req.aioBuf (req.nbSectors * ssize)) 1) ssize % 2 ^ 8 }
  else seg

/-- `blkif_request_init`. With no segments the last store would be in front of the array. -/
def blkifRequestInit (ringReq : BlkifRequest) (req : UkBlkreq) (ssize : Nat) :
    Outcome BlkifRequest := do
  ukAssert (req.aioBuf &&& subU64 ssize 1 = 0)
  ukAssert (nbSegments req ssize ≤ blkifMaxSegmentsPerRequest)
  if ssize = 0 then .error .undefinedArith
  else if nbSegments req ssize = 0 then .error .outOfBounds
  else return {
    operation := if req.operation = .write then blkifOpWrite else blkifOpRead
    nrSegments := nbSegments req ssize
    sectorNumber := req.startSector
    seg := fun k => initSegment req ssize (nbSegments req ssize) k (ringReq.seg k) }

/-- The page that `blkfront_request_map_grefs` grants for segment `k`. -/
def segmentPage (req : UkBlkreq) (k : Nat) : Nat := addU64 (roundPgdown req.aioBuf) (k * pageSize)

/-- The indices of the sectors of a segment in its page. -/
def BlkifRequestSegment.sectors (seg : BlkifRequestSegment) : List Nat :=
  range' seg.firstSect (seg.lastSect + 1 - seg.firstSect)

/-- The addresses of the sectors of a request, segment by segment. -/
def segmentSectors (ringReq : BlkifRequest) (req : UkBlkreq) (ssize : Nat) : List Nat :=
  (range ringReq.nrSegments).flatMap fun k =>
    (ringReq.seg k).sectors.map fun j => addU64 (segmentPage req k) (j * ssize)

def bufferSectors (req : UkBlkreq) (ssize : Nat) : List Nat :=
  (range req.nbSectors).map fun i => addU64 req.aioBuf (i * ssize)

/-! ### Pages and sectors -/

/-- A buffer of whole sectors within the limit. -/
structure Sectored (req : UkBlkreq) (ssize : Nat) : Prop where
  pow : ∃ j, ssize = 2 ^ j
  dvd : ssize ∣ pageSize
  aligned : ssize ∣ req.aioBuf
  addr : req.aioBuf < 2 ^ 64
  pos : 0 < req.nbSectors
  limit : req.nbSectors ≤ maxSectorsPerReq ssize

variable {req : UkBlkreq} {ssize : Nat}

def perPage (ssize : Nat) : Nat := pageSize / ssize

/-- The sector of its page the buffer starts with. -/
def firstSector (req : UkBlkreq) (ssize : Nat) : Nat := req.aioBuf % pageSize / ssize

theorem sectorIndexInPage_eq (a ssize : Nat) : sectorIndexInPage a ssize = a % pageSize / ssize :=
  congrArg (· / ssize) (and_two_pow_sub_one_eq_mod a 12)

theorem firstIndex_eq : sectorIndexInPage req.aioBuf ssize = firstSector req ssize :=
  sectorIndexInPage_eq _ _

section

variable {nb k : Nat} (seg : BlkifRequestSegment)

theorem initSegment_firstSect (hk : k < nb) :
    (initSegment req ssize nb k seg).firstSect =
      if k = 0 then sectorIndexInPage req.aioBuf ssize % 2 ^ 8 else 0 := by
  unfold initSegment
  rw [if_pos hk]
  by_cases hfirst : k = 0
  · simp only [if_pos hfirst]
    split <;> rfl
  simp only [if_neg hfirst]
  split <;> rfl

theorem initSegment_lastSect (hk : k < nb) :
    (initSegment req ssize nb k seg).lastSect = if k + 1 = nb then
        sectorIndexInPage (subU64 (addU64 req.aioBuf (req.nbSectors * ssize)) 1) ssize % 2 ^ 8
      else (perPage ssize - 1) % 2 ^ 8 := by
  unfold initSegment
  rw [if_pos hk]
  by_cases hlast : k + 1 = nb
  · rw [if_pos (show k = nb - 1 by omega), if_pos hlast]
  rw [if_neg (show k ≠ nb - 1 by omega), if_neg hlast]
  split <;> rfl

end

/-- Eight bits are enough for the indices of the sectors: a page has at most 256 sectors, or the
buffer is in the first 256 sectors of its page. -/
def IndexFits (req : UkBlkreq) (ssize : Nat) : Prop :=
  16 ≤ ssize ∨ firstSector req ssize + req.nbSectors ≤ 2 ^ 8

namespace Sectored

section

variable (h : Sectored req ssize)

include h

theorem ssize_pos : 0 < ssize := pos_of_dvd_of_pos h.dvd (by decide)

theorem perPage_mul : perPage ssize * ssize = 4096 :=
  Nat.div_mul_cancel h.dvd

theorem firstSector_mul : firstSector req ssize * ssize = req.aioBuf % 4096 :=
  Nat.div_mul_cancel ((Nat.dvd_mod_iff h.dvd).mpr h.aligned)

theorem firstSector_lt : firstSector req ssize < perPage ssize := by
  refine Nat.lt_of_mul_lt_mul_right (a := ssize) ?_
  rw [h.perPage_mul, h.firstSector_mul]
  exact mod_lt _ (by decide)

theorem length_le : req.nbSectors * ssize ≤ 40960 + ssize := by
  have hle := mul_le_mul_right ssize h.limit
  have hmul := h.perPage_mul
  rw [maxSectorsPerReq, add_mul, mul_assoc] at hle
  rw [perPage] at hmul
  rw [hmul] at hle
  simpa [blkifMaxSegmentsPerRequest] using hle

theorem end_mul :
    (firstSector req ssize + req.nbSectors) * ssize =
      req.aioBuf % 4096 + req.nbSectors * ssize := by
  rw [add_mul, h.firstSector_mul]

theorem last_div :
    (req.aioBuf % 4096 + req.nbSectors * ssize - 1) / ssize =
      firstSector req ssize + req.nbSectors - 1 := by
  have hpos : 0 < ssize * (firstSector req ssize + req.nbSectors) :=
    Nat.mul_pos h.ssize_pos (Nat.add_pos_right _ h.pos)
  have hdiv := Nat.mul_sub_div 0 ssize (firstSector req ssize + req.nbSectors) hpos
  rw [Nat.zero_div, Nat.zero_add] at hdiv
  rw [← h.end_mul, Nat.mul_comm, hdiv]

/-- **The number of segments** is the number of pages. -/
theorem nbSegments_eq :
    nbSegments req ssize = blockCount (perPage ssize) (firstSector req ssize) req.nbSectors := by
  have haddr := h.addr
  have hlen := h.length_le
  have hle : ssize ≤ 4096 := le_of_dvd (by decide) h.dvd
  have hpos : 0 < req.nbSectors * ssize := Nat.mul_pos h.pos h.ssize_pos
  have hup := alignDown_two_pow (k := 12) (by omega)
    (addU64_lt (addU64 req.aioBuf (req.nbSectors * ssize)) 4095)
  have hblocks : (firstSector req ssize + req.nbSectors - 1) / perPage ssize =
      (req.aioBuf % 4096 + req.nbSectors * ssize - 1) / 4096 := by
    rw [← h.last_div, Nat.div_div_eq_div_mul, Nat.mul_comm ssize, h.perPage_mul]
  have hround (a : Nat) : roundPgup a = alignDown (addU64 a 4095) (2 ^ 12) := rfl
  rw [blockCount, hblocks, nbSegments, roundPgdown_eq haddr, hround, hup]
  unfold subU64 addU64 pageSize
  generalize req.nbSectors * ssize = len at *
  omega

/-- **A request never has more segments than fit**: its buffer ends at most eleven pages behind the
start of its first page. -/
theorem nbSegments_le : nbSegments req ssize ≤ blkifMaxSegmentsPerRequest := by
  have hlen := h.length_le
  have hstart : (firstSector req ssize + 1) * ssize ≤ perPage ssize * ssize :=
    mul_le_mul_right ssize h.firstSector_lt
  rw [add_mul, h.firstSector_mul, h.perPage_mul] at hstart
  rw [h.nbSegments_eq, blockCount, ← h.last_div, Nat.div_div_eq_div_mul, Nat.mul_comm ssize,
    h.perPage_mul, blkifMaxSegmentsPerRequest]
  omega

theorem lastIndex_eq :
    sectorIndexInPage (subU64 (addU64 req.aioBuf (req.nbSectors * ssize)) 1) ssize =
      (firstSector req ssize + req.nbSectors - 1) % perPage ssize := by
  have hpos : 0 < req.nbSectors * ssize := Nat.mul_pos h.pos h.ssize_pos
  have hmod : subU64 (addU64 req.aioBuf (req.nbSectors * ssize)) 1 % 4096 =
      (req.aioBuf % 4096 + req.nbSectors * ssize - 1) % 4096 := by
    unfold subU64 addU64
    omega
  rw [sectorIndexInPage_eq, ← h.last_div, ← mod_mul_right_div_self, Nat.mul_comm ssize,
    h.perPage_mul, hmod]

theorem perPage_le (hwide : 16 ≤ ssize) : perPage ssize ≤ 2 ^ 8 := by
  have hle : perPage ssize * 16 ≤ perPage ssize * ssize := mul_le_mul_left _ hwide
  rw [h.perPage_mul] at hle
  omega

/-- **The sectors of segment `k`** are those of the buffer in page `k`. -/
theorem initSegment_sectors (hnarrow : IndexFits req ssize) {k : Nat}
    (hk : k < nbSegments req ssize) (seg : BlkifRequestSegment) :
    (initSegment req ssize (nbSegments req ssize) k seg).sectors =
      blockRange (perPage ssize) (firstSector req ssize) req.nbSectors k := by
  have hfirst := h.firstSector_lt
  have hpos := h.pos
  have hlast := mod_lt (firstSector req ssize + req.nbSectors - 1) (zero_lt_of_lt hfirst)
  rw [h.nbSegments_eq] at hk
  rw [BlkifRequestSegment.sectors, h.nbSegments_eq, initSegment_firstSect seg hk,
    initSegment_lastSect seg hk, h.lastIndex_eq, firstIndex_eq]
  by_cases hfew : perPage ssize ≤ 2 ^ 8
  · have hwhole : (perPage ssize - 1) % 2 ^ 8 = perPage ssize - 1 := mod_eq_of_lt (by omega)
    rw [mod_eq_of_lt (hfirst.trans_le hfew), mod_eq_of_lt (hlast.trans_le hfew), hwhole]
    rfl
  -- the buffer is in the first sectors of one page
  have hend := hnarrow.resolve_left fun hwide => hfew (h.perPage_le hwide)
  have hone : (firstSector req ssize + req.nbSectors - 1) / perPage ssize = 0 :=
    Nat.div_eq_of_lt (by omega)
  have hzero : k = 0 := by
    rw [blockCount, hone] at hk
    omega
  have hmod : (firstSector req ssize + req.nbSectors - 1) % perPage ssize % 2 ^ 8 =
      (firstSector req ssize + req.nbSectors - 1) % perPage ssize :=
    mod_eq_of_lt ((Nat.mod_le _ _).trans_lt (by omega))
  rw [hmod, mod_eq_of_lt (show firstSector req ssize < 2 ^ 8 by omega), hzero,
    if_pos (show 0 + 1 = blockCount .. by simp only [blockCount, hone])]
  simp only [blockRange, blockCount, hone]
  rfl

theorem segmentPage_sector (k j : Nat) :
    addU64 (segmentPage req k) (j * ssize) =
      addU64 (roundPgdown req.aioBuf) ((k * perPage ssize + j) * ssize) := by
  rw [segmentPage, add_mul, mul_assoc, h.perPage_mul, addU64, addU64, addU64,
    mod_add_mod, add_assoc]

theorem bufferSectors_eq :
    bufferSectors req ssize = (range' (firstSector req ssize) req.nbSectors).map
      fun x => addU64 (roundPgdown req.aioBuf) (x * ssize) := by
  rw [range'_eq_map_range, map_map, bufferSectors]
  refine map_congr_left fun i _ => ?_
  have hsplit := div_add_mod req.aioBuf 4096
  rw [Function.comp_apply, add_mul, h.firstSector_mul, roundPgdown_eq h.addr, addU64, addU64,
    ← add_assoc, Nat.mul_comm _ 4096, hsplit]

/-- The index in its page of the sector `x`, counted from the first page on. -/
theorem sector_index (x : Nat) :
    addU64 (roundPgdown req.aioBuf) (x * ssize) % pageSize / ssize = x % perPage ssize := by
  have hmod : addU64 (roundPgdown req.aioBuf) (x * ssize) % 4096 = x * ssize % 4096 := by
    rw [roundPgdown_eq h.addr]
    unfold addU64
    omega
  rw [pageSize, hmod, ← h.perPage_mul, Nat.mul_mod_mul_right, Nat.mul_div_cancel _ h.ssize_pos]

/-- If eight bits are not enough, the buffer has a sector that no segment names. -/
theorem segmentSectors_ne (hnot : ¬ IndexFits req ssize) {ringReq : BlkifRequest}
    (hlast : ∀ k < ringReq.nrSegments, (ringReq.seg k).lastSect < 2 ^ 8) :
    segmentSectors ringReq req ssize ≠ bufferSectors req ssize := by
  have hfirst := h.firstSector_lt
  have hpos := h.pos
  obtain ⟨hsmall, hend⟩ := not_or.mp hnot
  have hmany : 2 ^ 8 < perPage ssize := by
    refine Nat.lt_of_mul_lt_mul_right (a := ssize) ?_
    rw [h.perPage_mul]
    omega
  intro heq
  have hmem : addU64 (roundPgdown req.aioBuf)
      (min (firstSector req ssize + req.nbSectors - 1) (perPage ssize - 1) * ssize) ∈
      bufferSectors req ssize := by
    rw [h.bufferSectors_eq]
    exact mem_map_of_mem (mem_range'_1.mpr ⟨by omega, by omega⟩)
  rw [← heq] at hmem
  obtain ⟨k, hk, j, hj, haddr⟩ : ∃ k < ringReq.nrSegments, ∃ j ∈ (ringReq.seg k).sectors,
      addU64 (segmentPage req k) (j * ssize) = _ := by
    simpa [segmentSectors] using hmem
  have hidx := congrArg (· % pageSize / ssize) (h.segmentPage_sector k j ▸ haddr)
  simp only [h.sector_index] at hidx
  obtain ⟨hlo, hhi⟩ := mem_range'_1.mp hj
  have hlt := hlast k hk
  rw [Nat.mul_add_mod_self_right, mod_eq_of_lt (by omega), mod_eq_of_lt (by omega)] at hidx
  omega

/-- **`blkif_request_init` returns.** -/
theorem blkifRequestInit_ok (ringReq : BlkifRequest) :
    blkifRequestInit ringReq req ssize = .ok {
      operation := if req.operation = .write then blkifOpWrite else blkifOpRead
      nrSegments := nbSegments req ssize
      sectorNumber := req.startSector
      seg := fun k => initSegment req ssize (nbSegments req ssize) k (ringReq.seg k) } := by
  have haligned : req.aioBuf &&& subU64 ssize 1 = 0 := by
    obtain ⟨j, rfl⟩ := h.pow
    have hle : 2 ^ j ≤ pageSize := le_of_dvd (by decide) h.dvd
    rw [subU64_eq h.ssize_pos (hle.trans_lt (by decide)), and_two_pow_sub_one_eq_mod]
    exact mod_eq_zero_of_dvd h.aligned
  have hne : nbSegments req ssize ≠ 0 := by
    rw [h.nbSegments_eq]
    exact succ_ne_zero _
  rw [blkifRequestInit, ukAssert_pos haligned, ukAssert_pos h.nbSegments_le]
  exact (if_neg h.ssize_pos.ne').trans (if_neg hne)

end

end Sectored

/-- **The segments of a request cover its buffer.** For every buffer of whole sectors within the
limit the assertions of `blkif_request_init` hold, and the sectors of the segments are those of the
buffer in order exactly if eight bits are enough for their indices. -/
theorem blkfront_segments_cover_buffer (ringReq : BlkifRequest) (req : UkBlkreq) (ssize : Nat)
    (hbuf : Sectored req ssize) :
    ∃ ringReq', blkifRequestInit ringReq req ssize = .ok ringReq' ∧
      ringReq'.nrSegments ≤ blkifMaxSegmentsPerRequest ∧
      (segmentSectors ringReq' req ssize = bufferSectors req ssize ↔ IndexFits req ssize) := by
  refine ⟨_, hbuf.blkifRequestInit_ok ringReq, hbuf.nbSegments_le, fun heq => ?_, fun hfits => ?_⟩
  · by_contra hnot
    refine hbuf.segmentSectors_ne hnot (fun k hk => ?_) heq
    rw [initSegment_lastSect _ hk]
    split_ifs <;> exact mod_lt _ (by decide)
  calc
    _ = (range (nbSegments req ssize)).flatMap fun k =>
          ((blockRange (perPage ssize) (firstSector req ssize) req.nbSectors k).map
            (k * perPage ssize + ·)).map fun x => addU64 (roundPgdown req.aioBuf) (x * ssize) := by
        refine flatMap_congr fun k hk => ?_
        rw [hbuf.initSegment_sectors hfits (mem_range.mp hk), map_map]
        exact map_congr_left fun j _ => hbuf.segmentPage_sector k j
    _ = (range' (firstSector req ssize) req.nbSectors).map
          fun x => addU64 (roundPgdown req.aioBuf) (x * ssize) := by
        rw [← map_flatMap, hbuf.nbSegments_eq, flatMap_blockRange hbuf.firstSector_lt hbuf.pos]
    _ = bufferSectors req ssize := hbuf.bufferSectors_eq.symm

def freshSlot : BlkifRequest := ⟨0, 0, 0, fun _ => ⟨0, 0, 0⟩⟩

/-- Three sectors from the last one of a page on. -/
theorem blkfront_segments_cover_buffer_three :
    ∃ ringReq', blkifRequestInit freshSlot ⟨.read, 0, 3, 0x1e00⟩ 512 = .ok ringReq' ∧
      ringReq'.nrSegments ≤ blkifMaxSegmentsPerRequest ∧
      segmentSectors ringReq' ⟨.read, 0, 3, 0x1e00⟩ 512 = [0x1e00, 0x2000, 0x2200] := by
  have hbuf : Sectored ⟨.read, 0, 3, 0x1e00⟩ 512 :=
    ⟨⟨9, rfl⟩, by decide, by decide, by decide, by decide, by decide⟩
  obtain ⟨ringReq', hcall, hle, hsectors⟩ := blkfront_segments_cover_buffer freshSlot _ _ hbuf
  exact ⟨ringReq', hcall, hle, hsectors.mpr (.inl (by decide))⟩

/-- **An index of eight bits is too small for a page of 512 sectors.** The second half of the page
is in no segment. -/
theorem blkfront_segments_cut_off :
    Sectored ⟨.read, 0, 512, 0x1000⟩ 8 ∧
      ∃ ringReq', blkifRequestInit freshSlot ⟨.read, 0, 512, 0x1000⟩ 8 = .ok ringReq' ∧
        (segmentSectors ringReq' ⟨.read, 0, 512, 0x1000⟩ 8).length = 256 ∧
        (bufferSectors ⟨.read, 0, 512, 0x1000⟩ 8).length = 512 := by
  have hbuf : Sectored ⟨.read, 0, 512, 0x1000⟩ 8 :=
    ⟨⟨3, rfl⟩, by decide, by decide, by decide, by decide, by decide⟩
  exact ⟨hbuf, _, hbuf.blkifRequestInit_ok freshSlot, by decide +kernel, by decide +kernel⟩

end Unikraft.Xen
