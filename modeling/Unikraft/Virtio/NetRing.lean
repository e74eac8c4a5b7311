import Unikraft.Virtio.DeviceView

/-!
# Netbufs on a virtqueue (`plat/drivers/virtio/virtio_ring.c`)

The network driver has its own copy of the enqueue path, in which the check for free descriptors is
compiled out. Where it would pass, the copy does what the generic enqueue does
(`virtnetBufferEnqueue_eq`). A burst that does not fit leaves the free chain: the walk ends at
`VIRTQUEUE_MAX_SIZE`, which is taken for an index.
-/

namespace Unikraft.Virtio

open Lib Outcome List

variable {n : RingSize}

/-! ### The source -/

/-- A netbuf of a burst: its address, `data` and `len`, with `read_bufs[i]` and
`write_bufs[i]`. -/
structure VirtnetBuf where
  nb : Nat
  data : Nat
  len : Nat
  readBufs : Nat
  writeBufs : Nat
  nb_ne : nb ≠ 0
  len_lt : len < 2 ^ 16
  readBufs_lt : readBufs < 2 ^ 16
  writeBufs_lt : writeBufs < 2 ^ 16

theorem zero_lt_u16 : 0 < 2 ^ 16 := by decide

theorem sixty_lt_u16 : 60 < 2 ^ 16 := by decide

def VirtnetBuf.totalDesc (b : VirtnetBuf) : Nat := b.readBufs + b.writeBufs

/-- The loop of `_virtnet_buffer_enqueue` from descriptor `idx` on. The counter `i` has 16
bits, `total_desc` has 32. -/
def virtnetLoop (n : RingSize) (b : VirtnetBuf) :
    Nat → (Nat → VringDesc) → Nat → Nat → Outcome ((Nat → VringDesc) × Nat)
  | fuel, desc, idx, i =>
    if i < b.totalDesc then
      match fuel with
      | 0 => .error .divergence
      | fuel + 1 =>
        if idx < n.num then
          virtnetLoop n b fuel
            (Function.update desc idx
              { addr := b.data
                len := b.len
                flags := segmentFlags b.readBufs b.totalDesc i
                next := (desc idx).next })
            (desc idx).next (addU16 i 1)
        else .error .outOfBounds
    else .ok (desc, idx)

/-- `_virtnet_buffer_enqueue`: the free descriptors that are left. -/
def virtnetBufferEnqueue (vrq : VirtqueueVring n) (b : VirtnetBuf) :
    Outcome (Except Errno Nat × VirtqueueVring n) := do
  ukAssert (b.nb ≠ 0)
  if vrq.headFreeDesc < n.num then
    let info := Function.update vrq.vqInfo vrq.headFreeDesc ⟨b.nb, b.totalDesc % 2 ^ 16⟩
    let (desc, idx) ← virtnetLoop n b b.totalDesc vrq.desc vrq.headFreeDesc 0
    let avail := subU16 vrq.descAvail b.totalDesc
    ukAssert (avail < n.num)
    let vrq' := virtqueueRingUpdateAvail
      { vrq with
        vqInfo := info
        desc := desc
        headFreeDesc := idx
        descAvail := avail }
      vrq.headFreeDesc
    return (.ok vrq'.descAvail, vrq')
  else .error .outOfBounds

/-- The loop of `virtnet_buffer_enqueue_burst` from netbuf `i` on: the last return value, `i`
and the queue. -/
def virtnetBurstLoop :
    List VirtnetBuf → Nat → Except Errno Nat → VirtqueueVring n →
      Outcome (Except Errno Nat × Nat × VirtqueueVring n)
  | [], i, rc, vrq => .ok (rc, i, vrq)
  | b :: nbs, i, _, vrq => do
      match ← virtnetBufferEnqueue vrq b with
      | (.error e, vrq) => return (.error e, i, vrq)
      | (.ok rc, vrq) => virtnetBurstLoop nbs (i + 1) (.ok rc) vrq

/-- `virtnet_buffer_enqueue_burst`. Without a netbuf the return value is what the uninitialised `rc`
holds. -/
def virtnetBufferEnqueueBurst (vrq : VirtqueueVring n) (nbs : List VirtnetBuf)
    (rc : Except Errno Nat) : Outcome (Except Errno Nat × Nat × VirtqueueVring n) := do
  match ← virtnetBurstLoop nbs 0 rc vrq, nbs with
  | (.error e, 0, vrq), _ :: _ => return (.error e, nbs.length, vrq)
  | (rc, i, vrq), _ => return (rc, i, virtqueueRingUpdateAvailIdx vrq)

/-! ### The copy and the generic path -/

/-- The list with the netbuf once for each of its descriptors. -/
def VirtnetBuf.segs (b : VirtnetBuf) : List SglistSeg := replicate b.totalDesc ⟨b.data, b.len⟩

variable {b : VirtnetBuf} {vrq vrq' : VirtqueueVring n} {bufs : List Buf} {nbs : List VirtnetBuf}

theorem virtnetLoop_eq {rem fuel : Nat} (desc : Nat → VringDesc) (idx : Nat)
    (hrem : rem ≤ b.totalDesc) (hfuel : rem ≤ fuel) (hsmall : b.totalDesc < 2 ^ 16) :
    virtnetLoop n b fuel desc idx (b.totalDesc - rem) =
      segmentsLoop n b.segs 0 b.readBufs b.totalDesc rem desc idx := by
  induction rem generalizing fuel desc idx with
  | zero =>
    unfold virtnetLoop
    rw [if_neg (by omega)]
    rfl
  | succ rem ih =>
    obtain ⟨fuel, rfl⟩ : ∃ f, fuel = f + 1 := ⟨fuel - 1, by omega⟩
    have hseg : b.segs[0 + (b.totalDesc - (rem + 1))]? = some ⟨b.data, b.len⟩ := by
      rw [VirtnetBuf.segs, getElem?_replicate, if_pos (by omega)]
    have hlen : b.len % 2 ^ 32 = b.len := Nat.mod_eq_of_lt (b.len_lt.trans (by decide))
    have hnext : addU16 (b.totalDesc - (rem + 1)) 1 = b.totalDesc - rem := by
      unfold addU16
      omega
    unfold virtnetLoop
    rw [if_pos (by omega), segmentsLoop, hseg]
    simp only [hlen, hnext, ih _ _ (Nat.le_of_succ_le hrem) (Nat.le_of_succ_le_succ hfuel)]

/-- **Where the compiled-out check would pass**, the copy is the core of the generic
enqueue. -/
theorem virtnetBufferEnqueue_eq (hpos : 1 ≤ b.totalDesc) (hroom : b.totalDesc ≤ vrq.descAvail)
    (hnum : vrq.descAvail ≤ n.num) :
    virtnetBufferEnqueue vrq b = bufferEnqueue vrq b.nb b.segs 0 b.readBufs b.writeBufs := by
  have hmax : n.num ≤ 32768 := n.num_le
  have hloop := virtnetLoop_eq (n := n) vrq.desc vrq.headFreeDesc
    (Nat.le_refl b.totalDesc) le_rfl (by omega)
  have hassert : subU16 vrq.descAvail b.totalDesc < n.num := by
    unfold subU16
    omega
  rw [Nat.sub_self] at hloop
  have hcheck : ¬ vrq.descAvail < b.readBufs + b.writeBufs := Nat.not_lt.mpr hroom
  generalize hres : segmentsLoop n b.segs 0 b.readBufs b.totalDesc b.totalDesc vrq.desc
    vrq.headFreeDesc = res at hloop
  have hgeneric : virtqueueBufferEnqueueSegments vrq vrq.headFreeDesc b.segs 0 b.readBufs
      b.writeBufs = res := hres
  rw [bufferEnqueue, if_neg hcheck, virtnetBufferEnqueue, ukAssert_pos b.nb_ne,
    ok_bind, ok_bind, hloop, hgeneric]
  split
  · cases res with
    | error e => rfl
    | ok r =>
      simp only [ok_bind]
      rw [ukAssert_pos hassert]
      rfl
  · rfl

/-! ### What the device finds -/

/-- The descriptors of a netbuf, as the device sees them: each of them covers all of the
data. -/
def VirtnetBuf.parts (b : VirtnetBuf) : List DescPart :=
  (range b.totalDesc).map fun i => ⟨b.data, b.len, b.readBufs ≤ i⟩

theorem filterMap_segs (b : VirtnetBuf) :
    (range' 0 b.totalDesc).filterMap (segPart b.segs 0 b.readBufs) = b.parts := by
  rw [VirtnetBuf.parts, range_eq_range']
  refine (filterMap_congr fun i hi => ?_).trans (congrFun filterMap_eq_map' _)
  have hlt : i < b.totalDesc := by simpa using hi
  have hlen : b.len % 2 ^ 32 = b.len := Nat.mod_eq_of_lt (b.len_lt.trans (by decide))
  rw [segPart, VirtnetBuf.segs, Nat.zero_add, getElem?_replicate, if_pos hlt,
    Option.map_some, hlen]

theorem partBytes_parts (b : VirtnetBuf) :
    partBytes b.parts = (replicate b.totalDesc (range' b.data b.len)).flatten := by
  have hconst : (range b.totalDesc).map (fun _ => range' b.data b.len) =
      replicate b.totalDesc (range' b.data b.len) := by
    rw [map_const', length_range]
  rw [partBytes, VirtnetBuf.parts, flatMap_map, flatMap, ← hconst]

/-- The netbufs `nbs` are in flight as `new`: the device finds their descriptors, and for the other
buffers what it found before. -/
structure Placed (vrq : VirtqueueVring n) (bufs : List Buf) (nbs : List VirtnetBuf)
    (new : List Buf) (vrq' : VirtqueueVring n) : Prop where
  descAvail : vrq'.descAvail + (nbs.map VirtnetBuf.totalDesc).sum = vrq.descAvail
  desc : DescAccounting vrq' (new ++ bufs)
  chains : List.Forall₂ (fun c b => c.cookie = b.nb ∧
    readChain vrq'.desc n.num c.head = b.parts) new nbs
  kept : ∀ b ∈ bufs, readChain vrq'.desc n.num b.head = readChain vrq.desc n.num b.head
  /-- The rings hold the new buffers as soon as the index is published. -/
  rep : ∀ dev q, q.inflight.Perm bufs → QueueRep (virtqueueRingUpdateAvailIdx vrq) dev q →
    QueueRep (virtqueueRingUpdateAvailIdx vrq') dev { q with avail := q.avail ++ new }

theorem Placed.nil (hacc : DescAccounting vrq bufs) : Placed vrq bufs [] [] vrq where
  descAvail := rfl
  desc := hacc
  chains := .nil
  kept _ _ := rfl
  rep _ _ _ hr := by simpa using hr

theorem Placed.cookies {new : List Buf} (h : Placed vrq bufs nbs new vrq') :
    new.map Buf.cookie = nbs.map VirtnetBuf.nb := by
  rw [← forall₂_eq_eq_eq, forall₂_map_left_iff, forall₂_map_right_iff]
  exact h.chains.imp fun _ _ hc => hc.1

/-- **One netbuf.** With room for its descriptors it is put on the ring. -/
theorem virtnetBufferEnqueue_placed (hacc : DescAccounting vrq bufs) (hpos : 1 ≤ b.totalDesc)
    (hroom : b.totalDesc ≤ vrq.descAvail) :
    ∃ vrq', virtnetBufferEnqueue vrq b = .ok (.ok (vrq.descAvail - b.totalDesc), vrq') ∧
      Placed vrq bufs [b] [⟨vrq.headFreeDesc, b.nb⟩] vrq' := by
  have htotal := hacc.total
  have hsegs : 0 + (b.readBufs + b.writeBufs) ≤ b.segs.length := by
    simp [VirtnetBuf.segs, VirtnetBuf.totalDesc]
  obtain ⟨desc', idx, hloop, hcore, hacc'⟩ := hacc.bufferEnqueue b.nb_ne hsegs hpos hroom
  obtain ⟨hframe, hchain⟩ := hacc.segments hroom hloop
  refine ⟨_, (virtnetBufferEnqueue_eq hpos hroom (by omega)).trans hcore, ?_, hacc', ?_,
    fun c hc => hacc.readChain_congr hc hframe, fun dev q hq hr => ?_⟩
  · have hle : b.readBufs + b.writeBufs ≤ vrq.descAvail := hroom
    simp only [map_cons, map_nil, sum_singleton, VirtnetBuf.totalDesc]
    exact Nat.sub_add_cancel hle
  · exact .cons ⟨rfl, (hchain hpos).trans (filterMap_segs b)⟩ .nil
  · have hnew := hacc'.perm (hq.symm.cons _)
    exact hr.withBuffer (hpos.trans hroom) (hnew.congr rfl rfl rfl rfl)

theorem Placed.cons {vrq₁ : VirtqueueVring n} {c : Buf} {new : List Buf}
    (h : Placed vrq bufs [b] [c] vrq₁) (h' : Placed vrq₁ (c :: bufs) nbs new vrq') :
    Placed vrq bufs (b :: nbs) (c :: new) vrq' where
  descAvail := by
    have h₁ := h.descAvail
    have h₂ := h'.descAvail
    simp only [map_cons, map_nil, sum_cons, sum_nil] at h₁ ⊢
    omega
  desc := h'.desc.perm perm_middle
  chains := by
    cases h.chains with
    | cons hc _ => exact .cons ⟨hc.1, (h'.kept c mem_cons_self).trans hc.2⟩ h'.chains
  kept d hd := (h'.kept d (mem_cons_of_mem _ hd)).trans (h.kept d hd)
  rep dev q hq hr := by
    have hmid : ({ q with avail := q.avail ++ [c] } : BufQueue).inflight.Perm (c :: bufs) :=
      (q.inflight_enqueue c).trans (hq.cons c)
    simpa using h'.rep dev _ hmid (h.rep dev q hq hr)

/-- **A burst that fits** is put on the ring; the return value is that of the last netbuf. -/
theorem virtnetBurstLoop_placed (i : Nat) (rc : Except Errno Nat) (hacc : DescAccounting vrq bufs)
    (hpos : ∀ b ∈ nbs, 1 ≤ b.totalDesc)
    (hroom : (nbs.map VirtnetBuf.totalDesc).sum ≤ vrq.descAvail) :
    ∃ new vrq', virtnetBurstLoop nbs i rc vrq =
        .ok (if nbs = [] then rc else .ok vrq'.descAvail, i + nbs.length, vrq') ∧
      Placed vrq bufs nbs new vrq' := by
  induction nbs generalizing vrq bufs i rc with
  | nil => exact ⟨[], vrq, rfl, .nil hacc⟩
  | cons b nbs ih =>
    rw [map_cons, sum_cons] at hroom
    obtain ⟨vrq₁, heq, hplaced⟩ := virtnetBufferEnqueue_placed hacc
      (hpos b mem_cons_self) (Nat.le_of_add_right_le hroom)
    have havail : vrq₁.descAvail = vrq.descAvail - b.totalDesc := by
      have hsum := hplaced.descAvail
      simp only [map_cons, map_nil, sum_cons, sum_nil] at hsum
      omega
    obtain ⟨new, vrq₂, heq', hplaced'⟩ := ih (i + 1)
      (.ok (vrq.descAvail - b.totalDesc)) hplaced.desc
      (fun c hc => hpos c (mem_cons_of_mem _ hc)) (by omega)
    refine ⟨_, vrq₂, ?_, hplaced.cons hplaced'⟩
    have hlen : i + 1 + nbs.length = i + (b :: nbs).length := by
      rw [length_cons]
      omega
    rw [virtnetBurstLoop, heq, ok_bind]
    simp only [heq', hlen, if_neg (cons_ne_nil b nbs)]
    split
    · rename_i hnil
      cases hnil
      have hsum := hplaced'.descAvail
      simp only [map_nil, sum_nil, Nat.add_zero] at hsum
      rw [hsum, havail]
    · rfl

theorem virtnetBufferEnqueueBurst_placed (rc : Except Errno Nat) (hacc : DescAccounting vrq bufs)
    (hpos : ∀ b ∈ nbs, 1 ≤ b.totalDesc)
    (hroom : (nbs.map VirtnetBuf.totalDesc).sum ≤ vrq.descAvail) :
    ∃ new vrq', virtnetBufferEnqueueBurst vrq nbs rc =
        .ok (if nbs = [] then rc else .ok vrq'.descAvail, nbs.length,
          virtqueueRingUpdateAvailIdx vrq') ∧
      Placed vrq bufs nbs new vrq' := by
  obtain ⟨new, vrq', heq, hplaced⟩ := virtnetBurstLoop_placed 0 rc hacc hpos hroom
  refine ⟨new, vrq', ?_, hplaced⟩
  rw [Nat.zero_add] at heq
  rw [virtnetBufferEnqueueBurst, heq, ok_bind]
  cases nbs with
  | nil => cases rc <;> rfl
  | cons b nbs => rfl

theorem QueueRep.virtnetBurst {dev : Device} {q : BufQueue} (rc : Except Errno Nat)
    (hr : QueueRep vrq dev q) (hne : nbs ≠ []) (hpos : ∀ b ∈ nbs, 1 ≤ b.totalDesc)
    (hroom : (nbs.map VirtnetBuf.totalDesc).sum ≤ vrq.descAvail) :
    ∃ new vrq', virtnetBufferEnqueueBurst vrq nbs rc = .ok (.ok vrq'.descAvail, nbs.length, vrq') ∧
      QueueRep vrq' dev { q with avail := q.avail ++ new } ∧
      new.map Buf.cookie = nbs.map VirtnetBuf.nb ∧
      vrq'.descAvail + (nbs.map VirtnetBuf.totalDesc).sum = vrq.descAvail := by
  obtain ⟨new, vrq', heq, hplaced⟩ := virtnetBufferEnqueueBurst_placed rc hr.desc hpos hroom
  rw [if_neg hne] at heq
  exact ⟨new, _, heq, hplaced.rep dev q (.refl _) (by rwa [hr.publish_eq]), hplaced.cookies,
    hplaced.descAvail⟩

/-! ### Bursts and the ring -/

/-- The netbufs of a burst up to the first one that needs more descriptors than are free. -/
def fitting : Nat → List VirtnetBuf → List VirtnetBuf
  | _, [] => []
  | avail, b :: nbs =>
    if b.totalDesc ≤ avail then b :: fitting (avail - b.totalDesc) nbs else []

/-- **What a burst has to do.** The netbufs up to the first one that does not fit are in flight
afterwards; `*cnt` is their number, or the return value is `-ENOSPC`. The descriptors of each
describe its data once. -/
def RespectsRing (vrq : VirtqueueVring n) (bufs : List Buf) (nbs : List VirtnetBuf) : Prop :=
  ∀ rc₀, ∃ rc cnt vrq' new, virtnetBufferEnqueueBurst vrq nbs rc₀ = .ok (rc, cnt, vrq') ∧
    (if fitting vrq.descAvail nbs = [] ∧ nbs ≠ [] then rc = .error .enospc
      else cnt = (fitting vrq.descAvail nbs).length) ∧
    vrq'.descAvail + ((fitting vrq.descAvail nbs).map VirtnetBuf.totalDesc).sum = vrq.descAvail ∧
    DescAccounting vrq' (new ++ bufs) ∧
    List.Forall₂ (fun c b => c.cookie = b.nb ∧
      partBytes (readChain vrq'.desc n.num c.head) = range' b.data b.len)
      new (fitting vrq.descAvail nbs)

/-- One descriptor describes the data; more of them describe the same data again. -/
def VirtnetBuf.DescribedOnce (b : VirtnetBuf) : Prop := b.totalDesc = 1 ∨ b.len = 0

theorem VirtnetBuf.DescribedOnce.bytes (h : b.DescribedOnce) :
    partBytes b.parts = range' b.data b.len := by
  rw [partBytes_parts]
  rcases h with h | h
  · rw [h, replicate_one, flatten_singleton]
  · rw [h, range'_zero, flatten_replicate_nil]

theorem fitting_eq_self {avail : Nat} (h : (nbs.map VirtnetBuf.totalDesc).sum ≤ avail) :
    fitting avail nbs = nbs := by
  induction nbs generalizing avail with
  | nil => rfl
  | cons b nbs ih =>
    rw [map_cons, sum_cons] at h
    rw [fitting, if_pos (Nat.le_of_add_right_le h), ih (by omega)]

theorem Placed.bytes {new : List Buf} (h : Placed vrq bufs nbs new vrq')
    (honce : ∀ b ∈ nbs, b.DescribedOnce) :
    List.Forall₂ (fun c b => c.cookie = b.nb ∧
      partBytes (readChain vrq'.desc n.num c.head) = range' b.data b.len) new nbs := by
  have hchains := h.chains
  clear h
  induction hchains with
  | nil => exact .nil
  | cons hc _ ih =>
    rw [forall_mem_cons] at honce
    exact .cons ⟨hc.1, by rw [hc.2, honce.1.bytes]⟩ (ih honce.2)

/-! ### Other bursts -/

/-- The free chain ends in front of the descriptor that is to be filled in. -/
theorem virtnetLoop_fault {k fuel i idx : Nat} {desc : Nat → VringDesc}
    (hend : (fun j => (desc j).next)^[k] idx = virtqueueMaxSize) (hi : i + k < b.totalDesc)
    (hsmall : i + k < 2 ^ 16) (hfuel : k < fuel) :
    virtnetLoop n b fuel desc idx i = .error .outOfBounds := by
  induction k generalizing fuel i idx desc with
  | zero =>
    have hout : ¬ idx < n.num := by
      rw [show idx = virtqueueMaxSize from hend]
      exact Nat.not_lt.mpr n.num_le
    obtain ⟨fuel, rfl⟩ := Nat.exists_eq_succ_of_ne_zero hfuel.ne'
    unfold virtnetLoop
    rw [if_pos (by omega)]
    exact if_neg hout
  | succ k ih =>
    obtain ⟨fuel, rfl⟩ := Nat.exists_eq_succ_of_ne_zero (Nat.ne_zero_of_lt hfuel)
    unfold virtnetLoop
    rw [if_pos (by omega)]
    simp only
    split_ifs with hidx
    · have hnext : addU16 i 1 = i + 1 := Nat.mod_eq_of_lt (by omega)
      rw [hnext]
      refine ih ?_ (by omega) (by omega) (Nat.lt_of_succ_lt_succ hfuel)
      rw [Function.iterate_succ_apply] at hend
      rw [← hend]
      congr 2
      funext j
      by_cases hj : j = idx
      · rw [hj, Function.update_self]
      · rw [Function.update_of_ne hj]
    · rfl

theorem virtnetBufferEnqueue_fault (hacc : DescAccounting vrq bufs)
    (hover : vrq.descAvail < b.totalDesc) :
    virtnetBufferEnqueue vrq b = .error .outOfBounds := by
  have hle : vrq.descAvail ≤ n.num := hacc.total ▸ Nat.le_add_right _ _
  have hmax : n.num ≤ 32768 := n.num_le
  rw [virtnetBufferEnqueue, ukAssert_pos b.nb_ne, ok_bind]
  split_ifs
  · rw [virtnetLoop_fault (k := vrq.descAvail) hacc.freeEnd (by omega) (by omega) hover]
    rfl
  · rfl

theorem virtnetBurstLoop_fault (i : Nat) (rc : Except Errno Nat) (hacc : DescAccounting vrq bufs)
    (hpos : ∀ b ∈ nbs, 1 ≤ b.totalDesc)
    (hover : vrq.descAvail < (nbs.map VirtnetBuf.totalDesc).sum) :
    virtnetBurstLoop nbs i rc vrq = .error .outOfBounds := by
  induction nbs generalizing vrq bufs i rc with
  | nil => exact absurd hover (Nat.not_lt_zero _)
  | cons b nbs ih =>
    rw [map_cons, sum_cons] at hover
    rw [virtnetBurstLoop]
    by_cases hroom : b.totalDesc ≤ vrq.descAvail
    · obtain ⟨vrq₁, heq, hplaced⟩ := virtnetBufferEnqueue_placed hacc (hpos b mem_cons_self) hroom
      have hsum := hplaced.descAvail
      simp only [map_cons, map_nil, sum_cons, sum_nil] at hsum
      rw [heq, ok_bind]
      exact ih (i + 1) _ hplaced.desc (fun c hc => hpos c (mem_cons_of_mem _ hc)) (by omega)
    · rw [virtnetBufferEnqueue_fault hacc (Nat.lt_of_not_le hroom), error_bind]

/-- The chains of the new buffers cover the same descriptors, whichever of them are named. -/
theorem sum_length_partBytes {new new' : List Buf} (h : DescAccounting vrq (new ++ bufs))
    (h' : DescAccounting vrq (new' ++ bufs)) :
    (new.map fun c => (partBytes (readChain vrq.desc n.num c.head)).length).sum =
      (new'.map fun c => (partBytes (readChain vrq.desc n.num c.head)).length).sum := by
  have hsum {new : List Buf} (h : DescAccounting vrq (new ++ bufs)) :
      (new.map fun c => (partBytes (readChain vrq.desc n.num c.head)).length).sum =
        ((new.flatMap fun c => chainOf vrq c.head).map fun i => (vrq.desc i).len).sum := by
    rw [map_flatMap, flatMap, sum_flatten, map_map]
    exact congrArg sum (map_congr_left fun c hc => h.length_partBytes (mem_append_left _ hc))
  have hperm : (new.flatMap fun c => chainOf vrq c.head).Perm
      (new'.flatMap fun c => chainOf vrq c.head) := by
    have hboth := h.partition.trans h'.partition.symm
    rw [flatMap_append, flatMap_append, perm_append_left_iff, perm_append_right_iff] at hboth
    exact hboth
  rw [hsum h, hsum h', (hperm.map _).sum_eq]

theorem sum_len_le (hpos : ∀ b ∈ nbs, 1 ≤ b.totalDesc) :
    (nbs.map fun b => b.len).sum ≤ (nbs.map fun b => b.totalDesc * b.len).sum := by
  induction nbs with
  | nil => exact Nat.le_refl 0
  | cons b nbs ih =>
    obtain ⟨hb, hrest⟩ := forall_mem_cons.mp hpos
    simp only [map_cons, sum_cons]
    exact Nat.add_le_add (Nat.le_mul_of_pos_left _ hb) (ih hrest)

theorem describedOnce_of_sum (hpos : ∀ b ∈ nbs, 1 ≤ b.totalDesc)
    (h : (nbs.map fun b => b.totalDesc * b.len).sum ≤ (nbs.map fun b => b.len).sum) :
    ∀ b ∈ nbs, b.DescribedOnce := by
  induction nbs with
  | nil => exact nofun
  | cons b nbs ih =>
    obtain ⟨hb, hrest⟩ := forall_mem_cons.mp hpos
    simp only [map_cons, sum_cons] at h
    have hsum := sum_len_le hrest
    have hfirst : b.len ≤ b.totalDesc * b.len := Nat.le_mul_of_pos_left _ hb
    refine forall_mem_cons.mpr ⟨?_, ih hrest (by omega)⟩
    have heq : b.totalDesc * b.len = 1 * b.len := by omega
    rcases Nat.eq_zero_or_pos b.len with hzero | hlen
    · exact .inr hzero
    · exact .inl (Nat.eq_of_mul_eq_mul_right hlen heq)

/-- A netbuf of 60 bytes with one descriptor for the device to read. -/
def frame (nb : Nat) (h : nb ≠ 0) : VirtnetBuf :=
  ⟨nb, nb + 128, 60, 1, 0, h, sixty_lt_u16, by decide, zero_lt_u16⟩

end Unikraft.Virtio
