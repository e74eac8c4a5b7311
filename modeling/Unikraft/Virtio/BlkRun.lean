import Unikraft.Virtio.BlkLimits

/-!
# Runs of the virtio block driver

A request structure is allocated for each submission and freed when the device has answered: there
is one for each buffer in flight (`BlkRep`). This is kept by every submission that succeeds or fails
before the allocation, and by every completion; submissions that are refused later leave their
structure allocated.
-/

namespace Unikraft.Virtio

open Lib Uksglist Function Outcome List

variable {n : RingSize}

/-! ### Submission and completion -/

/-- `struct virtio_blkdev_request`: the request and the status byte. -/
structure VirtioBlkdevRequest where
  req : UkBlkreq
  status : Nat

/-- A queue, the device, the request structures that are allocated, and the abstract queue of the
buffers beside them. -/
structure BlkState (n : RingSize) where
  queue : UkBlkdevQueue n
  dev : Device
  heap : Nat → Option VirtioBlkdevRequest
  bufs : BufQueue

def BlkState.ring (s : BlkState n) : QueueState n := ⟨s.queue.vrq, s.dev, s.bufs⟩

def BlkState.withRing (s : BlkState n) (ring : QueueState n) : BlkState n :=
  { s with queue := { s.queue with vrq := ring.vrq }, dev := ring.dev, bufs := ring.queue }

/-- `virtio_blkdev_queue_enqueue`, where `uk_malloc` returns `addr`, with `status` in the byte that
is not initialised. -/
def blkSubmit (s : BlkState n) (req : UkBlkreq) (addr status : Nat) :
    Outcome (Except Errno (Nat × VirtioBlkOuthdr) × BlkState n) := do
  let heap := if s.queue.vrq.descAvail = 0 ∨ addr = 0 then s.heap
    else update s.heap addr (some ⟨req, status⟩)
  match ← virtioBlkdevQueueEnqueue s.queue req addr with
  | (.ok rc, queue) => return (.ok rc, { s with
        queue := queue
        heap := heap
        bufs := s.bufs.enqueue ⟨s.queue.vrq.headFreeDesc, addr⟩ })
  | (.error e, queue) => return (.error e, { s with queue := queue, heap := heap })

/-- `virtio_blkdev_queue_dequeue`. The request structure is freed also if the device has written
nothing. -/
def virtioBlkdevQueueDequeue (s : BlkState n) :
    Outcome ((Except Errno Int × Option (UkBlkreq × Int)) × BlkState n) := do
  match ← virtqueueBufferDequeue s.queue.vrq with
  | (.error _, vrq) => return ((.ok 0, none), { s with queue := { s.queue with vrq := vrq } })
  | (.ok ((response, len), rc), vrq) =>
    match s.heap response with
    | none => .error .useAfterFree
    | some r =>
      let s' : BlkState n := { s with
          queue := { s.queue with vrq := vrq }
          heap := update s.heap response none
          bufs := s.bufs.dequeue 1 }
      if len < 1 then return ((.error .einval, none), s')
      else return ((.ok rc, some (r.req, -r.status)), s')

/-- A call of the driver, or a move of the device. -/
inductive BlkEvent
  | submit (req : UkBlkreq) (addr status : Nat)
  | dequeue
  /-- The device reads the next head of the available ring. -/
  | fetch
  /-- The device writes the status of the `i`-th request it holds, and posts it. -/
  | post (i len status : Nat)

inductive BlkReply
  | submitted (rc : Except Errno (Nat × VirtioBlkOuthdr))
  | completed (rc : Except Errno Int) (req : Option (UkBlkreq × Int))
  | device

def writeStatus (heap : Nat → Option VirtioBlkdevRequest) (addr status : Nat) :
    Nat → Option VirtioBlkdevRequest :=
  update heap addr ((heap addr).map ({ · with status := status }))

def blkStep (s : BlkState n) : BlkEvent → Outcome (BlkReply × BlkState n)
  | .submit req addr status => do
      let (rc, s') ← blkSubmit s req addr status
      return (.submitted rc, s')
  | .dequeue => do
      let ((rc, req), s') ← virtioBlkdevQueueDequeue s
      return (.completed rc req, s')
  | .fetch => return (.device, s.withRing (deviceFetch s.ring))
  | .post i len status =>
    match s.dev.held[i]?, s.bufs.held[i]? with
    | some h, some b => return (.device, { s.withRing (devicePost s.ring i h len) with
          heap := writeStatus s.heap b.cookie status })
    | _, _ => .error .badPointer

def blkInit (dev : NegotiatedBlk) (info : Nat → VirtqueueDescInfo) (sgsegs : List SglistSeg) :
    BlkState n :=
  ⟨virtioBlkdevQueueSetup dev (virtqueueVringInit n info) sgsegs, ⟨0, []⟩, fun _ => none,
    ⟨[], [], []⟩⟩

/-! ### What submissions have to do -/

/-- The requests that are not refused once their structure is allocated. -/
def Valid (dev : NegotiatedBlk) (queue : UkBlkdevQueue n) (req : UkBlkreq) (addr : Nat) : Prop :=
  req.startSector + req.nbSectors ≤ dev.vbd.cap.sectors ∧ match req.operation with
    | .read => Checked dev req ∧ InMemory req (req.nbSectors * dev.vbd.cap.ssize) addr ∧
        3 ≤ queue.sg.maxseg ∧ 3 ≤ queue.vrq.descAvail
    | .write => dev.vbd.cap.rdonly = false ∧ Checked dev req ∧
        InMemory req (req.nbSectors * dev.vbd.cap.ssize) addr ∧
        3 ≤ queue.sg.maxseg ∧ 3 ≤ queue.vrq.descAvail
    | .fflush => dev.vbd.writeback = true ∧ addr + sizeofRequest < 2 ^ 64 ∧
        2 ≤ queue.sg.maxseg ∧ 2 ≤ queue.vrq.descAvail
    | .other _ => False

/-- The submissions that keep the account: those that fail before the allocation, and those that
succeed. -/
def Submittable (dev : NegotiatedBlk) (queue : UkBlkdevQueue n) (req : UkBlkreq) (addr : Nat) :
    Prop :=
  queue.vrq.descAvail = 0 ∨ addr = 0 ∨ Valid dev queue req addr

/-- What the allocator and the device keep to, and the condition on submissions. -/
def blkOk (dev : NegotiatedBlk) (s : BlkState n) : BlkEvent → Prop
  | .submit req addr _ => (addr ≠ 0 → s.heap addr = none) ∧ Submittable dev s.queue req addr
  | .dequeue => True
  | .fetch => s.dev.lastAvail ≠ s.queue.vrq.availIdx
  | .post i len _ => i < s.dev.held.length ∧ len < 2 ^ 32

/-- **The account**: the queue is in order, and the allocated request structures are those of the
buffers in flight, one for each. -/
structure BlkRep (dev : NegotiatedBlk) (s : BlkState n) : Prop where
  ring : s.ring.Rep
  setUp : s.queue.SetUp dev
  nodup : (s.bufs.inflight.map Buf.cookie).Nodup
  allocated : ∀ a, (s.heap a).isSome ↔ a ∈ s.bufs.inflight.map Buf.cookie

/-- A submission that succeeds is for sectors of the device, and adds the buffer and one request
structure; one that fails changes neither. A completion frees the structure of the buffer it takes.
The device frees and allocates nothing. -/
def BlkEvent.Meets (dev : NegotiatedBlk) (s : BlkState n) : BlkEvent → BlkReply → BlkState n → Prop
  | .submit req addr status, .submitted (.ok _), s' =>
    req.startSector + req.nbSectors ≤ dev.vbd.cap.sectors ∧ s.heap addr = none ∧
      s'.heap = update s.heap addr (some ⟨req, status⟩) ∧
      s'.bufs = s.bufs.enqueue ⟨s.queue.vrq.headFreeDesc, addr⟩
  | .submit .., .submitted (.error _), s' => s'.queue.vrq = s.queue.vrq ∧ s'.heap = s.heap
  | .dequeue, .completed .., s' =>
    match s.bufs.used with
    | [] => s'.heap = s.heap
    | (b, _) :: _ => (s.heap b.cookie).isSome ∧ s'.heap = update s.heap b.cookie none
  | .fetch, .device, s' => s'.heap = s.heap
  | .post .., .device, s' => ∀ a, (s'.heap a).map (·.req) = (s.heap a).map (·.req)
  | _, _, _ => False

/-! ### Submissions that succeed -/

variable {host : VirtioBlkHost} {dev : NegotiatedBlk} {queue queue' : UkBlkdevQueue n}
  {req : UkBlkreq} {addr : Nat}

theorem virtioBlkdevRequestWrite_prepares
    (hdev : virtioBlkdevFeatureNegotiate host = .ok (.ok dev)) (hset : queue.SetUp dev)
    (hrange : req.startSector + req.nbSectors ≤ dev.vbd.cap.sectors)
    (hmode : req.operation = .write → dev.vbd.cap.rdonly = false) (hchecked : Checked dev req)
    (hmem : InMemory req (req.nbSectors * dev.vbd.cap.ssize) addr) (hthree : 3 ≤ queue.sg.maxseg) :
    ∃ prep sl, virtioBlkdevRequestWrite queue req addr = .ok (.ok prep, sl) ∧ sl.Ok ∧
      sl.maxseg = queue.sg.maxseg ∧ prep.readSegs + prep.writeSegs = 3 := by
  obtain ⟨hbytes, hsizeMax, -⟩ := hchecked.pos hdev
  obtain ⟨-, hsectors, hssize, -, hmaxSize, -⟩ := virtioBlkdevFeatureNegotiate_inv hdev
  have hcapacity : host.capacity < 2 ^ 64 := loadLE_lt host.config 0 8
  obtain ⟨hbuf, hnb, hmax⟩ := hchecked
  have hlt := bytes_lt_of_sectors hdev hmax
  rw [← hssize] at hbytes hlt
  obtain ⟨sl, hlist, hok, hmaxseg, hrep⟩ := virtioBlkdevRequestSetSglist_fits hset hthree hmem hbuf
    rfl hbytes hlt (by rw [hset.vbd, hmaxSize]; exact hsizeMax)
  have hnseg : subU16 sl.nseg 1 = 2 := by simp [hrep.1, subU16]
  have hperm : ¬ (req.operation = .write ∧ queue.vbd.cap.rdonly = true) := by
    rintro ⟨hop, hro⟩
    rw [hset.vbd, hmode hop] at hro
    cases hro
  rw [← hset.vbd] at hlist hrange hmax hsectors
  rw [virtioBlkdevRequestWrite, if_neg hperm, if_neg hbuf.ne', if_neg hnb.ne',
    if_neg (by rw [addU64_eq (by omega)]; omega), if_neg (by omega), hlist, ok_bind]
  simp only [hnseg]
  split
  · exact ⟨_, sl, rfl, hok, hmaxseg, rfl⟩
  · exact ⟨_, sl, rfl, hok, hmaxseg, rfl⟩

theorem virtioBlkdevRequestFlush_prepares (hset : queue.SetUp dev)
    (hcache : dev.vbd.writeback = true) (hone : 1 ≤ queue.sg.maxseg) :
    ∃ prep sl, virtioBlkdevRequestFlush queue req addr = .ok (.ok prep, sl) ∧ sl.Ok ∧
      sl.maxseg = queue.sg.maxseg ∧ prep.readSegs + prep.writeSegs = 2 := by
  obtain ⟨sl₁, hhdr, hends⟩ := hset.reset_takes (by omega) (addU64_lt addr offsetofOuthdr)
    sizeofOuthdr (by decide)
  obtain ⟨hok₁, hmax₁, hlen₁⟩ := hset.header_grown hhdr
  have hnext : addU64 (addU64 addr offsetofOuthdr) sizeofOuthdr = addU64 addr offsetofStatus :=
    addU64_assoc ..
  rw [hnext] at hends
  obtain ⟨sl₂, hstatus, -⟩ := hends.takes (addU64_lt addr offsetofStatus) 1 Nat.one_pos
  have hgrown₂ := ukSglistAppend_grown hok₁ (addU64_lt ..) (by omega) hstatus
  have hlist : virtioBlkdevRequestSetSglist queue req addr 0 false = .ok (.ok (), sl₂) := by
    rw [virtioBlkdevRequestSetSglist, hhdr, ok_bind]
    exact hstatus
  refine ⟨⟨1, 1, ⟨virtioBlkTFlush, 0⟩⟩, sl₂, ?_, hgrown₂.ok, hgrown₂.maxseg.trans hmax₁, rfl⟩
  rw [virtioBlkdevRequestFlush, if_neg (by rw [hset.vbd, hcache]; decide), hlist]
  rfl

/-- **A valid request is prepared**, with no more segments than the list and the ring have. -/
theorem Valid.prepares (hdev : virtioBlkdevFeatureNegotiate host = .ok (.ok dev))
    (hset : queue.SetUp dev) (h : Valid dev queue req addr) :
    ∃ prep sl, (match req.operation with
        | .write | .read => virtioBlkdevRequestWrite queue req addr
        | .fflush => virtioBlkdevRequestFlush queue req addr
        | .other _ => return (.error .einval, queue.sg)) = .ok (.ok prep, sl) ∧
      sl.Ok ∧ sl.maxseg = queue.sg.maxseg ∧ 1 ≤ prep.readSegs + prep.writeSegs ∧
      prep.readSegs + prep.writeSegs ≤ queue.sg.maxseg ∧
      prep.readSegs + prep.writeSegs ≤ queue.vrq.descAvail := by
  obtain ⟨hrange, hop⟩ := h
  cases hcase : req.operation with
  | read =>
    rw [hcase] at hop
    obtain ⟨hchecked, hmem, hthree, havail⟩ := hop
    obtain ⟨prep, sl, hprep, hok, hmaxseg, hsum⟩ := virtioBlkdevRequestWrite_prepares hdev hset
      hrange (by rw [hcase]; intro h; cases h) hchecked hmem hthree
    exact ⟨prep, sl, hprep, hok, hmaxseg, by omega, by omega, by omega⟩
  | write =>
    rw [hcase] at hop
    obtain ⟨hmode, hchecked, hmem, hthree, havail⟩ := hop
    obtain ⟨prep, sl, hprep, hok, hmaxseg, hsum⟩ := virtioBlkdevRequestWrite_prepares hdev hset
      hrange (fun _ => hmode) hchecked hmem hthree
    exact ⟨prep, sl, hprep, hok, hmaxseg, by omega, by omega, by omega⟩
  | fflush =>
    rw [hcase] at hop
    obtain ⟨hcache, -, htwo, havail⟩ := hop
    obtain ⟨prep, sl, hprep, hok, hmaxseg, hsum⟩ := virtioBlkdevRequestFlush_prepares hset
      hcache (Nat.le_of_succ_le htwo)
    exact ⟨prep, sl, hprep, hok, hmaxseg, by omega, by omega, by omega⟩
  | other code =>
    rw [hcase] at hop
    exact hop.elim

/-- **A valid request is accepted.** -/
theorem Valid.accepted {d : Device} {q : BufQueue}
    (hdev : virtioBlkdevFeatureNegotiate host = .ok (.ok dev)) (hr : QueueRep queue.vrq d q)
    (hset : queue.SetUp dev) (haddr : addr ≠ 0) (h : Valid dev queue req addr) :
    ∃ rc queue', virtioBlkdevQueueEnqueue queue req addr = .ok (.ok rc, queue') ∧
      queue'.SetUp dev ∧ QueueRep queue'.vrq d (q.enqueue ⟨queue.vrq.headFreeDesc, addr⟩) := by
  obtain ⟨prep, sl, hprep, hok, hmaxseg, hpos, hsegs, hroom⟩ := h.prepares hdev hset
  have hlen := hok.maxseg_le
  obtain ⟨vrq', henq, hr'⟩ := hr.enqueue haddr
    (show prep.readSegs + prep.writeSegs ≤ sl.segs.length by omega) hpos hroom
  refine ⟨(queue.vrq.descAvail - (prep.readSegs + prep.writeSegs), prep.hdr),
    { queue with sg := sl, vrq := vrq' }, ?_, ⟨hset.vbd, hmaxseg.trans hset.maxseg, hlen⟩, hr'⟩
  rw [virtioBlkdevQueueEnqueue, if_neg (by omega), if_neg haddr]
  refine bind_ok.mpr ⟨(.ok prep, sl), hprep, ?_⟩
  simp only [henq, ok_bind]
  rfl

/-! ### Runs -/

variable {s s' : BlkState n}

theorem BlkRep.fresh (h : BlkRep dev s) (hfree : s.heap addr = none) :
    addr ∉ s.bufs.inflight.map Buf.cookie := by
  rw [← h.allocated, hfree]
  exact Bool.false_ne_true

/-- **Submissions.** -/
theorem BlkRep.submit {status : Nat} (hdev : virtioBlkdevFeatureNegotiate host = .ok (.ok dev))
    (h : BlkRep dev s) (hok : blkOk dev s (.submit req addr status)) :
    ∃ r s', blkStep s (.submit req addr status) = .ok (r, s') ∧
      BlkEvent.Meets dev s (.submit req addr status) r s' ∧ BlkRep dev s' := by
  obtain ⟨hfree, hsub⟩ := hok
  by_cases hearly : s.queue.vrq.descAvail = 0 ∨ addr = 0
  · -- The call fails before the allocation.
    obtain ⟨e, hcall⟩ : ∃ e, virtioBlkdevQueueEnqueue s.queue req addr =
        .ok (.error e, s.queue) := by
      rw [virtioBlkdevQueueEnqueue]
      split
      · exact ⟨_, rfl⟩
      rename_i havail
      exact ⟨_, if_pos (hearly.resolve_left havail)⟩
    refine ⟨.submitted (.error e), s, ?_, ⟨rfl, rfl⟩, h⟩
    simp only [blkStep, blkSubmit, hcall, ok_bind, if_pos hearly]
    rfl
  obtain ⟨havail, haddr⟩ := not_or.mp hearly
  have hvalid := (hsub.resolve_left havail).resolve_left haddr
  obtain ⟨rc, queue', hcall, hset', hr'⟩ := hvalid.accepted hdev h.ring h.setUp haddr
  have hnone := hfree haddr
  have hperm := s.bufs.inflight_enqueue ⟨s.queue.vrq.headFreeDesc, addr⟩
  refine ⟨.submitted (.ok rc), { s with
      queue := queue'
      heap := update s.heap addr (some ⟨req, status⟩)
      bufs := s.bufs.enqueue ⟨s.queue.vrq.headFreeDesc, addr⟩ },
    ?_, ⟨hvalid.1, hnone, rfl, rfl⟩, ⟨hr', hset', ?_, ?_⟩⟩
  · simp only [blkStep, blkSubmit, hcall, ok_bind, if_neg hearly]
    rfl
  · exact (hperm.map Buf.cookie).nodup_iff.mpr (nodup_cons.mpr ⟨h.fresh hnone, h.nodup⟩)
  intro a
  rw [(hperm.map Buf.cookie).mem_iff, map_cons, mem_cons, ← h.allocated]
  by_cases ha : a = addr
  · subst ha
    simp
  · simp [ha]

/-- **Completions.** The structure of the buffer that is taken is allocated, and it is the only one
that is freed. -/
theorem BlkRep.dequeue (h : BlkRep dev s) :
    ∃ r s', blkStep s .dequeue = .ok (r, s') ∧ BlkEvent.Meets dev s .dequeue r s' ∧
      BlkRep dev s' := by
  cases hq : s.bufs.used with
  | nil =>
    have hempty : ¬ virtqueueHasdata s.queue.vrq := fun hdata => h.ring.hasdata_iff.mp hdata hq
    refine ⟨.completed (.ok 0) none, s, ?_, by simp only [BlkEvent.Meets, hq], h⟩
    simp only [blkStep, virtioBlkdevQueueDequeue, virtqueueBufferDequeue, if_neg hempty]
    rfl
  | cons u rest =>
    obtain ⟨b, len⟩ := u
    have hdata : virtqueueHasdata s.queue.vrq :=
      h.ring.hasdata_iff.mpr (by simp [BlkState.ring, hq])
    obtain ⟨vrq', heq, hr', -⟩ := h.ring.bufferDequeue hq
    have hperm : (s.bufs.inflight.map Buf.cookie).Perm
        (b.cookie :: (s.bufs.dequeue 1).inflight.map Buf.cookie) := by
      simp only [BufQueue.inflight, BufQueue.dequeue, hq, map_cons, map_append,
        drop_succ_cons, drop_zero]
      exact perm_middle
    have hnodup := hperm.nodup_iff.mp h.nodup
    obtain ⟨r, hheap⟩ : ∃ r, s.heap b.cookie = some r :=
      Option.isSome_iff_exists.mp ((h.allocated _).mpr (hperm.mem_iff.mpr mem_cons_self))
    have hrep : BlkRep dev { s with
          queue := { s.queue with vrq := vrq' }
          heap := update s.heap b.cookie none
          bufs := s.bufs.dequeue 1 } := by
      refine ⟨hr', ⟨h.setUp.vbd, h.setUp.maxseg, h.setUp.room⟩, (nodup_cons.mp hnodup).2, ?_⟩
      intro a
      by_cases ha : a = b.cookie
      · subst ha
        simp [(nodup_cons.mp hnodup).1]
      have hmem := h.allocated a
      rw [hperm.mem_iff, mem_cons] at hmem
      simpa [ha] using hmem
    have hdeq : virtqueueBufferDequeue s.queue.vrq =
        .ok (.ok ((b.cookie, len), n.num - vrq'.descAvail), vrq') := by
      rw [virtqueueBufferDequeue, if_pos hdata]
      exact congrArg (· >>= _) heq
    obtain ⟨rc, req, hcall⟩ : ∃ rc req, virtioBlkdevQueueDequeue s = .ok ((rc, req), { s with
          queue := { s.queue with vrq := vrq' }
          heap := update s.heap b.cookie none
          bufs := s.bufs.dequeue 1 }) := by
      rw [virtioBlkdevQueueDequeue, hdeq, ok_bind]
      simp only [hheap]
      split
      · exact ⟨_, _, rfl⟩
      · exact ⟨_, _, rfl⟩
    refine ⟨.completed rc req, _, ?_, ?_, hrep⟩
    · rw [blkStep, hcall]
      rfl
    · simp only [BlkEvent.Meets, hq, hheap, Option.isSome_some, true_and]

/-- **Moves of the device** free and allocate nothing. -/
theorem BlkRep.fetch (h : BlkRep dev s) (hok : blkOk dev s .fetch) :
    BlkRep dev (s.withRing (deviceFetch s.ring)) := by
  have hperm := s.bufs.inflight_fetch.map Buf.cookie
  refine ⟨h.ring.fetch hok, ⟨h.setUp.vbd, h.setUp.maxseg, h.setUp.room⟩,
    hperm.nodup_iff.mpr h.nodup, ?_⟩
  exact fun a => (h.allocated a).trans hperm.mem_iff.symm

theorem writeStatus_req (heap : Nat → Option VirtioBlkdevRequest) (addr status a : Nat) :
    (writeStatus heap addr status a).map (·.req) = (heap a).map (·.req) := by
  rw [writeStatus]
  by_cases ha : a = addr
  · subst ha
    rw [update_self, Option.map_map]
    rfl
  · rw [update_of_ne ha]

theorem BlkRep.post {i len status : Nat} (h : BlkRep dev s)
    (hok : blkOk dev s (.post i len status)) :
    ∃ r s', blkStep s (.post i len status) = .ok (r, s') ∧
      BlkEvent.Meets dev s (.post i len status) r s' ∧ BlkRep dev s' := by
  have hheld : s.dev.held = s.bufs.held.map Buf.head := h.ring.held
  have hlt : i < s.bufs.held.length := by
    have := hok.1
    rwa [hheld, length_map] at this
  obtain ⟨b, hb⟩ : ∃ b, s.bufs.held[i]? = some b := ⟨_, getElem?_eq_getElem hlt⟩
  have hh : s.dev.held[i]? = some b.head := by
    rw [hheld, getElem?_map, hb]
    rfl
  have hperm := (s.bufs.inflight_post len hlt).map Buf.cookie
  refine ⟨.device, { s.withRing (devicePost s.ring i b.head len) with
      heap := writeStatus s.heap b.cookie status }, ?_, ?_, ?_⟩
  · rw [blkStep, hh, hb]
    rfl
  · exact fun a => writeStatus_req s.heap b.cookie status a
  refine ⟨h.ring.post len hh, ⟨h.setUp.vbd, h.setUp.maxseg, h.setUp.room⟩,
    hperm.nodup_iff.mpr h.nodup, ?_⟩
  intro a
  have hsome := congrArg Option.isSome (writeStatus_req s.heap b.cookie status a)
  rw [Option.isSome_map, Option.isSome_map] at hsome
  show (writeStatus s.heap b.cookie status a).isSome ↔ _
  rw [hsome, h.allocated a]
  exact hperm.mem_iff.symm

/-- **One event** returns, does what it has to, and keeps the account. -/
theorem BlkRep.step (hdev : virtioBlkdevFeatureNegotiate host = .ok (.ok dev)) (h : BlkRep dev s)
    {e : BlkEvent} (hok : blkOk dev s e) :
    ∃ r s', blkStep s e = .ok (r, s') ∧ e.Meets dev s r s' ∧ BlkRep dev s' := by
  cases e with
  | submit req addr status => exact h.submit hdev hok
  | dequeue => exact h.dequeue
  | fetch => exact ⟨_, _, rfl, rfl, h.fetch hok⟩
  | post i len status => exact h.post hok

theorem blkInit_rep (info : Nat → VirtqueueDescInfo) {sgsegs : List SglistSeg}
    (hsegs : sgsegs.length = dev.maxSegments) : BlkRep dev (blkInit dev info sgsegs : BlkState n) :=
  ⟨QueueRep.init n info, virtioBlkdevQueueSetup_setUp dev _ hsegs, nodup_nil,
    fun _ => by simp [blkInit, BufQueue.inflight]⟩

/-- **All or nothing.** In every run whose submissions are valid or fail before the allocation, the
allocated request structures are those of the buffers in flight, one for each, and every event
returns and does what it has to. -/
theorem blk_submissions_all_or_nothing (host : VirtioBlkHost) (dev : NegotiatedBlk)
    (info : Nat → VirtqueueDescInfo) (sgsegs : List SglistSeg) (s : BlkState n)
    (hdev : virtioBlkdevFeatureNegotiate host = .ok (.ok dev))
    (hsegs : sgsegs.length = dev.maxSegments)
    (hs : Reachable blkStep (blkOk dev) (blkInit dev info sgsegs) s) :
    BlkRep dev s ∧ ∀ e, blkOk dev s e → ∃ r s', blkStep s e = .ok (r, s') ∧ e.Meets dev s r s' := by
  have hrep : BlkRep dev s := by
    refine hs.invariant_of_returns (blkInit_rep info hsegs) fun s e hrep hok => ?_
    obtain ⟨r, s', hstep, -, hrep'⟩ := hrep.step hdev hok
    exact ⟨r, s', hstep, hrep'⟩
  refine ⟨hrep, fun e hok => ?_⟩
  obtain ⟨r, s', hstep, hmeets, -⟩ := hrep.step hdev hok
  exact ⟨r, s', hstep, hmeets⟩

/-- A queue of four descriptors on a device with the default limits. -/
def freshBlk : BlkState ⟨2, two_le_maxOrder⟩ :=
  blkInit (negotiated 512 pageSize 1 pageSize_lt_u32) (fun _ => ⟨0, 0⟩) (List.replicate 3 ⟨0, 0⟩)

/-- A write of two sectors. -/
theorem blk_submissions_all_or_nothing_write :
    ∃ s : BlkState ⟨2, two_le_maxOrder⟩,
      Reachable blkStep (blkOk (negotiated 512 pageSize 1 pageSize_lt_u32)) freshBlk s ∧
      (s.heap 0x40000).isSome ∧ BlkRep (negotiated 512 pageSize 1 pageSize_lt_u32) s := by
  have hok : blkOk (negotiated 512 pageSize 1 pageSize_lt_u32) freshBlk
      (.submit ⟨.write, 0, 2, 0x20000⟩ 0x40000 0) :=
    ⟨fun _ => rfl, .inr (.inr ⟨by decide, rfl, ⟨by decide, by decide, by decide⟩,
      ⟨by decide, by decide, .inr (by decide)⟩, by decide, by decide⟩)⟩
  have heval : (blkSubmit freshBlk ⟨.write, 0, 2, 0x20000⟩ 0x40000 0).toOption.map
      (fun r => (r.1, (r.2.heap 0x40000).isSome)) = some (.ok (1, ⟨1, 0⟩), true) := by
    decide +kernel
  obtain ⟨s, hcall, hsome⟩ := exists_of_eval _ (fun s : BlkState _ => (s.heap 0x40000).isSome) heval
  have hs := Reachable.refl.tail hok (show blkStep _ _ = .ok (.submitted (.ok (1, ⟨1, 0⟩)), s) by
    rw [blkStep, hcall]; rfl)
  exact ⟨s, hs, hsome, (blk_submissions_all_or_nothing _ _ _ _ s negotiate_512 rfl hs).1⟩

/-- A request for no operation is refused, and its structure stays allocated; a read of two sectors
from the last sector number on is accepted. -/
theorem blk_submission_leaks :
    (∃ s, blkStep freshBlk (.submit ⟨.other 7, 0, 0, 0⟩ 0x40000 0) =
        .ok (.submitted (.error .einval), s) ∧
      freshBlk.heap 0x40000 = none ∧ (s.heap 0x40000).isSome) ∧
    ∃ s, blkStep freshBlk (.submit ⟨.read, 2 ^ 64 - 1, 2, 0x20000⟩ 0x40000 0) =
        .ok (.submitted (.ok (1, ⟨0, 2 ^ 64 - 1⟩)), s) ∧
      ¬ 2 ^ 64 - 1 + 2 ≤ freshBlk.queue.vbd.cap.sectors := by
  have hrefused : (blkSubmit freshBlk ⟨.other 7, 0, 0, 0⟩ 0x40000 0).toOption.map
      (fun r => (r.1, (r.2.heap 0x40000).isSome)) = some (.error .einval, true) := by decide +kernel
  have hwrapped : (blkSubmit freshBlk ⟨.read, 2 ^ 64 - 1, 2, 0x20000⟩ 0x40000 0).toOption.map
      (fun r => r.1.toOption) = some (some (1, ⟨0, 2 ^ 64 - 1⟩)) := by decide +kernel
  obtain ⟨s, hcall, hsome⟩ := exists_of_eval _
    (fun s : BlkState _ => (s.heap 0x40000).isSome) hrefused
  obtain ⟨s', hcall'⟩ := exists_of_toOption hwrapped
  refine ⟨⟨s, ?_, rfl, hsome⟩, s', ?_, by decide⟩
  · rw [blkStep, hcall]
    rfl
  rw [blkStep, hcall']
  rfl

end Unikraft.Virtio
