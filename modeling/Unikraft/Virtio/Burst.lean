import Unikraft.Virtio.Accounting

/-!
# Bursts on a virtqueue (`plat/drivers/virtio/virtio_ring.c`)

Several buffers in one list, with the index of the available ring published once at the end. Up to
that index a burst and the single calls go through the same states (`burstLoop_eq_singles`). They
differ in one check: a buffer that is larger than the ring is refused with `-EINVAL`, and in a burst
it is one that does not fit now.
-/

namespace Unikraft.Virtio

open Outcome

variable {n : RingSize}

/-! ### The source -/

/-- A buffer of a burst: its cookie, and `read_bufs[i]` and `write_bufs[i]`. -/
structure BurstBuf where
  cookie : Nat
  readBufs : Nat
  writeBufs : Nat
  deriving DecidableEq

/-- The loop of `virtqueue_buffer_enqueue_burst` from buffer `i` on: the last return value,
`i` and the queue. -/
def burstLoop (sg : List SglistSeg) :
    List BurstBuf → Nat → Nat → Nat → Except Errno Nat → VirtqueueVring n →
      Outcome (Except Errno Nat × Nat × VirtqueueVring n)
  | [], i, _, _, rc, vrq => .ok (rc, i, vrq)
  | b :: bufs, i, readDesc, writeDesc, _, vrq => do
      match ← bufferEnqueue vrq b.cookie sg (readDesc + writeDesc) (subU16 b.readBufs readDesc)
        (subU16 b.writeBufs writeDesc) with
      | (.error e, vrq) => return (.error e, i, vrq)
      | (.ok rc, vrq) => burstLoop sg bufs (i + 1) b.readBufs b.writeBufs (.ok rc) vrq

/-- `virtqueue_buffer_enqueue_burst`: the return value, `*cnt` and the queue. With `*cnt` 0
the return value is not initialised. -/
def virtqueueBufferEnqueueBurst (vrq : VirtqueueVring n) (bufs : List BurstBuf)
    (sg : List SglistSeg) : Outcome (Except Errno Nat × Nat × VirtqueueVring n) := do
  match ← burstLoop sg bufs 0 0 0 (.error .einval) vrq with
  | (.error e, 0, vrq) => return (.error e, bufs.length, vrq)
  | (rc, i, vrq) => return (rc, i, virtqueueRingUpdateAvailIdx vrq)

/-! ### Single calls -/

/-- A buffer with a list of its own. -/
structure SingleBuf where
  cookie : Nat
  sg : List SglistSeg
  readBufs : Nat
  writeBufs : Nat

/-- The buffers of a burst, each with its slice of the list. -/
def slices (sg : List SglistSeg) : Nat → Nat → List BurstBuf → List SingleBuf
  | _, _, [] => []
  | readDesc, writeDesc, b :: bufs =>
    { cookie := b.cookie
      sg := (sg.drop (readDesc + writeDesc)).take
        (b.readBufs - readDesc + (b.writeBufs - writeDesc))
      readBufs := b.readBufs - readDesc
      writeBufs := b.writeBufs - writeDesc } :: slices sg b.readBufs b.writeBufs bufs

/-- Calls of `virtqueue_buffer_enqueue` up to the first `-ENOSPC`, and how many buffers they
have enqueued. -/
def enqueueSingles (vrq : VirtqueueVring n) : List SingleBuf → Outcome (Nat × VirtqueueVring n)
  | [] => .ok (0, vrq)
  | b :: bufs => do
      match ← virtqueueBufferEnqueue vrq b.cookie b.sg b.readBufs b.writeBufs with
      | (.error .enospc, vrq) => return (0, vrq)
      | (.error _, vrq) => enqueueSingles vrq bufs
      | (.ok _, vrq) => do
          let (k, vrq) ← enqueueSingles vrq bufs
          return (k + 1, vrq)

/-- At most `cnt` calls of `virtqueue_buffer_dequeue`, up to the first `-ENOMSG`. -/
def dequeueSingles : Nat → VirtqueueVring n → Outcome (List (Nat × Nat) × VirtqueueVring n)
  | 0, vrq => .ok ([], vrq)
  | cnt + 1, vrq => do
      match ← virtqueueBufferDequeue vrq with
      | (.error _, vrq) => return ([], vrq)
      | (.ok (buf, _), vrq) => do
          let (bufs, vrq) ← dequeueSingles cnt vrq
          return (buf :: bufs, vrq)

/-- The arrays of a burst: cumulative counts in 16 bits, at least one descriptor more for
each buffer. -/
def Cumulative : Nat → Nat → List BurstBuf → Prop
  | _, _, [] => True
  | readDesc, writeDesc, b :: bufs =>
    b.cookie ≠ 0 ∧ readDesc ≤ b.readBufs ∧ writeDesc ≤ b.writeBufs ∧ b.readBufs < 2 ^ 16 ∧
      b.writeBufs < 2 ^ 16 ∧ readDesc + writeDesc < b.readBufs + b.writeBufs ∧
      Cumulative b.readBufs b.writeBufs bufs

/-- The numbers of descriptors of the buffers. -/
def needs (bufs : List SingleBuf) : List Nat := bufs.map fun b => b.readBufs + b.writeBufs

/-- `virtqueue_buffer_enqueue` refuses so many descriptors with `-EINVAL`. -/
def Refused (n : RingSize) (need : Nat) : Prop := need % 2 ^ 16 < 1 ∨ n.num < need % 2 ^ 16
  deriving Decidable

/-- With `avail` free descriptors the single calls enqueue nothing: they refuse every buffer, up to
one that does not fit now. -/
def Stalls (n : RingSize) (avail : Nat) : List Nat → Prop
  | [] => True
  | need :: rest => if Refused n need then Stalls n avail rest else avail < need

/-- The first buffer that single calls refuse does not fit in the burst, and they enqueue nothing
behind it. -/
def Agrees (n : RingSize) : Nat → List Nat → Prop
  | _, [] => True
  | avail, need :: rest =>
    if Refused n need then avail < need ∧ Stalls n avail rest
    else avail < need ∨ Agrees n (avail - need) rest

/-- **What a burst of enqueues has to do**: the same as the single calls. -/
def BurstEqSingles (vrq : VirtqueueVring n) (bufs : List BurstBuf) (sg : List SglistSeg) : Prop :=
  match enqueueSingles vrq (slices sg 0 0 bufs) with
  | .error fault => virtqueueBufferEnqueueBurst vrq bufs sg = .error fault
  | .ok (0, vrq') =>
    virtqueueBufferEnqueueBurst vrq bufs sg = .ok (.error .enospc, bufs.length, vrq) ∧ vrq' = vrq
  | .ok (k + 1, vrq') => ∃ rc, virtqueueBufferEnqueueBurst vrq bufs sg = .ok (rc, k + 1, vrq')

/-! ### The core of an enqueue -/

variable {vrq vrq' : VirtqueueVring n} {sg : List SglistSeg} {cookie off r w : Nat}

def VirtqueueVring.withAvail (vrq : VirtqueueVring n) (idx : Nat) : VirtqueueVring n :=
  { vrq with availIdx := idx }

theorem segmentsLoop_slice {t rem idx : Nat} {desc : Nat → VringDesc} (hrem : rem ≤ t) :
    segmentsLoop n ((sg.drop off).take t) 0 r t rem desc idx =
      segmentsLoop n sg off r t rem desc idx := by
  induction rem generalizing desc idx with
  | zero => rfl
  | succ rem ih =>
    have hseg : ((sg.drop off).take t)[0 + (t - (rem + 1))]? = sg[off + (t - (rem + 1))]? := by
      rw [Nat.zero_add, List.getElem?_take_of_lt (by omega), List.getElem?_drop]
    rw [segmentsLoop, segmentsLoop, hseg]
    simp only [ih (Nat.le_of_succ_le hrem)]

theorem bufferEnqueue_slice :
    bufferEnqueue vrq cookie ((sg.drop off).take (r + w)) 0 r w =
      bufferEnqueue vrq cookie sg off r w := by
  simp only [bufferEnqueue, virtqueueBufferEnqueueSegments, segmentsLoop_slice (Nat.le_refl _)]

theorem bufferEnqueue_withAvail (idx : Nat) :
    bufferEnqueue (vrq.withAvail idx) cookie sg off r w =
      (bufferEnqueue vrq cookie sg off r w).map fun res => (res.1, res.2.withAvail idx) := by
  unfold bufferEnqueue
  by_cases hfull : vrq.descAvail < r + w
  · rw [if_pos hfull, if_pos (show (vrq.withAvail idx).descAvail < r + w from hfull)]
    rfl
  rw [if_neg hfull, if_neg (show ¬ (vrq.withAvail idx).descAvail < r + w from hfull)]
  cases hcookie : ukAssert (cookie ≠ 0) with
  | error fault => rfl
  | ok u =>
    simp only [ok_bind]
    by_cases hhead : vrq.headFreeDesc < n.num
    · rw [if_pos hhead, if_pos (show (vrq.withAvail idx).headFreeDesc < n.num from hhead)]
      cases hseg : virtqueueBufferEnqueueSegments vrq vrq.headFreeDesc sg off r w with
      | error fault =>
        rw [show virtqueueBufferEnqueueSegments (vrq.withAvail idx)
          (vrq.withAvail idx).headFreeDesc sg off r w = .error fault from hseg]
        rfl
      | ok res =>
        rw [show virtqueueBufferEnqueueSegments (vrq.withAvail idx)
          (vrq.withAvail idx).headFreeDesc sg off r w = .ok res from hseg]
        rfl
    rw [if_neg hhead, if_neg (show ¬ (vrq.withAvail idx).headFreeDesc < n.num from hhead)]
    rfl

theorem bufferEnqueue_error {e : Errno}
    (h : bufferEnqueue vrq cookie sg off r w = .ok (.error e, vrq')) :
    e = .enospc ∧ vrq' = vrq := by
  unfold bufferEnqueue at h
  split at h
  · cases h
    exact ⟨rfl, rfl⟩
  obtain ⟨-, -, h⟩ := bind_ok.mp h
  split at h
  · obtain ⟨res, -, h⟩ := bind_ok.mp h
    cases h
  · cases h

theorem bufferEnqueue_descAvail {rc : Nat} (havail : vrq.descAvail < 2 ^ 16)
    (h : bufferEnqueue vrq cookie sg off r w = .ok (.ok rc, vrq')) :
    vrq'.descAvail = vrq.descAvail - (r + w) := by
  unfold bufferEnqueue at h
  split at h
  · cases h
  rename_i hroom
  obtain ⟨-, -, h⟩ := bind_ok.mp h
  split at h
  · obtain ⟨res, -, h⟩ := bind_ok.mp h
    cases h
    show subU16 vrq.descAvail (r + w) = _
    unfold subU16
    omega
  · cases h

theorem virtqueueBufferEnqueue_slice (idx : Nat) (hcookie : cookie ≠ 0)
    (hfits : ¬ Refused n (r + w)) :
    virtqueueBufferEnqueue (vrq.withAvail idx) cookie ((sg.drop off).take (r + w)) r w =
      (bufferEnqueue vrq cookie sg off r w).map fun res =>
        match res with
        | (.ok rc, vrq') => (.ok rc, virtqueueRingUpdateAvailIdx vrq')
        | (.error e, vrq') => (.error e, vrq'.withAvail idx) := by
  have hsize : ¬ (addU16 r w < 1 ∨ addU16 r w > n.num) := hfits
  unfold virtqueueBufferEnqueue
  rw [ukAssert_pos hcookie, ok_bind, if_neg hsize, bufferEnqueue_slice, bufferEnqueue_withAvail]
  rcases bufferEnqueue vrq cookie sg off r w with fault | ⟨e | rc, vrq'⟩
  · rfl
  · rfl
  · rfl

theorem virtqueueBufferEnqueue_refused (hcookie : cookie ≠ 0) (h : Refused n (r + w)) :
    virtqueueBufferEnqueue vrq cookie sg r w = .ok (.error .einval, vrq) := by
  have hsize : addU16 r w < 1 ∨ addU16 r w > n.num := h
  unfold virtqueueBufferEnqueue
  rw [ukAssert_pos hcookie, ok_bind, if_pos hsize]
  rfl

/-! ### Bursts of enqueues -/

theorem enqueueSingles_stalls {bufs : List BurstBuf} {rd wd : Nat} (hcum : Cumulative rd wd bufs)
    (h : Stalls n vrq.descAvail (needs (slices sg rd wd bufs))) :
    enqueueSingles vrq (slices sg rd wd bufs) = .ok (0, vrq) := by
  induction bufs generalizing rd wd with
  | nil => rfl
  | cons b bufs ih =>
    obtain ⟨hcookie, -, -, -, -, -, hrest⟩ := hcum
    simp only [slices, needs, List.map_cons, Stalls] at h
    simp only [slices, enqueueSingles]
    split_ifs at h with hrefused
    · rw [virtqueueBufferEnqueue_refused hcookie hrefused]
      exact ih hrest h
    · rw [show vrq = vrq.withAvail vrq.availIdx from rfl,
        virtqueueBufferEnqueue_slice _ hcookie hrefused, bufferEnqueue, if_pos h]
      rfl

/-- **A burst follows the single calls**: the queues are the same but for the published index. -/
theorem burstLoop_eq_singles {bufs : List BurstBuf} {rd wd : Nat} (hcum : Cumulative rd wd bufs)
    (idx i : Nat) (rc : Except Errno Nat) (vrq : VirtqueueVring n)
    (havail : vrq.descAvail < 2 ^ 16)
    (hagrees : Agrees n vrq.descAvail (needs (slices sg rd wd bufs))) :
    match enqueueSingles (vrq.withAvail idx) (slices sg rd wd bufs) with
    | .error fault => burstLoop sg bufs i rd wd rc vrq = .error fault
    | .ok (0, vs) => vs = vrq.withAvail idx ∧ burstLoop sg bufs i rd wd rc vrq =
        .ok (if bufs = [] then rc else .error .enospc, i, vrq)
    | .ok (k + 1, vs) => ∃ rc' vb, burstLoop sg bufs i rd wd rc vrq = .ok (rc', i + (k + 1), vb) ∧
        vs = virtqueueRingUpdateAvailIdx vb := by
  induction bufs generalizing rd wd idx i rc vrq with
  | nil => exact ⟨rfl, rfl⟩
  | cons b bufs ih =>
    have hcum' := hcum
    obtain ⟨hcookie, hrd, hwd, hr, hw, hnew, hrest⟩ := hcum
    have hsubr : subU16 b.readBufs rd = b.readBufs - rd := by unfold subU16; omega
    have hsubw : subU16 b.writeBufs wd = b.writeBufs - wd := by unfold subU16; omega
    simp only [slices, needs, List.map_cons, Agrees] at hagrees
    simp only [slices, enqueueSingles, burstLoop, hsubr, hsubw]
    split_ifs at hagrees with hrefused
    · -- the burst stops at a buffer that the single calls pass over
      obtain ⟨hfull, hstalls⟩ := hagrees
      rw [virtqueueBufferEnqueue_refused hcookie hrefused, bufferEnqueue, if_pos hfull]
      simp only [ok_bind]
      rw [enqueueSingles_stalls hrest
        (show Stalls n (vrq.withAvail idx).descAvail _ from hstalls)]
      exact ⟨rfl, rfl⟩
    rw [virtqueueBufferEnqueue_slice idx hcookie hrefused]
    cases hcore :
        bufferEnqueue vrq b.cookie sg (rd + wd) (b.readBufs - rd) (b.writeBufs - wd) with
    | error fault => rfl
    | ok res =>
      obtain ⟨e | rc₁, vrq₁⟩ := res
      · obtain ⟨rfl, rfl⟩ := bufferEnqueue_error hcore
        exact ⟨rfl, rfl⟩
      have hleft := bufferEnqueue_descAvail havail hcore
      have hmore : Agrees n vrq₁.descAvail (needs (slices sg b.readBufs b.writeBufs bufs)) := by
        refine hleft ▸ hagrees.resolve_left fun hfull => ?_
        rw [bufferEnqueue, if_pos hfull] at hcore
        cases hcore
      have hloop := ih hrest vrq₁.vqAvailIdx (i + 1) (.ok rc₁) vrq₁ (by omega) hmore
      simp only [Except.map, ok_bind]
      rw [show vrq₁.withAvail vrq₁.vqAvailIdx = virtqueueRingUpdateAvailIdx vrq₁ from rfl]
        at hloop
      rcases hsingle : enqueueSingles (virtqueueRingUpdateAvailIdx vrq₁)
          (slices sg b.readBufs b.writeBufs bufs) with fault | ⟨_ | k, vs⟩
      · rw [hsingle] at hloop
        exact hloop
      · rw [hsingle] at hloop
        exact ⟨_, _, hloop.2, hloop.1⟩
      rw [hsingle] at hloop
      obtain ⟨rc', vb, hburst, hvs⟩ := hloop
      refine ⟨rc', vb, ?_, hvs⟩
      rw [hburst]
      congr 3
      omega

theorem burst_eq_singles {bufs : List BurstBuf} (hne : bufs ≠ []) (hcum : Cumulative 0 0 bufs)
    (vrq : VirtqueueVring n) (havail : vrq.descAvail < 2 ^ 16)
    (hagrees : Agrees n vrq.descAvail (needs (slices sg 0 0 bufs))) :
    BurstEqSingles vrq bufs sg := by
  have hloop := burstLoop_eq_singles hcum vrq.availIdx 0 (.error .einval) vrq havail hagrees
  rw [show vrq.withAvail vrq.availIdx = vrq from rfl] at hloop
  unfold BurstEqSingles virtqueueBufferEnqueueBurst
  rcases hsingle : enqueueSingles vrq (slices sg 0 0 bufs) with fault | ⟨_ | k, vs⟩
  · rw [hsingle] at hloop
    simp only at hloop ⊢
    rw [hloop]
    rfl
  · rw [hsingle] at hloop
    simp only [if_neg hne] at hloop ⊢
    rw [hloop.2]
    exact ⟨rfl, hloop.1⟩
  rw [hsingle] at hloop
  simp only [Nat.zero_add] at hloop ⊢
  obtain ⟨rc', vb, hburst, rfl⟩ := hloop
  refine ⟨rc', ?_⟩
  rw [hburst]
  cases rc' <;> rfl

/-! ### Where they differ -/

/-- How many buffers a burst enqueues. -/
def burstEnqueued : Nat → List Nat → Nat
  | _, [] => 0
  | avail, need :: rest => if avail < need then 0 else burstEnqueued (avail - need) rest + 1

/-- How many buffers single calls enqueue. -/
def singlesEnqueued (n : RingSize) : Nat → List Nat → Nat
  | _, [] => 0
  | avail, need :: rest =>
    if Refused n need then singlesEnqueued n avail rest
    else if avail < need then 0 else singlesEnqueued n (avail - need) rest + 1

theorem singlesEnqueued_le (avail : Nat) (ds : List Nat) :
    singlesEnqueued n avail ds ≤ ds.length := by
  induction ds generalizing avail with
  | nil => exact Nat.le_refl 0
  | cons d ds ih =>
    simp only [singlesEnqueued, List.length_cons]
    split_ifs
    · exact (ih avail).trans (Nat.le_succ _)
    · exact Nat.zero_le _
    · exact Nat.succ_le_succ (ih _)

theorem stalls_of_singlesEnqueued {avail : Nat} {ds : List Nat}
    (h : singlesEnqueued n avail ds = 0) : Stalls n avail ds := by
  induction ds with
  | nil => trivial
  | cons d ds ih =>
    simp only [singlesEnqueued, Stalls] at h ⊢
    split_ifs at h ⊢ with hrefused hfull
    · exact ih h
    · exact hfull

theorem Refused.lt {need : Nat} (h : Refused n need) (hpos : 0 < need) : n.num < need := by
  have := n.num_le
  unfold virtqueueMaxSize at this
  unfold Refused at h
  omega

theorem burstEnqueued_le {avail : Nat} {ds : List Nat} (havail : avail ≤ n.num)
    (hpos : ∀ d ∈ ds, 0 < d) : burstEnqueued avail ds ≤ singlesEnqueued n avail ds := by
  induction ds generalizing avail with
  | nil => exact Nat.le_refl 0
  | cons d ds ih =>
    obtain ⟨hd, hds⟩ := List.forall_mem_cons.mp hpos
    rw [burstEnqueued, singlesEnqueued]
    by_cases hfull : avail < d
    · rw [if_pos hfull]
      exact Nat.zero_le _
    have hnot : ¬ Refused n d := fun h => hfull (havail.trans_lt (h.lt hd))
    rw [if_neg hfull, if_neg hnot, if_neg hfull]
    exact Nat.succ_le_succ (ih ((Nat.sub_le _ _).trans havail) hds)

theorem singlesEnqueued_lt (avail : Nat) {ds : List Nat} (hne : ds ≠ [])
    (h : burstEnqueued avail ds = 0) : singlesEnqueued n avail ds < ds.length := by
  cases ds with
  | nil => exact absurd rfl hne
  | cons d ds =>
    rw [burstEnqueued] at h
    split_ifs at h with hfull
    rw [singlesEnqueued, if_pos hfull]
    split_ifs
    · exact Nat.lt_succ_of_le (singlesEnqueued_le avail ds)
    · exact Nat.succ_pos _

theorem agrees_of_enqueued {avail : Nat} {ds : List Nat} (havail : avail ≤ n.num)
    (hpos : ∀ d ∈ ds, 0 < d) (h : burstEnqueued avail ds = singlesEnqueued n avail ds) :
    Agrees n avail ds := by
  induction ds generalizing avail with
  | nil => trivial
  | cons d ds ih =>
    obtain ⟨hd, hds⟩ := List.forall_mem_cons.mp hpos
    rw [burstEnqueued, singlesEnqueued] at h
    rw [Agrees]
    by_cases hrefused : Refused n d
    · have hfull := havail.trans_lt (hrefused.lt hd)
      rw [if_pos hfull, if_pos hrefused] at h
      rw [if_pos hrefused]
      exact ⟨hfull, stalls_of_singlesEnqueued h.symm⟩
    rw [if_neg hrefused] at h ⊢
    by_cases hfull : avail < d
    · exact .inl hfull
    rw [if_neg hfull, if_neg hfull] at h
    exact .inr (ih ((Nat.sub_le _ _).trans havail) hds (Nat.succ_inj.mp h))

/-- The list has a segment for every descriptor. -/
def Covers (sg : List SglistSeg) (bufs : List BurstBuf) : Prop :=
  ∀ b ∈ bufs, b.readBufs + b.writeBufs ≤ sg.length

theorem burstLoop_count {bufs : List BurstBuf} {rd wd : Nat} {inflight : List Buf}
    (hcum : Cumulative rd wd bufs) (hsg : Covers sg bufs) (i : Nat) (rc : Except Errno Nat)
    (vrq : VirtqueueVring n) (hacc : DescAccounting vrq inflight) :
    ∃ rc' vb, burstLoop sg bufs i rd wd rc vrq =
      .ok (rc', i + burstEnqueued vrq.descAvail (needs (slices sg rd wd bufs)), vb) := by
  induction bufs generalizing rd wd i rc vrq inflight with
  | nil => exact ⟨rc, vrq, rfl⟩
  | cons b bufs ih =>
    obtain ⟨hcookie, hrd, hwd, hr, hw, hnew, hrest⟩ := hcum
    have hsubr : subU16 b.readBufs rd = b.readBufs - rd := by unfold subU16; omega
    have hsubw : subU16 b.writeBufs wd = b.writeBufs - wd := by unfold subU16; omega
    simp only [slices, needs, List.map_cons, burstEnqueued, burstLoop, hsubr, hsubw]
    by_cases hfull : vrq.descAvail < b.readBufs - rd + (b.writeBufs - wd)
    · rw [bufferEnqueue, if_pos hfull, if_pos hfull]
      exact ⟨_, _, rfl⟩
    have hlen := hsg b List.mem_cons_self
    obtain ⟨desc', -, -, hcore, hacc'⟩ := hacc.bufferEnqueue hcookie
      (show rd + wd + (b.readBufs - rd + (b.writeBufs - wd)) ≤ sg.length by omega) (by omega)
      (Nat.not_lt.mp hfull)
    obtain ⟨rc', vb, hloop⟩ := ih hrest (fun c hc => hsg c (List.mem_cons_of_mem _ hc)) (i + 1)
      (.ok (vrq.descAvail - (b.readBufs - rd + (b.writeBufs - wd)))) _ hacc'
    refine ⟨rc', vb, ?_⟩
    rw [hcore, ok_bind, if_neg hfull]
    simp only [hloop]
    congr 3
    show _ + 1 + burstEnqueued (vrq.descAvail - _) _ = _
    rw [Nat.add_assoc, Nat.add_comm 1]
    rfl

theorem enqueueSingles_count {bufs : List BurstBuf} {rd wd : Nat} {inflight : List Buf}
    (hcum : Cumulative rd wd bufs) (hsg : Covers sg bufs) (vrq : VirtqueueVring n)
    (hacc : DescAccounting vrq inflight) :
    ∃ vs, enqueueSingles vrq (slices sg rd wd bufs) =
      .ok (singlesEnqueued n vrq.descAvail (needs (slices sg rd wd bufs)), vs) := by
  induction bufs generalizing rd wd vrq inflight with
  | nil => exact ⟨vrq, rfl⟩
  | cons b bufs ih =>
    obtain ⟨hcookie, hrd, hwd, hr, hw, hnew, hrest⟩ := hcum
    have hsg' : Covers sg bufs := fun c hc => hsg c (List.mem_cons_of_mem _ hc)
    simp only [slices, needs, List.map_cons, singlesEnqueued, enqueueSingles]
    by_cases hrefused : Refused n (b.readBufs - rd + (b.writeBufs - wd))
    · rw [virtqueueBufferEnqueue_refused hcookie hrefused, if_pos hrefused]
      exact ih hrest hsg' vrq hacc
    rw [show vrq = vrq.withAvail vrq.availIdx from rfl,
      virtqueueBufferEnqueue_slice _ hcookie hrefused, if_neg hrefused]
    by_cases hfull : vrq.descAvail < b.readBufs - rd + (b.writeBufs - wd)
    · rw [bufferEnqueue, if_pos hfull, if_pos (show (vrq.withAvail _).descAvail < _ from hfull)]
      exact ⟨_, rfl⟩
    have hlen := hsg b List.mem_cons_self
    obtain ⟨desc', -, -, hcore, hacc'⟩ := hacc.bufferEnqueue hcookie
      (show rd + wd + (b.readBufs - rd + (b.writeBufs - wd)) ≤ sg.length by omega) (by omega)
      (Nat.not_lt.mp hfull)
    obtain ⟨vs, hsingles⟩ := ih hrest hsg' (virtqueueRingUpdateAvailIdx
      (vrq.withBuffer desc' b.cookie (b.readBufs - rd + (b.writeBufs - wd))))
      ⟨hacc'.partition, hacc'.freeEnd, hacc'.linked, hacc'.cookie⟩
    refine ⟨vs, ?_⟩
    rw [hcore, if_neg (show ¬ (vrq.withAvail _).descAvail < _ from hfull)]
    simp only [Except.map, ok_bind, hsingles]
    rfl

theorem needs_pos {bufs : List BurstBuf} {rd wd : Nat} (hcum : Cumulative rd wd bufs) :
    ∀ d ∈ needs (slices sg rd wd bufs), 0 < d := by
  induction bufs generalizing rd wd with
  | nil => exact nofun
  | cons b bufs ih =>
    obtain ⟨-, hrd, hwd, -, -, hnew, hrest⟩ := hcum
    exact List.forall_mem_cons.mpr ⟨by simp only; omega, ih hrest⟩

theorem length_needs (bufs : List BurstBuf) (rd wd : Nat) :
    (needs (slices sg rd wd bufs)).length = bufs.length := by
  induction bufs generalizing rd wd with
  | nil => rfl
  | cons b bufs ih => exact congrArg (· + 1) (ih _ _)

/-- Where the burst and the single calls agree, they enqueue the same number of buffers. -/
theorem agrees_of_burst {bufs : List BurstBuf} {inflight : List Buf} (hne : bufs ≠ [])
    (hcum : Cumulative 0 0 bufs) (hsg : Covers sg bufs) (hacc : DescAccounting vrq inflight)
    (h : BurstEqSingles vrq bufs sg) :
    Agrees n vrq.descAvail (needs (slices sg 0 0 bufs)) := by
  have havail : vrq.descAvail ≤ n.num := hacc.total ▸ Nat.le_add_right _ _
  refine agrees_of_enqueued havail (needs_pos hcum) ?_
  obtain ⟨vs, hsingles⟩ := enqueueSingles_count hcum hsg vrq hacc
  obtain ⟨rc, vb, hloop⟩ := burstLoop_count hcum hsg 0 (.error .einval) vrq hacc
  rw [Nat.zero_add] at hloop
  have hpos : ∀ d ∈ needs (slices sg 0 0 bufs), 0 < d := needs_pos hcum
  have hle := burstEnqueued_le havail hpos
  have hsome : needs (slices sg 0 0 bufs) ≠ [] := by
    rwa [← List.length_pos_iff, length_needs, List.length_pos_iff]
  have hlt := singlesEnqueued_lt (n := n) vrq.descAvail hsome
  rw [length_needs] at hlt
  unfold BurstEqSingles virtqueueBufferEnqueueBurst at h
  rw [hsingles, hloop] at h
  generalize burstEnqueued vrq.descAvail (needs (slices sg 0 0 bufs)) = kb at *
  generalize singlesEnqueued n vrq.descAvail (needs (slices sg 0 0 bufs)) = ks at *
  cases ks with
  | zero => exact Nat.le_zero.mp hle
  | succ ks =>
    obtain ⟨rc', hcall⟩ := h
    have hcnt := congrArg (fun r : Outcome _ => r.toOption.map fun r => r.2.1) hcall
    rcases rc with e | rc <;> rcases kb with _ | kb
    · have hlen : bufs.length = ks + 1 := Option.some.inj hcnt
      exact absurd (hlt rfl) (hlen ▸ Nat.lt_irrefl _)
    · exact Option.some.inj hcnt
    · exact Option.some.inj hcnt
    · exact Option.some.inj hcnt

/-! ### Bursts of dequeues -/

theorem bufferDequeue_idx {buf : Nat × Nat} (h : bufferDequeue vrq = .ok (buf, vrq')) :
    vrq'.usedIdx = vrq.usedIdx ∧ vrq'.lastUsedDescIdx = addU16 vrq.lastUsedDescIdx 1 := by
  unfold bufferDequeue at h
  simp only at h
  split at h
  · obtain ⟨vrq₁, hdetach, h⟩ := bind_ok.mp h
    unfold virtqueueDetachDesc at hdetach
    obtain ⟨res, -, hdetach⟩ := bind_ok.mp hdetach
    obtain ⟨-, -, hdetach⟩ := bind_ok.mp hdetach
    cases hdetach
    cases h
    exact ⟨rfl, rfl⟩
  · cases h

/-- The number of used buffers, in 16-bit arithmetic. -/
def usedCount (vrq : VirtqueueVring n) : Nat := subU16 vrq.usedIdx vrq.lastUsedDescIdx

/-- Single dequeues stop where the count of the burst is 0. -/
theorem dequeueSingles_eq_loop (cnt : Nat) (vrq : VirtqueueVring n) (hused : vrq.usedIdx < 2 ^ 16)
    (hlast : vrq.lastUsedDescIdx < 2 ^ 16) :
    dequeueSingles cnt vrq = dequeueLoop (min (usedCount vrq) cnt) vrq := by
  induction cnt generalizing vrq with
  | zero => rw [Nat.min_zero]; rfl
  | succ cnt ih =>
    rw [dequeueSingles, virtqueueBufferDequeue]
    by_cases hdata : virtqueueHasdata vrq
    · -- There is a used buffer, so the burst has a turn to make.
      have hcount : min (usedCount vrq) (cnt + 1) = min (usedCount vrq - 1) cnt + 1 := by
        unfold virtqueueHasdata at hdata
        unfold usedCount subU16
        omega
      rw [if_pos hdata, hcount, dequeueLoop]
      cases hcore : bufferDequeue vrq with
      | error fault => rfl
      | ok res =>
        obtain ⟨buf, vrq₁⟩ := res
        obtain ⟨hused₁, hlast₁⟩ := bufferDequeue_idx hcore
        have hcount₁ : usedCount vrq₁ = usedCount vrq - 1 := by
          unfold virtqueueHasdata at hdata
          unfold usedCount
          rw [hused₁, hlast₁]
          unfold subU16 addU16
          omega
        have hrest := ih vrq₁ (hused₁ ▸ hused) (hlast₁ ▸ Nat.mod_lt _ (by decide))
        rw [hcount₁] at hrest
        simp only [ok_bind, pure_bind, hrest]
    have hcount : usedCount vrq = 0 := by
      unfold virtqueueHasdata at hdata
      unfold usedCount subU16
      omega
    rw [if_neg hdata, hcount, Nat.zero_min]
    rfl

theorem dequeue_burst_eq_singles (cnt : Nat) (vrq : VirtqueueVring n)
    (hused : vrq.usedIdx < 2 ^ 16) (hlast : vrq.lastUsedDescIdx < 2 ^ 16) :
    (virtqueueBufferDequeueBurst vrq cnt).map (fun res => (res.1.1, res.2)) =
      dequeueSingles cnt vrq := by
  have hcount : burstCount vrq cnt = min (usedCount vrq) cnt := by
    have hlt : usedCount vrq < 2 ^ 16 := Nat.mod_lt _ (by decide)
    unfold burstCount
    rw [show subU16 vrq.usedIdx vrq.lastUsedDescIdx = usedCount vrq from rfl]
    omega
  rw [dequeueSingles_eq_loop cnt vrq hused hlast, virtqueueBufferDequeueBurst, hcount]
  rcases dequeueLoop (min (usedCount vrq) cnt) vrq with fault | ⟨bufs, vrq'⟩
  · rfl
  · rfl

/-- **Bursts equal single operations.** A burst leaves the queue that the single calls leave, and
returns `-ENOSPC` with the queue unchanged if the first one does not fit, exactly if no single call
refuses a buffer for its size and a later one then enqueues; a burst of dequeues returns what the
single calls return. -/
theorem virtqueue_bursts_eq_singles (vrq : VirtqueueVring n) (havail : vrq.descAvail < 2 ^ 16) :
    (∀ bufs sg, bufs ≠ [] → Cumulative 0 0 bufs →
      (Agrees n vrq.descAvail (needs (slices sg 0 0 bufs)) → BurstEqSingles vrq bufs sg) ∧
      ∀ inflight, DescAccounting vrq inflight → Covers sg bufs → BurstEqSingles vrq bufs sg →
        Agrees n vrq.descAvail (needs (slices sg 0 0 bufs))) ∧
    (vrq.usedIdx < 2 ^ 16 → vrq.lastUsedDescIdx < 2 ^ 16 → ∀ cnt : Nat,
      (virtqueueBufferDequeueBurst vrq cnt).map (fun res => (res.1.1, res.2)) =
        dequeueSingles cnt vrq) :=
  ⟨fun _ _ hne hcum => ⟨burst_eq_singles hne hcum vrq havail,
      fun _ hacc hsg => agrees_of_burst hne hcum hsg hacc⟩,
    fun hused hlast cnt => dequeue_burst_eq_singles cnt vrq hused hlast⟩

def sampleRing : VirtqueueVring ⟨2, two_le_maxOrder⟩ :=
  virtqueueVringInit ⟨2, two_le_maxOrder⟩ fun _ => ⟨0, 0⟩

def sampleSegs : List SglistSeg :=
  [⟨0, 16⟩, ⟨16, 16⟩, ⟨32, 16⟩, ⟨48, 16⟩, ⟨64, 16⟩, ⟨80, 16⟩]

/-- Two buffers of two descriptors each fill the ring, and the third one is left over. -/
theorem virtqueue_bursts_eq_singles_sample :
    (enqueueSingles sampleRing
        (slices sampleSegs 0 0 [⟨7, 1, 1⟩, ⟨8, 2, 2⟩, ⟨9, 3, 2⟩])).toOption.map Prod.fst = some 2 ∧
      BurstEqSingles sampleRing [⟨7, 1, 1⟩, ⟨8, 2, 2⟩, ⟨9, 3, 2⟩] sampleSegs := by
  refine ⟨by decide +kernel,
    ((virtqueue_bursts_eq_singles sampleRing (by decide)).1 _ _ (by decide) ?_).1 ?_⟩
  · dsimp only [Cumulative]
    and_intros <;> decide
  · simp only [slices, needs, List.map_cons, List.map_nil, Agrees]
    rw [if_neg (by decide), if_neg (by decide), if_neg (by decide)]
    exact .inr (.inr (.inl (by decide)))

/-- A buffer that is larger than the ring ends a burst, and single calls refuse it with
another error and go on to the next one. -/
theorem virtqueue_burst_oversized :
    Cumulative 0 0 [⟨7, 5, 0⟩, ⟨8, 6, 0⟩] ∧
      (enqueueSingles sampleRing (slices sampleSegs 0 0 [⟨7, 5, 0⟩, ⟨8, 6, 0⟩])).toOption.map
        Prod.fst = some 1 ∧
      ¬ BurstEqSingles sampleRing [⟨7, 5, 0⟩, ⟨8, 6, 0⟩] sampleSegs := by
  have hsingles : (enqueueSingles sampleRing
      (slices sampleSegs 0 0 [⟨7, 5, 0⟩, ⟨8, 6, 0⟩])).toOption.map Prod.fst = some 1 := by
    decide +kernel
  have hburst : (virtqueueBufferEnqueueBurst sampleRing [⟨7, 5, 0⟩, ⟨8, 6, 0⟩]
      sampleSegs).toOption.map (fun res => res.2.1) = some 2 := by decide +kernel
  refine ⟨?_, hsingles, fun heq => ?_⟩
  · dsimp only [Cumulative]
    and_intros <;> decide
  unfold BurstEqSingles at heq
  rcases h : enqueueSingles sampleRing (slices sampleSegs 0 0 [⟨7, 5, 0⟩, ⟨8, 6, 0⟩]) with
    fault | ⟨_ | k, vs⟩
  · rw [h] at hsingles
    cases hsingles
  · rw [h] at hsingles
    cases hsingles
  rw [h] at hsingles heq
  cases hsingles
  obtain ⟨rc, hcall⟩ := heq
  rw [hcall] at hburst
  cases hburst

end Unikraft.Virtio
