import Unikraft.Virtio.NetRing

/-!
# Transmission of the virtio network driver (`plat/drivers/virtio/virtio_net.c`)

`virtio_netdev_xmit` takes back the packets the device has sent, and enqueues as many packets as
there are free descriptors. It sets `*cnt` only when it sends none. What the caller may rely on
(`XmitAccounts`) holds when the ring has room for the whole burst, or for nothing at all.
-/

namespace Unikraft.Virtio

open Lib Function Outcome List

variable {n : RingSize}

/-! ### The source -/

/-- `struct uk_netbuf`: the fields the driver uses. -/
structure Netbuf where
  data : Nat
  len : Nat
  buf : Nat
  prev : Nat
  len_lt : len < 2 ^ 16

structure NetbufPtr where
  addr : Nat
  addr_ne : addr ≠ 0
  deriving DecidableEq

/-- `CONFIG_LIBUKNETDEV_MAX_PKT_BURST`. -/
structure PktBurst where
  max : Nat
  max_pos : 0 < max

/-- `sizeof(struct virtio_net_hdr)`. -/
def sizeofNetHdr : Nat := 10

/-- `sizeof(struct virtio_net_hdr_padded)`. -/
def sizeofNetHdrPadded : Nat := 14

/-- The room for headers in front of the data of a netbuf. -/
def netHeadroom : Nat := 128

def headerSz (anyLayout : Bool) : Nat := if anyLayout then sizeofNetHdr else sizeofNetHdrPadded

/-- `UK_NETDEV_STATUS_SUCCESS`. -/
def statusSuccess : Nat := 1

/-- `UK_NETDEV_STATUS_MORE`. -/
def statusMore : Nat := 2

/-- `UK_NETDEV_STATUS_UNDERRUN`. -/
def statusUnderrun : Nat := 4

/-- `uk_netbuf_headroom`, as a `ssize_t`. -/
def ukNetbufHeadroom (nb : Netbuf) : Int :=
  let room := subU64 nb.data nb.buf
  if room < 2 ^ 63 then room else room - 2 ^ 64

def ukNetbufHeader (nb : Netbuf) (len : Int) : Outcome (Except Errno Unit × Netbuf) := do
  ukAssert (nb.buf ≠ 0)
  ukAssert (nb.data ≠ 0)
  ukAssert (nb.prev = 0)
  if len > ukNetbufHeadroom nb ∨ -len > nb.len then return (.error .enospc, nb)
  else if h : len + nb.len < 2 ^ 16 then
    return (.ok (), { nb with
        data := ((nb.data - len) % 2 ^ 64).toNat
        len := (len + nb.len).toNat
        len_lt := Int.toNat_lt_of_ne_zero (by decide) |>.mpr h })
  else return (.error .efault, nb)

abbrev NetbufMem : Type := Nat → Netbuf

/-- What `virtio_netdev_xmit_free` does to a netbuf that has been sent. -/
def Netbuf.sent (nb : Netbuf) : Netbuf :=
  { nb with
    data := addU64 nb.buf netHeadroom
    len := subU16 nb.len sizeofNetHdr
    len_lt := Nat.mod_lt _ (by decide) }

/-- `_virtio_netdev_xmit_anylayout` and `_virtio_netdev_rxq_init_anylayout`, which do not
look where the data are. -/
def Netbuf.prepared (nb : Netbuf) : Netbuf :=
  { nb with
    data := addU64 nb.buf (netHeadroom - sizeofNetHdr)
    len := addU16 nb.len sizeofNetHdr
    len_lt := Nat.mod_lt _ (by decide) }

/-- The loop of `virtio_netdev_xmit_free` over the packets of a burst. -/
def sentLoop : List (Nat × Nat) → NetbufMem → Outcome NetbufMem
  | [], mem => .ok mem
  | (pkt, _) :: pkts, mem => do
      ukAssert (pkt ≠ 0)
      sentLoop pkts (update mem pkt (mem pkt).sent)

/-- The loop of `virtio_netdev_xmit_free` over the bursts: the return value of the last dequeue,
the queue and the memory. -/
def xmitFreeLoop (burst : PktBurst) :
    Nat → VirtqueueVring n → NetbufMem → Outcome (Int × VirtqueueVring n × NetbufMem)
  | 0, _, _ => .error .divergence
  | fuel + 1, vrq, mem => do
      let ((pkts, rc), vrq) ← virtqueueBufferDequeueBurst vrq burst.max
      if pkts.length = 0 then return (rc, vrq, mem)
      else do
        let mem ← sentLoop pkts mem
        if pkts.length < burst.max then return (rc, vrq, mem) else xmitFreeLoop burst fuel vrq mem

/-- `virtio_netdev_xmit_free`: the number of free descriptors. -/
def virtioNetdevXmitFree (burst : PktBurst) (vrq : VirtqueueVring n) (mem : NetbufMem) :
    Outcome (Int × VirtqueueVring n × NetbufMem) := do
  let (rc, vrq, mem) ← xmitFreeLoop burst (n.num + 1) vrq mem
  return (n.num - rc, vrq, mem)

/-- The loop of `virtio_netdev_xmit` that prepares packet `i` and those behind it, at most as many
as there are free descriptors. -/
def prepareLoop (burst : PktBurst) (descCnt : Int) :
    List NetbufPtr → Nat → NetbufMem → Outcome (Nat × NetbufMem)
  | [], i, mem => .ok (i, mem)
  | pkt :: pkts, i, mem =>
    if (i : Int) < descCnt then
      if i < burst.max then
        prepareLoop burst descCnt pkts (i + 1) (update mem pkt.addr (mem pkt.addr).prepared)
      else .error .outOfBounds
    else .ok (i, mem)

/-- The loop of `virtio_netdev_xmit` that takes the header off again. -/
def unprepareLoop (len : Int) : List NetbufPtr → NetbufMem → Outcome NetbufMem
  | [], mem => .ok mem
  | pkt :: pkts, mem => do
      let (_, nb) ← ukNetbufHeader (mem pkt.addr) (-len)
      unprepareLoop len pkts (update mem pkt.addr nb)

/-- A packet as it is enqueued: `readbuf_cnt[i]` is 1 if the device takes any layout, and 2
otherwise. -/
def txBuf (mem : NetbufMem) (anyLayout : Bool) (pkt : NetbufPtr) : VirtnetBuf where
  nb := pkt.addr
  data := (mem pkt.addr).data
  len := (mem pkt.addr).len
  readBufs := if anyLayout then 1 else 2
  writeBufs := 0
  nb_ne := pkt.addr_ne
  len_lt := (mem pkt.addr).len_lt
  readBufs_lt := by split <;> decide
  writeBufs_lt := zero_lt_u16

/-- `struct uk_netdev_tx_queue`, with the netbufs in memory. -/
structure TxQueue (n : RingSize) where
  vrq : VirtqueueVring n
  mem : NetbufMem

/-- The end of `virtio_netdev_xmit`, where `count` packets are prepared and `rc`, `i` come from the
enqueue. -/
def xmitFinish (anyLayout : Bool) (pkts : List NetbufPtr) (status count : Nat)
    (rc : Except Errno Nat) (i : Nat) (txq : TxQueue n) :
    Outcome ((Except Errno Nat × Nat) × TxQueue n) :=
  let undo := do
    let mem ← unprepareLoop (headerSz anyLayout) ((pkts.take count).drop i) txq.mem
    return ({ txq with mem := mem } : TxQueue n)
  match rc with
  | .ok rc =>
    if 0 < rc then return ((.ok (status ||| statusSuccess ||| statusMore), pkts.length), txq)
    else return ((.ok (status ||| statusSuccess), pkts.length), txq)
  | .error .enospc => do
      let txq ← undo
      if 0 < i then return ((.ok (status ||| statusUnderrun ||| statusSuccess), i), txq)
      else return ((.ok statusUnderrun, 0), txq)
  | .error e => do
      let txq ← undo
      return ((.error e, i), txq)

/-- `virtio_netdev_xmit`: the status and `*cnt`, which is the number of `pkts` before. -/
def virtioNetdevXmit (burst : PktBurst) (anyLayout : Bool) (txq : TxQueue n)
    (pkts : List NetbufPtr) : Outcome ((Except Errno Nat × Nat) × TxQueue n) := do
  let (descCnt, vrq, mem) ← virtioNetdevXmitFree burst txq.vrq txq.mem
  if pkts.length = 0 ∨ descCnt = 0 then return ((.ok statusUnderrun, 0), ⟨vrq, mem⟩)
  else do
    let (count, mem) ← prepareLoop burst descCnt pkts 0 mem
    if count = 0 then return ((.ok 0, 0), ⟨vrq, mem⟩)
    else do
      let status := if count < pkts.length then statusUnderrun else 0
      let (rc, i, vrq) ← virtnetBufferEnqueueBurst vrq
        ((pkts.take count).map (txBuf mem anyLayout)) (.ok 0)
      xmitFinish anyLayout pkts status count rc i ⟨vrq, mem⟩

/-! ### Taking packets back -/

variable {burst : PktBurst} {vrq vrq' : VirtqueueVring n} {mem mem' : NetbufMem} {dev : Device}
  {q : BufQueue} {pkts : List NetbufPtr}

theorem sentLoop_ok (mem : NetbufMem) {sent : List (Nat × Nat)} (h : ∀ u ∈ sent, u.1 ≠ 0) :
    ∃ mem', sentLoop sent mem = .ok mem' ∧ ∀ a, a ∉ sent.map Prod.fst → mem' a = mem a := by
  induction sent generalizing mem with
  | nil => exact ⟨mem, rfl, fun _ _ => rfl⟩
  | cons u sent ih =>
    rw [forall_mem_cons] at h
    obtain ⟨mem', heq, hframe⟩ := ih (update mem u.1 (mem u.1).sent) h.2
    refine ⟨mem', ?_, fun a ha => ?_⟩
    · rw [sentLoop, ukAssert_pos h.1, ok_bind, heq]
    rw [map_cons, mem_cons, not_or] at ha
    rw [hframe a ha.2, update_of_ne ha.1]

/-- The descriptors of the buffers the device has not given back. -/
def heldDescs (vrq : VirtqueueVring n) (q : BufQueue) : Nat :=
  ((q.avail ++ q.held).map fun b => (vrq.vqInfo b.head).descCount).sum

/-- **Taking packets back.** All used buffers are dequeued, in bursts, and no other netbuf is
changed. -/
theorem xmitFreeLoop_ok (burst : PktBurst) {fuel : Nat} (mem : NetbufMem) (hr : QueueRep vrq dev q)
    (hcookie : ∀ u ∈ q.used, u.1.cookie ≠ 0) (hfuel : q.used.length < fuel) :
    ∃ vrq' mem', xmitFreeLoop burst fuel vrq mem = .ok (n.num - vrq'.descAvail, vrq', mem') ∧
      QueueRep vrq' dev { q with used := [] } ∧
      (∀ c ∈ q.avail ++ q.held, vrq'.vqInfo c.head = vrq.vqInfo c.head) ∧
      ∀ a, a ∉ q.used.map (fun u => u.1.cookie) → mem' a = mem a := by
  induction fuel generalizing vrq q mem with
  | zero => exact absurd hfuel (Nat.not_lt_zero _)
  | succ fuel ih =>
    have hmax := burst.max_pos
    obtain ⟨vrq₁, heq, hr₁, hinfo⟩ := hr.dequeueBurst burst.max
    have hsub : ∀ c ∈ q.avail ++ q.held, vrq₁.vqInfo c.head = vrq.vqInfo c.head := fun c hc =>
      hinfo c (mem_append_left _ hc)
    rw [xmitFreeLoop, heq, ok_bind]
    simp only [length_map, length_take]
    have hdone : q.used.length ≤ burst.max → q.dequeue burst.max = { q with used := [] } := by
      intro hle
      rw [BufQueue.dequeue, drop_eq_nil_of_le hle]
    have hsent : ∀ u ∈ (q.used.take burst.max).map fun u => (u.1.cookie, u.2), u.1 ≠ 0 := by
      intro u hu
      obtain ⟨v, hv, rfl⟩ := mem_map.mp hu
      exact hcookie v (mem_of_mem_take hv)
    split
    · have hnil : q.used.length = 0 := by omega
      rw [hdone (by omega)] at hr₁
      exact ⟨vrq₁, mem, rfl, hr₁, hsub, fun _ _ => rfl⟩
    obtain ⟨mem₁, heq₁, hframe₁⟩ := sentLoop_ok mem hsent
    have hframe : ∀ a, a ∉ q.used.map (fun u => u.1.cookie) → mem₁ a = mem a := by
      refine fun a ha => hframe₁ a fun hmem => ha ?_
      rw [map_map] at hmem
      exact map_subset _ (take_subset _ _) hmem
    rw [heq₁, ok_bind]
    split
    · rw [hdone (by omega)] at hr₁
      exact ⟨vrq₁, mem₁, rfl, hr₁, hsub, hframe⟩
    have hused : (q.dequeue burst.max).used = q.used.drop burst.max := rfl
    obtain ⟨vrq₂, mem₂, heq₂, hr₂, hinfo₂, hframe₂⟩ := ih mem₁ hr₁
      (fun u hu => hcookie u (mem_of_mem_drop hu))
      (by rw [hused, length_drop]; omega)
    refine ⟨vrq₂, mem₂, heq₂, hr₂, fun c hc => (hinfo₂ c hc).trans (hsub c hc), ?_⟩
    refine fun a ha => (hframe₂ a fun hmem => ha ?_).trans (hframe a ha)
    exact map_subset _ (drop_subset _ _) hmem

theorem virtioNetdevXmitFree_ok (burst : PktBurst) (mem : NetbufMem) (hr : QueueRep vrq dev q)
    (hcookie : ∀ u ∈ q.used, u.1.cookie ≠ 0) :
    ∃ vrq' mem', virtioNetdevXmitFree burst vrq mem = .ok ((vrq'.descAvail : Int), vrq', mem') ∧
      QueueRep vrq' dev { q with used := [] } ∧ vrq'.descAvail + heldDescs vrq q = n.num ∧
      ∀ a, a ∉ q.used.map (fun u => u.1.cookie) → mem' a = mem a := by
  have hlen := hr.inflight_length
  obtain ⟨vrq', mem', heq, hr', hinfo, hframe⟩ := xmitFreeLoop_ok burst mem hr hcookie
    (show q.used.length < n.num + 1 by omega)
  refine ⟨vrq', mem', ?_, hr', ?_, hframe⟩
  · rw [virtioNetdevXmitFree, heq, ok_bind]
    simp only [sub_sub_cancel]
    rfl
  have htotal := hr'.desc.total
  simp only [BufQueue.inflight, map_nil, append_nil] at htotal
  rw [← htotal, heldDescs]
  congr 2
  exact map_congr_left fun c hc => by rw [hinfo c hc]

/-! ### Sending packets -/

variable (burst pkts) in
theorem prepareLoop_ok {descCnt : Nat} (i : Nat) (mem : NetbufMem) (hi : i ≤ descCnt)
    (hroom : min (i + pkts.length) descCnt ≤ burst.max) :
    ∃ mem', prepareLoop burst descCnt pkts i mem = .ok (min (i + pkts.length) descCnt, mem') := by
  induction pkts generalizing i mem with
  | nil => exact ⟨mem, by rw [length_nil, Nat.add_zero, Nat.min_eq_left hi]; rfl⟩
  | cons pkt pkts ih =>
    rw [length_cons] at hroom ⊢
    by_cases hmore : i < descCnt
    · obtain ⟨mem', heq⟩ := ih (i + 1) (update mem pkt.addr (mem pkt.addr).prepared) (by omega)
        (by omega)
      refine ⟨mem', ?_⟩
      rw [prepareLoop, if_pos (by omega), if_pos (by omega), heq]
      congr 3
      omega
    · refine ⟨mem, ?_⟩
      rw [prepareLoop, if_neg (by omega)]
      congr 2
      omega

/-- The arrays are too short for the packets. -/
theorem prepareLoop_fault {descCnt : Nat} (i : Nat) (mem : NetbufMem) (hi : i ≤ burst.max)
    (hover : burst.max < min (i + pkts.length) descCnt) :
    prepareLoop burst descCnt pkts i mem = .error .outOfBounds := by
  induction pkts generalizing i mem with
  | nil =>
    rw [length_nil] at hover
    omega
  | cons pkt pkts ih =>
    rw [length_cons] at hover
    rw [prepareLoop, if_pos (by omega)]
    split_ifs with hroom
    · exact ih (i + 1) _ hroom (by omega)
    · rfl

theorem txBuf_descs (mem : NetbufMem) (anyLayout : Bool) (pkts : List NetbufPtr) :
    ((pkts.map (txBuf mem anyLayout)).map VirtnetBuf.totalDesc).sum =
      (if anyLayout then 1 else 2) * pkts.length := by
  induction pkts with
  | nil => simp
  | cons pkt pkts ih =>
    rw [map_cons, map_cons, sum_cons, ih, length_cons, Nat.mul_succ, Nat.add_comm]
    rfl

/-- A transmit queue: the tables and the device represent `q`, whose buffers are netbufs. -/
structure TxOk (txq : TxQueue n) (dev : Device) (q : BufQueue) : Prop where
  rep : QueueRep txq.vrq dev q
  cookies : ∀ b ∈ q.inflight, b.cookie ≠ 0

/-- **What a caller may rely on.** The first `*cnt` packets, and no others, have been put on the
virtqueue, behind the buffers that were waiting there; the other packets are as they were. -/
def XmitAccounts (burst : PktBurst) (anyLayout : Bool) (txq : TxQueue n) (dev : Device)
    (q : BufQueue) (pkts : List NetbufPtr) : Prop :=
  ∀ status cnt txq', virtioNetdevXmit burst anyLayout txq pkts = .ok ((status, cnt), txq') →
    ∃ new, QueueRep txq'.vrq dev { q with avail := q.avail ++ new, used := [] } ∧
      new.length = cnt ∧ new.map Buf.cookie = (pkts.take cnt).map NetbufPtr.addr ∧
      ∀ pkt ∈ pkts.drop cnt, (txq'.mem pkt.addr).data = (txq.mem pkt.addr).data ∧
        (txq'.mem pkt.addr).len = (txq.mem pkt.addr).len

/-- There is nothing to send, no descriptor is free once the sent packets are taken back, or there
is room for the whole burst. -/
def XmitFits (burst : PktBurst) (anyLayout : Bool) (txq : TxQueue n) (q : BufQueue)
    (pkts : List NetbufPtr) : Prop :=
  pkts = [] ∨ heldDescs txq.vrq q = n.num ∨
    ((if anyLayout then 1 else 2) * pkts.length + heldDescs txq.vrq q ≤ n.num ∧
      pkts.length ≤ burst.max)

theorem xmitFinish_ok (anyLayout : Bool) (pkts : List NetbufPtr) (status count rc i : Nat)
    (txq : TxQueue n) :
    ∃ status', xmitFinish anyLayout pkts status count (.ok rc) i txq =
      .ok ((.ok status', pkts.length), txq) := by
  unfold xmitFinish
  simp only
  split
  · exact ⟨_, rfl⟩
  · exact ⟨_, rfl⟩

theorem txBuf_pos (mem : NetbufMem) (anyLayout : Bool) (pkts : List NetbufPtr) :
    ∀ b ∈ pkts.map (txBuf mem anyLayout), 1 ≤ b.totalDesc := by
  intro b hb
  obtain ⟨pkt, -, rfl⟩ := mem_map.mp hb
  show 1 ≤ (if anyLayout then 1 else 2) + 0
  split <;> omega

section

variable {anyLayout : Bool} {txq : TxQueue n} (hr : QueueRep vrq dev q)
  (hsome : ¬ (pkts.length = 0 ∨ (vrq.descAvail : Int) = 0))
  (hfree : virtioNetdevXmitFree burst txq.vrq txq.mem = .ok ((vrq.descAvail : Int), vrq, mem))

include hr hsome hfree

/-- As many packets are sent as there are free descriptors, and `*cnt` is left as it was. -/
theorem xmit_burst
    (hroom : (if anyLayout then 1 else 2) * min pkts.length vrq.descAvail ≤ vrq.descAvail)
    (hburst : min pkts.length vrq.descAvail ≤ burst.max) :
    ∃ status txq' new, virtioNetdevXmit burst anyLayout txq pkts =
        .ok ((.ok status, pkts.length), txq') ∧
      QueueRep txq'.vrq dev { q with avail := q.avail ++ new } ∧
      new.map Buf.cookie = (pkts.take vrq.descAvail).map NetbufPtr.addr := by
  obtain ⟨mem', hprep⟩ := prepareLoop_ok burst pkts 0 mem
    (Nat.zero_le vrq.descAvail) (by rwa [Nat.zero_add])
  rw [Nat.zero_add] at hprep
  have htake : pkts.take (min pkts.length vrq.descAvail) = pkts.take vrq.descAvail := by
    rw [Nat.min_comm, ← take_take, take_length]
  have hlen : (pkts.take vrq.descAvail).length = min pkts.length vrq.descAvail := by
    rw [length_take, Nat.min_comm]
  have hcount : min pkts.length vrq.descAvail ≠ 0 := by omega
  have hnbs : (pkts.take vrq.descAvail).map (txBuf mem' anyLayout) ≠ [] := by
    rw [← length_pos_iff, length_map, hlen]
    omega
  obtain ⟨new, vrq', henq, hrep, hcookies, -⟩ := hr.virtnetBurst (.ok 0) hnbs
    (txBuf_pos mem' anyLayout _) (by rwa [txBuf_descs, hlen])
  obtain ⟨status, hfinish⟩ := xmitFinish_ok anyLayout pkts
    (if min pkts.length vrq.descAvail < pkts.length then statusUnderrun else 0)
    (min pkts.length vrq.descAvail) vrq'.descAvail (min pkts.length vrq.descAvail) ⟨vrq', mem'⟩
  refine ⟨status, ⟨vrq', mem'⟩, new, ?_, hrep, ?_⟩
  · rw [length_map, hlen] at henq
    rw [virtioNetdevXmit, hfree, ok_bind]
    simp only [if_neg hsome, hprep, ok_bind, if_neg hcount, htake, henq, hfinish]
  rw [hcookies, map_map]
  rfl

/-- Otherwise the descriptors or the arrays are left. -/
theorem xmit_fault
    (hover : vrq.descAvail < (if anyLayout then 1 else 2) * min pkts.length vrq.descAvail ∨
      burst.max < min pkts.length vrq.descAvail) :
    virtioNetdevXmit burst anyLayout txq pkts = .error .outOfBounds := by
  rw [virtioNetdevXmit, hfree, ok_bind]
  simp only [if_neg hsome]
  by_cases hburst : burst.max < min pkts.length vrq.descAvail
  · rw [prepareLoop_fault 0 mem (Nat.zero_le _) (by rwa [Nat.zero_add]), error_bind]
  obtain ⟨mem', hprep⟩ := prepareLoop_ok burst pkts 0 mem
    (Nat.zero_le vrq.descAvail) (by rw [Nat.zero_add]; exact Nat.not_lt.mp hburst)
  rw [Nat.zero_add] at hprep
  have hcount : min pkts.length vrq.descAvail ≠ 0 := by omega
  have hdescs : vrq.descAvail < (((pkts.take (min pkts.length vrq.descAvail)).map
      (txBuf mem' anyLayout)).map VirtnetBuf.totalDesc).sum := by
    rw [txBuf_descs, length_take, Nat.min_eq_left (Nat.min_le_left ..)]
    exact hover.resolve_right hburst
  simp only [hprep, ok_bind, if_neg hcount, virtnetBufferEnqueueBurst,
    virtnetBurstLoop_fault 0 (.ok 0) hr.desc (txBuf_pos mem' anyLayout _) hdescs, error_bind]

end

theorem QueueRep.avail_length_eq {q' : BufQueue} (h : QueueRep vrq dev q)
    (h' : QueueRep vrq dev q') : q.avail.length = q'.avail.length := by
  have hlen := h.inflight_length
  have hlen' := h'.inflight_length
  have heq := h.avail.length_eq (by rw [length_map]; omega)
  have heq' := h'.avail.length_eq (by rw [length_map]; omega)
  rw [length_map] at heq heq'
  exact heq.symm.trans heq'

/-- **Transmit accounting.** `virtio_netdev_xmit` returns, and `*cnt` is the number of packets that
have been put on the virtqueue, exactly if the burst fits. None of the packets of the burst is in
flight before. -/
theorem xmit_accounts (burst : PktBurst) (anyLayout : Bool) (txq : TxQueue n) (dev : Device)
    (q : BufQueue) (pkts : List NetbufPtr) (htx : TxOk txq dev q)
    (hown : ∀ pkt ∈ pkts, ∀ b ∈ q.inflight, b.cookie ≠ pkt.addr) :
    ((∃ r, virtioNetdevXmit burst anyLayout txq pkts = .ok r) ∧
      XmitAccounts burst anyLayout txq dev q pkts) ↔ XmitFits burst anyLayout txq q pkts := by
  have hmem : ∀ u ∈ q.used, u.1 ∈ q.inflight := fun u hu =>
    mem_append_right _ (mem_map_of_mem hu)
  obtain ⟨vrq, mem, hfree, hr, htotal, hframe⟩ := virtioNetdevXmitFree_ok burst txq.mem
    htx.rep fun u hu => htx.cookies _ (hmem u hu)
  by_cases hnone : pkts.length = 0 ∨ (vrq.descAvail : Int) = 0
  · -- Nothing is sent, and the packets that were taken back are not those of the burst.
    have hcall : virtioNetdevXmit burst anyLayout txq pkts =
        .ok ((.ok statusUnderrun, 0), ⟨vrq, mem⟩) := by
      rw [virtioNetdevXmit, hfree, ok_bind]
      simp only [if_pos hnone]
      rfl
    refine iff_of_true ⟨⟨_, hcall⟩, fun status cnt txq' h => ?_⟩ ?_
    · rw [hcall] at h
      cases h
      refine ⟨[], by simpa using hr, rfl, rfl, fun pkt hpkt => ?_⟩
      have hnot : pkt.addr ∉ q.used.map fun u => u.1.cookie := by
        intro h
        obtain ⟨u, hu, heq⟩ := mem_map.mp h
        exact hown pkt hpkt u.1 (hmem u hu) heq
      rw [show (⟨vrq, mem⟩ : TxQueue n).mem = mem from rfl, hframe _ hnot]
      exact ⟨rfl, rfl⟩
    · rcases hnone with hnil | hzero
      · exact .inl (length_eq_zero_iff.mp hnil)
      · exact .inr (.inl (by omega))
  have hfits : XmitFits burst anyLayout txq q pkts ↔ pkts.length ≤ vrq.descAvail ∧
      (if anyLayout then 1 else 2) * pkts.length ≤ vrq.descAvail ∧ pkts.length ≤ burst.max := by
    have hle : pkts.length ≤ (if anyLayout then 1 else 2) * pkts.length :=
      Nat.le_mul_of_pos_left _ (by split <;> decide)
    rw [XmitFits]
    constructor
    · rintro (rfl | hfull | hroom)
      · exact absurd (.inl rfl) hnone
      · omega
      · omega
    · exact fun h => .inr (.inr (by omega))
  rw [hfits]
  by_cases hover : vrq.descAvail < (if anyLayout then 1 else 2) * min pkts.length vrq.descAvail ∨
      burst.max < min pkts.length vrq.descAvail
  · rw [xmit_fault hr hnone hfree hover]
    refine iff_of_false (fun h => by simpa using h.1) fun ⟨hle, hroom, hburst⟩ => ?_
    rw [Nat.min_eq_left hle] at hover
    omega
  rw [not_or, Nat.not_lt, Nat.not_lt] at hover
  obtain ⟨st, txq₁, new, hcall, hrep, hcookies⟩ := xmit_burst hr hnone hfree hover.1 hover.2
  have hlen : new.length = min pkts.length vrq.descAvail := by
    have := congrArg List.length hcookies
    rw [length_map, length_map, length_take, Nat.min_comm] at this
    exact this
  constructor
  · rintro ⟨-, haccounts⟩
    -- all packets are reported, and so all of them must have been sent
    obtain ⟨new', hrep', hlen', -⟩ := haccounts _ _ _ hcall
    have heq := hrep.avail_length_eq hrep'
    simp only [length_append] at heq
    have hle : min pkts.length vrq.descAvail = pkts.length := by omega
    rw [hle] at hover
    exact ⟨by omega, hover⟩
  · rintro ⟨hle, -, -⟩
    refine ⟨⟨_, hcall⟩, fun status cnt txq' h => ?_⟩
    rw [hcall] at h
    cases h
    rw [take_of_length_le hle] at hcookies
    refine ⟨new, hrep, by omega, by rw [hcookies, take_length], fun pkt hpkt => ?_⟩
    rw [drop_length] at hpkt
    cases hpkt

/-- A fresh transmit queue, and netbufs of 60 bytes. -/
def freshTx (n : RingSize) : TxQueue n where
  vrq := virtqueueVringInit n fun _ => ⟨0, 0⟩
  mem a := ⟨a + 64 + netHeadroom, 60, a + 64, 0, sixty_lt_u16⟩

theorem freshTx_ok (n : RingSize) : TxOk (freshTx n) ⟨0, []⟩ ⟨[], [], []⟩ :=
  ⟨QueueRep.init _ _, fun _ hb => absurd hb not_mem_nil⟩

def twoPkts : List NetbufPtr := [⟨0x1000, by decide⟩, ⟨0x2000, by decide⟩]

/-- Two packets on a ring of two descriptors. -/
theorem xmit_accounts_two :
    XmitAccounts ⟨128, by decide⟩ true (freshTx ⟨1, by decide⟩) ⟨0, []⟩ ⟨[], [], []⟩ twoPkts :=
  ((xmit_accounts _ _ _ _ _ _ (freshTx_ok _) fun _ _ _ hb => absurd hb not_mem_nil).mpr
    (.inr (.inr (by decide)))).2

/-- With one free descriptor the second of two packets is not put on the virtqueue, but `*cnt`
is left at two. -/
theorem xmit_reports_unsent_packet :
    ¬ XmitAccounts ⟨128, by decide⟩ true (freshTx ⟨0, by decide⟩) ⟨0, []⟩ ⟨[], [], []⟩
      twoPkts := by
  have hrun : (virtioNetdevXmit ⟨128, by decide⟩ true (freshTx ⟨0, by decide⟩)
      twoPkts).toOption.map (fun r => (r.1, ())) =
        some ((.ok (statusUnderrun ||| statusSuccess), 2), ()) := by
    decide +kernel
  obtain ⟨txq', hcall, -⟩ := exists_of_eval _ (fun _ => ()) hrun
  intro h
  obtain ⟨new, hrep, hlen, -⟩ := h _ _ _ hcall
  have hle := hrep.inflight_length
  have hone : (⟨0, by decide⟩ : RingSize).num = 1 := rfl
  simp only [nil_append] at hle
  omega

end Unikraft.Virtio
