import Unikraft.Lib.ByteMem
import Unikraft.Virtio.P9

/-!
# Unikraft.Virtio.P9Recv

**Replies to 9P requests**: `uk_9preq_receive_cb` (`lib/uk9p/9preq.c`) and `virtio_9p_recv`
(`plat/drivers/virtio/virtio_9p.c`). The reply to a zero-copy request is split between the receive
buffer and the buffer of the user; `virtio_9p_recv` puts an `Rerror` together again. A zero-copy
reply that is too short is decoded behind its end, and an `Rerror` that is too long is copied
behind the end of the receive buffer.
-/

namespace Unikraft.Virtio

open Lib Uk9p Outcome List

/-! ### The source -/

/-- `UK_9P_RERROR`. -/
def rerror : UInt8 := 107

/-- The header, as `uk_9preq_receive_cb` reads it. -/
def readHeader : ReqM (UInt32 × UInt8 × UInt16) := do
  let size ← uk9preqRead32
  let type ← uk9preqRead8
  let tag ← uk9preqRead16
  return (size, type, tag)

/-- `uk_9preq_receive_cb`. The reads succeed, since there is a header. -/
def uk9preqReceiveCb (req : Uk9preq) (recvSize : Nat) : Outcome (Except Errno Unit × Uk9preq) :=
  if req.state ≠ .sent then .ok (.error .eio, req)
  else if recvSize < headerSize then .ok (.error .eio, req)
  else do
    let (header, fcall) ← readHeader { req.recv.fcall with offset := 0, size := recvSize }
    match header with
    | .error e => .ok (.error e, { req with recv := { req.recv with fcall := fcall } })
    | .ok (size, type, tag) =>
      let recv := { req.recv with fcall := fcall, type := type }
      if recvSize < size.toNat then .ok (.error .eio, { req with recv := recv })
      else if req.tag ≠ tag then .ok (.error .eio, { req with recv := recv })
      else
        let size := if recv.zcBuf ≠ 0 ∧ type ≠ rerror then recv.zcOffset else size.toNat
        .ok (.ok (), { req with
          recv := { recv with fcall := { fcall with size := size } }
          state := .received })

/-- The contents of `recv_buf`. -/
def Uk9preq.recvBytes (req : Uk9preq) (mem : ByteMem) : List UInt8 :=
  (List.range bufSize).map fun i => mem (req.recv.buf + i)

def Uk9preq.withBuf (req : Uk9preq) (buf : List UInt8) : Uk9preq :=
  { req with recv := { req.recv with fcall := { req.recv.fcall with buf := buf } } }

/-- The number of bytes that `virtio_9p_recv` copies of an `Rerror`. -/
def fixupSize (req : Uk9preq) (len : Nat) : Nat := min req.recv.zcSize (subU32 len headerSize)

/-- The loop body of `virtio_9p_recv`, for a request that is dequeued with the length `len`. -/
def virtio9pRecv (mem : ByteMem) (req : Uk9preq) (len : Nat) : Outcome (ByteMem × Uk9preq) := do
  let (_, req) ← uk9preqReceiveCb (req.withBuf (req.recvBytes mem)) len
  if req.recv.type = rerror then
    let n := fixupSize req len
    if req.recv.zcOffset + n ≤ bufSize then
      .ok (copyBytes mem (req.recv.buf + req.recv.zcOffset) req.recv.zcBuf n, uk9preqPut req)
    else .error .outOfBounds
  else .ok (mem, uk9preqPut req)

/-! ### The header of a reply -/

def replySize (buf : List UInt8) : UInt32 := .ofNat (leNat (buf.take 4))

def replyType (buf : List UInt8) : UInt8 := .ofNat (leNat ((buf.drop 4).take 1))

def replyTag (buf : List UInt8) : UInt16 := .ofNat (leNat ((buf.drop 5).take 2))

theorem uk9preqReadbuf_ok {f : Fcall} {n : Nat} (hsize : f.offset + n ≤ f.size)
    (hlt : f.size < 2 ^ 32) (hbuf : f.offset + n ≤ f.buf.length) :
    uk9preqReadbuf n f =
      .ok (.ok ((f.buf.drop f.offset).take n), { f with offset := f.offset + n }) := by
  rw [uk9preqReadbuf, addU32_eq (hsize.trans_lt hlt), if_neg (Nat.not_lt.mpr hsize),
    copyOut_ok hbuf, ok_bind]

theorem readHeader_ok {buf : List UInt8} {size : Nat} (hsize : headerSize ≤ size)
    (hlt : size < 2 ^ 32) (hbuf : headerSize ≤ buf.length) :
    readHeader ⟨buf, size, 0⟩ =
      .ok (.ok (replySize buf, replyType buf, replyTag buf), ⟨buf, size, 7⟩) := by
  have hseven : headerSize = 7 := rfl
  rw [hseven] at hsize hbuf
  have hread (off n : Nat) (h : off + n ≤ 7) :
      uk9preqReadbuf n ⟨buf, size, off⟩ = .ok (.ok ((buf.drop off).take n), ⟨buf, size, off + n⟩) :=
    uk9preqReadbuf_ok (h.trans hsize) hlt (h.trans hbuf)
  refine (CursorM.bind_ok (CursorM.bind_ok (hread 0 4 (by decide)))).trans ?_
  refine (CursorM.bind_ok (CursorM.bind_ok (hread 4 1 (by decide)))).trans ?_
  exact CursorM.bind_ok (CursorM.bind_ok (hread 5 2 (by decide)))

/-- The request after the header has been read. -/
def Uk9preq.decoded (req : Uk9preq) (recvSize : Nat) : Uk9preq :=
  { req with recv := { req.recv with
      fcall := ⟨req.recv.fcall.buf, recvSize, 7⟩, type := replyType req.recv.fcall.buf } }

/-- The size up to which a reply is decoded. -/
def Uk9preq.limit (req : Uk9preq) : Nat :=
  if req.recv.zcBuf ≠ 0 ∧ replyType req.recv.fcall.buf ≠ rerror then req.recv.zcOffset
  else (replySize req.recv.fcall.buf).toNat

variable {req : Uk9preq} {recvSize len zcSize : Nat} {mem : ByteMem} {msg : List UInt8}

theorem uk9preqReceiveCb_eq (req : Uk9preq) (hstate : req.state = .sent)
    (hbuf : req.recv.fcall.buf.length = bufSize) (hsize : headerSize ≤ recvSize)
    (hlt : recvSize < 2 ^ 32) : uk9preqReceiveCb req recvSize =
      if (replySize req.recv.fcall.buf).toNat ≤ recvSize ∧
          req.tag = replyTag req.recv.fcall.buf then
        .ok (.ok (), { req.decoded recvSize with
          recv := { (req.decoded recvSize).recv with
            fcall := ⟨req.recv.fcall.buf, req.limit, 7⟩ }
          state := .received })
      else .ok (.error .eio, req.decoded recvSize) := by
  rw [uk9preqReceiveCb, if_neg (not_not.mpr hstate), if_neg (Nat.not_lt.mpr hsize),
    readHeader_ok hsize hlt (hbuf ▸ by decide), ok_bind]
  by_cases hfit : (replySize req.recv.fcall.buf).toNat ≤ recvSize
  · by_cases htag : req.tag = replyTag req.recv.fcall.buf
    · simp only [if_neg (Nat.not_lt.mpr hfit), if_neg (not_not.mpr htag),
        if_pos (And.intro hfit htag)]
      rfl
    simp only [if_neg (Nat.not_lt.mpr hfit), if_pos htag, if_neg fun h => htag (And.right h)]
    rfl
  simp only [if_pos (Nat.lt_of_not_le hfit), if_neg fun h => hfit (And.left h)]
  rfl

theorem uk9preqReceiveCb_recv (req : Uk9preq) (hstate : req.state = .sent)
    (hbuf : req.recv.fcall.buf.length = bufSize) (hsize : headerSize ≤ recvSize)
    (hlt : recvSize < 2 ^ 32) : ∃ r req' fcall, uk9preqReceiveCb req recvSize = .ok (r, req') ∧
      req'.recv = { (req.decoded recvSize).recv with fcall := fcall } := by
  rw [uk9preqReceiveCb_eq req hstate hbuf hsize hlt]
  split_ifs <;> exact ⟨_, _, _, rfl, rfl⟩

/-! ### Decoding -/

/-- A request that has been sent, with or without a zero-copy receive buffer. -/
structure Sent (req : Uk9preq) : Prop where
  state : req.state = .sent
  length_buf : req.recv.fcall.buf.length = bufSize
  recv_le : req.recv.size ≤ bufSize
  zc_size : req.recv.zcBuf ≠ 0 → req.recv.size = req.recv.zcOffset

/-- The reply to a zero-copy request fills the receive buffer, if that is more than a header, or is
an `Rerror` that fits into `recv_buf`. -/
def WholeReply (req : Uk9preq) : Prop :=
  req.recv.zcBuf ≠ 0 → if replyType req.recv.fcall.buf = rerror
    then (replySize req.recv.fcall.buf).toNat ≤ bufSize
    else req.recv.zcOffset ≤ max (replySize req.recv.fcall.buf).toNat headerSize

theorem Sent.limit_le (h : Sent req) (hwhole : WholeReply req)
    (hspace : recvSize ≤ (rangeAddrs (writeRanges req)).length)
    (hfit : (replySize req.recv.fcall.buf).toNat ≤ recvSize) :
    req.limit ≤ max (replySize req.recv.fcall.buf).toNat headerSize ∧ req.limit ≤ bufSize := by
  have hle := h.recv_le
  rw [Uk9preq.limit]
  by_cases hzc : req.recv.zcBuf ≠ 0
  · have hreply := hwhole hzc
    by_cases htype : replyType req.recv.fcall.buf = rerror
    · rw [if_pos htype] at hreply
      rw [if_neg fun h => h.2 htype]
      exact ⟨le_max_left .., hreply⟩
    rw [if_neg htype] at hreply
    rw [if_pos ⟨hzc, htype⟩]
    exact ⟨hreply, h.zc_size hzc ▸ hle⟩
  rw [writeRanges, if_neg hzc] at hspace
  simp only [rangeAddrs, flatMap_cons, flatMap_nil, append_nil, length_range'] at hspace
  rw [if_neg fun h => hzc h.1]
  exact ⟨le_max_left .., hfit.trans (hspace.trans hle)⟩

/-- Otherwise the bytes are decoded behind the size of the reply, or behind the end of
`recv_buf`. -/
theorem Sent.limit_gt (h : Sent req) (hnot : ¬ WholeReply req) : headerSize < req.limit ∧
    ((replySize req.recv.fcall.buf).toNat < req.limit ∧ req.limit ≤ bufSize ∨
      bufSize < req.limit) := by
  have hle := h.recv_le
  obtain ⟨hzc, hreply⟩ := Classical.not_imp.mp hnot
  rw [Uk9preq.limit]
  by_cases htype : replyType req.recv.fcall.buf = rerror
  · rw [if_pos htype] at hreply
    rw [if_neg fun h => h.2 htype]
    simp only [headerSize, bufSize] at *
    omega
  · rw [if_neg htype] at hreply
    rw [if_pos ⟨hzc, htype⟩]
    have hsize := h.zc_size hzc
    omega

theorem reachable_reads {f₀ f : Fcall} (h₀ : FcallOk f₀)
    (h : Reachable readStep (fun _ _ => True) f₀ f) :
    FcallOk f ∧ f.buf = f₀.buf ∧ f.size = f₀.size := by
  refine h.invariant_of_returns (I := fun f => FcallOk f ∧ f.buf = f₀.buf ∧ f.size = f₀.size)
    ⟨h₀, rfl, rfl⟩ fun f kind hf _ => ?_
  obtain ⟨r, f', hread, hf', hbuf, hsize, -⟩ := readField_bounded hf.1 kind
  exact ⟨r, f', hread, hf', hbuf.trans hf.2.1, hsize.trans hf.2.2⟩

/-- Behind the size nothing is read. -/
theorem readField_full {f : Fcall} (hf : FcallOk f) (hfull : f.size ≤ f.offset) (kind : Kind) :
    readField kind f = .ok (.error .enobufs, f) := by
  have hbuf (n : Nat) (hpos : 0 < n) (hn : n < 2 ^ 16) :
      uk9preqReadbuf n f = .ok (.error .enobufs, f) := by
    rw [uk9preqReadbuf, hf.addU32_offset hn, if_pos (by omega)]
  -- every read starts with an integer
  have h8 : uk9preqRead8 f = _ := CursorM.bind_error (hbuf 1 (by decide) (by decide))
  have h16 : uk9preqRead16 f = _ := CursorM.bind_error (hbuf 2 (by decide) (by decide))
  cases kind with
  | u8 => exact CursorM.bind_error h8
  | u16 => exact CursorM.bind_error h16
  | u32 => exact CursorM.bind_error (CursorM.bind_error (hbuf 4 (by decide) (by decide)))
  | u64 => exact CursorM.bind_error (CursorM.bind_error (hbuf 8 (by decide) (by decide)))
  | qid => exact CursorM.bind_error (CursorM.bind_error h8)
  | str => exact CursorM.bind_error (CursorM.bind_error h16)
  | stat => exact CursorM.bind_error (CursorM.bind_error h16)

/-- A byte is read wherever there is one. -/
theorem readField_u8 (buf : List UInt8) {size : Nat} (off : Nat) (hsize : off < size)
    (hlt : size < 2 ^ 32) (hbuf : off < buf.length) :
    ∃ field, readField .u8 ⟨buf, size, off⟩ = .ok (.ok field, ⟨buf, size, off + 1⟩) :=
  ⟨_, CursorM.bind_ok (CursorM.bind_ok (uk9preqReadbuf_ok hsize hlt hbuf))⟩

theorem reachable_u8 {buf : List UInt8} {size : Nat} (off : Nat) (hlt : size < 2 ^ 32)
    (hle : headerSize ≤ off) (hsize : off ≤ size) (hbuf : off ≤ buf.length) :
    Reachable readStep (fun _ _ => True) ⟨buf, size, 7⟩ ⟨buf, size, off⟩ := by
  induction off, hle using Nat.le_induction with
  | base => exact .refl
  | succ off _ ih =>
    obtain ⟨field, hread⟩ := readField_u8 buf off hsize hlt hbuf
    exact (ih (by omega) (by omega)).tail trivial hread

/-- What is decoded of a reply. -/
def DecodesReply (buf : List UInt8) (fcall : Fcall) : Prop :=
  ∀ recv, Reachable readStep (fun _ _ => True) fcall recv →
    ∀ kind, ∃ r recv', readField kind recv = .ok (r, recv') ∧ ∀ field, r = .ok field →
      recv'.offset ≤ (replySize buf).toNat ∧ (buf.take recv'.offset).drop recv.offset = field.wire

theorem Sent.decodesReply (h : Sent req) (hle : req.limit ≤ bufSize)
    (hreply : req.limit ≤ max (replySize req.recv.fcall.buf).toNat headerSize) :
    DecodesReply req.recv.fcall.buf ⟨req.recv.fcall.buf, req.limit, 7⟩ := by
  intro recv hreach kind
  have hok : FcallOk ⟨req.recv.fcall.buf, req.limit, 7⟩ :=
    ⟨h.length_buf ▸ hle, h.length_buf ▸ by decide, by simp only; omega⟩
  by_cases hheader : req.limit ≤ headerSize
  · have hstay : recv = ⟨req.recv.fcall.buf, req.limit, 7⟩ := by
      refine hreach.invariant_of_returns (I := (· = _)) rfl fun f kind hf _ => ?_
      subst hf
      exact ⟨_, _, readField_full hok hheader kind, rfl⟩
    exact ⟨_, _, hstay ▸ readField_full hok hheader kind, fun _ h => by cases h⟩
  obtain ⟨hf, hbuf, hsize⟩ := reachable_reads hok hreach
  obtain ⟨r, recv', hread, -, -, -, hfield⟩ := readField_bounded hf kind
  refine ⟨r, recv', hread, fun field hr => ?_⟩
  obtain ⟨-, hoff, hwire⟩ := hfield field hr
  rw [hsize] at hoff
  rw [hbuf] at hwire
  exact ⟨by simp only at hoff; omega, hwire⟩

theorem Sent.limit_lt (h : Sent req) : req.limit < 2 ^ 32 := by
  have hle := h.recv_le
  have hsize := (replySize req.recv.fcall.buf).toNat_lt
  rw [Uk9preq.limit]
  split_ifs with hzc
  · rw [← h.zc_size hzc.1]
    exact hle.trans_lt (by decide)
  · exact hsize

theorem Sent.not_decodesReply (h : Sent req) (hnot : ¬ WholeReply req) :
    ¬ DecodesReply req.recv.fcall.buf ⟨req.recv.fcall.buf, req.limit, 7⟩ := by
  intro hdecodes
  have hlen := h.length_buf
  have hlt := h.limit_lt
  obtain ⟨hheader, ⟨hsize, hle⟩ | hlarge⟩ := h.limit_gt hnot
  · -- the byte behind the reply, or behind the header
    generalize hoff : max (replySize req.recv.fcall.buf).toNat headerSize = off
    obtain ⟨field, hread⟩ := readField_u8 req.recv.fcall.buf off (by omega) hlt (by omega)
    obtain ⟨r, recv', hread', hbound⟩ := hdecodes _
      (reachable_u8 off hlt (by omega) (by omega) (by omega)) .u8
    cases hread.symm.trans hread'
    have hle := (hbound field rfl).1
    simp only at hle
    omega
  · -- the byte behind `recv_buf`
    obtain ⟨r, recv', hread, -⟩ := hdecodes _ (reachable_u8 bufSize hlt (by decide)
      hlarge.le hlen.ge) .u8
    have hfault : uk9preqReadbuf 1 ⟨req.recv.fcall.buf, req.limit, bufSize⟩ =
        .error .outOfBounds := by
      rw [uk9preqReadbuf, addU32_eq (show bufSize + 1 < 2 ^ 32 by decide),
        if_neg (Nat.not_lt.mpr hlarge), copyOut_error (by rw [hlen]; exact Nat.lt_succ_self _),
        error_bind]
    have hbyte : readField .u8 ⟨req.recv.fcall.buf, req.limit, bufSize⟩ = .error .outOfBounds :=
      CursorM.bind_fault (CursorM.bind_fault hfault)
    cases hbyte.symm.trans hread

/-- **Only received bytes are decoded.** A request is received exactly if the size in the header is
at most the length and the tag matches. The read functions return and use no byte behind the size in
the header exactly if the reply is whole. -/
theorem uk_9preq_receive_cb_decodes (req : Uk9preq) (recvSize : Nat) (hreq : Sent req)
    (hspace : recvSize ≤ (rangeAddrs (writeRanges req)).length) (hlt : recvSize < 2 ^ 32) :
    ∃ r req', uk9preqReceiveCb req recvSize = .ok (r, req') ∧
      (req'.state = .received ↔ headerSize ≤ recvSize ∧
        (replySize req.recv.fcall.buf).toNat ≤ recvSize ∧
        req.tag = replyTag req.recv.fcall.buf) ∧
      (req'.state ≠ .received → req'.state = .sent) ∧
      (req'.state = .received →
        (DecodesReply req.recv.fcall.buf req'.recv.fcall ↔ WholeReply req)) := by
  by_cases hsize : recvSize < headerSize
  · refine ⟨.error .eio, req, ?_, ?_, fun _ => hreq.state, fun h => ?_⟩
    · rw [uk9preqReceiveCb, if_neg (not_not.mpr hreq.state), if_pos hsize]
    · rw [hreq.state]
      exact ⟨fun h => (by cases h), fun h => absurd h.1 (Nat.not_le.mpr hsize)⟩
    rw [hreq.state] at h
    cases h
  have heq := uk9preqReceiveCb_eq req hreq.state hreq.length_buf (Nat.le_of_not_lt hsize) hlt
  split_ifs at heq with hcheck
  · refine ⟨_, _, heq, ⟨fun _ => ⟨Nat.le_of_not_lt hsize, hcheck⟩, fun _ => rfl⟩,
      fun hne => absurd rfl hne, fun _ => ⟨fun h => ?_, fun hwhole => ?_⟩⟩
    · by_contra hnot
      exact hreq.not_decodesReply hnot h
    · obtain ⟨hreply, hbuf⟩ := hreq.limit_le hwhole hspace hcheck.1
      exact hreq.decodesReply hbuf hreply
  refine ⟨_, _, heq, ⟨fun h => ?_, fun h => absurd h.2 hcheck⟩, fun _ => hreq.state, fun h => ?_⟩
  · cases hreq.state.symm.trans h
  · cases hreq.state.symm.trans h

/-- A request for `zcSize` bytes at `0x50000`, with the tag 1 and the bytes of a reply. -/
def sentRead (zcSize : Nat) (bytes : List UInt8) : Uk9preq where
  addr := 0x30000
  xmit := ⟨⟨List.replicate 1024 0, 23, 0⟩, 116, 0x30000, 0, 0, 0⟩
  recv := ⟨⟨bytes ++ List.replicate (1024 - bytes.length) 0, 11, 0⟩, rerror, 0x30400, 0x50000,
    zcSize, 11⟩
  state := .sent
  tag := 1
  refcount := 2

theorem sent_sentRead {bytes : List UInt8} (h : bytes.length ≤ bufSize) :
    Sent (sentRead zcSize bytes) := by
  refine ⟨rfl, ?_, show 11 ≤ 1024 by decide, fun _ => rfl⟩
  rw [sentRead, length_append, length_replicate]
  exact Nat.add_sub_cancel' h

/-- The `Rread` of a byte is received. -/
theorem uk_9preq_receive_cb_decodes_rread :
    ∃ r req', uk9preqReceiveCb (sentRead 1 [12, 0, 0, 0, 117, 1, 0, 1, 0, 0, 0]) 12 =
      .ok (r, req') ∧ req'.state = .received := by
  obtain ⟨r, req', heq, hstate, -⟩ := uk_9preq_receive_cb_decodes
    (sentRead 1 [12, 0, 0, 0, 117, 1, 0, 1, 0, 0, 0]) 12
    (sent_sentRead (by decide)) (by decide +kernel) (by decide)
  exact ⟨r, req', heq, hstate.mpr (by decide +kernel)⟩

/-- An `Rread` that is only a header: the count is read from the four bytes behind it. -/
theorem uk_9preq_receive_cb_short :
    Sent (sentRead 1 [7, 0, 0, 0, 117, 1, 0, 9, 0, 0, 0]) ∧
      ∃ r req', uk9preqReceiveCb (sentRead 1 [7, 0, 0, 0, 117, 1, 0, 9, 0, 0, 0]) 7 =
          .ok (r, req') ∧
        (req'.state, (readField .u32 req'.recv.fcall).toOption.map
          fun p => (p.1.toOption, p.2.offset)) = (.received, some (some (.u32 9), 11)) :=
  ⟨sent_sentRead (by decide), .ok (), exists_of_eval _ _ (by decide +kernel)⟩

/-! ### The posted buffers -/

/-- A request of `uk_9p_read` that has been sent. -/
structure ReadSent (req : Uk9preq) : Prop where
  state : req.state = .sent
  recv_buf : req.recv.buf = req.addr + bufSize
  addr_lt : req.addr + 2 * bufSize < 2 ^ 64
  size : req.recv.size = 11
  zc_offset : req.recv.zcOffset = 11
  zc_ne : req.recv.zcBuf ≠ 0
  zc : UserBuf req.addr req.recv

/-- **The requests of `uk_9p_read`**, which are made ready with the offset 11 and sent. -/
theorem Initialized.readSent {n : RingSize} {dev dev' : Virtio9pDevice n} {req req' sent : Uk9preq}
    {zcBuf : Nat} (h : Initialized req) (hsize : zcSize < 2 ^ 32) (hne : zcBuf ≠ 0)
    (huser : zcBuf + zcSize < 2 ^ 64 ∧ (req.addr + 2 * bufSize ≤ zcBuf ∨ zcBuf + zcSize ≤ req.addr))
    (hready : uk9preqReady req .read zcBuf zcSize 11 = .ok (.ok (), req'))
    (hsend : virtio9pRequest dev req' = .ok (.ok (), dev', sent)) : ReadSent sent := by
  obtain ⟨_, _, _, _, _, _, rfl⟩ := virtio9pRequest_inv hsend
  rw [uk9preqReady] at hready
  split at hready
  · cases hready
  obtain ⟨u, fcall, -, hready⟩ := bind_except hready fun _ _ h => by cases h
  cases hready
  exact ⟨rfl, h.recv_buf, h.addr_lt, rfl, rfl, hne, hsize, fun _ => huser⟩

/-- Three stores: the message is cut behind the header and the count and behind the buffer of the
user. -/
theorem ReadSent.scatter_eq (h : ReadSent req) (hmax : msg.length ≤ rerrorMaxsize) :
    scatter mem (writeRanges req) msg =
      storeBytes (storeBytes (storeBytes mem req.recv.buf (msg.take 11)) req.recv.zcBuf
        ((msg.drop 11).take req.recv.zcSize)) (req.recv.buf + (11 + req.recv.zcSize))
        (msg.drop (11 + req.recv.zcSize)) := by
  have hlt := h.addr_lt
  have hbuf := h.recv_buf
  simp only [rerrorMaxsize, bufSize] at *
  simp only [writeRanges, h.size, if_pos h.zc_ne, scatter, drop_drop, rerrorMaxsize]
  by_cases hsmall : 11 + req.recv.zcSize < 141
  · have hsum : addU32 11 req.recv.zcSize = 11 + req.recv.zcSize := addU32_eq (by omega)
    have htail : (msg.drop (11 + req.recv.zcSize)).take (141 - (11 + req.recv.zcSize)) =
        msg.drop (11 + req.recv.zcSize) := take_of_length_le (by rw [length_drop]; omega)
    rw [hsum, if_pos hsmall, scatter, scatter, addU64_eq (by omega), htail]
  -- there is nothing left of the message, also where the sum has wrapped
  have hnil : msg.drop (11 + req.recv.zcSize) = [] := drop_eq_nil_of_le (by omega)
  rw [hnil, storeBytes_nil]
  split_ifs with hwrap
  · rw [scatter, scatter, take_nil, storeBytes_nil]
  · rfl

/-- Where the device stores the bytes of a message. -/
theorem ReadSent.scatter_apply (mem : ByteMem) (h : ReadSent req)
    (hmax : msg.length ≤ rerrorMaxsize) {i : Nat} {b : UInt8} (hb : msg[i]? = some b) :
    scatter mem (writeRanges req) msg (if 11 ≤ i ∧ i < 11 + req.recv.zcSize
      then req.recv.zcBuf + (i - 11) else req.recv.buf + i) = b := by
  have hi : i < msg.length := (List.getElem?_eq_some_iff.mp hb).1
  have hzc := (h.zc.2 h.zc_ne).2
  have hbuf := h.recv_buf
  rw [h.scatter_eq hmax]
  simp only [rerrorMaxsize, bufSize] at *
  split_ifs with hmid
  · rw [storeBytes_outside (by rw [length_drop]; omega), storeBytes_inside]
    rw [getElem?_take_of_lt (by omega), getElem?_drop, Nat.add_sub_cancel' hmid.1, hb]
  by_cases hfirst : i < 11
  · rw [storeBytes_outside (by omega), storeBytes_outside (by rw [length_take]; omega),
      storeBytes_inside]
    rw [getElem?_take_of_lt hfirst, hb]
  obtain ⟨k, rfl⟩ := Nat.exists_eq_add_of_le (show 11 + req.recv.zcSize ≤ i by omega)
  rw [← Nat.add_assoc req.recv.buf _ k, storeBytes_inside]
  rw [getElem?_drop, hb]

/-! ### The copy of an `Rerror` -/

theorem replyType_recvBytes (req : Uk9preq) (mem : ByteMem) :
    replyType (req.recvBytes mem) = mem (req.recv.buf + 4) := by
  have hbyte : ((req.recvBytes mem).drop 4).take 1 = [mem (req.recv.buf + 4)] := by
    rw [Uk9preq.recvBytes, take_one_drop_eq_of_lt_length (by simp [bufSize])]
    simp
  rw [replyType, hbyte, leNat, leNat]
  exact UInt8.ofNat_toNat

theorem length_recvBytes (req : Uk9preq) (mem : ByteMem) :
    (req.recvBytes mem).length = bufSize := by
  rw [Uk9preq.recvBytes, length_map, length_range]

/-- A reply with a header is copied exactly if its type is `Rerror`. -/
theorem virtio9pRecv_eq (mem : ByteMem) (hstate : req.state = .sent) (hlen : headerSize ≤ len)
    (hlt : len < 2 ^ 32) : ∃ req', virtio9pRecv mem req len =
      if mem (req.recv.buf + 4) = rerror then
        if req.recv.zcOffset + min req.recv.zcSize (len - 7) ≤ bufSize then
          .ok (copyBytes mem (req.recv.buf + req.recv.zcOffset) req.recv.zcBuf
            (min req.recv.zcSize (len - 7)), req')
        else .error .outOfBounds
      else .ok (mem, req') := by
  have hsub : subU32 len headerSize = len - 7 := by
    simp only [headerSize] at hlen
    unfold subU32 headerSize
    omega
  have hbuf := length_recvBytes req mem
  rw [virtio9pRecv, ← replyType_recvBytes req mem, ← hsub]
  generalize req.recvBytes mem = buf at *
  obtain ⟨r, req₁, fcall, hcb, hrecv⟩ :=
    uk9preqReceiveCb_recv (req.withBuf buf) hstate hbuf hlen hlt
  rw [hcb, ok_bind]
  simp only [fixupSize, hrecv]
  exact ⟨_, rfl⟩

/-- **Rerror reassembly.** An `Rerror` that the device has written to the posted buffers stands in
the receive buffer after `virtio_9p_recv`. -/
theorem virtio_9p_recv_rerror (mem : ByteMem) (req : Uk9preq) (msg : List UInt8)
    (hreq : ReadSent req) (hlen : headerSize ≤ msg.length) (hmax : msg.length ≤ rerrorMaxsize)
    (htype : msg[4]? = some rerror) :
    ∃ mem' req', virtio9pRecv (scatter mem (writeRanges req) msg) req msg.length =
        .ok (mem', req') ∧
      (List.range msg.length).map (fun i => mem' (req.recv.buf + i)) = msg := by
  have hat {i : Nat} {b : UInt8} (hb : msg[i]? = some b) := hreq.scatter_apply mem hmax hb
  generalize scatter mem (writeRanges req) msg = posted at *
  have htypeAt : posted (req.recv.buf + 4) = rerror := hat htype
  obtain ⟨req', heq⟩ := virtio9pRecv_eq posted hreq.state hlen (hmax.trans_lt (by decide))
  simp only [headerSize, rerrorMaxsize] at hlen hmax
  rw [if_pos htypeAt, hreq.zc_offset, if_pos (by simp only [bufSize]; omega)] at heq
  refine ⟨_, req', heq, ext_getElem? fun i => ?_⟩
  by_cases hi : i < msg.length
  · obtain ⟨b, hb⟩ : ∃ b, msg[i]? = some b := ⟨_, getElem?_eq_getElem hi⟩
    have hbyte := hat hb
    rw [hb, getElem?_map, getElem?_range hi, Option.map_some, copyBytes]
    congr 1
    -- the copy may go on behind the message, but not behind the buffer of the user
    split_ifs at hbyte ⊢ with hmid hcopy hcopy
    · rw [← hbyte]
      congr 1
      omega
    · omega
    · omega
    · exact hbyte
  · rw [getElem?_eq_none (by simpa using hi), getElem?_eq_none (Nat.le_of_not_lt hi)]

theorem readSent_sentRead (bytes : List UInt8) (h : zcSize < 2 ^ 32) :
    ReadSent (sentRead zcSize bytes) :=
  ⟨rfl, rfl, show 0x30000 + 2048 < 2 ^ 64 by decide, rfl, rfl, show 0x50000 ≠ 0 by decide, h,
    fun _ => ⟨show 0x50000 + zcSize < 2 ^ 64 by omega, .inl (show 0x30800 ≤ 0x50000 by decide)⟩⟩

/-- An `Rerror` of 15 bytes to a request for two bytes lies in all three places. -/
theorem virtio_9p_recv_rerror_two :
    ∃ mem' req', virtio9pRecv (scatter (fun _ => 0) (writeRanges (sentRead 2 []))
        [15, 0, 0, 0, 107, 1, 0, 2, 0, 110, 111, 5, 0, 0, 0]) (sentRead 2 []) 15 =
        .ok (mem', req') ∧
      (List.range 15).map (fun i => mem' (0x30400 + i)) =
        [15, 0, 0, 0, 107, 1, 0, 2, 0, 110, 111, 5, 0, 0, 0] :=
  virtio_9p_recv_rerror (fun _ => 0) (sentRead 2 [])
    [15, 0, 0, 0, 107, 1, 0, 2, 0, 110, 111, 5, 0, 0, 0]
    (readSent_sentRead [] (by decide)) (by decide) (by decide) rfl

/-- What is to hold of the copy: it returns, changes only `recv_buf`, and the number of bytes is not
that of a difference that has wrapped. -/
def CopyInBuffer (mem : ByteMem) (req : Uk9preq) (len : Nat) : Prop :=
  (∃ mem' req', virtio9pRecv mem req len = .ok (mem', req') ∧
    ∀ x, x < req.recv.buf ∨ req.recv.buf + bufSize ≤ x → mem' x = mem x) ∧
  ∀ r req', uk9preqReceiveCb (req.withBuf (req.recvBytes mem)) len = .ok (r, req') →
    req'.recv.type = rerror → fixupSize req' len ≤ len - headerSize

/-- An `Rerror` is not too long for the buffer; and if there is no header, the type that is left
from an earlier reply is not `Rerror`, or there is nothing to be copied. -/
def ShortError (mem : ByteMem) (req : Uk9preq) (len : Nat) : Prop :=
  if len < headerSize then req.recv.type = rerror → req.recv.zcSize = 0
  else mem (req.recv.buf + 4) = rerror → req.recv.zcSize ≤ 1013 ∨ len ≤ 1020

/-- **The copy stays inside of `recv_buf`**, with the right number of bytes, exactly if the reply is
no `Rerror` that is too long and no type is left from an earlier one. -/
theorem virtio_9p_recv_in_buffer (mem : ByteMem) (req : Uk9preq) (len : Nat)
    (hreq : ReadSent req) (hlt : len < 2 ^ 32) :
    CopyInBuffer mem req len ↔ ShortError mem req len := by
  unfold ShortError
  by_cases hlen : len < headerSize
  · rw [if_pos hlen, CopyInBuffer, virtio9pRecv]
    generalize req.recvBytes mem = buf
    have hcb : uk9preqReceiveCb (req.withBuf buf) len = .ok (.error .eio, req.withBuf buf) := by
      rw [uk9preqReceiveCb, if_pos hlen]
      exact if_neg (not_not.mpr hreq.state)
    have hsize : fixupSize (req.withBuf buf) len = min req.recv.zcSize (subU32 len headerSize) :=
      rfl
    have hwrap : 0 < subU32 len headerSize := by
      simp only [headerSize] at hlen
      unfold subU32 headerSize
      omega
    constructor
    · rintro ⟨-, hcount⟩ htype
      have hle := hcount _ _ hcb htype
      omega
    · intro hzero
      refine ⟨?_, fun r req' heq htype => ?_⟩
      · rw [hcb, ok_bind]
        by_cases htype : req.recv.type = rerror
        · have hnone : fixupSize (req.withBuf buf) len = 0 := by
            rw [hsize, hzero htype, Nat.zero_min]
          have hfit : req.recv.zcOffset + 0 ≤ bufSize := by
            rw [hreq.zc_offset]
            decide
          simp only [hnone]
          refine ⟨_, _, (if_pos htype).trans (if_pos hfit), fun x _ => if_neg (by omega)⟩
        · exact ⟨mem, _, if_neg htype, fun _ _ => rfl⟩
      · cases hcb.symm.trans heq
        rw [hsize, hzero htype, Nat.zero_min]
        exact Nat.zero_le _
  rw [if_neg hlen]
  obtain ⟨req', heq⟩ := virtio9pRecv_eq mem hreq.state (Nat.le_of_not_lt hlen) hlt
  have hcount : ∀ r req', uk9preqReceiveCb (req.withBuf (req.recvBytes mem)) len = .ok (r, req') →
      req'.recv.type = rerror → fixupSize req' len ≤ len - headerSize := fun _ _ _ _ => by
    refine (min_le_right _ _).trans (le_of_eq ?_)
    simp only [headerSize] at hlen
    unfold subU32 headerSize
    omega
  rw [hreq.zc_offset] at heq
  constructor
  · rintro ⟨⟨mem', req₁, hcall, -⟩, -⟩ htype
    rw [heq, if_pos htype] at hcall
    split_ifs at hcall with hfit
    simp only [headerSize, bufSize] at *
    omega
  · refine fun hshort => ⟨?_, hcount⟩
    by_cases htype : mem (req.recv.buf + 4) = rerror
    · have hfit : 11 + min req.recv.zcSize (len - 7) ≤ bufSize := by
        have := hshort htype
        simp only [bufSize]
        omega
      rw [if_pos htype, if_pos hfit] at heq
      exact ⟨_, req', heq, fun x hx => if_neg (by omega)⟩
    · rw [if_neg htype] at heq
      exact ⟨mem, req', heq, fun _ _ => rfl⟩

/-- A request that `uk_9p_read` has filled in. -/
def startedRead : Uk9preq :=
  { p9Request 1024 1024 0 0 with
    xmit := ⟨⟨List.replicate 1024 0, 1024, 23⟩, 116, 0x30000, 0, 0, 0⟩
    state := .initialized }

/-- The request for a page is made ready and sent, and the reply is an `Rread`. -/
theorem virtio_9p_recv_in_buffer_rread : ∃ ready dev' sent mem' req',
    uk9preqReady startedRead .read 0x50000 4096 11 = .ok (.ok (), ready) ∧
    virtio9pRequest p9Device ready = .ok (.ok (), dev', sent) ∧
    virtio9pRecv (fun _ => 117) sent 4107 = .ok (mem', req') ∧
    ∀ x, x < sent.recv.buf ∨ sent.recv.buf + bufSize ≤ x → mem' x = 117 := by
  obtain ⟨ready, hready, hrun⟩ := exists_of_eval
    (uk9preqReady startedRead .read 0x50000 4096 11) (fun ready =>
      (virtio9pRequest p9Device ready).toOption.map fun r => r.1.toOption)
    (a := .ok ()) (b := some (some ())) (by decide +kernel)
  obtain ⟨⟨dev', sent⟩, hsend⟩ := exists_of_toOption hrun
  have hinit : Initialized startedRead :=
    ⟨rfl, rfl, by decide, by decide, by decide, by decide, by decide, ⟨rfl, rfl⟩, ⟨rfl, rfl⟩⟩
  have hsent : ReadSent sent := hinit.readSent (by decide) (by decide)
    ⟨by decide, .inl (by decide)⟩ hready hsend
  obtain ⟨⟨mem', req', heq, hframe⟩, -⟩ := (virtio_9p_recv_in_buffer (fun _ => 117) sent 4107
    hsent (by decide)).mpr fun h => absurd h (show (117 : UInt8) ≠ rerror by decide)
  exact ⟨ready, dev', sent, mem', req', hready, hsend, heq, hframe⟩

/-- An `Rerror` of 2000 bytes is copied behind the end of `recv_buf`; and with a reply of three
bytes, all 100 bytes of the user are copied, by the type of an earlier reply. -/
theorem virtio_9p_recv_overflow :
    virtio9pRecv (fun _ => 107) (sentRead 4096 []) 2000 = .error .outOfBounds ∧
      ∃ req', virtio9pRecv (fun _ => 107) (sentRead 100 []) 3 =
        .ok (copyBytes (fun _ => 107) (0x30400 + 11) 0x50000 100, req') := by
  refine ⟨?_, _, rfl⟩
  have hstate : (sentRead 4096 []).state = .sent := rfl
  obtain ⟨req', heq⟩ := virtio9pRecv_eq (fun _ => 107) hstate
    (show headerSize ≤ 2000 by decide) (by decide)
  rw [heq]
  rfl

end Unikraft.Virtio
