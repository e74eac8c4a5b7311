import Mathlib.Algebra.Order.BigOperators.Group.List
import Unikraft.Uk9p.Request
import Unikraft.Virtio.Blk

/-!
# 9P requests over virtio (`plat/drivers/virtio/virtio_9p.c`)

`virtio_9p_request` appends the buffers of a request to a scatter/gather list, first those the
device reads, and splits it at the number of segments in between. The list joins adjacent ranges
(`pushAll`), so this is right if the first range the device writes does not start where the last one
it reads ends (`pushAll_detached`): not for a message that fills the transmit buffer.
-/

namespace Unikraft.Virtio

open Lib Uk9p Uksglist Outcome List

/-! ### Requests -/

/-- `UK_9P_RERROR_MAXSIZE`. -/
def rerrorMaxsize : Nat := 141

inductive Uk9preqZcdir
  | none
  | read
  | write
  deriving DecidableEq

inductive Uk9preqState
  | none
  | initialized
  | ready
  | sent
  | received
  deriving DecidableEq

/-- `struct uk_9preq_fcall`: `fcall` has the size, the offset and the bytes of the buffer. -/
structure Uk9preqFcall where
  fcall : Fcall
  type : UInt8
  buf : Nat
  zcBuf : Nat
  zcSize : Nat
  zcOffset : Nat

/-- `fcall.size`. -/
def Uk9preqFcall.size (f : Uk9preqFcall) : Nat := f.fcall.size

/-- `struct uk_9preq` at the address `addr`, where the array `xmit_buf` starts. -/
structure Uk9preq where
  addr : Nat
  xmit : Uk9preqFcall
  recv : Uk9preqFcall
  state : Uk9preqState
  tag : UInt16
  refcount : Nat

/-- The header, as `uk_9preq_ready` writes it. -/
def writeHeader (size : Nat) (type : UInt8) (tag : UInt16) : ReqM Unit := do
  uk9preqWrite32 (UInt32.ofNat size)
  uk9preqWrite8 type
  uk9preqWrite16 tag

def uk9preqReady (req : Uk9preq) (zcDir : Uk9preqZcdir) (zcBuf zcSize zcOffset : Nat) :
    Outcome (Except Errno Unit × Uk9preq) :=
  if req.state ≠ .initialized then .ok (.error .eio, req)
  else do
    let totalSize := req.xmit.fcall.offset
    let totalSizeWithZc := if zcDir = .write then addU32 totalSize zcSize else totalSize
    let (res, fcall) ← writeHeader totalSizeWithZc req.xmit.type req.tag
      { req.xmit.fcall with offset := 0 }
    match res with
    | .error e => return (.error e, { req with xmit := { req.xmit with fcall := fcall } })
    | .ok () =>
      let req := { req with
        xmit := { req.xmit with fcall := { fcall with offset := 0, size := totalSize } }
        state := .ready }
      match zcDir with
      | .none => return (.ok (), req)
      | .write => return (.ok (), { req with
          xmit := { req.xmit with zcBuf := zcBuf, zcSize := zcSize, zcOffset := totalSize } })
      | .read => return (.ok (), { req with
          recv := { req.recv with
            fcall := { req.recv.fcall with size := zcOffset }
            zcBuf := zcBuf, zcSize := zcSize, zcOffset := zcOffset } })

def uk9preqGet (req : Uk9preq) : Uk9preq := { req with refcount := refcountAcquire req.refcount }

/-- `uk_9preq_put`, where it does not drop the last reference. -/
def uk9preqPut (req : Uk9preq) : Uk9preq := { req with refcount := refcountRelease req.refcount }

/-! ### The driver -/

structure Virtio9pDevice (n : RingSize) where
  vrq : VirtqueueVring n
  sg : Sglist

/-- The buffers that `virtio_9p_request` appends for the device to read. -/
def readRanges (req : Uk9preq) : List (Nat × Nat) :=
  (req.xmit.buf, req.xmit.size) ::
    if req.xmit.zcBuf ≠ 0 then [(req.xmit.zcBuf, req.xmit.zcSize)] else []

/-- The buffers that it appends for the device to write, with the space for an `Rerror`. -/
def writeRanges (req : Uk9preq) : List (Nat × Nat) :=
  (req.recv.buf, req.recv.size) ::
    if req.recv.zcBuf ≠ 0 then
      let recvSize := addU32 req.recv.size req.recv.zcSize
      (req.recv.zcBuf, req.recv.zcSize) ::
        if recvSize < rerrorMaxsize then
          [(addU64 req.recv.buf recvSize, rerrorMaxsize - recvSize)]
        else []
    else []

/-- Append buffers until one fails. -/
def appendEach : Sglist → List (Nat × Nat) → Outcome (Except Errno Unit × Sglist)
  | sg, [] => .ok (.ok (), sg)
  | sg, (buf, len) :: ranges => do
      match ← ukSglistAppend sg buf len with
      | (.error e, sg) => return (.error e, sg)
      | (.ok (), sg) => appendEach sg ranges

variable {n : RingSize}

/-- `virtio_9p_request`; the request is the cookie of the buffer. -/
def virtio9pRequest (dev : Virtio9pDevice n) (req : Uk9preq) :
    Outcome (Except Errno Unit × Virtio9pDevice n × Uk9preq) := do
  ukAssert (req.state = .ready)
  let req := uk9preqGet req
  match ← appendEach (ukSglistReset dev.sg) (readRanges req) with
  | (.error e, sg) => return (.error e, { dev with sg := sg }, uk9preqPut req)
  | (.ok (), sg) =>
    let readSegs := sg.nseg
    match ← appendEach sg (writeRanges req) with
    | (.error e, sg) => return (.error e, { dev with sg := sg }, uk9preqPut req)
    | (.ok (), sg) =>
      let writeSegs := sg.nseg - readSegs
      match ← virtqueueBufferEnqueue dev.vrq req.addr sg.segs readSegs writeSegs with
      | (.ok _, vrq) => return (.ok (), ⟨vrq, sg⟩, { req with state := .sent })
      | (.error e, vrq) => return (.error e, ⟨vrq, sg⟩, uk9preqPut req)

/-! ### Rows of appends -/

/-- The segments after a row of appends; an empty buffer adds nothing. -/
def pushAll : List SglistSeg → List (Nat × Nat) → List SglistSeg
  | used, [] => used
  | used, (buf, len) :: ranges =>
    pushAll (if len = 0 then used else pushBuf used buf len) ranges

/-- Addresses that a list can join without an overflow. -/
def Addressable (buf len : Nat) : Prop := 0 < buf ∧ buf + len < 2 ^ 64

variable {sg sg' : Sglist} {used pre : List SglistSeg} {s : SglistSeg} {buf len : Nat}
  {ranges : List (Nat × Nat)}

theorem pushBuf_cases (used : List SglistSeg) (buf len : Nat) :
    (∃ pre s, used = pre ++ [s] ∧ s.paddr + s.len = buf ∧
        pushBuf used buf len = pre ++ [⟨s.paddr, s.len + len⟩]) ∨
      pushBuf used buf len = used ++ [⟨buf, len⟩] := by
  rcases eq_nil_or_concat used with rfl | ⟨pre, s, rfl⟩
  · exact .inr rfl
  rw [concat_eq_append, pushBuf_append, pushBuf]
  split_ifs with hadj
  · exact .inl ⟨pre, s, rfl, hadj, rfl⟩
  · exact .inr (by simp)

theorem addressable_pushBuf (h : ∀ s ∈ used, Addressable s.paddr s.len)
    (hbuf : Addressable buf len) : ∀ s ∈ pushBuf used buf len, Addressable s.paddr s.len := by
  intro t ht
  rcases pushBuf_cases used buf len with ⟨pre, s, rfl, hadj, heq⟩ | heq <;>
    rw [heq, mem_append, mem_singleton] at ht
  · rcases ht with ht | rfl
    · exact h t (by simp [ht])
    · exact ⟨(h s (by simp)).1, by rw [← Nat.add_assoc, hadj]; exact hbuf.2⟩
  rcases ht with ht | rfl
  · exact h t ht
  · exact hbuf

theorem length_pushBuf_le (used : List SglistSeg) (buf len : Nat) :
    (pushBuf used buf len).length ≤ used.length + 1 := by
  rcases pushBuf_cases used buf len with ⟨pre, s, rfl, -, heq⟩ | heq <;> rw [heq] <;> simp

theorem ukSglistAppend_zero (h : ukSglistAppend sg buf 0 = .ok (.ok (), sg')) : sg' = sg := by
  rw [ukSglistAppend, ukSglistAppendBy] at h
  split at h
  · cases h
  cases h
  rfl

/-- **A row of appends that succeeds** leaves the segments of `pushAll`. -/
theorem appendEach_ok (hrep : sg.Rep used) (hlt : used.length + ranges.length + 2 < 2 ^ 16)
    (hused : ∀ s ∈ used, Addressable s.paddr s.len)
    (hranges : ∀ p ∈ ranges, p.2 ≠ 0 → Addressable p.1 p.2)
    (h : appendEach sg ranges = .ok (.ok (), sg')) : sg'.Rep (pushAll used ranges) := by
  induction ranges generalizing sg used with
  | nil =>
    cases h
    exact hrep
  | cons p ranges ih =>
    obtain ⟨buf, len⟩ := p
    rw [appendEach] at h
    obtain ⟨⟨r, sg₁⟩, happend, hrest⟩ := bind_ok.mp h
    rw [length_cons] at hlt
    have htail (p) (hp : p ∈ ranges) := hranges p (mem_cons_of_mem _ hp)
    cases r with
    | error e => cases hrest
    | ok u =>
      rw [pushAll]
      by_cases hzero : len = 0
      · rw [if_pos hzero]
        subst hzero
        obtain rfl := ukSglistAppend_zero happend
        exact ih hrep (by omega) hused htail hrest
      have hbuf : Addressable buf len := hranges _ mem_cons_self hzero
      have hlen := length_pushBuf_le used buf len
      rw [if_neg hzero]
      refine ih ?_ (by omega) (addressable_pushBuf hused hbuf) htail hrest
      exact ukSglistAppend_ok hrep (by omega) hused (Nat.pos_of_ne_zero hzero) hbuf.1
        hbuf.2.le happend

theorem addressable_pushAll (hused : ∀ s ∈ used, Addressable s.paddr s.len)
    (hranges : ∀ p ∈ ranges, p.2 ≠ 0 → Addressable p.1 p.2) :
    ∀ s ∈ pushAll used ranges, Addressable s.paddr s.len := by
  induction ranges generalizing used with
  | nil => exact hused
  | cons p ranges ih =>
    have htail (p) (hp : p ∈ ranges) := hranges p (mem_cons_of_mem _ hp)
    rw [pushAll]
    split_ifs with hzero
    · exact ih hused htail
    · exact ih (addressable_pushBuf hused (hranges p mem_cons_self hzero)) htail

theorem length_pushAll_le (used : List SglistSeg) (ranges : List (Nat × Nat)) :
    (pushAll used ranges).length ≤ used.length + ranges.length := by
  induction ranges generalizing used with
  | nil => exact le_rfl
  | cons p ranges ih =>
    have hlen := length_pushBuf_le used p.1 p.2
    rw [pushAll, length_cons]
    split_ifs with hzero
    · have hle := ih used
      omega
    have hle := ih (pushBuf used p.1 p.2)
    omega

/-- The addresses of the bytes of some segments, in order. -/
def segAddrs (segs : List SglistSeg) : List Nat := segs.flatMap fun s => range' s.paddr s.len

/-- The addresses of the bytes of some buffers, in order. -/
def rangeAddrs (ranges : List (Nat × Nat)) : List Nat :=
  ranges.flatMap fun p => range' p.1 p.2

@[simp] theorem segAddrs_append (segs segs' : List SglistSeg) :
    segAddrs (segs ++ segs') = segAddrs segs ++ segAddrs segs' := flatMap_append

theorem segAddrs_pushBuf (used : List SglistSeg) (buf len : Nat) :
    segAddrs (pushBuf used buf len) = segAddrs used ++ range' buf len := by
  rcases pushBuf_cases used buf len with ⟨pre, s, rfl, hadj, heq⟩ | heq
  · rw [heq, segAddrs_append, segAddrs_append, append_assoc]
    congr 1
    simp only [segAddrs, flatMap_cons, flatMap_nil, append_nil]
    rw [← hadj, range'_append_1]
  rw [heq, segAddrs_append]
  simp [segAddrs]

theorem segAddrs_pushAll (used : List SglistSeg) (ranges : List (Nat × Nat)) :
    segAddrs (pushAll used ranges) = segAddrs used ++ rangeAddrs ranges := by
  induction ranges generalizing used with
  | nil => simp [pushAll, rangeAddrs]
  | cons p ranges ih =>
    obtain ⟨buf, len⟩ := p
    rw [pushAll, ih]
    split_ifs with hzero
    · simp [rangeAddrs, hzero]
    · simp [rangeAddrs, segAddrs_pushBuf]

theorem pushAll_append (hne : used ≠ []) (pre : List SglistSeg) (ranges : List (Nat × Nat)) :
    pushAll (pre ++ used) ranges = pre ++ pushAll used ranges := by
  induction ranges generalizing used with
  | nil => rfl
  | cons p ranges ih =>
    obtain ⟨buf, len⟩ := p
    rw [pushAll, pushAll]
    split_ifs with hzero
    · exact ih hne
    obtain ⟨init, s, rfl⟩ := (eq_nil_or_concat used).resolve_left hne
    rw [concat_eq_append, ← append_assoc, pushBuf_append, pushBuf_append, append_assoc]
    refine ih fun hnil => ?_
    have hlast := (append_eq_nil_iff.mp hnil).2
    rw [pushBuf] at hlast
    split_ifs at hlast

def firstRange (ranges : List (Nat × Nat)) : Option (Nat × Nat) := ranges.find? (·.2 ≠ 0)

/-- **A row that does not start where the list ends is not joined to it.** -/
theorem pushAll_detached (h : ∀ s ∈ used.getLast?, ∀ p ∈ firstRange ranges, s.paddr + s.len ≠ p.1) :
    pushAll used ranges = used ++ pushAll [] ranges := by
  induction ranges with
  | nil => simp [pushAll]
  | cons p ranges ih =>
    obtain ⟨buf, len⟩ := p
    rw [pushAll, pushAll]
    split_ifs with hzero
    · refine ih fun s hs p hp => h s hs p ?_
      rw [firstRange, find?_cons_of_neg (by simpa using hzero)]
      exact hp
    have hpush : pushBuf used buf len = used ++ [⟨buf, len⟩] := by
      rcases pushBuf_cases used buf len with ⟨pre, s, rfl, hadj, -⟩ | heq
      · refine absurd hadj (h s (by simp) (buf, len) ?_)
        rw [firstRange, find?_cons_of_pos (by simpa using hzero)]
        rfl
      · exact heq
    rw [hpush, pushAll_append (by simp)]
    rfl

/-! ### The chain of a list that is split -/

def segDesc (writable : Bool) (s : SglistSeg) : DescPart := ⟨s.paddr, s.len % 2 ^ 32, writable⟩

theorem filterMap_segPart {segs block : List SglistSeg} {off r : Nat} {writable : Bool}
    (hget : ∀ i < block.length, segs[off + i]? = block[i]?)
    (hside : ∀ i < block.length, decide (r ≤ off + i) = writable) :
    (range' off block.length).filterMap (segPart segs 0 r) = block.map (segDesc writable) := by
  induction block generalizing off with
  | nil => rfl
  | cons s block ih =>
    have hfirst : segPart segs 0 r off = some (segDesc writable s) := by
      have hs := hget 0 (by simp)
      have hr := hside 0 (by simp)
      rw [Nat.add_zero] at hs hr
      rw [segPart, Nat.zero_add, hs, ← hr]
      rfl
    rw [length_cons, range'_succ, filterMap_cons_some hfirst, map_cons]
    congr 1
    refine ih (fun i hi => ?_) fun i hi => ?_
    · rw [Nat.add_assoc, Nat.add_comm 1, hget (i + 1) (by simpa using hi)]
      rfl
    · rw [Nat.add_assoc, Nat.add_comm 1, hside (i + 1) (by simpa using hi)]

theorem chain_split {rs ws : List SglistSeg} (hrep : sg.Rep (rs ++ ws)) :
    (range' 0 (rs.length + ws.length)).filterMap (segPart sg.segs 0 rs.length) =
      rs.map (segDesc false) ++ ws.map (segDesc true) := by
  obtain ⟨-, rest, hsegs⟩ := hrep
  rw [← range'_append_1, filterMap_append]
  congr 1
  · refine filterMap_segPart (fun i hi => ?_) fun i hi => ?_
    · rw [hsegs, Nat.zero_add, append_assoc, getElem?_append_left hi]
    · simpa using hi
  refine filterMap_segPart (fun i hi => ?_) fun i hi => ?_
  · rw [hsegs, Nat.zero_add, append_assoc, getElem?_append_right (by omega),
      getElem?_append_left (by omega)]
    congr 1
    omega
  · simp

theorem partBytes_segDesc {segs : List SglistSeg} (h : ∀ s ∈ segs, s.len < 2 ^ 32)
    (writable : Bool) : partBytes (segs.map (segDesc writable)) = segAddrs segs := by
  rw [partBytes, segAddrs, flatMap_map]
  refine flatMap_congr fun s hs => ?_
  rw [segDesc, Nat.mod_eq_of_lt (h s hs)]

theorem len_le_of_mem_pushAll (hs : s ∈ pushAll [] ranges) :
    s.len ≤ (rangeAddrs ranges).length := by
  have hlen := congrArg length (segAddrs_pushAll [] ranges)
  simp only [segAddrs, length_flatMap, length_range', flatMap_nil, nil_append] at hlen
  rw [← hlen]
  exact le_sum_of_mem (mem_map_of_mem hs)

/-! ### The chain of a request -/

/-- The bytes of the zero-copy buffer, if there is one. -/
def Uk9preqFcall.zcLen (f : Uk9preqFcall) : Nat := if f.zcBuf ≠ 0 then f.zcSize else 0

/-- What the device reads: the message, and behind it the zero-copy buffer. -/
def xmitAddrs (req : Uk9preq) : List Nat :=
  range' req.xmit.buf req.xmit.size ++ range' req.xmit.zcBuf req.xmit.zcLen

/-- What the device writes: the receive buffer, the zero-copy buffer and what is missing for an
`Rerror`. -/
def recvAddrs (req : Uk9preq) : List Nat :=
  range' req.recv.buf req.recv.size ++ range' req.recv.zcBuf req.recv.zcLen ++
    range' (req.recv.buf + (req.recv.size + req.recv.zcLen))
      (rerrorMaxsize - (req.recv.size + req.recv.zcLen))

/-- The chain of the request: the device reads and writes what it should, and the descriptors
that it reads come first. -/
structure P9Chain (req : Uk9preq) (chain : List DescPart) : Prop where
  ordered : chain = chain.filter (!·.writable) ++ chain.filter (·.writable)
  readable : partBytes (chain.filter (!·.writable)) = xmitAddrs req
  writable : partBytes (chain.filter (·.writable)) = recvAddrs req

/-- A zero-copy buffer of the user is in memory, apart from the buffers of the request. -/
def UserBuf (addr : Nat) (f : Uk9preqFcall) : Prop :=
  f.zcSize < 2 ^ 32 ∧ (f.zcBuf ≠ 0 → f.zcBuf + f.zcSize < 2 ^ 64 ∧
    (addr + 2 * bufSize ≤ f.zcBuf ∨ f.zcBuf + f.zcSize ≤ addr))

/-- A request that is ready: the buffers are the arrays of the structure, and the message has
at least a header. -/
structure Ready (req : Uk9preq) : Prop where
  state : req.state = .ready
  xmit_buf : req.xmit.buf = req.addr
  recv_buf : req.recv.buf = req.addr + bufSize
  header_le : headerSize ≤ req.xmit.size
  xmit_le : req.xmit.size ≤ bufSize
  recv_le : req.recv.size ≤ bufSize
  addr_pos : 0 < req.addr
  addr_lt : req.addr + 2 * bufSize < 2 ^ 64
  xmit_zc : UserBuf req.addr req.xmit
  recv_zc : UserBuf req.addr req.recv

/-- A request between `uk_9preq_init` and `uk_9preq_ready`: the offset is behind the message that
has been serialised so far. -/
structure Initialized (req : Uk9preq) : Prop where
  xmit_buf : req.xmit.buf = req.addr
  recv_buf : req.recv.buf = req.addr + bufSize
  header_le : headerSize ≤ req.xmit.fcall.offset
  offset_le : req.xmit.fcall.offset ≤ bufSize
  recv_le : req.recv.size ≤ bufSize
  addr_pos : 0 < req.addr
  addr_lt : req.addr + 2 * bufSize < 2 ^ 64
  xmit_zc : req.xmit.zcBuf = 0 ∧ req.xmit.zcSize = 0
  recv_zc : req.recv.zcBuf = 0 ∧ req.recv.zcSize = 0

theorem UserBuf.of_zero {addr : Nat} {f : Uk9preqFcall} (h : f.zcBuf = 0 ∧ f.zcSize = 0) :
    UserBuf addr f := ⟨by rw [h.2]; decide, fun hne => absurd h.1 hne⟩

/-- **`uk_9preq_ready` makes a ready request** of an initialised one. -/
theorem Initialized.ready {req req' : Uk9preq} {zcDir : Uk9preqZcdir} {zcBuf zcSize zcOffset : Nat}
    (h : Initialized req) (hsize : zcSize < 2 ^ 32) (huser : zcBuf ≠ 0 → zcBuf + zcSize < 2 ^ 64 ∧
      (req.addr + 2 * bufSize ≤ zcBuf ∨ zcBuf + zcSize ≤ req.addr))
    (hoff : zcDir = .read → zcOffset ≤ bufSize)
    (hret : uk9preqReady req zcDir zcBuf zcSize zcOffset = .ok (.ok (), req')) : Ready req' := by
  rw [uk9preqReady] at hret
  split at hret
  · cases hret
  obtain ⟨u, fcall, -, hret⟩ := bind_except hret nofun
  cases zcDir with
  | none =>
    cases hret
    exact ⟨rfl, h.xmit_buf, h.recv_buf, h.header_le, h.offset_le, h.recv_le, h.addr_pos,
      h.addr_lt, .of_zero h.xmit_zc, .of_zero h.recv_zc⟩
  | write =>
    cases hret
    exact ⟨rfl, h.xmit_buf, h.recv_buf, h.header_le, h.offset_le, h.recv_le, h.addr_pos,
      h.addr_lt, ⟨hsize, huser⟩, .of_zero h.recv_zc⟩
  | read =>
    cases hret
    exact ⟨rfl, h.xmit_buf, h.recv_buf, h.header_le, h.offset_le, hoff rfl, h.addr_pos,
      h.addr_lt, .of_zero h.xmit_zc, ⟨hsize, huser⟩⟩

def readEnd (req : Uk9preq) : Nat :=
  if req.xmit.zcLen ≠ 0 then req.xmit.zcBuf + req.xmit.zcSize else req.xmit.buf + req.xmit.size

/-- The first buffer the device writes does not start where the last one it reads ends. If the sizes
of the receive buffers wrap, they still leave room for an `Rerror` and are no single segment, and
without a zero-copy buffer there is room for an `Rerror`. -/
structure Separable (req : Uk9preq) : Prop where
  apart : ∀ p ∈ firstRange (writeRanges req), p.1 ≠ readEnd req
  wraps : req.recv.zcBuf ≠ 0 → 2 ^ 32 ≤ req.recv.size + req.recv.zcSize →
    rerrorMaxsize ≤ addU32 req.recv.size req.recv.zcSize ∧
      req.recv.buf + req.recv.size ≠ req.recv.zcBuf
  room : req.recv.zcBuf = 0 → rerrorMaxsize ≤ req.recv.size

variable {req : Uk9preq}

theorem rangeAddrs_readRanges (req : Uk9preq) : rangeAddrs (readRanges req) = xmitAddrs req := by
  unfold readRanges xmitAddrs Uk9preqFcall.zcLen
  split_ifs <;> simp [rangeAddrs]

theorem rangeAddrs_writeRanges (h : Ready req) (hsep : Separable req) :
    rangeAddrs (writeRanges req) = recvAddrs req := by
  have hlt := h.addr_lt
  have hbuf := h.recv_buf
  unfold writeRanges recvAddrs Uk9preqFcall.zcLen
  by_cases hzc : req.recv.zcBuf ≠ 0
  · by_cases hwrap : 2 ^ 32 ≤ req.recv.size + req.recv.zcSize
    · have hnone : rerrorMaxsize - (req.recv.size + req.recv.zcSize) = 0 := by
        simp only [rerrorMaxsize]
        omega
      simp [rangeAddrs, hzc, hnone, Nat.not_lt.mpr (hsep.wraps hzc hwrap).1]
    have hsum := addU32_eq (Nat.lt_of_not_le hwrap)
    simp only [if_pos hzc, hsum]
    split_ifs with hsmall
    · have haddr : addU64 req.recv.buf (req.recv.size + req.recv.zcSize) =
          req.recv.buf + (req.recv.size + req.recv.zcSize) := by
        refine addU64_eq ?_
        simp only [rerrorMaxsize, bufSize] at *
        omega
      simp [rangeAddrs, haddr]
    have hnone : rerrorMaxsize - (req.recv.size + req.recv.zcSize) = 0 := by omega
    simp [rangeAddrs, hnone]
  have hroom := hsep.room (not_not.mp hzc)
  have hnone : rerrorMaxsize - req.recv.size = 0 := by omega
  simp [rangeAddrs, hzc, hnone]

theorem UserBuf.ne {addr k : Nat} {f : Uk9preqFcall} (h : UserBuf addr f) (hlen : f.zcLen ≠ 0)
    (hk : k < 2 * bufSize) : addr + k ≠ f.zcBuf := by
  have hzc : f.zcBuf ≠ 0 := fun h0 => hlen (if_neg (not_not.mpr h0))
  rw [Uk9preqFcall.zcLen, if_pos hzc] at hlen
  have hdisj := (h.2 hzc).2
  omega

section

variable (h : Ready req)

include h

theorem pushAll_readRanges :
    pushAll [] (readRanges req) = ⟨req.xmit.buf, req.xmit.size⟩ ::
      if req.xmit.zcLen ≠ 0 then [⟨req.xmit.zcBuf, req.xmit.zcSize⟩] else [] := by
  have hsize : req.xmit.size ≠ 0 := Nat.ne_of_gt (Nat.lt_of_lt_of_le (by decide) h.header_le)
  have hle := h.xmit_le
  rw [readRanges, pushAll, if_neg hsize, pushBuf]
  by_cases hzc : req.xmit.zcBuf ≠ 0
  · have hlen : req.xmit.zcLen = req.xmit.zcSize := if_pos hzc
    rw [if_pos hzc, pushAll, pushAll, hlen]
    by_cases hzero : req.xmit.zcSize = 0
    · rw [if_pos hzero, if_neg (not_not.mpr hzero)]
    have hne : req.xmit.buf + req.xmit.size ≠ req.xmit.zcBuf := by
      rw [h.xmit_buf]
      refine h.xmit_zc.ne (by rwa [hlen]) (Nat.lt_of_le_of_lt hle (by decide))
    rw [if_neg hzero, if_pos hzero, pushBuf, if_neg hne]
  have hlen : req.xmit.zcLen = 0 := if_neg hzc
  rw [if_neg hzc, pushAll, hlen, if_neg (by simp)]

theorem readEnd_eq :
    ∀ s ∈ (pushAll [] (readRanges req)).getLast?, s.paddr + s.len = readEnd req := by
  rw [pushAll_readRanges h, readEnd]
  split_ifs <;> simp

theorem readRanges_len_lt : ∀ s ∈ pushAll [] (readRanges req), s.len < 2 ^ 32 := by
  have hle := h.xmit_le
  have hzc := h.xmit_zc.1
  rw [pushAll_readRanges h]
  simp only [bufSize] at hle
  intro s hs
  split_ifs at hs <;> simp only [mem_cons, not_mem_nil, or_false] at hs
  · rcases hs with rfl | rfl
    · exact hle.trans_lt (by decide)
    · exact hzc
  subst hs
  exact hle.trans_lt (by decide)

theorem writeRanges_len_lt (hsep : Separable req) :
    ∀ s ∈ pushAll [] (writeRanges req), s.len < 2 ^ 32 := by
  intro s hs
  have hrecv := h.recv_le
  by_cases hwrap : req.recv.zcBuf ≠ 0 ∧ 2 ^ 32 ≤ req.recv.size + req.recv.zcSize
  · -- two segments
    obtain ⟨hroom, hne⟩ := hsep.wraps hwrap.1 hwrap.2
    have hzc := h.recv_zc.1
    simp only [bufSize] at hrecv
    simp only [writeRanges, if_pos hwrap.1, if_neg (Nat.not_lt.mpr hroom)] at hs
    rw [pushAll, if_neg (by omega), pushBuf, pushAll, if_neg (by omega), pushBuf, if_neg hne,
      pushAll] at hs
    simp only [mem_cons, not_mem_nil, or_false] at hs
    rcases hs with rfl | rfl
    · exact hrecv.trans_lt (by decide)
    · exact hzc
  have hle := len_le_of_mem_pushAll hs
  rw [rangeAddrs_writeRanges h hsep, recvAddrs] at hle
  simp only [length_append, length_range', rerrorMaxsize, bufSize] at hle hrecv
  have hlen : req.recv.size + req.recv.zcLen < 2 ^ 32 := by
    unfold Uk9preqFcall.zcLen
    split_ifs with hzc
    · exact Nat.lt_of_not_le fun hle => hwrap ⟨hzc, hle⟩
    · omega
  omega

theorem readRanges_addressable : ∀ p ∈ readRanges req, p.2 ≠ 0 → Addressable p.1 p.2 := by
  have hpos := h.addr_pos
  have hlt := h.addr_lt
  have hle := h.xmit_le
  have hbuf := h.xmit_buf
  intro p hp _
  rw [readRanges] at hp
  split_ifs at hp with hzc <;> simp only [mem_cons, not_mem_nil, or_false] at hp
  · rcases hp with rfl | rfl
    · exact ⟨by omega, by simp only; omega⟩
    · exact ⟨Nat.pos_of_ne_zero hzc, (h.xmit_zc.2 hzc).1⟩
  subst hp
  exact ⟨by omega, by simp only; omega⟩

theorem writeRanges_addressable : ∀ p ∈ writeRanges req, p.2 ≠ 0 → Addressable p.1 p.2 := by
  have hlt := h.addr_lt
  have hle := h.recv_le
  have hbuf := h.recv_buf
  have hsize : bufSize = 1024 := rfl
  have hfirst : Addressable req.recv.buf req.recv.size := ⟨by omega, by omega⟩
  intro p hp _
  rw [writeRanges] at hp
  simp only [mem_cons] at hp
  split_ifs at hp with hzc hsmall <;> simp only [mem_cons, not_mem_nil, or_false] at hp
  · rcases hp with rfl | rfl | rfl
    · exact hfirst
    · exact ⟨Nat.pos_of_ne_zero hzc, (h.recv_zc.2 hzc).1⟩
    simp only [rerrorMaxsize] at hsmall ⊢
    rw [addU64_eq (by omega)]
    exact ⟨by omega, by omega⟩
  · rcases hp with rfl | rfl
    · exact hfirst
    · exact ⟨Nat.pos_of_ne_zero hzc, (h.recv_zc.2 hzc).1⟩
  subst hp
  exact hfirst

end

theorem p9Chain_of_split {rs ws : List SglistSeg} (hrLt : ∀ s ∈ rs, s.len < 2 ^ 32)
    (hwLt : ∀ s ∈ ws, s.len < 2 ^ 32) (hr : segAddrs rs = xmitAddrs req)
    (hw : segAddrs ws = recvAddrs req) :
    P9Chain req (rs.map (segDesc false) ++ ws.map (segDesc true)) := by
  have hfalse : (rs.map (segDesc false) ++ ws.map (segDesc true)).filter (!·.writable) =
      rs.map (segDesc false) := by
    simp [filter_map, Function.comp_def, segDesc]
  have htrue : (rs.map (segDesc false) ++ ws.map (segDesc true)).filter (·.writable) =
      ws.map (segDesc true) := by
    simp [filter_map, Function.comp_def, segDesc]
  exact ⟨by rw [hfalse, htrue], by rw [hfalse, partBytes_segDesc hrLt, hr],
    by rw [htrue, partBytes_segDesc hwLt, hw]⟩

variable {dev dev' : Virtio9pDevice n} {req' : Uk9preq}

theorem virtio9pRequest_inv (h : virtio9pRequest dev req = .ok (.ok (), dev', req')) :
    ∃ sgRead sgWrite rc, appendEach (ukSglistReset dev.sg) (readRanges req) = .ok (.ok (), sgRead) ∧
      appendEach sgRead (writeRanges req) = .ok (.ok (), sgWrite) ∧
      virtqueueBufferEnqueue dev.vrq req.addr sgWrite.segs sgRead.nseg
        (sgWrite.nseg - sgRead.nseg) = .ok (.ok rc, dev'.vrq) ∧
      req' = { uk9preqGet req with state := .sent } := by
  rw [virtio9pRequest] at h
  obtain ⟨-, -, h⟩ := bind_ok.mp h
  obtain ⟨u, sgRead, hread, h⟩ := bind_except h nofun
  obtain ⟨u, sgWrite, hwrite, h⟩ := bind_except h nofun
  obtain ⟨rc, vrq, henq, h⟩ := bind_except h nofun
  cases h
  exact ⟨sgRead, sgWrite, rc, hread, hwrite, henq, rfl⟩

theorem Ready.separable (h : Ready req) (hsmall : req.xmit.size < bufSize)
    (hrecv : 0 < req.recv.size)
    (hsum : req.recv.zcBuf ≠ 0 → req.recv.size + req.recv.zcSize < 2 ^ 32)
    (hroom : req.recv.zcBuf = 0 → rerrorMaxsize ≤ req.recv.size) : Separable req where
  apart p hp := by
    rw [writeRanges, firstRange, find?_cons_of_pos (by simpa using hrecv.ne')] at hp
    cases hp
    rw [readEnd, h.recv_buf, h.xmit_buf]
    split_ifs with hlen
    · have hzc : req.xmit.zcBuf ≠ 0 := fun h0 => hlen (if_neg (not_not.mpr h0))
      rw [Uk9preqFcall.zcLen, if_pos hzc] at hlen
      have hdisj := (h.xmit_zc.2 hzc).2
      have hpos : 0 < bufSize := by decide
      omega
    · omega
  wraps hzc hwrap := absurd (hsum hzc) (Nat.not_lt.mpr hwrap)
  room := hroom

/-- **The chain of a 9P request.** The device reads the message and the zero-copy transmit buffer,
and writes the receive buffers and the rest of an `Rerror`, whenever the two parts of the list can
be told apart. -/
theorem virtio_9p_request_chain (dev dev' : Virtio9pDevice n) (bufs : List Buf)
    (req req' : Uk9preq) (hacc : DescAccounting dev.vrq bufs) (hready : Ready req)
    (hsep : Separable req) (h : virtio9pRequest dev req = .ok (.ok (), dev', req')) :
    P9Chain req (readChain dev'.vrq.desc n.num
      (dev'.vrq.availRing.get (n.slot dev.vrq.vqAvailIdx))) := by
  obtain ⟨sgRead, sgWrite, rc, hread, hwrite, henq, -⟩ := virtio9pRequest_inv h
  have hlenW : (writeRanges req).length ≤ 3 := by
    rw [writeRanges]
    simp only [length_cons]
    split_ifs <;> simp
  have hlenR : (readRanges req).length ≤ 2 := by
    rw [readRanges]
    split_ifs <;> simp
  have hrsLen := length_pushAll_le [] (readRanges req)
  have hwsLen := length_pushAll_le [] (writeRanges req)
  rw [length_nil] at hrsLen hwsLen
  have hreadOk := readRanges_addressable hready
  have hrepR := appendEach_ok (Sglist.Rep.reset _)
    (by rw [length_nil]; omega) (by simp) hreadOk hread
  have hrepW := appendEach_ok hrepR (by omega) (addressable_pushAll (by simp) hreadOk)
    (writeRanges_addressable hready) hwrite
  -- the writable buffers are not joined to the last readable segment
  rw [pushAll_detached fun s hs p hp => by
    rw [readEnd_eq hready s hs]
    exact (hsep.apart p hp).symm] at hrepW
  have hrLt := readRanges_len_lt hready
  have hwLt := writeRanges_len_lt hready hsep
  have hrAddrs := segAddrs_pushAll [] (readRanges req)
  have hwAddrs := segAddrs_pushAll [] (writeRanges req)
  rw [rangeAddrs_readRanges] at hrAddrs
  rw [rangeAddrs_writeRanges hready hsep] at hwAddrs
  generalize pushAll [] (readRanges req) = rs at *
  generalize pushAll [] (writeRanges req) = ws at *
  have hwLen : sgWrite.nseg - sgRead.nseg = ws.length := by
    rw [hrepW.1, hrepR.1, length_append, Nat.add_sub_cancel_left]
  rw [hwLen, hrepR.1] at henq
  rw [virtqueueBufferEnqueue_chain hacc (by omega) henq, chain_split hrepW]
  exact p9Chain_of_split hrLt hwLt hrAddrs hwAddrs

/-- A device with eight descriptors and room for as many segments. -/
def p9Device : Virtio9pDevice ⟨3, by decide⟩ where
  vrq := virtqueueVringInit _ fun _ => ⟨0, 0⟩
  sg := ⟨replicate 8 ⟨0, 0⟩, 0, 8⟩

theorem p9Device_accounting : DescAccounting p9Device.vrq [] := (QueueRep.init _ _).desc

/-- A ready request at `0x30000` with a message of `size` bytes. -/
def p9Request (size recvSize recvZcBuf recvZcSize : Nat) : Uk9preq where
  addr := 0x30000
  xmit := ⟨⟨replicate 1024 0, size, 0⟩, 116, 0x30000, 0, 0, 0⟩
  recv := ⟨⟨replicate 1024 0, recvSize, 0⟩, 0, 0x30400, recvZcBuf, recvZcSize, 0⟩
  state := .ready
  tag := 1
  refcount := 1

/-- A `Tread` of 23 bytes for 100 bytes of data. The header of the reply goes to the receive
buffer, and there are 30 bytes more for an `Rerror`. -/
theorem virtio_9p_request_chain_read :
    ∃ dev' req', virtio9pRequest p9Device (p9Request 23 11 0x50000 100) = .ok (.ok (), dev', req') ∧
      P9Chain (p9Request 23 11 0x50000 100)
        (readChain dev'.vrq.desc 8 (dev'.vrq.availRing.get (RingSize.slot _ 0))) := by
  have hrun : (virtio9pRequest p9Device (p9Request 23 11 0x50000 100)).toOption.map
      (fun r => r.1.toOption) = some (some ()) := by decide +kernel
  obtain ⟨⟨dev', req'⟩, hcall⟩ := exists_of_toOption hrun
  have hready : Ready (p9Request 23 11 0x50000 100) :=
    ⟨rfl, rfl, rfl, by decide, by decide, by decide, by decide, by decide,
      ⟨by decide, fun h => absurd rfl h⟩, ⟨by decide, fun _ => ⟨by decide, .inl (by decide)⟩⟩⟩
  exact ⟨dev', req', hcall, virtio_9p_request_chain p9Device dev' [] (p9Request 23 11 0x50000 100)
    req' p9Device_accounting hready
    (hready.separable (by decide) (by decide) (by decide) (by decide)) hcall⟩

/-- A message that fills the transmit buffer: the receive buffer becomes a part of the readable
segment. -/
theorem virtio_9p_request_chain_full_buffer :
    ∃ dev' req', Ready (p9Request 1024 1024 0 0) ∧
      virtio9pRequest p9Device (p9Request 1024 1024 0 0) = .ok (.ok (), dev', req') ∧
      ¬ P9Chain (p9Request 1024 1024 0 0)
        (readChain dev'.vrq.desc 8 (dev'.vrq.availRing.get (RingSize.slot _ 0))) := by
  have hready : Ready (p9Request 1024 1024 0 0) :=
    ⟨rfl, rfl, rfl, by decide, by decide, by decide, by decide, by decide,
      ⟨by decide, fun h => absurd rfl h⟩, ⟨by decide, fun h => absurd rfl h⟩⟩
  obtain ⟨⟨dev', req'⟩, hcall, hchain⟩ := exists_of_eval
    (virtio9pRequest p9Device (p9Request 1024 1024 0 0))
    (fun r => readChain r.1.vrq.desc 8 (r.1.vrq.availRing.get (RingSize.slot _ 0)))
    (a := .ok ()) (b := [⟨0x30000, 2048, false⟩]) (by decide +kernel)
  refine ⟨dev', req', hready, hcall, fun h => ?_⟩
  -- the receive buffer has bytes, the chain has no writable descriptor
  have hsize : (p9Request 1024 1024 0 0).recv.size = 1024 := rfl
  have hwritable := congrArg length h.writable
  rw [hchain, recvAddrs, hsize, length_append, length_append, length_range'] at hwritable
  have hnone : (0 : Nat) = 1024 + _ + _ := hwritable
  omega

end Unikraft.Virtio
