import Unikraft.Uk9p.Request

/-!
# `uk_9p_read` and `uk_9p_write` (`lib/uk9p/9p.c`)

The number of bytes of a transfer is limited by the I/O unit of the fid and by the message size,
which the server chooses in its `Rversion`. An I/O unit of 0 is no limit; only `uk_9p_read` tests
for it, and `uk_9p_write` writes nothing.
-/

namespace Unikraft.Uk9p

open Lib Outcome Cursor

/-! ### The source -/

/-- `MIN` of `uk/essentials.h`. -/
def minU32 (a b : UInt32) : UInt32 := if a < b then a else b

/-- The message sizes of `struct uk_9pdev`. -/
structure Uk9pdev where
  msize : UInt32
  maxMsize : UInt32

/-- `uk_9pdev_set_msize`, as `uk_9p_version` calls it with the size of the server. -/
def uk9pdevSetMsize (dev : Uk9pdev) (msize : UInt32) : Bool × Uk9pdev :=
  if dev.maxMsize < msize then (false, dev) else (true, { dev with msize := msize })

/-- The request that `uk_9pdev_req_create` initialises, with its arrays. -/
def newRequest (dev : Uk9pdev) (xmitBuf recvBuf : Vector UInt8 bufSize) : Request :=
  uk9preqInit dev.msize.toNat xmitBuf.toList recvBuf.toList xmitBuf.length_toList
    recvBuf.length_toList

/-- What the transport makes of a message with a zero-copy buffer of some size: an error, or the
receive buffer with the reply. -/
abbrev Transport := Fcall → UInt32 → Except Errno Fcall

/-- The count of a reply. -/
def readReply : Except Errno Fcall → Outcome (Except Errno UInt32)
  | .error e => .ok (.error e)
  | .ok recv => do
    let (count, _) ← uk9preqRead32 recv
    return count

/-- The fields of a `Tread` or `Twrite`. -/
def writeTransfer (fid : UInt32) (offset : UInt64) (count : UInt32) : ReqM Unit := do
  uk9preqWrite32 fid
  uk9preqWrite64 offset
  uk9preqWrite32 count

/-- What `uk_9p_read` and `uk_9p_write` have in common; `req` is what `request_create` returns. -/
def transfer (req : Except Errno Request) (fid : UInt32) (offset : UInt64) (count : UInt32)
    (send : Transport) : Outcome (Except Errno UInt32) :=
  match req with
  | .error e => .ok (.error e)
  | .ok req => do
    match ← writeTransfer fid offset count req.xmit with
    | (.error e, _) => return .error e
    | (.ok (), xmit) => readReply (send xmit count)

/-- `uk_9p_read`, for a fid with the number `fid`. -/
def uk9pRead (dev : Uk9pdev) (req : Except Errno Request) (fid iounit : UInt32) (offset : UInt64)
    (count : UInt32) (send : Transport) : Outcome (Except Errno UInt32) :=
  let count := if iounit ≠ 0 then minU32 count iounit else count
  let count := minU32 count (dev.msize - 11)
  transfer req fid offset count send

def uk9pWrite (dev : Uk9pdev) (req : Except Errno Request) (fid iounit : UInt32)
    (offset : UInt64) (count : UInt32) (send : Transport) : Outcome (Except Errno UInt32) :=
  let count := minU32 count iounit
  let count := minU32 count (dev.msize - 23)
  transfer req fid offset count send

/-! ### The counts -/

/-- The smallest of a count, an I/O unit that is not 0, and the space for data. -/
def allowed (count iounit : UInt32) (space : Nat) : Nat :=
  min (if iounit = 0 then count.toNat else min count.toNat iounit.toNat) space

def transferWire (fid : UInt32) (offset : UInt64) (count : UInt32) : List UInt8 :=
  leBytes 4 fid.toNat ++ (leBytes 8 offset.toNat ++ leBytes 4 count.toNat)

theorem toNat_minU32 (a b : UInt32) : (minU32 a b).toNat = min a.toNat b.toNat := by
  rw [minU32]
  split_ifs with h <;> rw [UInt32.lt_iff_toNat_lt] at h <;> omega

theorem writeTransfer_writes (fid : UInt32) (offset : UInt64) (count : UInt32) :
    Writes FcallOk .enobufs (writeTransfer fid offset count) (transferWire fid offset count) :=
  writes_seq (leBytes_writes _ (by decide))
    (writes_seq (leBytes_writes _ (by decide)) (leBytes_writes _ (by decide)))

/-- A message is sent if its fields fit into the transmit buffer. -/
theorem transfer_eq (req : Request) (fid : UInt32) (offset : UInt64) (count : UInt32)
    (send : Transport) : transfer (.ok req) fid offset count send =
      if req.xmit.offset + 16 ≤ req.xmit.size then
        readReply (send (req.xmit.put (transferWire fid offset count)) count)
      else .ok (.error .enobufs) := by
  have hlen : (transferWire fid offset count).length = 16 := by simp [transferWire]
  obtain ⟨hfit, hfull⟩ := writeTransfer_writes fid offset count _ req.xmit_ok
  rw [hlen] at hfit hfull
  rw [transfer]
  split_ifs with hroom
  · rw [hfit hroom]
    rfl
  obtain ⟨xmit, heq, -⟩ := hfull (Nat.lt_of_not_le hroom)
  rw [heq]
  rfl

/-- A message is sent with the count `n` and with no other one. -/
theorem readReply_send_inj {req : Request} {fid n m : UInt32} {offset : UInt64}
    (h : ∀ send : Transport, readReply (send (req.xmit.put (transferWire fid offset n)) n) =
      readReply (send (req.xmit.put (transferWire fid offset m)) m)) : n = m := by
  by_contra hne
  simpa [readReply, Ne.symm hne] using h fun _ c => if c = n then .error .eio else .error .enomem

/-- **The counts of 9P transfers.** For every message size with room for the fields, a `Tread` is
sent with the smallest of the count, the I/O unit and the space in an `Rread`. A `Twrite` is sent
with the smallest of the count, the unit and the space behind its fields exactly if there is an I/O
unit or no such space. -/
theorem uk_9p_transfer_counts (dev : Uk9pdev) (fid iounit count : UInt32) (offset : UInt64)
    (xmitBuf recvBuf : Vector UInt8 bufSize) (req : Request)
    (hreq : req = newRequest dev xmitBuf recvBuf) (hcount : count ≠ 0) :
    (dev.msize.toNat < 23 → ∀ send,
      uk9pRead dev (.ok req) fid iounit offset count send = .ok (.error .enobufs) ∧
      uk9pWrite dev (.ok req) fid iounit offset count send = .ok (.error .enobufs)) ∧
    (23 ≤ dev.msize.toNat → ∃ n : UInt32,
      n.toNat = allowed count iounit (dev.msize.toNat - 11) ∧ 11 + n.toNat ≤ dev.msize.toNat ∧
      ∀ send, uk9pRead dev (.ok req) fid iounit offset count send =
        readReply (send (req.xmit.put (transferWire fid offset n)) n)) ∧
    (23 ≤ dev.msize.toNat → ((∃ n : UInt32,
      n.toNat = allowed count iounit (dev.msize.toNat - 23) ∧ 23 + n.toNat ≤ dev.msize.toNat ∧
      ∀ send, uk9pWrite dev (.ok req) fid iounit offset count send =
        readReply (send (req.xmit.put (transferWire fid offset n)) n)) ↔
      iounit ≠ 0 ∨ dev.msize.toNat = 23)) := by
  have hroom : req.xmit.offset + 16 ≤ req.xmit.size ↔ 23 ≤ dev.msize.toNat := by
    subst hreq
    show 23 ≤ min 1024 dev.msize.toNat ↔ _
    omega
  have hsub (k : UInt32) (hk : k.toNat ≤ dev.msize.toNat) :
      (dev.msize - k).toNat = dev.msize.toNat - k.toNat :=
    UInt32.toNat_sub_of_le _ _ (UInt32.le_iff_toNat_le.mpr hk)
  refine ⟨fun hsmall send => ?_, fun hlarge => ?_, fun hlarge => ?_⟩
  · have hnot := mt hroom.mp (Nat.not_le.mpr hsmall)
    exact ⟨(transfer_eq ..).trans (if_neg hnot), (transfer_eq ..).trans (if_neg hnot)⟩
  · have hspace := hsub 11 ((show 11 ≤ 23 by decide).trans hlarge)
    refine ⟨_, ?_, ?_, fun send => (transfer_eq ..).trans (if_pos (hroom.mpr hlarge))⟩
    · rw [toNat_minU32, hspace, allowed]
      by_cases hzero : iounit = 0
      · rw [if_neg (not_not.mpr hzero), if_pos hzero]
        rfl
      rw [if_pos hzero, if_neg hzero, toNat_minU32]
      rfl
    rw [toNat_minU32, hspace]
    show 11 + min _ (_ - 11) ≤ _
    omega
  have hspace : (dev.msize - 23).toNat = dev.msize.toNat - 23 := hsub 23 hlarge
  have hsent := fun send => (transfer_eq req fid offset
    (minU32 (minU32 count iounit) (dev.msize - 23)) send).trans (if_pos (hroom.mpr hlarge))
  have hn : (minU32 (minU32 count iounit) (dev.msize - 23)).toNat =
      min (min count.toNat iounit.toNat) (dev.msize.toNat - 23) := by
    rw [toNat_minU32, toNat_minU32, hspace]
  constructor
  · rintro ⟨n, hallowed, -, hsend⟩
    by_contra hnot
    obtain ⟨rfl, hne⟩ : iounit = 0 ∧ dev.msize.toNat ≠ 23 := by simpa using hnot
    -- the count that is sent is 0, and both the count and the space are not
    obtain rfl := readReply_send_inj fun send => (hsent send).symm.trans (hsend send)
    have hpos : count.toNat ≠ 0 := fun h => hcount (UInt32.toNat_inj.mp h)
    rw [hn, allowed, if_pos rfl, UInt32.toNat_zero] at hallowed
    omega
  intro hcond
  refine ⟨_, ?_, ?_, hsent⟩
  · rw [hn, allowed]
    split_ifs with hzero
    · have h23 := hcond.resolve_left (not_not.mpr hzero)
      omega
    · rfl
  · omega

/-- A device whose server has chosen messages of 1000 bytes, and a request of it. -/
def smallDev : Uk9pdev := (uk9pdevSetMsize ⟨8192, 8192⟩ 1000).2

def smallReq : Request := newRequest smallDev (.replicate _ 0) (.replicate _ 0)

theorem uk_9p_transfer_counts_large : ∃ n : UInt32, n.toNat = 989 ∧ ∀ send,
    uk9pRead smallDev (.ok smallReq) 1 0 0 5000 send =
      readReply (send (smallReq.xmit.put (transferWire 1 0 n)) n) := by
  obtain ⟨n, hn, -, hsend⟩ := (uk_9p_transfer_counts smallDev 1 0 5000 0 (.replicate _ 0)
    (.replicate _ 0) smallReq rfl (by decide)).2.1 (by decide)
  exact ⟨n, hn, hsend⟩

/-- Without an I/O unit, a `Twrite` is sent with the count 0, though 977 bytes fit. -/
theorem uk_9p_write_no_iounit : allowed 5000 0 (smallDev.msize.toNat - 23) = 977 ∧ ∀ send,
    uk9pWrite smallDev (.ok smallReq) 1 0 0 5000 send =
      readReply (send (smallReq.xmit.put (transferWire 1 0 0)) 0) :=
  ⟨by decide, fun send => (transfer_eq ..).trans (if_pos (by decide))⟩

end Unikraft.Uk9p
