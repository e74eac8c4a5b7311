import Unikraft.Basic
import Unikraft.Lib.Wire

/-!
# The request ring of Xenstore (`plat/xen/xenbus/xs_comms.c`)

`xs_msg_write` copies a header and the iovecs of a request into a ring of 1024 bytes, in chunks
(`msgLoop_spec`). The last assertion compares the new producer index with the end of the free space
as two wrapped numbers, which is wrong when only the second one has wrapped.
-/

namespace Unikraft.Xenbus

open Lib List

/-! ### The code -/

abbrev xenstoreRingSize : Nat := 1024

def maskXenstoreIdx (idx : Nat) : Nat := idx &&& (xenstoreRingSize - 1)

structure XsdSockmsg where
  type : UInt32
  reqId : UInt32
  txId : UInt32
  len : UInt32

def XsdSockmsg.bytes (hdr : XsdSockmsg) : List UInt8 :=
  leBytes 4 hdr.type.toNat ++ leBytes 4 hdr.reqId.toNat ++ leBytes 4 hdr.txId.toNat ++
    leBytes 4 hdr.len.toNat

/-- `sizeof(struct xsd_sockmsg)`. -/
abbrev sizeofXsdSockmsg : Nat := 16

/-- The request half of `struct xenstore_domain_interface`. -/
structure XenstoreReq where
  req : List UInt8
  reqCons : Nat
  reqProd : Nat

def xsAvailSpaceForWrite (buf : XenstoreReq) (size : Nat) : Prop :=
  addU32 (subU32 buf.reqProd buf.reqCons) size ≤ xenstoreRingSize
  deriving Decidable

/-- What the loop of `xs_msg_write` changes: the ring, `prod`, `req_off` and `buf_off`. -/
structure MsgState where
  req : List UInt8
  prod : Nat
  reqOff : Nat
  bufOff : Nat

/-- The copy of one chunk, which ends where the iovec or the ring ends. -/
def msgChunk (s : MsgState) (crnt : List UInt8) : MsgState :=
  let thisChunkLen := min (crnt.length - s.bufOff) (xenstoreRingSize - maskXenstoreIdx s.prod)
  { req := splice s.req (maskXenstoreIdx s.prod) ((crnt.drop s.bufOff).take thisChunkLen)
    prod := addU32 s.prod thisChunkLen
    reqOff := s.reqOff + thisChunkLen
    bufOff := s.bufOff + thisChunkLen }

/-- The loop of `xs_msg_write`. The iovecs are the current one and those behind it; there is
nothing behind the last one to read. -/
def msgLoop (reqSize : Nat) : Nat → MsgState → List (List UInt8) → Outcome MsgState
  | 0, s, _ => if s.reqOff < reqSize then .error .divergence else .ok s
  | fuel + 1, s, iovecs =>
    if s.reqOff < reqSize then
      match iovecs with
      | [] => .error .outOfBounds
      | crnt :: rest =>
        let s := msgChunk s crnt
        if s.bufOff = crnt.length then msgLoop reqSize fuel { s with bufOff := 0 } rest
        else msgLoop reqSize fuel s (crnt :: rest)
    else .ok s

/-- `xs_msg_write`: the error, if there is one. The event channel is notified. -/
def xsMsgWrite (buf : XenstoreReq) (xsdReq : XsdSockmsg) (iovec : List (List UInt8)) :
    Outcome (Option Errno × XenstoreReq) :=
  let reqSize := addU32 sizeofXsdSockmsg xsdReq.len.toNat
  if xenstoreRingSize < reqSize then .ok (some .enospc, buf)
  else if ¬ xsAvailSpaceForWrite buf reqSize then .ok (some .enospc, buf)
  else do
    let s ← msgLoop reqSize (reqSize + iovec.length + 2) ⟨buf.req, buf.reqProd, 0, 0⟩
      (xsdReq.bytes :: iovec)
    ukAssert (s.bufOff = 0)
    ukAssert (s.reqOff = reqSize)
    ukAssert (s.prod ≤ addU32 buf.reqCons xenstoreRingSize)
    .ok (none, { buf with req := s.req, reqProd := addU32 buf.reqProd reqSize })

/-! ### The loop -/

variable {req : List UInt8} {prod n : Nat}

theorem maskXenstoreIdx_eq (idx : Nat) : maskXenstoreIdx idx = idx % 1024 :=
  Nat.and_two_pow_sub_one_eq_mod idx 10

@[simp] theorem length_bytes (hdr : XsdSockmsg) : hdr.bytes.length = 16 := by
  simp [XsdSockmsg.bytes]

theorem addU32_mod (a b : Nat) : addU32 a b % 1024 = (a + b) % 1024 :=
  Nat.mod_mod_of_dvd _ (by norm_num)

theorem addU32_addU32 (a b c : Nat) : addU32 (addU32 a b) c = addU32 a (b + c) := by
  unfold addU32
  rw [Nat.mod_add_mod, Nat.add_assoc]

variable {s : MsgState} {crnt left : List UInt8}

theorem msgChunk_spec (hlen : s.req.length = 1024) (hle : s.bufOff ≤ crnt.length) :
    ∃ xs ys, crnt.drop s.bufOff = xs ++ ys ∧ s.bufOff + xs.length ≤ crnt.length ∧
      crnt.drop (s.bufOff + xs.length) = ys ∧ (s.bufOff + xs.length = crnt.length ∨ 0 < xs.length) ∧
      msgChunk s crnt = ⟨ringWrite s.req s.prod xs, addU32 s.prod xs.length,
        s.reqOff + xs.length, s.bufOff + xs.length⟩ := by
  have hmask : maskXenstoreIdx s.prod < 1024 := by
    rw [maskXenstoreIdx_eq]
    exact Nat.mod_lt _ (by norm_num)
  unfold msgChunk
  generalize hk : min (crnt.length - s.bufOff) (xenstoreRingSize - maskXenstoreIdx s.prod) = k
  have hchunk : ((crnt.drop s.bufOff).take k).length = k := by
    rw [length_take, length_drop]
    omega
  have hwrite : splice s.req (maskXenstoreIdx s.prod) ((crnt.drop s.bufOff).take k) =
      ringWrite s.req s.prod ((crnt.drop s.bufOff).take k) := by
    have hend : maskXenstoreIdx s.prod + k ≤ 1024 := by
      simp only [xenstoreRingSize] at hk
      omega
    rw [ringWrite, hlen, hchunk, ← maskXenstoreIdx_eq, if_pos hend]
  refine ⟨(crnt.drop s.bufOff).take k, (crnt.drop s.bufOff).drop k, ?_, ?_, ?_, ?_, ?_⟩
  · exact (take_append_drop _ _).symm
  · omega
  · rw [hchunk, drop_drop]
  · simp only [xenstoreRingSize] at hk
    omega
  · simp only [hwrite, hchunk]

theorem ringWrite_chunk {xs ys : List UInt8} (hlen : req.length = 1024)
    (hfit : xs.length + ys.length ≤ 1024) :
    ringWrite (ringWrite req prod xs) (addU32 prod xs.length) ys =
      ringWrite req prod (xs ++ ys) := by
  have hlen' : (ringWrite req prod xs).length = 1024 := by
    rw [length_ringWrite (by omega) (by omega), hlen]
  rw [← ringWrite_append (by omega)]
  refine ringWrite_congr_mod ?_
  rw [hlen', addU32_mod]

/-- **The loop writes what is left of the request** and ends at the end of an iovec. The measure is
the number of bytes and of iovecs that are left: each turn copies a byte or, when the iovec is
empty, goes on to the next one. -/
theorem msgLoop_spec {reqSize fuel : Nat} {iovecs : List (List UInt8)}
    (hleft : iovecs.flatten.drop s.bufOff = left)
    (hlen : s.req.length = 1024) (hprod : s.prod < 2 ^ 32)
    (hoff : s.bufOff = 0 ∨ ∃ crnt ∈ iovecs.head?, s.bufOff < crnt.length)
    (hsize : s.reqOff + left.length = reqSize) (hfit : left.length ≤ 1024)
    (hfuel : left.length + iovecs.length < fuel) :
    msgLoop reqSize fuel s iovecs =
      .ok ⟨ringWrite s.req s.prod left, addU32 s.prod left.length, reqSize, 0⟩ := by
  induction fuel generalizing s iovecs left with
  | zero => omega
  | succ fuel ih =>
    unfold msgLoop
    by_cases hmore : s.reqOff < reqSize
    · rw [if_pos hmore]
      cases iovecs with
      | nil =>
        rw [flatten_nil, drop_nil] at hleft
        rw [← hleft, length_nil] at hsize
        omega
      | cons crnt iovecs =>
        have hle : s.bufOff ≤ crnt.length := by
          rcases hoff with h0 | ⟨c, hc, hlt⟩
          · omega
          cases hc
          exact hlt.le
        obtain ⟨xs, ys, hsplit, hend, hrest, hprogress, hchunk⟩ := msgChunk_spec hlen hle
        -- what is left is the chunk, and then what the next turn finds
        rw [flatten_cons, drop_append_of_le_length hle, hsplit, append_assoc] at hleft
        subst hleft
        rw [length_append] at hsize hfit hfuel
        have hlen' : (ringWrite s.req s.prod xs).length = 1024 := by
          rw [length_ringWrite (by omega) (by omega), hlen]
        have hprod' : addU32 s.prod xs.length < 2 ^ 32 := Nat.mod_lt _ (by norm_num)
        rw [← ringWrite_chunk hlen hfit, length_append, ← addU32_addU32]
        simp only [hchunk]
        split_ifs with hdone
        · -- the iovec ends with the chunk
          obtain rfl : ys = [] := by
            rw [hdone, drop_length] at hrest
            exact hrest.symm
          exact ih rfl hlen' hprod' (.inl rfl) (by simpa [Nat.add_assoc] using hsize)
            (by simp at hfit ⊢; omega) (by simp at hfuel ⊢; omega)
        have hlt : s.bufOff + xs.length < crnt.length := Nat.lt_of_le_of_ne hend hdone
        refine ih ?_ hlen' hprod' (.inr ⟨crnt, rfl, hlt⟩)
          (by simpa [Nat.add_assoc] using hsize) (by omega) (by omega)
        rw [flatten_cons, drop_append_of_le_length hend, hrest]
    rw [if_neg hmore]
    obtain rfl : left = [] := length_eq_zero_iff.mp (by omega)
    -- nothing is left, so that the place is the start of an iovec
    have h0 : s.bufOff = 0 := by
      rcases hoff with h0 | ⟨c, hc, hlt⟩
      · exact h0
      obtain ⟨rest, rfl⟩ := head?_eq_some_iff.mp hc
      rw [flatten_cons, drop_append_of_le_length hlt.le] at hleft
      have hnil := (append_eq_nil_iff.mp hleft).1
      rw [drop_eq_nil_iff] at hnil
      omega
    have hsame : addU32 s.prod 0 = s.prod := addU32_eq hprod
    rw [ringWrite_nil, length_nil, hsame, ← hsize, ← h0]
    rfl

/-! ### Requests -/

/-- The ring has 1024 bytes and 32-bit indices, between which there are at most 1024 bytes. -/
structure RingOk (buf : XenstoreReq) : Prop where
  size : buf.req.length = 1024
  cons_lt : buf.reqCons < 2 ^ 32
  prod_lt : buf.reqProd < 2 ^ 32
  used : subU32 buf.reqProd buf.reqCons ≤ 1024

def message (hdr : XsdSockmsg) (iovec : List (List UInt8)) : List UInt8 :=
  hdr.bytes ++ iovec.flatten

/-- The end of the free space of the ring does not wrap as an index, or the end of a request of
`n` bytes wraps with it. -/
def IndicesAgree (buf : XenstoreReq) (n : Nat) : Prop :=
  buf.reqCons + 1024 < 2 ^ 32 ∨ 2 ^ 32 ≤ buf.reqCons + subU32 buf.reqProd buf.reqCons + n
  deriving Decidable

theorem indicesAgree_iff {buf : XenstoreReq} (h : RingOk buf)
    (hfit : subU32 buf.reqProd buf.reqCons + n ≤ 1024) :
    addU32 buf.reqProd n ≤ addU32 buf.reqCons 1024 ↔ IndicesAgree buf n := by
  have h1 := h.cons_lt
  have h2 := h.prod_lt
  unfold IndicesAgree subU32 addU32 at *
  omega

/-- Header and payload fit in the free space of the ring. -/
def Fits (buf : XenstoreReq) (hdr : XsdSockmsg) : Prop :=
  subU32 buf.reqProd buf.reqCons + (16 + hdr.len.toNat) ≤ 1024
  deriving Decidable

/-- The bytes are at the positions from the producer index on, every other byte is the one it was,
and the index has advanced. -/
structure Accepted (buf : XenstoreReq) (msg : List UInt8) (buf' : XenstoreReq) : Prop where
  length : buf'.req.length = 1024
  written : ∀ i < msg.length, buf'.req[(buf.reqProd + i) % 1024]? = msg[i]?
  kept : ∀ i, msg.length ≤ i → i < 1024 →
    buf'.req[(buf.reqProd + i) % 1024]? = buf.req[(buf.reqProd + i) % 1024]?
  prod : buf'.reqProd = addU32 buf.reqProd msg.length
  cons : buf'.reqCons = buf.reqCons

variable {buf : XenstoreReq} {hdr : XsdSockmsg} {iovec : List (List UInt8)}

def XenstoreReq.written (buf : XenstoreReq) (msg : List UInt8) : XenstoreReq :=
  { buf with
    req := ringWrite buf.req buf.reqProd msg, reqProd := addU32 buf.reqProd msg.length }

theorem accepted_written {msg : List UInt8} (hlen : buf.req.length = 1024)
    (hfit : msg.length ≤ 1024) : Accepted buf msg (buf.written msg) := by
  have hget (i : Nat) (hi : i < 1024) :
      (ringWrite buf.req buf.reqProd msg)[(buf.reqProd + i) % 1024]? =
        if i < msg.length then msg[i]? else buf.req[(buf.reqProd + i) % 1024]? := by
    rw [← hlen]
    exact getElem?_ringWrite (by omega) (by omega)
  exact {
    length := by rw [XenstoreReq.written, length_ringWrite (by omega) (by omega), hlen]
    written := fun i hi => by rw [XenstoreReq.written, hget i (by omega), if_pos hi]
    kept := fun i hi hlt => by rw [XenstoreReq.written, hget i hlt, if_neg (by omega)]
    prod := rfl
    cons := rfl }

theorem length_message (h : iovec.flatten.length = hdr.len.toNat) :
    (message hdr iovec).length = 16 + hdr.len.toNat := by
  rw [message, length_append, length_bytes, h]

theorem xsMsgWrite_of_fits (h : RingOk buf) (hlen : iovec.flatten.length = hdr.len.toNat)
    (hfit : Fits buf hdr) :
    xsMsgWrite buf hdr iovec =
      if IndicesAgree buf (16 + hdr.len.toNat) then .ok (none, buf.written (message hdr iovec))
      else .error .assertion := by
  unfold Fits at hfit
  have hsize : addU32 16 hdr.len.toNat = 16 + hdr.len.toNat := addU32_eq (by omega)
  have hspace : xsAvailSpaceForWrite buf (16 + hdr.len.toNat) := by
    rw [xsAvailSpaceForWrite, addU32_eq (by omega)]
    exact hfit
  have hmsg := length_message hlen
  have hloop : msgLoop (16 + hdr.len.toNat) (16 + hdr.len.toNat + iovec.length + 2)
      ⟨buf.req, buf.reqProd, 0, 0⟩ (hdr.bytes :: iovec) =
      .ok ⟨ringWrite buf.req buf.reqProd (message hdr iovec),
        addU32 buf.reqProd (message hdr iovec).length, 16 + hdr.len.toNat, 0⟩ :=
    msgLoop_spec rfl h.size h.prod_lt (.inl rfl) (by rw [hmsg, Nat.zero_add]) (by omega)
      (by rw [hmsg, length_cons]; omega)
  unfold xsMsgWrite
  simp only [hsize, hspace, not_true, if_false, hloop]
  rw [if_neg (by simp only [xenstoreRingSize]; omega)]
  simp only [Outcome.ok_bind, ukAssert_pos, hmsg, indicesAgree_iff h hfit, XenstoreReq.written]
  by_cases hagree : IndicesAgree buf (16 + hdr.len.toNat)
  · rw [ukAssert_pos hagree, if_pos hagree]
    rfl
  rw [ukAssert_neg hagree, if_neg hagree]
  rfl

theorem xsMsgWrite_of_not_fits (h : RingOk buf) (hnowrap : 16 + hdr.len.toNat < 2 ^ 32)
    (hfit : ¬ Fits buf hdr) : xsMsgWrite buf hdr iovec = .ok (some .enospc, buf) := by
  have hused := h.used
  unfold xsMsgWrite
  simp only [addU32_eq hnowrap]
  by_cases hlarge : xenstoreRingSize < 16 + hdr.len.toNat
  · rw [if_pos hlarge]
  have hle : 16 + hdr.len.toNat ≤ 1024 := Nat.le_of_not_lt hlarge
  have hspace : ¬ xsAvailSpaceForWrite buf (16 + hdr.len.toNat) := by
    rw [xsAvailSpaceForWrite, addU32_eq (by omega)]
    exact hfit
  rw [if_neg hlarge, if_pos hspace]

/-- **A request that fits is copied to the ring, one that does not fit is refused.** The size of the
request must not wrap, and an accepted one must not leave the new producer index below 2^32 when the
end of the free space is above it. -/
theorem xs_msg_write_ring (buf : XenstoreReq) (hdr : XsdSockmsg) (iovec : List (List UInt8))
    (h : RingOk buf) (hlen : (iovec.map List.length).sum = hdr.len.toNat)
    (hnowrap : 16 + hdr.len.toNat < 2 ^ 32)
    (hagree : Fits buf hdr → IndicesAgree buf (16 + hdr.len.toNat)) :
    (Fits buf hdr → ∃ buf', xsMsgWrite buf hdr iovec = .ok (none, buf') ∧
      Accepted buf (hdr.bytes ++ iovec.flatten) buf') ∧
    (¬ Fits buf hdr → xsMsgWrite buf hdr iovec = .ok (some .enospc, buf)) := by
  have hlen' : iovec.flatten.length = hdr.len.toNat := by rw [length_flatten, hlen]
  constructor
  · intro hfit
    refine ⟨buf.written (message hdr iovec), ?_, accepted_written h.size ?_⟩
    · rw [xsMsgWrite_of_fits h hlen' hfit, if_pos (hagree hfit)]
    rw [← message, length_message hlen']
    exact (Nat.le_add_left _ _).trans hfit
  · exact xsMsgWrite_of_not_fits h hnowrap

/-- A header with a payload of three bytes in two iovecs around an empty one, at indices which
make the payload pass the end of the ring. -/
theorem xs_msg_write_ring_three_bytes :
    ∃ buf', xsMsgWrite ⟨List.replicate 1024 0, 1000, 1006⟩ ⟨1, 2, 0, 3⟩ [[97, 98], [], [99]] =
      .ok (none, buf') ∧
      Accepted ⟨List.replicate 1024 0, 1000, 1006⟩
        ((⟨1, 2, 0, 3⟩ : XsdSockmsg).bytes ++ [97, 98, 99]) buf' :=
  (xs_msg_write_ring ⟨List.replicate 1024 0, 1000, 1006⟩ ⟨1, 2, 0, 3⟩ [[97, 98], [], [99]]
    ⟨length_replicate, by decide, by decide, by decide⟩ (by decide) (by decide)
    fun _ => .inl (by decide)).1 (by decide)

/-- An empty ring at the index 2^32 - 1024: the end of the free space is 0 as an index, and the
assertion on a header without payload fails. -/
theorem xs_msg_write_ring_asserts :
    ∃ buf : XenstoreReq, ∃ hdr : XsdSockmsg, RingOk buf ∧
      (([] : List (List UInt8)).map List.length).sum = hdr.len.toNat ∧
      Fits buf hdr ∧ xsMsgWrite buf hdr [] = .error .assertion := by
  have hok : RingOk ⟨List.replicate 1024 0, 2 ^ 32 - 1024, 2 ^ 32 - 1024⟩ :=
    ⟨length_replicate, by decide, by decide, by decide⟩
  refine ⟨_, ⟨1, 2, 0, 0⟩, hok, rfl, by decide, ?_⟩
  rw [xsMsgWrite_of_fits hok rfl (by decide), if_neg (by decide)]

end Unikraft.Xenbus
