import Unikraft.Basic
import Unikraft.Lib.Run
import Unikraft.Lib.Wire

/-!
# The serialisation functions of a 9P request (`uk/9preq.h`)

The `write` family appends a field to the transmit buffer, the `read` family takes one from the
receive buffer.

The buffers are so small that the 32-bit sums of the bound checks do not wrap (`FcallOk`). The
format of each type is its `wire`; the functions write and read it (`writeField_writes`,
`readField_reads`).
-/

namespace Unikraft.Uk9p

open Lib Outcome Cursor

/-! ### The source -/

/-- `UK_9P_BUFSIZE`. -/
def bufSize : Nat := 1024

/-- `UK_9P_HEADER_SIZE`: the size, the type and the tag of a message. -/
def headerSize : Nat := 7

/-- `struct uk_9preq_fcall`: a buffer with its size and the offset of the next access. -/
abbrev Fcall := Cursor

/-- A call that works on one `fcall` of a request. -/
abbrev ReqM := CursorM Fault Errno

/-- `uk_9preq_writebuf` on `req->xmit`. -/
def uk9preqWritebuf (bytes : List UInt8) : ReqM Unit := fun xmit =>
  if xmit.size < addU32 xmit.offset bytes.length then .ok (.error .enobufs, xmit)
  else if xmit.offset + bytes.length ≤ xmit.buf.length then
    .ok (.ok (), { xmit with
      buf := xmit.buf.take xmit.offset ++ bytes ++ xmit.buf.drop (xmit.offset + bytes.length)
      offset := addU32 xmit.offset bytes.length })
  else .error .outOfBounds

/-- `uk_9preq_readbuf` on `req->recv`. -/
def uk9preqReadbuf (n : Nat) : ReqM (List UInt8) := fun recv =>
  if recv.size < addU32 recv.offset n then .ok (.error .enobufs, recv)
  else do
    let bytes ← copyOut recv.buf recv.offset n
    .ok (.ok bytes, { recv with offset := addU32 recv.offset n })

def uk9preqWrite8 (val : UInt8) : ReqM Unit := uk9preqWritebuf (leBytes 1 val.toNat)

def uk9preqWrite16 (val : UInt16) : ReqM Unit := uk9preqWritebuf (leBytes 2 val.toNat)

def uk9preqWrite32 (val : UInt32) : ReqM Unit := uk9preqWritebuf (leBytes 4 val.toNat)

def uk9preqWrite64 (val : UInt64) : ReqM Unit := uk9preqWritebuf (leBytes 8 val.toNat)

def uk9preqRead8 : ReqM UInt8 := do
  let bytes ← uk9preqReadbuf 1
  return .ofNat (leNat bytes)

def uk9preqRead16 : ReqM UInt16 := do
  let bytes ← uk9preqReadbuf 2
  return .ofNat (leNat bytes)

def uk9preqRead32 : ReqM UInt32 := do
  let bytes ← uk9preqReadbuf 4
  return .ofNat (leNat bytes)

def uk9preqRead64 : ReqM UInt64 := do
  let bytes ← uk9preqReadbuf 8
  return .ofNat (leNat bytes)

/-- `struct uk_9p_qid`. -/
structure Qid where
  type : UInt8
  version : UInt32
  path : UInt64
  deriving Repr, DecidableEq

/-- `struct uk_9p_str`: `data` are the `size` bytes its pointer points to. -/
structure Str where
  size : UInt16
  data : List UInt8
  length_data : data.length = size.toNat
  deriving Repr, DecidableEq

/-- `struct uk_9p_stat`. -/
@[ext] structure Stat where
  size : UInt16
  type : UInt16
  dev : UInt32
  qid : Qid
  mode : UInt32
  atime : UInt32
  mtime : UInt32
  length : UInt64
  name : Str
  uid : Str
  gid : Str
  muid : Str
  extension : Str
  nUid : UInt32
  nGid : UInt32
  nMuid : UInt32
  deriving Repr, DecidableEq

def uk9preqWriteqid (val : Qid) : ReqM Unit := do
  uk9preqWrite8 val.type
  uk9preqWrite32 val.version
  uk9preqWrite64 val.path

def uk9preqReadqid : ReqM Qid := do
  let type ← uk9preqRead8
  let version ← uk9preqRead32
  let path ← uk9preqRead64
  return ⟨type, version, path⟩

def uk9preqWritestr (val : Str) : ReqM Unit := do
  uk9preqWrite16 val.size
  uk9preqWritebuf val.data

/-- The second half of `uk_9preq_readstr`: the data stay in the buffer, and the offset is
advanced before it is compared with the size. -/
def readData (size : UInt16) : ReqM Str := fun recv =>
  let recv' : Fcall := { recv with offset := addU32 recv.offset size.toNat }
  if recv'.size < recv'.offset then .ok (.error .enobufs, recv')
  else if h : recv.offset + size.toNat ≤ recv.buf.length then
    .ok (.ok ⟨size, (recv.buf.drop recv.offset).take size.toNat, by
      rw [List.length_take, List.length_drop]
      omega⟩, recv')
  else .error .outOfBounds

def uk9preqReadstr : ReqM Str := do
  let size ← uk9preqRead16
  readData size

/-- The record as `uk_9preq_writestat` leaves it, with its size filled in by 16-bit
additions. -/
def Stat.sized (val : Stat) : Stat :=
  { val with size := 61 + val.name.size + val.uid.size + val.gid.size + val.muid.size +
      val.extension.size }

def uk9preqWritestat (val : Stat) : ReqM Unit := do
  uk9preqWrite16 val.sized.size
  uk9preqWrite16 val.type
  uk9preqWrite32 val.dev
  uk9preqWriteqid val.qid
  uk9preqWrite32 val.mode
  uk9preqWrite32 val.atime
  uk9preqWrite32 val.mtime
  uk9preqWrite64 val.length
  uk9preqWritestr val.name
  uk9preqWritestr val.uid
  uk9preqWritestr val.gid
  uk9preqWritestr val.muid
  uk9preqWritestr val.extension
  uk9preqWrite32 val.nUid
  uk9preqWrite32 val.nGid
  uk9preqWrite32 val.nMuid

def uk9preqReadstat : ReqM Stat := do
  let size ← uk9preqRead16
  let type ← uk9preqRead16
  let dev ← uk9preqRead32
  let qid ← uk9preqReadqid
  let mode ← uk9preqRead32
  let atime ← uk9preqRead32
  let mtime ← uk9preqRead32
  let length ← uk9preqRead64
  let name ← uk9preqReadstr
  let uid ← uk9preqReadstr
  let gid ← uk9preqReadstr
  let muid ← uk9preqReadstr
  let extension ← uk9preqReadstr
  let nUid ← uk9preqRead32
  let nGid ← uk9preqRead32
  let nMuid ← uk9preqRead32
  return { size, type, dev, qid, mode, atime, mtime, length, name, uid, gid, muid, extension,
           nUid, nGid, nMuid }

/-! ### Fields -/

/-- The types of field the functions are there for. -/
inductive Kind
  | u8
  | u16
  | u32
  | u64
  | qid
  | str
  | stat
  deriving Repr, DecidableEq

/-- A field of a message. -/
inductive Field
  | u8 (val : UInt8)
  | u16 (val : UInt16)
  | u32 (val : UInt32)
  | u64 (val : UInt64)
  | qid (val : Qid)
  | str (val : Str)
  | stat (val : Stat)
  deriving Repr, DecidableEq

namespace Field

def kind : Field → Kind
  | u8 _ => .u8
  | u16 _ => .u16
  | u32 _ => .u32
  | u64 _ => .u64
  | qid _ => .qid
  | str _ => .str
  | stat _ => .stat

def written : Field → Field
  | stat val => stat val.sized
  | field => field

end Field

/-- Write a field with the function for its type. -/
def writeField : Field → ReqM Unit
  | .u8 val => uk9preqWrite8 val
  | .u16 val => uk9preqWrite16 val
  | .u32 val => uk9preqWrite32 val
  | .u64 val => uk9preqWrite64 val
  | .qid val => uk9preqWriteqid val
  | .str val => uk9preqWritestr val
  | .stat val => uk9preqWritestat val

/-- Read a field with the function for its type. -/
def readField : Kind → ReqM Field
  | .u8 => do return .u8 (← uk9preqRead8)
  | .u16 => do return .u16 (← uk9preqRead16)
  | .u32 => do return .u32 (← uk9preqRead32)
  | .u64 => do return .u64 (← uk9preqRead64)
  | .qid => do return .qid (← uk9preqReadqid)
  | .str => do return .str (← uk9preqReadstr)
  | .stat => do return .stat (← uk9preqReadstat)

/-- Make one call after the other, whatever the calls before have returned. -/
def callEach {α β : Type} (call : α → ReqM β) :
    List α → Fcall → Outcome (List (Except Errno β) × Fcall)
  | [], f => .ok ([], f)
  | a :: as, f => do
      let (r, f) ← call a f
      let (rs, f) ← callEach call as f
      .ok (r :: rs, f)

/-- What holds of the `fcall`s of a request. The offset is behind the size only where a string has
been refused. -/
structure FcallOk (f : Fcall) : Prop where
  size_le : f.size ≤ f.buf.length
  buf_le : f.buf.length ≤ 2 ^ 31
  offset_le : f.offset ≤ f.size + 65535

/-- A request: the transmit buffer is the array `xmit_buf` of the structure. -/
structure Request where
  xmit : Fcall
  recv : Fcall
  xmit_ok : FcallOk xmit
  recv_ok : FcallOk recv
  length_xmit : xmit.buf.length = bufSize

/-- `uk_9preq_init` as `uk_9pdev_req_create` calls it: the sizes are bounded by `msize`, and the
place of the header is left free. -/
def uk9preqInit (msize : Nat) (xmitBuf recvBuf : List UInt8) (hxmit : xmitBuf.length = bufSize)
    (hrecv : recvBuf.length = bufSize) : Request where
  xmit := { buf := xmitBuf, size := min bufSize msize, offset := headerSize }
  recv := { buf := recvBuf, size := min bufSize msize, offset := 0 }
  xmit_ok := by
    have hheader : headerSize ≤ 65535 := by decide
    exact ⟨(Nat.min_le_left _ _).trans hxmit.ge, hxmit.le.trans (by decide),
      hheader.trans (Nat.le_add_left _ _)⟩
  recv_ok := ⟨(Nat.min_le_left _ _).trans hrecv.ge, hrecv.le.trans (by decide), Nat.zero_le _⟩
  length_xmit := hxmit

/-! ### The format -/

namespace Str

def wire (val : Str) : List UInt8 := leBytes 2 val.size.toNat ++ val.data

theorem length_wire (val : Str) : val.wire.length = 2 + val.size.toNat := by
  rw [wire, List.length_append, length_leBytes, val.length_data]

end Str

def Qid.wire (val : Qid) : List UInt8 :=
  [leBytes 1 val.type.toNat, leBytes 4 val.version.toNat, leBytes 8 val.path.toNat].flatten

namespace Stat

/-- The bytes of a stat record behind its size. -/
def body (val : Stat) : List UInt8 :=
  [leBytes 2 val.type.toNat, leBytes 4 val.dev.toNat, val.qid.wire, leBytes 4 val.mode.toNat,
    leBytes 4 val.atime.toNat, leBytes 4 val.mtime.toNat, leBytes 8 val.length.toNat,
    val.name.wire, val.uid.wire, val.gid.wire, val.muid.wire, val.extension.wire,
    leBytes 4 val.nUid.toNat, leBytes 4 val.nGid.toNat, leBytes 4 val.nMuid.toNat].flatten

def wire (val : Stat) : List UInt8 := leBytes 2 val.size.toNat ++ val.body

theorem length_body (val : Stat) : val.body.length = 61 + (val.name.size.toNat +
    val.uid.size.toNat + val.gid.size.toNat + val.muid.size.toNat +
    val.extension.size.toNat) := by
  simp only [body, Qid.wire, List.flatten_cons, List.flatten_nil, List.length_append,
    length_leBytes, Str.length_wire, List.length_nil]
  omega

/-- **The size of a stat record** that is not too long is the number of bytes behind it. -/
theorem sized_size {val : Stat} (h : val.body.length < 2 ^ 16) :
    val.sized.size.toNat = val.body.length := by
  rw [length_body] at h ⊢
  simp only [sized, UInt16.toNat_add, UInt16.toNat_ofNat]
  omega

end Stat

def Field.wire : Field → List UInt8
  | u8 val => leBytes 1 val.toNat
  | u16 val => leBytes 2 val.toNat
  | u32 val => leBytes 4 val.toNat
  | u64 val => leBytes 8 val.toNat
  | qid val => val.wire
  | str val => val.wire
  | stat val => val.wire

def wireAll (fields : List Field) : List UInt8 := fields.flatMap fun field => field.written.wire

/-! ### The write functions write the format -/

theorem FcallOk.stable : Stable FcallOk := by
  intro f f' h hlen hsize hoff
  refine ⟨?_, hlen ▸ h.buf_le, ?_⟩
  · rw [hlen, hsize]
    exact h.size_le
  rw [hsize]
  exact hoff.trans (Nat.le_add_right _ _)

variable {f : Fcall} {fields : List Field} {bytes : List UInt8} {α : Type} {n : Nat}

theorem FcallOk.addU32_offset (h : FcallOk f) (hn : n < 2 ^ 16) :
    addU32 f.offset n = f.offset + n := by
  have hsize := h.size_le
  have hbuf := h.buf_le
  have hoff := h.offset_le
  exact addU32_eq (by omega)

theorem uk9preqWritebuf_writes (h : bytes.length < 2 ^ 16) :
    Writes FcallOk .enobufs (uk9preqWritebuf bytes) bytes := by
  intro f hf
  have hsum := hf.addU32_offset h
  simp only [uk9preqWritebuf, hsum]
  constructor
  · intro hfit
    rw [if_neg (Nat.not_lt.mpr hfit), if_pos (hfit.trans hf.size_le)]
    rfl
  intro hlarge
  rw [if_pos hlarge]
  exact ⟨f, rfl, hf, rfl, rfl, rfl⟩

theorem writes_seq {m m' : ReqM Unit} {b b' : List UInt8} (h : Writes FcallOk .enobufs m b)
    (h' : Writes FcallOk .enobufs m' b') : Writes FcallOk .enobufs (m >>= fun _ => m') (b ++ b') :=
  h.seq FcallOk.stable (fun _ hf => hf.size_le) h'

theorem leBytes_writes (v : Nat) (h : n < 2 ^ 16) :
    Writes FcallOk .enobufs (uk9preqWritebuf (leBytes n v)) (leBytes n v) :=
  uk9preqWritebuf_writes (by rwa [length_leBytes])

theorem uk9preqWriteqid_writes (val : Qid) :
    Writes FcallOk .enobufs (uk9preqWriteqid val) val.wire :=
  writes_seq (leBytes_writes _ (by decide)) <| writes_seq (leBytes_writes _ (by decide))
    (leBytes_writes _ (by decide)).last

theorem uk9preqWritestr_writes (val : Str) :
    Writes FcallOk .enobufs (uk9preqWritestr val) val.wire :=
  writes_seq (leBytes_writes _ (by decide))
    (uk9preqWritebuf_writes (by rw [val.length_data]; exact val.size.toNat_lt))

theorem uk9preqWritestat_writes (val : Stat) :
    Writes FcallOk .enobufs (uk9preqWritestat val) val.sized.wire := by
  -- the integers up to the identifier of the file, and those up to the first string
  refine writes_seq (leBytes_writes _ (by decide)) ?_
  refine writes_seq (leBytes_writes _ (by decide)) ?_
  refine writes_seq (leBytes_writes _ (by decide)) ?_
  refine writes_seq (uk9preqWriteqid_writes _) ?_
  refine writes_seq (leBytes_writes _ (by decide)) ?_
  refine writes_seq (leBytes_writes _ (by decide)) ?_
  refine writes_seq (leBytes_writes _ (by decide)) ?_
  refine writes_seq (leBytes_writes _ (by decide)) ?_
  -- the strings
  refine writes_seq (uk9preqWritestr_writes _) ?_
  refine writes_seq (uk9preqWritestr_writes _) ?_
  refine writes_seq (uk9preqWritestr_writes _) ?_
  refine writes_seq (uk9preqWritestr_writes _) ?_
  refine writes_seq (uk9preqWritestr_writes _) ?_
  -- the numeric identifiers
  refine writes_seq (leBytes_writes _ (by decide)) ?_
  refine writes_seq (leBytes_writes _ (by decide)) ?_
  exact (leBytes_writes _ (by decide)).last

theorem writeField_writes (field : Field) :
    Writes FcallOk .enobufs (writeField field) field.written.wire := by
  cases field with
  | u8 val | u16 val | u32 val | u64 val => exact leBytes_writes _ (by decide)
  | qid val => exact uk9preqWriteqid_writes val
  | str val => exact uk9preqWritestr_writes val
  | stat val => exact uk9preqWritestat_writes val

/-! ### The read functions read the format -/

theorem window_iff (hlen : bytes.length = n) (hfit : f.offset + n ≤ f.size) :
    bytes <+: f.rest ↔ (f.buf.drop f.offset).take n = bytes := by
  have hwindow : f.rest.take n = (f.buf.drop f.offset).take n := by
    rw [rest, List.drop_take, List.take_take, Nat.min_eq_left (by omega)]
  rw [List.prefix_iff_eq_take, hlen, hwindow, eq_comm]

theorem not_prefix_rest (hlen : bytes.length = n)
    (hpos : 0 < n) (hfull : f.size < f.offset + n) : ¬ bytes <+: f.rest := by
  intro h
  have hne : bytes ≠ [] := by
    rintro rfl
    exact absurd hlen (by simpa using hpos.ne)
  have hfit := offset_add_le h hne
  omega

theorem uk9preqReadbuf_reads (hpos : 0 < n) (hn : n < 2 ^ 16) :
    Reads FcallOk .enobufs (uk9preqReadbuf n) {bytes | bytes.length = n} id := by
  intro f hf
  have hsum := hf.addU32_offset hn
  simp only [uk9preqReadbuf, hsum]
  by_cases hfit : f.offset + n ≤ f.size
  · have hbuf := hfit.trans hf.size_le
    rw [if_neg (Nat.not_lt.mpr hfit), copyOut_ok hbuf, ok_bind]
    constructor
    · intro bytes hlen hnext
      rw [(window_iff hlen hfit).mp hnext, id, hlen]
      rfl
    intro hnone
    have hlen : ((f.buf.drop f.offset).take n).length = n := by
      rw [List.length_take, List.length_drop]
      omega
    exact absurd ((window_iff hlen hfit).mpr rfl) (hnone _ hlen)
  have hfull := Nat.lt_of_not_le hfit
  rw [if_pos hfull]
  exact ⟨fun bytes hlen hnext => absurd hnext (not_prefix_rest hlen hpos hfull),
    fun _ => ⟨f, rfl, hf, rfl, rfl⟩⟩

theorem reads_return {v : α} {S : Set α} {wire : α → List UInt8} (hS : S = {v})
    (hwire : ∀ w, wire w = []) : Reads FcallOk .enobufs (pure v : ReqM α) S wire := by
  rw [hS, funext hwire]
  exact Reads.pure v

theorem leBytes_reads {ofNat : Nat → α} {toNat : α → Nat} (hpos : 0 < n)
    (hn : n < 2 ^ 16) (hlt : ∀ v, toNat v < 256 ^ n) (hof : ∀ v, ofNat (toNat v) = v)
    (hto : ∀ x, x < 256 ^ n → toNat (ofNat x) = x) :
    Reads FcallOk .enobufs (do return ofNat (leNat (← uk9preqReadbuf n)) : ReqM α) Set.univ
      (fun v => leBytes n (toNat v)) := by
  refine (uk9preqReadbuf_reads hpos hn).bind FcallOk.stable (fun v _ => length_leBytes n (toNat v))
    (fun v _ => (List.append_nil _).symm) fun bytes hlen => ?_
  refine reads_return (Set.ext fun v => ?_) fun _ => rfl
  constructor
  · rintro ⟨-, rfl⟩
    exact (congrArg ofNat (leNat_leBytes (hlt v))).trans (hof v) |>.symm
  rintro rfl
  refine ⟨trivial, ?_⟩
  subst hlen
  show leBytes bytes.length (toNat (ofNat (leNat bytes))) = bytes
  rw [hto _ (leNat_lt bytes), leBytes_leNat]

theorem uk9preqRead8_reads :
    Reads FcallOk .enobufs uk9preqRead8 Set.univ (fun v => leBytes 1 v.toNat) :=
  leBytes_reads (by decide) (by decide) UInt8.toNat_lt (fun _ => UInt8.ofNat_toNat)
    fun _ h => UInt8.toNat_ofNat_of_lt' h

theorem uk9preqRead16_reads :
    Reads FcallOk .enobufs uk9preqRead16 Set.univ (fun v => leBytes 2 v.toNat) :=
  leBytes_reads (by decide) (by decide) UInt16.toNat_lt (fun _ => UInt16.ofNat_toNat)
    fun _ h => UInt16.toNat_ofNat_of_lt' h

theorem uk9preqRead32_reads :
    Reads FcallOk .enobufs uk9preqRead32 Set.univ (fun v => leBytes 4 v.toNat) :=
  leBytes_reads (by decide) (by decide) UInt32.toNat_lt (fun _ => UInt32.ofNat_toNat)
    fun _ h => UInt32.toNat_ofNat_of_lt' h

theorem uk9preqRead64_reads :
    Reads FcallOk .enobufs uk9preqRead64 Set.univ (fun v => leBytes 8 v.toNat) :=
  leBytes_reads (by decide) (by decide) UInt64.toNat_lt (fun _ => UInt64.ofNat_toNat)
    fun _ h => UInt64.toNat_ofNat_of_lt' h

theorem reads_part {β : Type} {m : ReqM α} {k : α → ReqM β} {T : Set β}
    {wire : α → List UInt8} {wire₂ : β → List UInt8} (p : β → α)
    (h : Reads FcallOk .enobufs m Set.univ wire)
    (hk : ∀ v, Reads FcallOk .enobufs (k v) {w | w ∈ T ∧ p w = v} wire₂) :
    Reads FcallOk .enobufs (m >>= k) T (fun w => wire (p w) ++ wire₂ w) :=
  h.bind FcallOk.stable (fun _ _ => trivial) (fun _ _ => rfl) fun v _ => hk v

theorem uk9preqReadqid_reads : Reads FcallOk .enobufs uk9preqReadqid Set.univ Qid.wire := by
  refine reads_part Qid.type uk9preqRead8_reads fun type => ?_
  refine reads_part Qid.version uk9preqRead32_reads fun version => ?_
  refine reads_part Qid.path uk9preqRead64_reads fun path => ?_
  refine reads_return (Set.ext fun val => ?_) fun _ => rfl
  constructor
  · rintro ⟨⟨⟨-, rfl⟩, rfl⟩, rfl⟩
    rfl
  rintro rfl
  exact ⟨⟨⟨trivial, rfl⟩, rfl⟩, rfl⟩

/-- The data of a string, at an offset that is not behind the size. Only here is the offset
advanced before it is checked. -/
theorem readData_reads (hf : FcallOk f) (hoff : f.offset ≤ f.size) (size : UInt16) :
    (∀ val : Str, val.size = size → val.data <+: f.rest →
      readData size f = .ok (.ok val, f.advance size.toNat)) ∧
    ((∀ val : Str, val.size = size → ¬ val.data <+: f.rest) →
      ∃ f', readData size f = .ok (.error .enobufs, f') ∧ FcallOk f' ∧ f'.buf = f.buf ∧
        f'.size = f.size) := by
  have hsum := hf.addU32_offset size.toNat_lt
  simp only [readData, hsum]
  by_cases hfit : f.offset + size.toNat ≤ f.size
  · rw [if_neg (Nat.not_lt.mpr hfit), dif_pos (hfit.trans hf.size_le)]
    constructor
    · rintro ⟨_, data, hlen⟩ rfl hnext
      have hdata := (window_iff hlen hfit).mp hnext
      subst hdata
      rfl
    intro hnone
    have hlen : ((f.buf.drop f.offset).take size.toNat).length = size.toNat := by
      rw [List.length_take, List.length_drop]
      have := hf.size_le
      omega
    exact absurd ((window_iff hlen hfit).mpr rfl) (hnone ⟨size, _, hlen⟩ rfl)
  have hfull := Nat.lt_of_not_le hfit
  rw [if_pos hfull]
  constructor
  · rintro val rfl hnext
    exact absurd hnext (not_prefix_rest val.length_data (by omega) hfull)
  intro _
  have hlt := size.toNat_lt
  exact ⟨_, rfl, ⟨hf.size_le, hf.buf_le, by simp only; omega⟩, rfl, rfl⟩

theorem uk9preqReadstr_reads : Reads FcallOk .enobufs uk9preqReadstr Set.univ Str.wire := by
  intro f hf
  have hread := uk9preqRead16_reads f hf
  by_cases hsize : ∃ size : UInt16, leBytes 2 size.toNat <+: f.rest
  · obtain ⟨size, hnext⟩ := hsize
    have hfirst := hread.1 size trivial hnext
    have hoff := offset_add_le hnext (List.cons_ne_nil _ _)
    rw [length_leBytes] at hfirst hoff
    have hok : FcallOk (f.advance 2) := FcallOk.stable f _ hf rfl rfl hoff
    have hrun : uk9preqReadstr f = readData size (f.advance 2) := CursorM.bind_ok hfirst
    -- the size read is that of every string that comes next
    have hsame : ∀ val : Str, val.wire <+: f.rest ↔
        val.size = size ∧ val.data <+: (f.advance 2).rest := by
      intro val
      rw [Str.wire, append_next_iff, length_leBytes]
      refine and_congr_left fun _ => ⟨fun hval => ?_, fun hval => hval ▸ hnext⟩
      have hother := hread.1 val.size trivial hval
      rw [length_leBytes, hfirst] at hother
      exact (Except.ok.inj (congrArg Prod.fst (Except.ok.inj hother))).symm
    rw [hrun]
    obtain ⟨hsome, hnone⟩ := readData_reads hok hoff size
    constructor
    · intro val _ hval
      obtain ⟨hval₁, hval₂⟩ := (hsame val).mp hval
      rw [hsome val hval₁ hval₂, Str.length_wire, advance_advance, hval₁]
    intro hno
    exact hnone fun val hval₁ hval₂ => hno val trivial ((hsame val).mpr ⟨hval₁, hval₂⟩)
  simp only [not_exists] at hsize
  obtain ⟨f', heq, hkeep⟩ := hread.2 fun size _ => hsize size
  refine ⟨fun val _ hval => ?_, fun _ => ⟨f', CursorM.bind_error heq, hkeep⟩⟩
  exact absurd (append_next_iff.mp hval).1 (hsize _)

theorem uk9preqReadstat_reads : Reads FcallOk .enobufs uk9preqReadstat Set.univ Stat.wire := by
  refine reads_part Stat.size uk9preqRead16_reads fun size => ?_
  refine reads_part Stat.type uk9preqRead16_reads fun type => ?_
  refine reads_part Stat.dev uk9preqRead32_reads fun dev => ?_
  refine reads_part Stat.qid uk9preqReadqid_reads fun qid => ?_
  refine reads_part Stat.mode uk9preqRead32_reads fun mode => ?_
  refine reads_part Stat.atime uk9preqRead32_reads fun atime => ?_
  refine reads_part Stat.mtime uk9preqRead32_reads fun mtime => ?_
  refine reads_part Stat.length uk9preqRead64_reads fun length => ?_
  refine reads_part Stat.name uk9preqReadstr_reads fun name => ?_
  refine reads_part Stat.uid uk9preqReadstr_reads fun uid => ?_
  refine reads_part Stat.gid uk9preqReadstr_reads fun gid => ?_
  refine reads_part Stat.muid uk9preqReadstr_reads fun muid => ?_
  refine reads_part Stat.extension uk9preqReadstr_reads fun extension => ?_
  refine reads_part Stat.nUid uk9preqRead32_reads fun nUid => ?_
  refine reads_part Stat.nGid uk9preqRead32_reads fun nGid => ?_
  refine reads_part Stat.nMuid uk9preqRead32_reads fun nMuid => ?_
  -- the sixteen fields determine the record
  refine reads_return (Set.ext fun val => ?_) fun _ => rfl
  simp only [Set.mem_univ, true_and, Set.mem_ofPred_eq, Set.mem_singleton_iff, and_assoc,
    Stat.ext_iff]

theorem reads_field {m : ReqM α} {wire : α → List UInt8} {mk : α → Field}
    {kind : Kind} (h : Reads FcallOk .enobufs m Set.univ wire)
    (hwire : ∀ v, (mk v).wire = wire v) (hkind : ∀ field, field.kind = kind ↔ ∃ v, field = mk v) :
    Reads FcallOk .enobufs (do return mk (← m) : ReqM Field) {field | field.kind = kind}
      Field.wire := by
  intro f hf
  obtain ⟨hsome, hnone⟩ := h f hf
  constructor
  · intro field hfield hnext
    obtain ⟨v, rfl⟩ := (hkind field).mp hfield
    rw [hwire] at hnext ⊢
    exact CursorM.bind_ok (hsome v trivial hnext)
  intro hno
  obtain ⟨f', heq, hkeep⟩ := hnone fun v _ hnext =>
    hno (mk v) ((hkind _).mpr ⟨v, rfl⟩) ((hwire v).symm ▸ hnext)
  exact ⟨f', CursorM.bind_error heq, hkeep⟩

theorem readField_reads (kind : Kind) :
    Reads FcallOk .enobufs (readField kind) {field | field.kind = kind} Field.wire := by
  cases kind with
  | u8 =>
    refine reads_field uk9preqRead8_reads (fun _ => rfl) fun field => ?_
    cases field <;> simp [Field.kind]
  | u16 =>
    refine reads_field uk9preqRead16_reads (fun _ => rfl) fun field => ?_
    cases field <;> simp [Field.kind]
  | u32 =>
    refine reads_field uk9preqRead32_reads (fun _ => rfl) fun field => ?_
    cases field <;> simp [Field.kind]
  | u64 =>
    refine reads_field uk9preqRead64_reads (fun _ => rfl) fun field => ?_
    cases field <;> simp [Field.kind]
  | qid =>
    refine reads_field uk9preqReadqid_reads (fun _ => rfl) fun field => ?_
    cases field <;> simp [Field.kind]
  | str =>
    refine reads_field uk9preqReadstr_reads (fun _ => rfl) fun field => ?_
    cases field <;> simp [Field.kind]
  | stat =>
    refine reads_field uk9preqReadstat_reads (fun _ => rfl) fun field => ?_
    cases field <;> simp [Field.kind]

/-! ### Messages -/

theorem wireAll_cons (field : Field) (fields : List Field) :
    wireAll (field :: fields) = field.written.wire ++ wireAll fields := List.flatMap_cons

@[simp] theorem Field.kind_written (field : Field) : field.written.kind = field.kind := by
  cases field <;> rfl

theorem Field.wire_ne_nil (field : Field) : field.wire ≠ [] := by
  cases field <;> exact List.cons_ne_nil _ _

theorem callEach_cons {β : Type} {call : α → ReqM β} {a : α} {as : List α} {f' : Fcall}
    {r : Except Errno β} (h : call a f = .ok (r, f')) :
    callEach call (a :: as) f = (do
      let (rs, f) ← callEach call as f'
      .ok (r :: rs, f)) := by
  rw [callEach, h]
  rfl

section

variable (hf : FcallOk f)

include hf

theorem callEach_writeField (hfit : (wireAll fields).length ≤ f.size - f.offset) :
    callEach writeField fields f = .ok (fields.map fun _ => .ok (), f.put (wireAll fields)) := by
  induction fields generalizing f with
  | nil => rw [callEach, wireAll, List.flatMap_nil, put_nil, List.map_nil]
  | cons field fields ih =>
    have hpos := List.length_pos_iff.mpr field.written.wire_ne_nil
    have hsize := hf.size_le
    rw [wireAll_cons, List.length_append] at hfit
    have hroom : f.offset + field.written.wire.length ≤ f.size := by omega
    have hfirst := (writeField_writes field f hf).1 hroom
    have hput : FcallOk (f.put field.written.wire) :=
      FcallOk.stable.put (fun _ h => h.size_le) hf hroom
    have hrest := ih hput (by simp only [put]; omega)
    rw [callEach_cons hfirst, hrest, ok_bind, put_put (by omega), ← wireAll_cons, List.map_cons]

theorem callEach_writeField_bounded (fields : List Field) :
    ∃ rs f', callEach writeField fields f = .ok (rs, f') ∧ f'.buf.drop f.size = f.buf.drop f.size ∧
      (f.size - f.offset < (wireAll fields).length → .error .enobufs ∈ rs) := by
  induction fields generalizing f with
  | nil => exact ⟨[], f, rfl, rfl, fun hfull => absurd hfull (Nat.not_lt_zero _)⟩
  | cons field fields ih =>
    rw [wireAll_cons, List.length_append]
    by_cases hroom : f.offset + field.written.wire.length ≤ f.size
    · have hfirst := (writeField_writes field f hf).1 hroom
      have hput : FcallOk (f.put field.written.wire) :=
        FcallOk.stable.put (fun _ h => h.size_le) hf hroom
      obtain ⟨rs, f', heq, hdrop, hfull⟩ := ih hput
      refine ⟨.ok () :: rs, f', ?_, hdrop.trans (drop_put hroom hf.size_le), ?_⟩
      · rw [callEach_cons hfirst, heq, ok_bind]
      intro hlarge
      exact List.mem_cons_of_mem _ (hfull (by simp only [put]; omega))
    obtain ⟨f₁, hfirst, hf₁, -, hsize, hdrop₁⟩ :=
      (writeField_writes field f hf).2 (Nat.lt_of_not_le hroom)
    obtain ⟨rs, f', heq, hdrop, -⟩ := ih hf₁
    rw [hsize] at hdrop
    refine ⟨.error .enobufs :: rs, f', ?_, hdrop.trans hdrop₁, fun _ => List.mem_cons_self⟩
    rw [callEach_cons hfirst, heq, ok_bind]

theorem callEach_readField (hnext : wireAll fields <+: f.rest) :
    callEach readField (fields.map Field.kind) f =
      .ok (fields.map fun field => .ok field.written, f.advance (wireAll fields).length) := by
  induction fields generalizing f with
  | nil => rfl
  | cons field fields ih =>
    rw [wireAll_cons] at hnext ⊢
    obtain ⟨hfirst, hrest⟩ := append_next_iff.mp hnext
    have hread := (readField_reads field.kind f hf).1 field.written field.kind_written hfirst
    rw [List.map_cons, callEach_cons hread, ih (FcallOk.stable.advance hf hfirst) hrest,
      ok_bind, advance_advance, List.length_append, List.map_cons]

/-- A read returns and uses no byte behind the size: the bytes of its value stand in front of the
new offset. -/
theorem readField_bounded (kind : Kind) :
    ∃ r f', readField kind f = .ok (r, f') ∧ FcallOk f' ∧ f'.buf = f.buf ∧ f'.size = f.size ∧
      ∀ field, r = .ok field → field.kind = kind ∧ f'.offset ≤ f.size ∧
        (f.buf.take f'.offset).drop f.offset = field.wire := by
  obtain ⟨hsome, hnone⟩ := readField_reads kind f hf
  by_cases hnext : ∃ field : Field, field.kind = kind ∧ field.wire <+: f.rest
  · obtain ⟨field, hkind, hnext⟩ := hnext
    refine ⟨_, _, hsome field hkind hnext, FcallOk.stable.advance hf hnext, rfl, rfl, ?_⟩
    intro field' heq
    cases heq
    have hfit := offset_add_le hnext field.wire_ne_nil
    refine ⟨hkind, hfit, ?_⟩
    rw [advance, List.drop_take, Nat.add_sub_cancel_left]
    exact (window_iff rfl hfit).mp hnext
  simp only [not_exists, not_and] at hnext
  obtain ⟨f', heq, hf', hbuf, hsize⟩ := hnone hnext
  exact ⟨_, f', heq, hf', hbuf, hsize, fun field hfield => by cases hfield⟩

end

/-- The read calls on the receive buffer, in any order. -/
def readStep (recv : Fcall) (kind : Kind) : Outcome (Except Errno Field × Fcall) :=
  readField kind recv

theorem reachable_ok {f₀ : Fcall} (h₀ : FcallOk f₀)
    (h : Reachable readStep (fun _ _ => True) f₀ f) : FcallOk f := by
  refine h.invariant_of_returns h₀ fun f kind hf _ => ?_
  obtain ⟨r, f', hread, hf', -⟩ := readField_bounded hf kind
  exact ⟨r, f', hread, hf'⟩

theorem stat_wire {val : Stat} (hmem : .stat val ∈ fields)
    (hlen : (wireAll fields).length ≤ bufSize) :
    (Field.stat val).written.wire = leBytes 2 val.body.length ++ val.body := by
  have hpart : (Field.stat val).written.wire ∈ fields.map fun field => field.written.wire :=
    List.mem_map_of_mem hmem
  have hsub : (Field.stat val).written.wire.length ≤ (wireAll fields).length :=
    (List.sublist_flatten_of_mem hpart).length_le
  have hbody : val.body.length ≤ (Field.stat val).written.wire.length := by
    show val.body.length ≤ (leBytes 2 val.sized.size.toNat ++ val.body).length
    rw [List.length_append]
    exact Nat.le_add_left _ _
  have hsmall : bufSize < 2 ^ 16 := by decide
  show leBytes 2 val.sized.size.toNat ++ val.body = _
  rw [Stat.sized_size (by omega)]

/-- **9P marshalling.** A message that fits is written in the format of its fields and read back as
the same fields; the size of a stat record is the number of bytes behind it. A message that does not
fit is refused. The functions use no byte behind the size of their buffer. -/
theorem uk_9preq_marshalling (req : Request) (fields : List Field) :
    ((wireAll fields).length ≤ req.xmit.size - req.xmit.offset →
      ∃ xmit, callEach writeField fields req.xmit = .ok (fields.map fun _ => .ok (), xmit) ∧
        xmit.offset = req.xmit.offset + (wireAll fields).length ∧
        (xmit.buf.take xmit.offset).drop req.xmit.offset = wireAll fields ∧
        xmit.buf.drop req.xmit.size = req.xmit.buf.drop req.xmit.size ∧
        (∀ val, .stat val ∈ fields → (Field.stat val).written.wire =
          leBytes 2 val.body.length ++ val.body) ∧
        ∀ recv : Fcall, FcallOk recv →
          (xmit.buf.take xmit.offset).drop req.xmit.offset <+: recv.rest →
          callEach readField (fields.map Field.kind) recv =
            .ok (fields.map fun field => .ok field.written, recv.advance (wireAll fields).length)) ∧
    (req.xmit.size - req.xmit.offset < (wireAll fields).length →
      ∃ rs xmit, callEach writeField fields req.xmit = .ok (rs, xmit) ∧
        .error .enobufs ∈ rs ∧ xmit.buf.drop req.xmit.size = req.xmit.buf.drop req.xmit.size) ∧
    (∀ recv, Reachable readStep (fun _ _ => True) req.recv recv →
      ∀ kind, ∃ r recv', readField kind recv = .ok (r, recv') ∧
        recv'.buf = recv.buf ∧ recv'.size = recv.size ∧
        ∀ field, r = .ok field → field.kind = kind ∧ recv'.offset ≤ recv.size ∧
          (recv.buf.take recv'.offset).drop recv.offset = field.wire) := by
  refine ⟨fun hfit => ?_, fun hfull => ?_, fun recv hreach kind => ?_⟩
  · have hwrite := callEach_writeField req.xmit_ok hfit
    obtain ⟨rs, xmit, heq, hdrop, -⟩ := callEach_writeField_bounded req.xmit_ok fields
    cases hwrite.symm.trans heq
    have hsize := req.xmit_ok.size_le
    have hwindow : ((req.xmit.put (wireAll fields)).buf.take
        (req.xmit.put (wireAll fields)).offset).drop req.xmit.offset = wireAll fields := by
      simp only [List.drop_take, put, Nat.add_sub_cancel_left]
      by_cases hnil : wireAll fields = []
      · rw [hnil]
        rfl
      have hpos := List.length_pos_iff.mpr hnil
      exact window_put (by omega)
    refine ⟨_, hwrite, rfl, hwindow, hdrop, fun val hmem => ?_, fun recv hrecv hnext => ?_⟩
    · exact stat_wire hmem (by rw [← req.length_xmit]; omega)
    rw [hwindow] at hnext
    exact callEach_readField hrecv hnext
  · obtain ⟨rs, xmit, heq, hdrop, herr⟩ := callEach_writeField_bounded req.xmit_ok fields
    exact ⟨rs, xmit, heq, herr hfull, hdrop⟩
  obtain ⟨r, recv', heq, -, hread⟩ := readField_bounded (reachable_ok req.recv_ok hreach) kind
  exact ⟨r, recv', heq, hread⟩

end Unikraft.Uk9p
