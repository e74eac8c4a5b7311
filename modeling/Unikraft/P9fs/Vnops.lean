import Unikraft.Ramfs.File
import Unikraft.Uk9p.Transfer

/-!
# Operations of the 9P file system (`lib/9pfs/9pfs_vnops.c`)

`uk_9pfs_read` and `uk_9pfs_write` transfer bytes with the first iovec of a list. Their loop that
skips empty iovecs tests a pointer that it does not move, and the count of the server is subtracted
without a test. A fid is stored or put, but not tested for an error pointer in
`uk_9pfs_create_generic`, and kept if a write fails.
-/

namespace Unikraft.P9fs

open Lib Uk9p Outcome

/-! ### Transfers -/

structure Iovec where
  base : Nat
  len : Nat
  deriving DecidableEq

/-- `struct uio`: `iov` is the position of `uio_iov` in the array. -/
structure Uio where
  iovs : List Iovec
  iov : Nat
  iovcnt : Int
  offset : Int
  resid : Int
  deriving DecidableEq

/-- The loop `while (!iov->iov_len)`: only `uio` changes. -/
def skipEmpty (iov : Iovec) : Nat → Uio → Outcome Uio
  | 0, _ => .error .divergence
  | fuel + 1, uio =>
    if iov.len ≠ 0 then .ok uio
    else skipEmpty iov fuel { uio with iov := uio.iov + 1, iovcnt := uio.iovcnt - 1 }

/-- A 9P call for a transfer, with the offset and the count. -/
abbrev Io := Int → UInt32 → Outcome (Except Errno UInt32)

/-- The lines that `uk_9pfs_read` and `uk_9pfs_write` share: `rc`, and the `uio`. -/
def transferFirst (fuel : Nat) (uio : Uio) (io : Io) : Outcome (Int × Uio) :=
  match uio.iovs[uio.iov]? with
  | none => .error .outOfBounds
  | some iov => do
    let uio' ← skipEmpty iov fuel uio
    match ← io uio'.offset (.ofNat iov.len) with
    | .error e => .ok (-e.code, uio')
    | .ok count =>
      let rc := toInt count.toNat
      if rc < 0 then .ok (rc, uio')
      else
        let iov := ⟨addU64 iov.base count.toNat, subU64 iov.len count.toNat⟩
        .ok (rc, { uio' with
          iovs := uio'.iovs.set uio.iov iov
          resid := uio'.resid - rc
          offset := uio'.offset + rc })

/-- `uk_9pfs_read`, on a vnode of the given type and size. -/
def uk9pfsRead (fuel : Nat) (vType : Ramfs.VType) (vSize : Int) (uio : Uio) (io : Io) :
    Outcome (Int × Uio) :=
  if vType = .dir then .ok (Errno.eisdir.code, uio)
  else if vType ≠ .reg then .ok (Errno.einval.code, uio)
  else if uio.offset < 0 then .ok (Errno.einval.code, uio)
  else if vSize ≤ uio.offset then .ok (0, uio)
  else if uio.resid = 0 then .ok (0, uio)
  else do
    let (rc, uio) ← transferFirst fuel uio io
    .ok (if rc < 0 then -rc else 0, uio)

/-- What becomes of the fid that `uk_9p_walk` returns. -/
inductive FidUse
  | walked
  | put
  | stored
  deriving DecidableEq

/-- `uk_9pfs_write`: also the new size, and what becomes of the fid. -/
def uk9pfsWrite (fuel : Nat) (vType : Ramfs.VType) (vSize : Int) (uio : Uio) (append : Bool)
    (walk opened : Except Errno Unit) (io : Io) : Outcome (Int × Uio × Int × List FidUse) :=
  if vType = .dir then .ok (Errno.eisdir.code, uio, vSize, [])
  else if vType ≠ .reg then .ok (Errno.einval.code, uio, vSize, [])
  else if uio.offset < 0 then .ok (Errno.einval.code, uio, vSize, [])
  else if 2 ^ 63 - 1 ≤ uio.offset then .ok (Errno.efbig.code, uio, vSize, [])
  else if uio.resid = 0 then .ok (0, uio, vSize, [])
  else
    let uio := { uio with offset := if append then vSize else uio.offset }
    match walk, opened with
    | .error e, _ => .ok (e.code, uio, vSize, [])
    | .ok (), .error e => .ok (e.code, uio, vSize, [.walked, .put])
    | .ok (), .ok () => do
      let (rc, uio) ← transferFirst fuel uio io
      if rc < 0 then .ok (-rc, uio, vSize, [.walked])
      else .ok (0, uio, max vSize uio.offset, [.walked, .put])

variable {uio : Uio} {iov : Iovec} {io : Io} {fuel : Nat}

theorem skipEmpty_of_ne (h : iov.len ≠ 0) (fuel : Nat) : skipEmpty iov (fuel + 1) uio = .ok uio :=
  if_pos h

theorem skipEmpty_zero (iov : Iovec) (h : iov.len = 0) (fuel : Nat) (uio : Uio) :
    skipEmpty iov fuel uio = .error .divergence := by
  induction fuel generalizing uio with
  | zero => rfl
  | succ fuel ih => rw [skipEmpty, if_neg (not_not.mpr h), ih]

variable (uio) in
theorem transferFirst_ok (hget : uio.iovs[uio.iov]? = some iov) (hne : iov.len ≠ 0)
    (hio : ∀ offset count, ∃ r, io offset count = .ok r) (fuel : Nat) :
    ∃ r, transferFirst (fuel + 1) uio io = .ok r := by
  obtain ⟨r, hr⟩ := hio uio.offset (.ofNat iov.len)
  rw [transferFirst, hget]
  simp only [skipEmpty_of_ne hne, ok_bind, hr]
  cases r with
  | error e => exact ⟨_, rfl⟩
  | ok count =>
    simp only
    split_ifs <;> exact ⟨_, rfl⟩

variable (uio) in
theorem transferFirst_empty (hget : uio.iovs[uio.iov]? = some iov) (hzero : iov.len = 0)
    (fuel : Nat) : transferFirst fuel uio io = .error .divergence := by
  rw [transferFirst, hget]
  simp only [skipEmpty_zero iov hzero, error_bind]

/-- `uk_9pfs_read` comes to its loop. -/
def Reads (vType : Ramfs.VType) (vSize : Int) (uio : Uio) : Prop :=
  vType = .reg ∧ 0 ≤ uio.offset ∧ uio.offset < vSize ∧ uio.resid ≠ 0
  deriving Decidable

/-- `uk_9pfs_write` comes to its loop. -/
def Writes (vType : Ramfs.VType) (uio : Uio) (walk opened : Except Errno Unit) : Prop :=
  vType = .reg ∧ 0 ≤ uio.offset ∧ uio.offset < 2 ^ 63 - 1 ∧ uio.resid ≠ 0 ∧ walk = .ok () ∧
    opened = .ok ()

variable {vType : Ramfs.VType} {vSize : Int} {append : Bool} {walk opened : Except Errno Unit}

theorem Reads.eq (h : Reads vType vSize uio) (fuel : Nat) (io : Io) :
    uk9pfsRead fuel vType vSize uio io = (do
      let (rc, uio) ← transferFirst fuel uio io
      .ok (if rc < 0 then -rc else 0, uio)) := by
  obtain ⟨rfl, hoffset, hsize, hresid⟩ := h
  rw [uk9pfsRead, if_neg nofun, if_neg (not_not.mpr rfl), if_neg (Int.not_lt.mpr hoffset),
    if_neg (Int.not_le.mpr hsize), if_neg hresid]

theorem uk9pfsRead_early (h : ¬ Reads vType vSize uio) :
    ∃ rc, ∀ fuel io, uk9pfsRead fuel vType vSize uio io = .ok (rc, uio) := by
  unfold uk9pfsRead
  split_ifs with hdir hreg hoffset hsize hresid
  all_goals first | exact ⟨_, fun _ _ => rfl⟩ | skip
  exact absurd ⟨not_not.mp hreg, Int.not_lt.mp hoffset, Int.not_le.mp hsize, hresid⟩ h

/-- The position that a write starts at. -/
def writeOffset (vSize : Int) (uio : Uio) (append : Bool) : Int :=
  if append then vSize else uio.offset

theorem Writes.eq (h : Writes vType uio walk opened) (fuel : Nat) (io : Io) :
    uk9pfsWrite fuel vType vSize uio append walk opened io = (do
      let (rc, uio) ← transferFirst fuel { uio with offset := writeOffset vSize uio append } io
      if rc < 0 then .ok (-rc, uio, vSize, [.walked])
      else .ok (0, uio, max vSize uio.offset, [.walked, .put])) := by
  obtain ⟨rfl, hoffset, hmax, hresid, rfl, rfl⟩ := h
  rw [uk9pfsWrite, if_neg nofun, if_neg (not_not.mpr rfl), if_neg (Int.not_lt.mpr hoffset),
    if_neg (Int.not_le.mpr hmax), if_neg hresid]
  rfl

variable (vSize append) in
theorem uk9pfsWrite_early (h : ¬ Writes vType uio walk opened) : ∃ r, ∀ fuel io,
    uk9pfsWrite fuel vType vSize uio append walk opened io = .ok r ∧
      (r.2.2.2 = [] ∨ r.2.2.2 = [.walked, .put]) := by
  unfold uk9pfsWrite
  generalize (if append then vSize else uio.offset) = offset
  split_ifs with hdir hreg hoffset hmax hresid
  all_goals first | exact ⟨_, fun _ _ => ⟨rfl, .inl rfl⟩⟩ | skip
  rcases walk with e | ⟨⟩
  · exact ⟨_, fun _ _ => ⟨rfl, .inl rfl⟩⟩
  rcases opened with e | ⟨⟩
  · exact ⟨_, fun _ _ => ⟨rfl, .inr rfl⟩⟩
  exact absurd
    ⟨not_not.mp hreg, Int.not_lt.mp hoffset, Int.not_le.mp hmax, hresid, rfl, rfl⟩ h

/-- **Reads and writes of the 9P file system end**, and they access no iovec behind the list,
exactly if the first iovec of the list is not empty where they come to their loop. -/
theorem uk_9pfs_transfers_end (vType : Ramfs.VType) (vSize : Int) (uio : Uio) (append : Bool)
    (walk opened : Except Errno Unit) (io : Io) (hstart : uio.iov = 0) (hpos : 0 < uio.resid)
    (hsum : uio.resid = ((uio.iovs.map (·.len)).sum : Nat))
    (hio : ∀ offset count, ∃ r, io offset count = .ok r) :
    ((∃ fuel r, uk9pfsRead fuel vType vSize uio io = .ok r) ↔
      (Reads vType vSize uio → ∀ iov ∈ uio.iovs.head?, iov.len ≠ 0)) ∧
    ((∃ fuel r, uk9pfsWrite fuel vType vSize uio append walk opened io = .ok r) ↔
      (Writes vType uio walk opened → ∀ iov ∈ uio.iovs.head?, iov.len ≠ 0)) := by
  obtain ⟨iov, hget⟩ : ∃ iov, uio.iovs.head? = some iov := by
    cases hiovs : uio.iovs with
    | nil => exact absurd (hsum ▸ hpos) (by simp [hiovs])
    | cons iov iovs => exact ⟨iov, rfl⟩
  have hiov : uio.iovs[uio.iov]? = some iov := by rw [hstart, ← List.head?_eq_getElem?, hget]
  simp only [hget, Option.mem_some_iff, forall_eq']
  refine ⟨⟨?_, fun h => ?_⟩, ⟨?_, fun h => ?_⟩⟩
  · rintro ⟨fuel, r, hr⟩ hreads hzero
    rw [hreads.eq, transferFirst_empty uio hiov hzero] at hr
    cases hr
  · by_cases hreads : Reads vType vSize uio
    · obtain ⟨r, hr⟩ := transferFirst_ok uio hiov (h hreads) hio 0
      exact ⟨1, _, by rw [hreads.eq, hr]; rfl⟩
    · obtain ⟨rc, hrc⟩ := uk9pfsRead_early hreads
      exact ⟨0, _, hrc 0 io⟩
  · rintro ⟨fuel, r, hr⟩ hwrites hzero
    rw [hwrites.eq, transferFirst_empty
      { uio with offset := writeOffset vSize uio append } hiov hzero] at hr
    cases hr
  · by_cases hwrites : Writes vType uio walk opened
    · obtain ⟨r, hr⟩ := transferFirst_ok { uio with offset := writeOffset vSize uio append }
        hiov (h hwrites) hio 0
      refine ⟨1, ?_⟩
      rw [hwrites.eq, hr, ok_bind]
      simp only
      split_ifs <;> exact ⟨_, rfl⟩
    · obtain ⟨r, hr⟩ := uk9pfsWrite_early vSize append hwrites
      exact ⟨0, _, (hr 0 io).1⟩

/-- Five bytes, in one iovec. -/
def fiveBytes : Uio := ⟨[⟨0x1000, 5⟩], 0, 1, 0, 5⟩

theorem uk_9pfs_transfers_end_five : ∃ fuel r,
    uk9pfsRead fuel .reg 9 fiveBytes (fun _ count => .ok (.ok count)) = .ok r := by
  exact (uk_9pfs_transfers_end .reg 9 fiveBytes false (.ok ()) (.ok ())
    (fun _ count => .ok (.ok count)) rfl (by decide) (by decide) (fun _ _ => ⟨_, rfl⟩)).1.mpr
    fun _ => by decide

/-- An empty iovec in front of five bytes: the loop does not end. -/
theorem uk_9pfs_read_loops : ([⟨0x1000, 0⟩, ⟨0x2000, 5⟩].map Iovec.len).sum = 5 ∧ ∀ fuel io,
    uk9pfsRead fuel .reg 9 ⟨[⟨0x1000, 0⟩, ⟨0x2000, 5⟩], 0, 2, 0, 5⟩ io = .error .divergence := by
  refine ⟨rfl, fun fuel io => ?_⟩
  rw [Reads.eq (by decide), transferFirst_empty _ rfl rfl, error_bind]

/-! ### Counts of the server -/

/-- The count that `uk_9p_read` sends. -/
def readCount (dev : Uk9pdev) (iounit count : UInt32) : UInt32 :=
  minU32 (if iounit ≠ 0 then minU32 count iounit else count) (dev.msize - 11)

/-- The server answers the `Tread` that is sent for a read with a count of at most the bytes that
were asked for, and one that an `int` has. -/
def Honest (dev : Uk9pdev) (req : Except Errno Request) (fid iounit : UInt32) (send : Transport)
    (offset : UInt64) (count : UInt32) : Prop :=
  ∀ r recv c f, req = .ok r → r.xmit.offset + 16 ≤ r.xmit.size →
    send (r.xmit.put (transferWire fid offset (readCount dev iounit count)))
      (readCount dev iounit count) = .ok recv →
    uk9preqRead32 recv = .ok (.ok c, f) → c ≤ count ∧ c.toNat < 2 ^ 31

theorem uk9preqRead32_returns {f : Fcall} (h : FcallOk f) :
    ∃ r f', uk9preqRead32 f = .ok (r, f') := by
  obtain ⟨hsome, hnone⟩ := uk9preqRead32_reads f h
  by_cases hnext : ∃ v : UInt32, leBytes 4 v.toNat <+: f.rest
  · obtain ⟨v, hv⟩ := hnext
    exact ⟨_, _, hsome v trivial hv⟩
  obtain ⟨f', heq, -⟩ := hnone fun v _ hv => hnext ⟨v, hv⟩
  exact ⟨_, f', heq⟩

theorem toInt_eq_iff (n : UInt32) : toInt n.toNat = n.toNat ↔ n.toNat < 2 ^ 31 := by
  have := n.toNat_lt
  unfold toInt
  omega

/-- The result is in the bounds exactly if the server keeps to them. -/
theorem uk9pRead_honest {send : Transport}
    (hsend : ∀ xmit n recv, send xmit n = .ok recv → FcallOk recv) (dev : Uk9pdev)
    (req : Except Errno Request) (fid iounit : UInt32) (offset : UInt64) (count : UInt32) :
    (∃ r, uk9pRead dev req fid iounit offset count send = .ok r ∧
      ∀ n, r = .ok n → n ≤ count ∧ toInt n.toNat = n.toNat) ↔
    Honest dev req fid iounit send offset count := by
  simp only [toInt_eq_iff]
  change (∃ r, transfer req fid offset (readCount dev iounit count) send = .ok r ∧ _) ↔ _
  rcases req with e | req
  · exact iff_of_true ⟨_, rfl, nofun⟩ nofun
  rw [transfer_eq]
  split_ifs with hroom
  swap
  · exact iff_of_true ⟨_, rfl, nofun⟩ fun r _ _ _ hr hfit => by cases hr; exact absurd hfit hroom
  cases hreply : send (req.xmit.put (transferWire fid offset (readCount dev iounit count)))
      (readCount dev iounit count) with
  | error e =>
    refine iff_of_true ⟨_, rfl, nofun⟩ fun r _ _ _ hr _ hrecv => ?_
    cases hr
    cases hreply.symm.trans hrecv
  | ok recv =>
    obtain ⟨res, f, hread⟩ := uk9preqRead32_returns (hsend _ _ _ hreply)
    simp only [readReply, hread, ok_bind]
    constructor
    · rintro ⟨r, hr, hbound⟩ req' recv' c f' hreq - hrecv hc
      cases hreq
      cases hreply.symm.trans hrecv
      cases hread.symm.trans hc
      cases hr
      exact hbound c rfl
    · exact fun h => ⟨res, rfl, fun n hn => h req recv n f rfl hroom hreply (hn ▸ hread)⟩

/-- The transfer stays inside of the iovec, and `uio_resid` does not become negative. -/
def Within (uio : Uio) (iov : Iovec) (uio' : Uio) : Prop :=
  0 ≤ uio'.resid ∧ ∃ iov', uio'.iovs[uio.iov]? = some iov' ∧ iov.base ≤ iov'.base ∧
    iov'.base + iov'.len = iov.base + iov.len

theorem skipEmpty_eq {uio' : Uio} (h : skipEmpty iov fuel uio = .ok uio') : uio' = uio := by
  by_cases hzero : iov.len = 0
  · rw [skipEmpty_zero iov hzero] at h
    cases h
  cases fuel with
  | zero => cases h
  | succ fuel =>
    rw [skipEmpty_of_ne hzero] at h
    cases h
    rfl

theorem transferFirst_within {rc : Int} {uio' : Uio} (hget : uio.iovs[uio.iov]? = some iov)
    (hend : iov.base + iov.len < 2 ^ 64) (hresid : (iov.len : Int) ≤ uio.resid)
    (hio : ∃ r, io uio.offset (.ofNat iov.len) = .ok r ∧
      ∀ n, r = .ok n → n ≤ .ofNat iov.len ∧ toInt n.toNat = n.toNat)
    (h : transferFirst fuel uio io = .ok (rc, uio')) : Within uio iov uio' := by
  have hkeep : Within uio iov uio := ⟨by omega, iov, hget, le_rfl, rfl⟩
  rw [transferFirst, hget] at h
  obtain ⟨uio₁, hskip, h⟩ := bind_ok.mp h
  obtain rfl := skipEmpty_eq hskip
  obtain ⟨r, hcall, hr⟩ := hio
  rw [hcall, ok_bind] at h
  cases r with
  | error e =>
    cases h
    exact hkeep
  | ok n =>
    obtain ⟨hle, hrc⟩ := hr n rfl
    have hn : n.toNat ≤ iov.len :=
      (UInt32.le_iff_toNat_le.mp hle).trans ((UInt32.toNat_ofNat ..).trans_le (Nat.mod_le _ _))
    have hpos : ¬ toInt n.toNat < 0 := by omega
    simp only [if_neg hpos] at h
    cases h
    have hlen : uio₁.iov < uio₁.iovs.length := (List.getElem?_eq_some_iff.mp hget).1
    refine ⟨by simp only; omega, _, List.getElem?_set_self hlen, ?_, ?_⟩
    · rw [addU64_eq (by omega)]
      exact Nat.le_add_right _ _
    rw [addU64_eq (by omega), subU64_eq hn (by omega)]
    simp only
    omega

/-- **9P reads do not over-report**: the result is at most the count, also as an `int`, exactly if
the server keeps to the count; `uk_9pfs_read` then stays inside of the iovec. -/
theorem uk_9p_read_bounded (dev : Uk9pdev) (req : Except Errno Request) (fid iounit : UInt32)
    (send : Transport) (hsend : ∀ xmit n recv, send xmit n = .ok recv → FcallOk recv) :
    (∀ offset count, (∃ r, uk9pRead dev req fid iounit offset count send = .ok r ∧
        ∀ n, r = .ok n → n ≤ count ∧ toInt n.toNat = n.toNat) ↔
      Honest dev req fid iounit send offset count) ∧
    ∀ fuel vType vSize uio iov rc uio', uio.iovs[uio.iov]? = some iov →
      iov.base + iov.len < 2 ^ 64 → (iov.len : Int) ≤ uio.resid →
      Honest dev req fid iounit send (.ofNat uio.offset.toNat) (.ofNat iov.len) →
      uk9pfsRead fuel vType vSize uio (fun offset count =>
        uk9pRead dev req fid iounit (.ofNat offset.toNat) count send) = .ok (rc, uio') →
      Within uio iov uio' := by
  have hbounded := uk9pRead_honest hsend dev req fid iounit
  refine ⟨hbounded, fun fuel vType vSize uio iov rc uio' hget hend hresid hhonest h => ?_⟩
  by_cases hreads : Reads vType vSize uio
  · rw [hreads.eq] at h
    obtain ⟨⟨rc', uio₁⟩, hfirst, h⟩ := bind_ok.mp h
    cases h
    exact transferFirst_within hget hend hresid ((hbounded _ _).mpr hhonest) hfirst
  · obtain ⟨rc', hrc⟩ := uk9pfsRead_early hreads
    cases (hrc ..).symm.trans h
    exact ⟨by omega, iov, hget, le_rfl, rfl⟩

/-- The server has three bytes. -/
theorem uk_9p_read_bounded_three : ∃ r, uk9pRead smallDev (.ok smallReq) 1 0 0 5
      (fun _ _ => .ok ⟨[3, 0, 0, 0], 4, 0⟩) = .ok r ∧
    ∀ n, r = .ok n → n ≤ 5 ∧ toInt n.toNat = n.toNat := by
  refine ((uk_9p_read_bounded smallDev (.ok smallReq) 1 0 _ ?_).1 0 5).mpr ?_
  · intro xmit n recv h
    cases h
    exact ⟨by decide, by decide, by decide⟩
  · intro r recv c f _ _ hrecv hread
    cases hrecv
    cases hread
    decide

/-- The server answers a read of five bytes with the count 1000. -/
theorem uk_9p_read_overreports :
    (∀ offset count, uk9pRead smallDev (.ok smallReq) 1 0 offset count
      (fun _ _ => .ok ⟨[232, 3, 0, 0], 4, 0⟩) = .ok (.ok 1000)) ∧
    uk9pfsRead 1 .reg 9 fiveBytes (fun _ _ => .ok (.ok 1000)) =
      .ok (0, ⟨[⟨0x13e8, 2 ^ 64 - 995⟩], 0, 1, 1000, -995⟩) := by
  refine ⟨fun offset count => ?_, by decide +kernel⟩
  rw [uk9pRead, transfer_eq, if_pos (by decide)]
  rfl

/-! ### Fids -/

/-- A call that is passed the result of `uk_9p_walk`. -/
def onFid {α : Type} (walk : Except Errno Unit) (r : α) : Outcome α :=
  match walk with
  | .error _ => .error .badPointer
  | .ok () => .ok r

def returnCode : Except Errno Unit → Int
  | .error e => e.code
  | .ok () => 0

/-- `uk_9pfs_open`; the arguments say what the functions return that it calls. -/
def uk9pfsOpen (calloc : Bool) (walk opened : Except Errno Unit) : Outcome (Int × List FidUse) :=
  if ¬ calloc then .ok (Errno.enomem.code, [])
  else
    match walk with
    | .error e => .ok (e.code, [])
    | .ok () => do
      match ← onFid walk opened with
      | .ok () => .ok (0, [.walked, .stored])
      | .error e => onFid walk (e.code, [.walked, .put])

/-- What `vfscore_vget` finds: a vnode in the cache, with data or not, a new one, or nothing. -/
inductive Vget
  | cached (data : Bool)
  | fresh
  | null

/-- `uk_9pfs_lookup`, with the length of the name. -/
def uk9pfsLookup (nameLen : Nat) (walk stat : Except Errno Unit) (vget : Vget) (malloc : Bool) :
    Outcome (Int × List FidUse) :=
  if 255 < nameLen then .ok (Errno.enametoolong.code, [])
  else
    match walk with
    | .error e => .ok (e.code, [])
    | .ok () => do
      match ← onFid walk stat, vget with
      | .error e, _ => onFid walk (e.code, [.walked, .put])
      | .ok (), .cached true => onFid walk (0, [.walked, .put])
      | .ok (), .null => onFid walk (Errno.enomem.code, [.walked, .put])
      | .ok (), _ =>
        if malloc then .ok (0, [.walked, .stored])
        else onFid walk (Errno.enomem.code, [.walked, .put])

def uk9pfsCreateGeneric (nameLen : Nat) (walk create : Except Errno Unit) :
    Outcome (Int × List FidUse) :=
  if 255 < nameLen then .ok (Errno.enametoolong.code, [])
  else do
    let rc ← onFid walk create
    onFid walk (returnCode rc, [.walked, .put])

/-- A fid that has been obtained is put once, or stored where the call succeeds. -/
def Settled (rc : Int) (uses : List FidUse) : Prop :=
  uses = [] ∨ uses = [.walked, .put] ∨ rc = 0 ∧ uses = [.walked, .stored]
  deriving Decidable

variable (uio io) in
theorem transferFirst_code (hget : uio.iovs[uio.iov]? = some iov) (hne : iov.len ≠ 0)
    {reply : Except Errno UInt32} (hio : io uio.offset (.ofNat iov.len) = .ok reply)
    (fuel : Nat) :
    ∃ rc uio', transferFirst (fuel + 1) uio io = .ok (rc, uio') ∧
      (0 ≤ rc ↔ ∃ n, reply = .ok n ∧ n.toNat < 2 ^ 31) := by
  rw [transferFirst, hget]
  simp only [skipEmpty_of_ne hne, ok_bind, hio]
  cases reply with
  | error e => exact ⟨_, _, rfl, iff_of_false (by cases e <;> decide) nofun⟩
  | ok n =>
    have hlt := n.toNat_lt
    have hrc : 0 ≤ toInt n.toNat ↔ n.toNat < 2 ^ 31 := by
      unfold toInt
      omega
    simp only [Except.ok.injEq, exists_eq_left']
    split_ifs <;> exact ⟨_, _, rfl, hrc⟩

/-- **The fids of the 9P file system are stored or put** and no error pointer is used: in
`uk_9pfs_create_generic` exactly if the walk succeeds, where there is one, and in `uk_9pfs_write`
exactly if `uk_9p_write` returns no error where it is called. -/
theorem uk_9pfs_fids_settled (calloc malloc : Bool) (nameLen : Nat) (vget : Vget)
    (walk opened stat create : Except Errno Unit) :
    (∃ rc uses, uk9pfsOpen calloc walk opened = .ok (rc, uses) ∧ Settled rc uses) ∧
    (∃ rc uses, uk9pfsLookup nameLen walk stat vget malloc = .ok (rc, uses) ∧ Settled rc uses) ∧
    ((∃ rc uses, uk9pfsCreateGeneric nameLen walk create = .ok (rc, uses) ∧ Settled rc uses) ↔
      (nameLen ≤ 255 → walk = .ok ())) ∧
    ∀ vType vSize uio append (io : Int → UInt32 → Except Errno UInt32),
      (∀ fuel, (uk9pfsWrite fuel vType vSize uio append walk opened fun offset count =>
        .ok (io offset count)).Sat (· = .badPointer) fun r => Settled r.1 r.2.2.2) ↔
      (Writes vType uio walk opened → ∀ iov, uio.iovs[uio.iov]? = some iov → iov.len ≠ 0 →
        ∃ n, io (writeOffset vSize uio append) (.ofNat iov.len) = .ok n ∧ n.toNat < 2 ^ 31) := by
  refine ⟨?_, ?_, ?_, ?_⟩
  · rcases calloc with _ | _ <;> rcases walk with e | ⟨⟩ <;> rcases opened with e' | ⟨⟩ <;>
      exact ⟨_, _, rfl, by simp [Settled]⟩
  · unfold uk9pfsLookup
    by_cases hname : 255 < nameLen
    · exact ⟨_, _, if_pos hname, .inl rfl⟩
    rw [if_neg hname]
    rcases walk with e | ⟨⟩ <;> rcases stat with e' | ⟨⟩ <;> rcases vget with (_ | _) | _ | _ <;>
      rcases malloc with _ | _ <;> exact ⟨_, _, rfl, by simp [Settled]⟩
  · rw [uk9pfsCreateGeneric]
    split_ifs with hname
    · exact iff_of_true ⟨_, _, rfl, .inl rfl⟩ fun h => absurd h (Nat.not_le.mpr hname)
    rcases walk with e | ⟨⟩
    · exact iff_of_false nofun fun h => nomatch h (Nat.le_of_not_lt hname)
    · exact iff_of_true ⟨_, _, rfl, .inr (.inl rfl)⟩ fun _ => rfl
  intro vType vSize uio append io
  by_cases hwrites : Writes vType uio walk opened
  swap
  · obtain ⟨r, hr⟩ := uk9pfsWrite_early vSize append hwrites
    refine iff_of_true (fun fuel => ?_) fun h => absurd h hwrites
    obtain ⟨heq, huses⟩ := hr fuel fun offset count => .ok (io offset count)
    rw [heq]
    exact huses.imp_right .inl
  simp only [hwrites.eq, hwrites, forall_const]
  constructor
  · intro h iov hget hne
    obtain ⟨rc, uio', heq, hrc⟩ := transferFirst_code
      { uio with offset := writeOffset vSize uio append }
      (fun offset count => .ok (io offset count)) hget hne rfl 0
    rw [← hrc]
    by_contra hneg
    have hsat := h 1
    rw [heq, ok_bind] at hsat
    simp only [if_pos (Int.not_le.mp hneg)] at hsat
    simp [Sat, Settled] at hsat
  · intro h fuel
    cases hget : uio.iovs[uio.iov]? with
    | none =>
      rw [transferFirst, hget]
      exact nofun
    | some iov =>
    by_cases hzero : iov.len = 0
    · rw [transferFirst_empty { uio with offset := writeOffset vSize uio append } hget hzero]
      exact nofun
    cases fuel with
    | zero =>
      rw [transferFirst, hget]
      exact nofun
    | succ fuel =>
    obtain ⟨rc, uio', heq, hrc⟩ := transferFirst_code
      { uio with offset := writeOffset vSize uio append }
      (fun offset count => .ok (io offset count)) hget hzero rfl fuel
    rw [heq, ok_bind]
    simp only [if_neg (Int.not_lt.mpr (hrc.mpr (h iov hget hzero)))]
    exact .inr (.inl rfl)

/-- The walk of `uk_9pfs_create_generic` fails, and a write fails. -/
theorem uk_9pfs_fids_misused :
    uk9pfsCreateGeneric 1 (.error .enoent) (.ok ()) = .error .badPointer ∧
    ∃ r, uk9pfsWrite 1 .reg 9 fiveBytes false (.ok ()) (.ok ()) (fun _ _ => .ok (.error .eio)) =
      .ok r ∧ ¬ Settled r.1 r.2.2.2 :=
  ⟨rfl, _, rfl, by decide⟩

end Unikraft.P9fs
