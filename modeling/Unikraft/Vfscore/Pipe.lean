import Mathlib
import Unikraft.Basic
import Unikraft.Lib.Run

/-!
# Unikraft.Vfscore.Pipe

The pipe buffer of `lib/vfscore/pipe.c`: a power-of-two byte array with free-running counters. A
block is copied in one piece, or in two when it passes the end of the array. The write side
computes the length of the first piece as `capacity - prod_idx`, the read side as `capacity -
cons`, from the *counter*, and both store it in an `int`. The two agree while the counter is below
the capacity; after that only if its masked-off part is a multiple of `2 ^ 32` (`SplitOk`).
-/

namespace Unikraft.Vfscore

open Lib Outcome List

/-- `struct pipe_buf` without locks and wait queues. The capacity is an `int` that is a power of
two. -/
structure PipeBuf where
  order : Nat
  order_le : order ≤ 30
  data : List UInt8
  data_length : data.length = 2 ^ order
  prod : Nat
  prod_lt : prod < 2 ^ 64
  cons : Nat
  cons_lt : cons < 2 ^ 64

namespace PipeBuf

/-- `pipe_buf->capacity`. -/
def capacity (b : PipeBuf) : Nat := 2 ^ b.order

/-- `PIPE_BUF_IDX(buf, n)`. -/
def idx (b : PipeBuf) (n : Nat) : Nat := n &&& (b.capacity - 1)

/-- The destination side of a `memcpy` into `pipe_buf->data`. -/
def copyIn (b : PipeBuf) (off : Nat) (bs : List UInt8) : Outcome PipeBuf :=
  if h : off + bs.length ≤ b.data.length then
    .ok { b with
      data := splice b.data off bs
      data_length := (length_splice h).trans b.data_length }
  else .error .outOfBounds

/-- `pipe_buf->prod += n`. -/
def addProd (b : PipeBuf) (n : Nat) : PipeBuf :=
  { b with prod := addU64 b.prod n, prod_lt := addU64_lt _ _ }

/-- `pipe_buf->cons += n`. -/
def addCons (b : PipeBuf) (n : Nat) : PipeBuf :=
  { b with cons := addU64 b.cons n, cons_lt := addU64_lt _ _ }

end PipeBuf

/-- `pipe_buf_alloc`: the two counters start at zero, the content of the fresh
`malloc` block is arbitrary. -/
def pipeBufAlloc (order : Nat) (order_le : order ≤ 30) (block : List UInt8)
    (length_block : block.length = 2 ^ order) : PipeBuf where
  order := order
  order_le := order_le
  data := block
  data_length := length_block
  prod := 0
  prod_lt := by norm_num
  cons := 0
  cons_lt := by norm_num

def pipeBufGetAvailable (b : PipeBuf) : Nat := subU64 b.prod b.cons

def pipeBufGetFreeSpace (b : PipeBuf) : Nat := subU64 b.capacity (pipeBufGetAvailable b)

/-- The destination side of a `memcpy` into the memory of an `iovec`. -/
def iovecCopyIn (iov : List UInt8) (off : Nat) (bs : List UInt8) : Outcome (List UInt8) :=
  if off + bs.length ≤ iov.length then .ok (splice iov off bs) else .error .outOfBounds

/-- `pipe_buf_write`: copy from the memory `iov` of an `iovec`, from offset
`iovecOff` on, and return the number of bytes taken. -/
def pipeBufWrite (b : PipeBuf) (iov : List UInt8) (iovecOff : Nat) : Outcome (Nat × PipeBuf) :=
  let iovLen := subU64 iov.length iovecOff
  let prodIdx := b.idx b.prod
  let toWrite := min (pipeBufGetFreeSpace b) iovLen
  if toWrite = 0 then .ok (toWrite, b)
  else if addU64 prodIdx toWrite ≤ b.capacity then do
    -- copy in one piece
    let bs ← copyOut iov iovecOff toWrite
    let b ← b.copyIn prodIdx bs
    .ok (toWrite, b.addProd toWrite)
  else do
    let firstCopyBytes := toInt (subU64 b.capacity prodIdx)
    let bs ← copyOut iov iovecOff (toSize firstCopyBytes)
    let b ← b.copyIn prodIdx bs
    let secondCopyBytes := toInt (subU64 (addU64 prodIdx toWrite) b.capacity)
    let bs ← copyOut iov (addU64 iovecOff (toSize firstCopyBytes)) (toSize secondCopyBytes)
    let b ← b.copyIn 0 bs
    .ok (toWrite, b.addProd toWrite)

/-- `pipe_buf_read`: the number of bytes, and the new content of the memory `iov`. -/
def pipeBufRead (b : PipeBuf) (iov : List UInt8) (iovecOff : Nat) :
    Outcome ((Nat × List UInt8) × PipeBuf) :=
  let iovLen := subU64 iov.length iovecOff
  let consIdx := b.idx b.cons
  let toRead := min (pipeBufGetAvailable b) iovLen
  if toRead = 0 then .ok ((toRead, iov), b)
  else if addU64 consIdx toRead ≤ b.capacity then do
    -- copy in one piece
    let bs ← copyOut b.data consIdx toRead
    let iov ← iovecCopyIn iov iovecOff bs
    .ok ((toRead, iov), b.addCons toRead)
  else do
    -- the length of the first piece is computed from `cons`, not from `consIdx`
    let firstCopyBytes := toInt (subU64 b.capacity b.cons)
    let bs ← copyOut b.data consIdx (toSize firstCopyBytes)
    let iov ← iovecCopyIn iov iovecOff bs
    let secondCopyBytes := toInt (subU64 (addU64 consIdx toRead) b.capacity)
    let bs ← copyOut b.data 0 (toSize secondCopyBytes)
    let iov ← iovecCopyIn iov (addU64 iovecOff (toSize firstCopyBytes)) bs
    .ok ((toRead, iov), b.addCons toRead)

/-! ### What the buffer holds

The abstract pipe is the queue `q` of the bytes written and not yet read. -/

/-- The buffer holds the bytes `q`, oldest first. -/
structure PipeBuf.Content (b : PipeBuf) (q : List UInt8) : Prop where
  holds : Holds b.data b.cons q
  fits : q.length ≤ b.capacity
  prod_eq : b.prod = addU64 b.cons q.length

namespace PipeBuf

variable {b : PipeBuf} {q : List UInt8}

theorem capacity_pos (b : PipeBuf) : 0 < b.capacity := Nat.two_pow_pos _

theorem capacity_le (b : PipeBuf) : b.capacity ≤ 2 ^ 30 :=
  Nat.pow_le_pow_right (by norm_num) b.order_le

theorem length_data (b : PipeBuf) : b.data.length = b.capacity := b.data_length

theorem idx_eq (b : PipeBuf) (n : Nat) : b.idx n = n % b.capacity :=
  Nat.and_two_pow_sub_one_eq_mod n b.order

theorem idx_lt (b : PipeBuf) (n : Nat) : b.idx n < b.capacity := by
  rw [idx_eq]
  exact Nat.mod_lt _ b.capacity_pos

theorem addU64_mod_capacity (b : PipeBuf) (m n : Nat) :
    addU64 m n % b.capacity = (m + n) % b.capacity :=
  Nat.mod_mod_of_dvd _ (pow_dvd_pow 2 (by have := b.order_le; omega))

theorem Content.available (hc : b.Content q) : pipeBufGetAvailable b = q.length := by
  have := hc.fits
  have := b.capacity_le
  unfold pipeBufGetAvailable
  rw [hc.prod_eq]
  unfold subU64 addU64
  omega

theorem Content.freeSpace (hc : b.Content q) : pipeBufGetFreeSpace b = b.capacity - q.length := by
  have := hc.fits
  have := b.capacity_le
  unfold pipeBufGetFreeSpace
  rw [hc.available, subU64_eq (by omega) (by omega)]

theorem copyIn_ok (b : PipeBuf) (off : Nat) (bs : List UInt8) (h : off + bs.length ≤ b.capacity) :
    ∃ b', b.copyIn off bs = .ok b' ∧ b'.data = splice b.data off bs ∧
      b'.capacity = b.capacity ∧ b'.prod = b.prod ∧ b'.cons = b.cons := by
  rw [← length_data] at h
  exact ⟨_, dif_pos h, rfl, rfl, rfl, rfl⟩

end PipeBuf

variable {q iov : List UInt8} {b : PipeBuf} {off : Nat}

theorem pipeBufWrite_spec (hc : b.Content q) (hoff : off ≤ iov.length)
    (hiov : iov.length < 2 ^ 64) :
    ∃ b', pipeBufWrite b iov off = .ok (min (b.capacity - q.length) (iov.length - off), b') ∧
      b'.capacity = b.capacity ∧
      b'.Content (q ++ (iov.drop off).take (min (b.capacity - q.length) (iov.length - off))) := by
  have hcap := b.capacity_le
  have hfits := hc.fits
  have hlt := b.idx_lt b.prod
  have hidx : b.idx b.prod = (b.cons + q.length) % b.data.length := by
    rw [b.idx_eq, hc.prod_eq, b.addU64_mod_capacity, b.length_data]
  unfold pipeBufWrite
  simp only [hc.freeSpace, subU64_eq hoff hiov]
  generalize hn : min (b.capacity - q.length) (iov.length - off) = n
  generalize hbs : (iov.drop off).take n = bs
  have hlen : bs.length = n := by
    rw [← hbs, length_take, length_drop]
    omega
  -- the bytes behind the view, and the counter moved past them
  have hnew : ∀ b' : PipeBuf, b'.capacity = b.capacity → b'.cons = b.cons →
      b'.prod = addU64 b.prod n →
      b'.data = ringWrite b.data (b.cons + q.length) bs → b'.Content (q ++ bs) := by
    intro b' hcap' hcons hprod hdata
    refine ⟨?_, ?_, ?_⟩
    · rw [hdata, hcons]
      exact hc.holds.ringWrite (by rw [b.length_data]; omega)
    · rw [hcap', length_append]
      omega
    rw [hprod, hcons, hc.prod_eq, length_append, hlen]
    unfold addU64
    omega
  by_cases h0 : n = 0
  · subst h0
    rw [if_pos rfl, length_eq_zero_iff.mp hlen, append_nil]
    exact ⟨b, rfl, rfl, hc⟩
  rw [if_neg h0, addU64_eq (by omega)]
  by_cases hfit : b.idx b.prod + n ≤ b.capacity
  · obtain ⟨b₁, hin, hdata, hcap₁, hprod, hcons⟩ := b.copyIn_ok (b.idx b.prod) bs (by omega)
    rw [if_pos hfit, copyOut_ok (by omega), hbs]
    simp only [ok_bind, hin]
    refine ⟨b₁.addProd n, rfl, hcap₁, hnew _ hcap₁ hcons (congrArg (addU64 · n) hprod) ?_⟩
    rw [ringWrite, ← hidx, if_pos (by rw [hlen, b.length_data]; exact hfit)]
    exact hdata
  rw [if_neg hfit]
  have hfirst :
      toSize (toInt (subU64 b.capacity (b.idx b.prod))) = b.capacity - b.idx b.prod := by
    rw [subU64_eq hlt.le (by omega), toSize_toInt (by omega)]
  have hpre : (iov.drop off).take (b.capacity - b.idx b.prod) =
      bs.take (b.capacity - b.idx b.prod) := by
    rw [← hbs, take_take, Nat.min_eq_left (by omega)]
  have hsuf :
      (iov.drop (off + (b.capacity - b.idx b.prod))).take (b.idx b.prod + n - b.capacity) =
      bs.drop (b.capacity - b.idx b.prod) := by
    rw [← hbs, drop_take, drop_drop]
    congr 1
    omega
  obtain ⟨b₁, hin₁, hdata₁, hcap₁, hprod₁, hcons₁⟩ :=
    b.copyIn_ok (b.idx b.prod) (bs.take (b.capacity - b.idx b.prod)) (by rw [length_take]; omega)
  obtain ⟨b₂, hin₂, hdata₂, hcap₂, hprod₂, hcons₂⟩ :=
    b₁.copyIn_ok 0 (bs.drop (b.capacity - b.idx b.prod)) (by rw [length_drop]; omega)
  rw [hfirst, copyOut_ok (by omega), hpre]
  simp only [ok_bind, hin₁]
  rw [hcap₁, subU64_eq (by omega) (by omega), toSize_toInt (by omega), addU64_eq (by omega),
    copyOut_ok (by omega), hsuf]
  simp only [ok_bind, hin₂]
  refine ⟨b₂.addProd n, rfl, hcap₂.trans hcap₁, hnew _ (hcap₂.trans hcap₁)
    (hcons₂.trans hcons₁) (congrArg (addU64 · n) (hprod₂.trans hprod₁)) ?_⟩
  rw [ringWrite, ← hidx, if_neg (by rw [hlen, b.length_data]; exact hfit), b.length_data, ← hdata₁]
  exact hdata₂

/-! ### The read side

A read of a block that passes the end of the array is right only under
`SplitOk`; otherwise its first copy leaves the array. -/

/-- A read of up to `len` bytes stays in one piece, or the part of the consumer
counter above the index is a multiple of `2 ^ 32`. -/
def PipeBuf.SplitOk (b : PipeBuf) (len : Nat) : Prop :=
  b.idx b.cons + min (pipeBufGetAvailable b) len ≤ b.capacity ∨ (b.cons - b.idx b.cons) % 2 ^ 32 = 0
  deriving Decidable

namespace PipeBuf

theorem idx_le (b : PipeBuf) (n : Nat) : b.idx n ≤ n := by
  rw [idx_eq]
  exact Nat.mod_le _ _

theorem firstCopyBytes_eq_iff (b : PipeBuf) :
    toSize (toInt (subU64 b.capacity b.cons)) = b.capacity - b.idx b.cons ↔
      (b.cons - b.idx b.cons) % 2 ^ 32 = 0 := by
  have hcap := b.capacity_le
  have hlt := b.idx_lt b.cons
  have hle := b.idx_le b.cons
  rw [toSize_toInt_eq_iff (by omega)]
  unfold subU64
  omega

/-- A wrong length of the first piece takes the copy out of the array: it is
negative as an `int`, or too large by a multiple of the capacity. -/
theorem capacity_lt_of_firstCopyBytes_ne (b : PipeBuf) (hpos : 0 < b.idx b.cons)
    (h : toSize (toInt (subU64 b.capacity b.cons)) ≠ b.capacity - b.idx b.cons) :
    b.capacity < b.idx b.cons + toSize (toInt (subU64 b.capacity b.cons)) := by
  have hcap := b.capacity_le
  have hlt := b.idx_lt b.cons
  have hcons := b.cons_lt
  generalize hx : subU64 b.capacity b.cons = x at h ⊢
  by_cases hr : x % 2 ^ 32 < 2 ^ 31
  · have hsz : toSize (toInt x) = x % 2 ^ 32 := by
      unfold toSize toInt
      omega
    rw [hsz] at h ⊢
    -- the index plus the length is a positive multiple of the capacity
    have hdvd : b.capacity ∣ b.idx b.cons + x % 2 ^ 32 := by
      have h32 : b.capacity ∣ 2 ^ 32 := pow_dvd_pow 2 (by have := b.order_le; omega)
      have h64 : b.capacity ∣ 2 ^ 64 := pow_dvd_pow 2 (by have := b.order_le; omega)
      apply Nat.dvd_of_mod_eq_zero
      rw [b.idx_eq, Nat.add_mod, Nat.mod_mod, Nat.mod_mod_of_dvd _ h32, ← hx, subU64,
        Nat.mod_mod_of_dvd _ h64, ← Nat.add_mod, Nat.mod_eq_of_lt hcons,
        show b.cons + (b.capacity + (2 ^ 64 - b.cons)) = b.capacity + 2 ^ 64 by omega]
      exact Nat.mod_eq_zero_of_dvd (Nat.dvd_add (dvd_refl _) h64)
    obtain ⟨c, hc⟩ := hdvd
    rw [hc]
    have hc1 : c ≠ 1 := by rintro rfl; omega
    have hc0 : c ≠ 0 := by rintro rfl; omega
    have h2 : b.capacity * 2 ≤ b.capacity * c := Nat.mul_le_mul_left _ (by omega)
    omega
  unfold toSize toInt
  omega

end PipeBuf

theorem iovecCopyIn_ok {iov bs : List UInt8} (h : off + bs.length ≤ iov.length) :
    iovecCopyIn iov off bs = .ok (splice iov off bs) := if_pos h

/-- `pipe_buf_read` delivers as many of the oldest bytes as are wanted and there. -/
theorem pipeBufRead_spec (hc : b.Content q) (hoff : off ≤ iov.length)
    (hiov : iov.length < 2 ^ 64) (hsplit : b.SplitOk (iov.length - off)) :
    ∃ b', pipeBufRead b iov off = .ok ((min q.length (iov.length - off),
          splice iov off (q.take (min q.length (iov.length - off)))), b') ∧
      b'.capacity = b.capacity ∧ b'.Content (q.drop (min q.length (iov.length - off))) := by
  have hcap := b.capacity_le
  have hfits := hc.fits
  have hlt := b.idx_lt b.cons
  have hlen := b.length_data
  have hidx : b.idx b.cons = b.cons % b.data.length := by rw [b.idx_eq, hlen]
  unfold pipeBufRead
  simp only [PipeBuf.SplitOk, hc.available] at hsplit
  simp only [hc.available, subU64_eq hoff hiov]
  generalize hn : min q.length (iov.length - off) = n at hsplit ⊢
  have htake : (q.take n).length = n := by rw [length_take]; omega
  obtain ⟨hold, hnew⟩ : Holds b.data b.cons (q.take n) ∧ Holds b.data (b.cons + n) (q.drop n) := by
    have h := hc.holds
    rwa [← take_append_drop n q, holds_append, htake] at h
  -- the bytes that a ring read delivers, and the counter moved past them
  have hread : ringRead b.data b.cons n = q.take n := by
    have := hold.ringRead (by omega)
    rwa [htake] at this
  have hcontent : (b.addCons n).Content (q.drop n) := by
    refine ⟨hnew.congr_mod ?_, ?_, ?_⟩
    · rw [hlen]
      exact b.addU64_mod_capacity _ _
    · rw [length_drop]
      exact (Nat.sub_le _ _).trans hfits
    show b.prod = addU64 (addU64 b.cons n) (q.drop n).length
    rw [hc.prod_eq, length_drop]
    unfold addU64
    omega
  by_cases h0 : n = 0
  · subst h0
    refine ⟨b, ?_, rfl, by simpa using hc⟩
    rw [if_pos rfl, take_zero]
    simp [splice]
  rw [if_neg h0, addU64_eq (by omega)]
  by_cases hfit : b.idx b.cons + n ≤ b.capacity
  · have hpiece : (b.data.drop (b.idx b.cons)).take n = q.take n := by
      rw [← hread, ringRead, ← hidx, if_pos (by omega)]
    rw [if_pos hfit, copyOut_ok (by omega), hpiece]
    simp only [ok_bind]
    rw [iovecCopyIn_ok (by omega)]
    exact ⟨b.addCons n, rfl, rfl, hcontent⟩
  have hfirst := b.firstCopyBytes_eq_iff.mpr (hsplit.resolve_left hfit)
  have hpieces : (b.data.drop (b.idx b.cons)).take (b.capacity - b.idx b.cons) ++
      (b.data.drop 0).take (b.idx b.cons + n - b.capacity) = q.take n := by
    rw [take_of_length_le (by rw [length_drop]; omega), drop_zero, ← hread,
      ringRead, ← hidx, if_neg (by omega), hlen]
  rw [if_neg hfit, hfirst, copyOut_ok (by omega), subU64_eq (by omega) (by omega),
    toSize_toInt (by omega), copyOut_ok (by omega), ← hpieces]
  generalize hp₁ : (b.data.drop (b.idx b.cons)).take (b.capacity - b.idx b.cons) = p₁ at hpieces ⊢
  generalize hp₂ : (b.data.drop 0).take (b.idx b.cons + n - b.capacity) = p₂ at hpieces ⊢
  have hl₁ : p₁.length = b.capacity - b.idx b.cons := by
    rw [← hp₁, length_take, length_drop]
    omega
  have hl₂ : p₁.length + p₂.length = n := by rw [← length_append, hpieces, htake]
  simp only [ok_bind]
  rw [iovecCopyIn_ok (by omega), addU64_eq (by omega), ← hl₁]
  simp only [ok_bind]
  rw [iovecCopyIn_ok (by rw [length_splice (by omega)]; omega), splice_append (by omega)]
  exact ⟨b.addCons n, rfl, rfl, hcontent⟩

/-- **The defect.** A split read after the counter has passed the capacity copies
from outside of the buffer. -/
theorem pipeBufRead_outOfBounds (hc : b.Content q)
    (hoff : off ≤ iov.length) (hiov : iov.length < 2 ^ 64)
    (hsplit : ¬ b.SplitOk (iov.length - off)) : pipeBufRead b iov off = .error .outOfBounds := by
  have hcap := b.capacity_le
  have hfits := hc.fits
  have hlt := b.idx_lt b.cons
  rw [PipeBuf.SplitOk, hc.available, not_or, ← b.firstCopyBytes_eq_iff] at hsplit
  obtain ⟨hwrap, hne⟩ := hsplit
  have hout := b.capacity_lt_of_firstCopyBytes_ne (by omega) hne
  unfold pipeBufRead
  simp only [hc.available, subU64_eq hoff hiov]
  rw [if_neg (by omega), addU64_eq (by omega), if_neg hwrap,
    copyOut_error (by rw [b.length_data]; exact hout), error_bind]

/-! ### Runs of a pipe -/

/-- A call on the pipe, with the memory of the `iovec` and the offset into it. -/
inductive PipeOp
  | write (iov : List UInt8) (iovecOff : Nat)
  | read (iov : List UInt8) (iovecOff : Nat)

/-- A pipe with the bytes its calls have taken and delivered so far. -/
structure PipeRun where
  buf : PipeBuf
  written : List UInt8
  delivered : List UInt8

/-- One call, and the number of bytes it moved. -/
def pipeStep (s : PipeRun) : PipeOp → Outcome (Nat × PipeRun)
  | .write iov iovecOff => do
      let (n, buf) ← pipeBufWrite s.buf iov iovecOff
      .ok (n, { s with buf := buf, written := s.written ++ (iov.drop iovecOff).take n })
  | .read iov iovecOff => do
      let ((n, iov'), buf) ← pipeBufRead s.buf iov iovecOff
      .ok (n, { s with buf := buf, delivered := s.delivered ++ (iov'.drop iovecOff).take n })

/-- The callers' side of a call: the offset lies inside of the `iovec`. -/
def PipeOp.Valid : PipeOp → Prop
  | .write iov off => off ≤ iov.length ∧ iov.length < 2 ^ 64
  | .read iov off => off ≤ iov.length ∧ iov.length < 2 ^ 64

/-- The condition on a call under which the pipe works: a read that is split at
the end of the array meets `SplitOk`. -/
def PipeOp.Safe (s : PipeRun) : PipeOp → Prop
  | .write _ _ => True
  | .read iov off => s.buf.SplitOk (iov.length - off)

instance : ∀ op : PipeOp, Decidable op.Valid
  | .write _ _ => instDecidableAnd
  | .read _ _ => instDecidableAnd

instance (s : PipeRun) (op : PipeOp) : Decidable (op.Safe s) := by
  cases op <;> dsimp only [PipeOp.Safe] <;> infer_instance

variable {op : PipeOp} {s : PipeRun}

def pipeStart (order : Nat) (order_le : order ≤ 30) (block : List UInt8)
    (length_block : block.length = 2 ^ order) : PipeRun :=
  ⟨pipeBufAlloc order order_le block length_block, [], []⟩

/-- **The FIFO invariant.** The buffer holds the bytes written and not yet
delivered. -/
def PipeRun.Inv (cap : Nat) (s : PipeRun) : Prop :=
  ∃ q, s.written = s.delivered ++ q ∧ s.buf.Content q ∧ s.buf.capacity = cap

/-- The bytes requested and the bytes that can be moved, of which a call moves
the smaller number. -/
def PipeOp.moved (cap : Nat) (s : PipeRun) : PipeOp → Nat
  | .write iov off => min (iov.length - off) (cap - (s.written.length - s.delivered.length))
  | .read iov off => min (iov.length - off) (s.written.length - s.delivered.length)

theorem pipeStart_inv (order : Nat) (order_le : order ≤ 30) (block : List UInt8)
    (length_block : block.length = 2 ^ order) :
    (pipeStart order order_le block length_block).Inv (2 ^ order) :=
  ⟨[], rfl, ⟨Holds.nil, Nat.zero_le _, rfl⟩, rfl⟩

theorem pipeStep_spec {cap : Nat} (hinv : s.Inv cap) (hvalid : op.Valid) (hsafe : op.Safe s) :
    ∃ s', pipeStep s op = .ok (op.moved cap s, s') ∧ s'.Inv cap := by
  obtain ⟨q, hq, hc, hcap⟩ := hinv
  have hlen : s.written.length - s.delivered.length = q.length := by
    rw [hq, length_append]
    omega
  cases op with
  | write iov off =>
    obtain ⟨b', hw, hcap', hc'⟩ := pipeBufWrite_spec hc hvalid.1 hvalid.2
    rw [hcap] at hw hc'
    rw [PipeOp.moved, hlen, Nat.min_comm]
    refine ⟨_, by rw [pipeStep, hw]; rfl, _, ?_, hc', hcap'.trans hcap⟩
    rw [hq, append_assoc]
  | read iov off =>
    obtain ⟨b', hr, hcap', hc'⟩ := pipeBufRead_spec hc hvalid.1 hvalid.2 hsafe
    rw [PipeOp.moved, hlen, Nat.min_comm]
    refine ⟨_, by rw [pipeStep, hr]; rfl, _, ?_, hc', hcap'.trans hcap⟩
    generalize hn : min q.length (iov.length - off) = n
    have htake : (q.take n).length = n := by rw [length_take]; omega
    have hout : ((splice iov off (q.take n)).drop off).take (q.take n).length = q.take n :=
      take_drop_splice (by have := hvalid.1; omega)
    rw [htake] at hout
    show s.written = s.delivered ++ _ ++ q.drop n
    rw [hout, append_assoc, take_append_drop, hq]

theorem pipeStep_inv {cap : Nat} {s' : PipeRun} {n : Nat} (hinv : s.Inv cap)
    (hok : op.Valid ∧ op.Safe s) (hs : pipeStep s op = .ok (n, s')) : s'.Inv cap := by
  obtain ⟨s'', hs'', hinv'⟩ := pipeStep_spec hinv hok.1 hok.2
  rw [hs] at hs''
  cases hs''
  exact hinv'

theorem pipeStep_ok_iff {cap : Nat} (hinv : s.Inv cap) (hvalid : op.Valid) :
    (∃ s', pipeStep s op = .ok (op.moved cap s, s')) ↔ op.Safe s := by
  refine ⟨fun ⟨s', hs'⟩ => ?_, fun hsafe => ?_⟩
  · cases op with
    | write iov off => trivial
    | read iov off =>
      obtain ⟨q, -, hc, -⟩ := hinv
      by_contra hsafe
      rw [pipeStep, pipeBufRead_outOfBounds hc hvalid.1 hvalid.2 hsafe] at hs'
      cases hs'
  obtain ⟨s', hs', -⟩ := pipeStep_spec hinv hvalid hsafe
  exact ⟨s', hs'⟩

/-- A pipe is a byte FIFO as long as every read meets `SplitOk`: what was read is a prefix of what
was written, and a further call returns and moves the minimum of what is requested and what there
is, exactly when it meets the condition too. -/
theorem pipe_fifo (order : Nat) (order_le : order ≤ 30) (block : List UInt8)
    (length_block : block.length = 2 ^ order) (s : PipeRun)
    (h : Reachable pipeStep (fun s op => op.Valid ∧ op.Safe s)
      (pipeStart order order_le block length_block) s) :
    s.delivered <+: s.written ∧ ∀ op : PipeOp, op.Valid →
        ((∃ s', pipeStep s op = .ok (op.moved (2 ^ order) s, s')) ↔ op.Safe s) := by
  have hinv : s.Inv (2 ^ order) :=
    h.invariant (pipeStart_inv _ _ _ _) fun _ _ _ _ hi hok hs => pipeStep_inv hi hok hs
  refine ⟨?_, fun op hvalid => pipeStep_ok_iff hinv hvalid⟩
  obtain ⟨q, hq, -, -⟩ := hinv
  exact ⟨q, hq.symm⟩

/-- The state after a write of two bytes and a read of one of them. -/
theorem pipe_fifo_one_of_two :
    ∃ s : PipeRun, s.written = [1, 2] ∧ s.delivered = [1] ∧ s.delivered <+: s.written := by
  have hrun : ∃ s ∈ runEvents pipeStep (fun s op => op.Valid ∧ op.Safe s)
      (pipeStart 1 (by norm_num) [0, 0] rfl) [.write [1, 2] 0, .read [9] 0],
      s.written = [1, 2] ∧ s.delivered = [1] := by decide +kernel
  obtain ⟨s, hs, hwritten, hdelivered⟩ := Reachable.exists_of_run _ hrun
  exact ⟨s, hwritten, hdelivered, (pipe_fifo 1 _ _ _ s hs).1⟩

/-- In a pipe of two bytes, a third round leaves the array. -/
theorem pipe_not_fifo :
    ¬ ∀ s, Reachable pipeStep (fun _ op => op.Valid) (pipeStart 1 (by norm_num) [0, 0] rfl) s →
      s.delivered <+: s.written ∧
        ∀ op : PipeOp, op.Valid → ∃ s', pipeStep s op = .ok (op.moved (2 ^ 1) s, s') := by
  intro hall
  have hrun : ∃ s ∈ runEvents pipeStep (fun _ op => op.Valid)
      (pipeStart 1 (by norm_num) [0, 0] rfl)
      [.write [1] 0, .read [9] 0, .write [2, 3] 0, .read [9, 9] 0, .write [4, 5] 0],
      (pipeStep s (.read [9, 9] 0)).isOk = false := by decide +kernel
  obtain ⟨s, hs, hfault⟩ := Reachable.exists_of_run _ hrun
  obtain ⟨s', hs'⟩ := (hall s hs).2 (.read [9, 9] 0) (by decide)
  rw [hs'] at hfault
  cases hfault

end Unikraft.Vfscore
