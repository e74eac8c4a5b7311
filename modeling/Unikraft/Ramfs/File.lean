import Unikraft.Essentials
import Unikraft.Lib.ByteFile
import Unikraft.Lib.Run
import Unikraft.Vfscore.Uio

/-!
# Regular files of `ramfs` (`ramfs_vnops.c`)

Write, truncate and read on one vnode, against the file of POSIX (`Lib.ByteFile`).

The buffer of a node is larger than the file. The bytes behind the end survive a shrinking
`truncate` and are arbitrary after a growing one, and the file gets them when it grows again. Along
calls that do not expose such a byte (`RamfsOp.Clean`), the node refines the file.
-/

namespace Unikraft.Ramfs

open Lib Vfscore Outcome List

/-! ### The operations -/

inductive VType
  | reg
  | dir
  | other
  deriving DecidableEq

/-- A vnode and its `struct ramfs_node`. -/
structure RamfsNode where
  vType : VType
  vSize : Nat
  rnSize : Nat
  rnBuf : Option (List UInt8)
  rnBufsize : Nat
  rnOwnsBuf : Bool

def RamfsNode.buf (np : RamfsNode) : List UInt8 := np.rnBuf.getD []

/-- The bytes that are copied from the old buffer to a new one. -/
def RamfsNode.oldData (np : RamfsNode) : Outcome (List UInt8) :=
  if np.rnSize ≠ 0 then
    match np.rnBuf with
    | none => .error .badPointer
    | some old => copyOut old 0 np.vSize
  else .ok []

/-- Make a new block the buffer of the node: the lines that `ramfs_truncate` and
`ramfs_write` share. -/
def moveBuffer (np : RamfsNode) (newBuf : List UInt8) : Outcome RamfsNode := do
  let data ← np.oldData
  if newBuf.length < data.length then .error .outOfBounds
  else .ok { np with rnBuf := some (splice newBuf 0 data), rnBufsize := newBuf.length }

/-- The buffer of a file that is truncated to `length` bytes. -/
def truncateBuffer (np : RamfsNode) (length : Nat) (garbage : Nat → UInt8) : Outcome RamfsNode :=
  if length = 0 then
    if np.rnBuf ≠ none then .ok { np with rnBuf := none, rnBufsize := 0 } else .ok np
  else if np.rnBufsize < length then do
    let np ← moveBuffer np ((List.range (roundPgup length)).map garbage)
    .ok { np with rnOwnsBuf := true }
  else .ok np

/-- `ramfs_truncate`; `garbage` is what the block of `malloc` contains. -/
def ramfsTruncate (np : RamfsNode) (length : Nat) (garbage : Nat → UInt8) :
    Outcome (Option Errno × RamfsNode) := do
  let np ← truncateBuffer np length garbage
  .ok (none, { np with rnSize := length, vSize := length })

/-- `ramfs_read`: the error, and the bytes stored in the iovecs of the caller. -/
def ramfsRead (np : RamfsNode) (uio : Uio) : Outcome (Option Errno × List UInt8) :=
  if np.vType = .dir then .ok (some .eisdir, [])
  else if np.vType ≠ .reg then .ok (some .einval, [])
  else if uio.offset < 0 then .ok (some .einval, [])
  else if uio.resid = 0 then .ok (none, [])
  else if (np.vSize : Int) ≤ uio.offset then .ok (none, [])
  else
    let len :=
      if (np.vSize : Int) - uio.offset < uio.resid then np.vSize - uio.offset.toNat else uio.resid
    match np.rnBuf with
    | none => .error .badPointer
    | some buf => do
        let (m, _) ← vfscoreUiomove (buf.drop uio.offset.toNat) len uio
        .ok (none, m.out)

/-- The buffer of a file that a write extends to `endPos` bytes. -/
def expandBuffer (np : RamfsNode) (endPos : Nat) : Outcome RamfsNode :=
  if toOff np.rnBufsize < endPos then moveBuffer np (List.replicate (roundPgup endPos) 0)
  else .ok np

/-- The part of `ramfs_write` that makes room up to `end_pos`. -/
def ramfsExpand (np : RamfsNode) (endPos : Nat) : Outcome RamfsNode :=
  if np.vSize < endPos then
    if 2 ^ 63 ≤ endPos then .error .undefinedArith
    else do
      let np ← expandBuffer np endPos
      .ok { np with rnSize := endPos, vSize := endPos, rnOwnsBuf := true }
  else .ok np

def ramfsWrite (np : RamfsNode) (uio : Uio) (append : Bool) : Outcome (Option Errno × RamfsNode) :=
  if np.vType = .dir then .ok (some .eisdir, np)
  else if np.vType ≠ .reg then .ok (some .einval, np)
  else if uio.offset < 0 then .ok (some .einval, np)
  else if 2 ^ 63 - 1 ≤ uio.offset then .ok (some .efbig, np)
  else if uio.resid = 0 then .ok (none, np)
  else do
    let uio := if append then { uio with offset := np.rnSize } else uio
    let offset := uio.offset.toNat
    let np ← ramfsExpand np (offset + uio.resid)
    match np.rnBuf with
    | none => .error .badPointer
    | some buf => do
        let (m, _) ← vfscoreUiomove (buf.drop offset) uio.resid uio
        .ok (none, { np with rnBuf := some (buf.take offset ++ m.cp) })

/-! ### Calls -/

/-- A call on the file, with the iovecs of its `uio` or the contents of the memory that `malloc`
returns. -/
inductive RamfsOp
  | write (offset : Int) (append : Bool) (iov : List (List UInt8))
  | truncate (length : Nat) (garbage : Nat → UInt8)
  | read (offset : Int) (iov : List (List UInt8))

/-- What a call returns: the error and the bytes that are read. -/
abbrev RamfsRet := Option Errno × List UInt8

def ramfsStep (np : RamfsNode) : RamfsOp → Outcome (RamfsRet × RamfsNode)
  | .write offset append iov => do
      let (err, np) ← ramfsWrite np ⟨iov, offset, iov.flatten.length, .write⟩ append
      .ok ((err, []), np)
  | .truncate length garbage => do
      let (err, np) ← ramfsTruncate np length garbage
      .ok ((err, []), np)
  | .read offset iov => do
      let r ← ramfsRead np ⟨iov, offset, iov.flatten.length, .read⟩
      .ok (r, np)

/-- **The file of POSIX**: what the same calls do to a sequence of bytes. -/
def fileStep (c : List UInt8) : RamfsOp → RamfsRet × List UInt8
  | .write offset append iov =>
    if offset < 0 then ((some .einval, []), c)
    else if 2 ^ 63 - 1 ≤ offset then ((some .efbig, []), c)
    else ((none, []), overwrite 0 c (if append then c.length else offset.toNat) iov.flatten)
  | .truncate length _ => ((none, []), resize 0 c length)
  | .read offset iov =>
    if offset < 0 then ((some .einval, []), c)
    else ((none, readAt c offset.toNat iov.flatten.length), c)

/-- The buffer has zeros from `a` up to `b`. -/
def RamfsNode.ZeroOn (np : RamfsNode) (a b : Nat) : Prop := ∀ i < b, a ≤ i → np.buf[i]? = some 0

/-- The call exposes no stale or uninitialised byte, and its lengths fit the types of
the source. -/
def RamfsOp.Clean (np : RamfsNode) : RamfsOp → Prop
  | .write offset append iov =>
    let start := if append then np.rnSize else offset.toNat
    let len := iov.flatten.length
    0 ≤ offset → offset < 2 ^ 63 - 1 → len ≠ 0 → start + len < 2 ^ 63 ∧ len ≤ toSize (toInt len) ∧
      (((start + len : Nat) : Int) ≤ toOff np.rnBufsize → np.ZeroOn np.vSize start)
  | .truncate length garbage =>
    length < 2 ^ 63 ∧
    (length ≤ np.rnBufsize → np.ZeroOn np.vSize length) ∧
    (np.rnBufsize < length → ∀ i < length, np.vSize ≤ i → garbage i = 0)
  | .read offset iov =>
    let len := min (np.vSize - offset.toNat) iov.flatten.length
    0 ≤ offset → min (toSize (toInt len)) iov.flatten.length = len

/-! ### Refinement -/

variable {np np' : RamfsNode} {c : List UInt8}

/-- The node stores the file `c`: as the beginning of its buffer. -/
structure Refines (np : RamfsNode) (c : List UInt8) : Prop where
  reg : np.vType = .reg
  vSize : np.vSize = c.length
  rnSize : np.rnSize = c.length
  bufsize : np.buf.length = np.rnBufsize
  content : c <+: np.buf

theorem RamfsNode.rnBuf_of_pos (hb : 0 < np.buf.length) : np.rnBuf = some np.buf := by
  cases hnp : np.rnBuf with
  | none => simp [RamfsNode.buf, hnp] at hb
  | some b => simp [RamfsNode.buf, hnp]

theorem Refines.oldData (h : Refines np c) : np.oldData = .ok c := by
  have hle := h.content.length_le
  rw [RamfsNode.oldData, h.rnSize]
  by_cases hc : c.length = 0
  · rw [if_neg (by simpa using hc), length_eq_zero_iff.mp hc]
  rw [if_pos hc, RamfsNode.rnBuf_of_pos (by omega)]
  simp only [h.vSize]
  rw [copyOut_ok (by omega), drop_zero]
  exact congrArg _ (prefix_iff_eq_take.mp h.content).symm

theorem moveBuffer_ok (h : Refines np c) (newBuf : List UInt8) (hlen : c.length ≤ newBuf.length) :
    ∃ np', moveBuffer np newBuf = .ok np' ∧ Refines np' c ∧ np'.rnBufsize = newBuf.length ∧
      ∀ i, c.length ≤ i → np'.buf[i]? = newBuf[i]? := by
  have hmove : moveBuffer np newBuf =
      .ok { np with rnBuf := some (splice newBuf 0 c), rnBufsize := newBuf.length } := by
    rw [moveBuffer, h.oldData, ok_bind, if_neg (by omega)]
  refine ⟨_, hmove, ⟨h.reg, h.vSize, h.rnSize, ?_, ?_⟩, rfl, fun i hi => ?_⟩
  · exact length_splice (by omega)
  · simp [RamfsNode.buf, splice]
  simp only [RamfsNode.buf, Option.getD_some]
  rw [getElem?_splice (by omega), if_neg (by omega)]

theorem Refines.setSize {c' : List UInt8} (h : Refines np c) (owns : Bool) (hc' : c' <+: np.buf) :
    Refines { np with rnSize := c'.length, vSize := c'.length, rnOwnsBuf := owns } c' :=
  ⟨h.reg, rfl, rfl, h.bufsize, hc'⟩

theorem le_roundPgup {n : Nat} (h : n < 2 ^ 63) : n ≤ roundPgup n := by
  rw [roundPgup_eq (by omega)]
  omega

theorem ramfsTruncate_eq {length : Nat} {garbage : Nat → UInt8}
    (h : truncateBuffer np length garbage = .ok np') :
    ramfsTruncate np length garbage =
      .ok (none, { np' with rnSize := length, vSize := length }) := by
  rw [ramfsTruncate, h]
  rfl

theorem ramfsTruncate_ok {length : Nat} {garbage : Nat → UInt8} (h : Refines np c)
    (hclean : RamfsOp.Clean np (.truncate length garbage)) :
    ∃ np', ramfsTruncate np length garbage = .ok (none, np') ∧ Refines np' (resize 0 c length) := by
  obtain ⟨hlt, hzero, hgarbage⟩ := hclean
  have hcb := h.content.length_le
  have hbs := h.bufsize
  by_cases h0 : length = 0
  · subst h0
    have hnil : resize 0 c 0 = [] := by simp [resize]
    rw [hnil]
    cases hb : np.rnBuf with
    | none =>
      have htr : truncateBuffer np 0 garbage = .ok np := by simp [truncateBuffer, hb]
      exact ⟨_, ramfsTruncate_eq htr, h.reg, rfl, rfl, hbs, by simp⟩
    | some b =>
      have htr : truncateBuffer np 0 garbage = .ok { np with rnBuf := none, rnBufsize := 0 } := by
        simp [truncateBuffer, hb]
      exact ⟨_, ramfsTruncate_eq htr, h.reg, rfl, rfl, rfl, by simp⟩
  by_cases hbig : np.rnBufsize < length
  · -- a block of `malloc`
    have hround := le_roundPgup hlt
    obtain ⟨np₁, hmove, h₁, hsize, hrest⟩ := moveBuffer_ok h
      ((List.range (roundPgup length)).map garbage) (by simp; omega)
    have htr : truncateBuffer np length garbage = .ok { np₁ with rnOwnsBuf := true } := by
      rw [truncateBuffer, if_neg h0, if_pos hbig, hmove]
      rfl
    have hpre : resize 0 c length <+: np₁.buf := by
      refine resize_prefix h₁.content fun i hi hci => ?_
      rw [hrest i hci, getElem?_map, getElem?_range (by omega), Option.map_some,
        hgarbage hbig i hi (by rw [h.vSize]; exact hci)]
    have hfin := h₁.setSize true hpre
    rw [length_resize] at hfin
    exact ⟨_, ramfsTruncate_eq htr, hfin⟩
  have htr : truncateBuffer np length garbage = .ok np := by
    rw [truncateBuffer, if_neg h0, if_neg hbig]
  have hpre : resize 0 c length <+: np.buf := by
    refine resize_prefix h.content fun i hi hci => ?_
    exact hzero (by omega) i hi (by rw [h.vSize]; exact hci)
  have hfin := h.setSize np.rnOwnsBuf hpre
  rw [length_resize] at hfin
  exact ⟨_, ramfsTruncate_eq htr, hfin⟩

theorem ramfsExpand_ok {start endPos : Nat} (h : Refines np c) (hend : endPos < 2 ^ 63)
    (hstart : start < endPos)
    (hzero : (endPos : Int) ≤ toOff np.rnBufsize → np.ZeroOn np.vSize start) :
    ∃ np', ramfsExpand np endPos = .ok np' ∧ np'.vType = .reg ∧
      np'.vSize = max c.length endPos ∧ np'.rnSize = max c.length endPos ∧
      np'.buf.length = np'.rnBufsize ∧ endPos ≤ np'.buf.length ∧ c <+: np'.buf ∧
      ∀ i < start, c.length ≤ i → np'.buf[i]? = some 0 := by
  have hcb := h.content.length_le
  have hbs := h.bufsize
  have hvs := h.vSize
  by_cases hgrow : np.vSize < endPos
  swap
  · refine ⟨np, if_neg hgrow, h.reg, ?_, ?_, hbs, by omega, h.content, fun i hi hci => by omega⟩
    · omega
    rw [h.rnSize]
    omega
  have hmax : max c.length endPos = endPos := by omega
  rw [hmax]
  by_cases hmove : toOff np.rnBufsize < endPos
  · -- a block of `calloc`
    have hround := le_roundPgup hend
    obtain ⟨np₁, hnew, h₁, hsize, hrest⟩ := moveBuffer_ok h
      (List.replicate (roundPgup endPos) 0) (by simp; omega)
    have hexp : ramfsExpand np endPos =
        .ok { np₁ with rnSize := endPos, vSize := endPos, rnOwnsBuf := true } := by
      rw [ramfsExpand, if_pos hgrow, if_neg (by omega), expandBuffer, if_pos hmove, hnew]
      rfl
    rw [length_replicate] at hsize
    refine ⟨_, hexp, h₁.reg, rfl, rfl, h₁.bufsize, ?_, h₁.content, fun i hi hci => ?_⟩
    · exact hround.trans (hsize.symm.trans h₁.bufsize.symm).le
    · exact (hrest i hci).trans (by rw [getElem?_replicate, if_pos (by omega)])
  have hexp : ramfsExpand np endPos =
      .ok { np with rnSize := endPos, vSize := endPos, rnOwnsBuf := true } := by
    rw [ramfsExpand, if_pos hgrow, if_neg (by omega), expandBuffer, if_neg hmove]
    rfl
  have hfit : endPos ≤ np.rnBufsize := by
    unfold toOff at hmove
    split at hmove <;> omega
  refine ⟨_, hexp, h.reg, rfl, rfl, hbs, hfit.trans hbs.ge, h.content, fun i hi hci => ?_⟩
  exact hzero (by omega) i hi (by omega)

variable {iov : List (List UInt8)}

theorem uiomove_write (offset : Int) {buf : List UInt8} {start : Nat}
    (hint : iov.flatten.length ≤ toSize (toInt iov.flatten.length))
    (hfit : start + iov.flatten.length ≤ buf.length) :
    ∃ m uio, vfscoreUiomove (buf.drop start) iov.flatten.length
        ⟨iov, offset, iov.flatten.length, .write⟩ = .ok (m, uio) ∧
      buf.take start ++ m.cp = splice buf start iov.flatten := by
  have hm : min (toSize (toInt iov.flatten.length)) iov.flatten.length = iov.flatten.length := by
    omega
  obtain ⟨iov', hmove, -⟩ := uioforeach_spec .write (buf.drop start)
    (toSize (toInt iov.flatten.length)) (rfl : iov.flatten.length = _)
    (by rw [hm, length_drop]; omega)
  rw [hm] at hmove
  refine ⟨_, _, by rw [vfscoreUiomove, hmove]; rfl, ?_⟩
  simp [splice, take_of_length_le, append_assoc]

theorem ramfsWrite_ok {offset : Int} {append : Bool} (h : Refines np c)
    (hclean : RamfsOp.Clean np (.write offset append iov)) :
    ∃ np', ramfsWrite np ⟨iov, offset, iov.flatten.length, .write⟩ append =
        .ok ((fileStep c (.write offset append iov)).1.1, np') ∧
      Refines np' (fileStep c (.write offset append iov)).2 := by
  unfold ramfsWrite fileStep
  rw [if_neg (by rw [h.reg]; decide), if_neg (by rw [h.reg]; decide)]
  by_cases hneg : offset < 0
  · simp only [hneg, if_true]
    exact ⟨np, rfl, h⟩
  by_cases hbig : 2 ^ 63 - 1 ≤ offset
  · simp only [hneg, hbig, if_true, if_false]
    exact ⟨np, rfl, h⟩
  simp only [hneg, hbig, if_false]
  by_cases hempty : iov.flatten.length = 0
  · simp only [hempty, if_true]
    refine ⟨np, rfl, ?_⟩
    rw [length_eq_zero_iff.mp hempty]
    exact h
  simp only [hempty, if_false]
  obtain ⟨hend, hint, hzero⟩ := hclean (by omega) (by omega) hempty
  generalize hst : (if append then c.length else offset.toNat) = start
  have hst' : (if append then np.rnSize else offset.toNat) = start := by rw [h.rnSize, hst]
  rw [hst'] at hend hzero
  -- the offset of the `uio` after `IO_APPEND`
  have huio : (if append then
        { iov, offset := (np.rnSize : Int), resid := iov.flatten.length, rw := .write }
      else { iov, offset, resid := iov.flatten.length, rw := .write } : Uio) =
      ⟨iov, start, iov.flatten.length, .write⟩ := by
    cases append <;> simp at hst' ⊢ <;> omega
  rw [huio]
  obtain ⟨np₁, hexp, hreg, hvs, hrs, hbs, hfit, hpre, hz⟩ := ramfsExpand_ok h hend (by omega) hzero
  obtain ⟨m, uio, hmove, hcp⟩ := uiomove_write start hint hfit
  have hb := RamfsNode.rnBuf_of_pos (show 0 < np₁.buf.length by omega)
  simp only [Int.toNat_natCast, hexp, ok_bind, hb, hmove, hcp]
  have hne : iov.flatten ≠ [] := fun he => hempty (by rw [he]; rfl)
  refine ⟨_, rfl, hreg, ?_, ?_, ?_, ?_⟩
  · rw [length_overwrite hne, hvs]
  · rw [length_overwrite hne, hrs]
  · simpa [RamfsNode.buf] using (length_splice hfit).trans hbs
  · exact overwrite_prefix hpre hne hfit hz

theorem ramfsRead_ok {offset : Int} (h : Refines np c)
    (hclean : RamfsOp.Clean np (.read offset iov)) :
    ramfsRead np ⟨iov, offset, iov.flatten.length, .read⟩ =
      .ok (fileStep c (.read offset iov)).1 := by
  unfold ramfsRead fileStep
  rw [if_neg (by rw [h.reg]; decide), if_neg (by rw [h.reg]; decide)]
  by_cases hneg : offset < 0
  · simp only [hneg, if_true]
  simp only [hneg, if_false]
  have hcb := h.content.length_le
  have hvs := h.vSize
  by_cases hempty : iov.flatten.length = 0
  · simp [hempty, readAt]
  by_cases hpast : (np.vSize : Int) ≤ offset
  · simp only [hempty, hpast, if_true, if_false, readAt]
    rw [drop_eq_nil_of_le (by omega), take_nil]
  simp only [hempty, hpast, if_false]
  have hlen : (if (np.vSize : Int) - offset < iov.flatten.length then np.vSize - offset.toNat
      else iov.flatten.length) = min (np.vSize - offset.toNat) iov.flatten.length := by
    split <;> omega
  have hint := hclean (by omega)
  rw [hlen, RamfsNode.rnBuf_of_pos (show 0 < np.buf.length by omega)]
  generalize hl : min (np.vSize - offset.toNat) iov.flatten.length = len at *
  obtain ⟨iov', hmove, -⟩ := uioforeach_spec .read (np.buf.drop offset.toNat)
    (toSize (toInt len)) (rfl : iov.flatten.length = _)
    (by rw [hint, length_drop]; omega)
  rw [hint] at hmove
  simp only [vfscoreUiomove, hmove, ok_bind]
  -- the bytes of the buffer up to `len` are bytes of the file
  have hc : c = np.buf.take c.length := prefix_iff_eq_take.mp h.content
  rw [readAt, hc, drop_take, take_take]
  congr 3
  omega

/-- **Step lemma.** A clean call returns what the file returns, and the node stores
the file after it. -/
theorem ramfsStep_ok {op : RamfsOp} (h : Refines np c) (hclean : op.Clean np) :
    ∃ np', ramfsStep np op = .ok ((fileStep c op).1, np') ∧ Refines np' (fileStep c op).2 := by
  cases op with
  | write offset append iov =>
    obtain ⟨np', hw, href⟩ := ramfsWrite_ok h hclean
    refine ⟨np', ?_, href⟩
    have hout : (fileStep c (.write offset append iov)).1.2 = [] := by
      simp only [fileStep]
      split
      · rfl
      · split <;> rfl
    rw [ramfsStep, hw, ok_bind, ← hout]
  | truncate length garbage =>
    obtain ⟨np', ht, href⟩ := ramfsTruncate_ok h hclean
    exact ⟨np', by rw [ramfsStep, ht]; rfl, href⟩
  | read offset iov =>
    refine ⟨np, by rw [ramfsStep, ramfsRead_ok h hclean]; rfl, ?_⟩
    simp only [fileStep]
    split <;> exact h

/-! ### Runs -/

def runStep (s : RamfsNode × List UInt8) (op : RamfsOp) :
    Outcome (RamfsRet × (RamfsNode × List UInt8)) := do
  let (r, np) ← ramfsStep s.1 op
  .ok (r, (np, (fileStep s.2 op).2))

def emptyNode : RamfsNode := ⟨.reg, 0, 0, none, 0, false⟩

theorem refines_of_reachable {s : RamfsNode × List UInt8}
    (h : Reachable runStep (fun s op => RamfsOp.Clean s.1 op) (emptyNode, []) s) :
    Refines s.1 s.2 := by
  refine h.invariant (I := fun s => Refines s.1 s.2) ⟨rfl, rfl, rfl, rfl, by simp⟩ ?_
  rintro s op r s' href hclean hstep
  obtain ⟨np', hnp, href'⟩ := ramfsStep_ok href hclean
  rw [runStep, hnp] at hstep
  cases hstep
  exact href'

/-- **`ramfs` files refine the file of POSIX.** In every run of clean calls from an empty node, the
node has the size of the file, and a further clean call returns what the file returns. -/
theorem ramfs_refines_file (s : RamfsNode × List UInt8)
    (h : Reachable runStep (fun s op => RamfsOp.Clean s.1 op) (emptyNode, []) s) :
    s.1.vSize = s.2.length ∧
    ∀ op : RamfsOp, op.Clean s.1 → ∃ np', ramfsStep s.1 op = .ok ((fileStep s.2 op).1, np') ∧
        np'.vSize = (fileStep s.2 op).2.length := by
  have href := refines_of_reachable h
  refine ⟨href.vSize, fun op hclean => ?_⟩
  obtain ⟨np', hnp, href'⟩ := ramfsStep_ok href hclean
  exact ⟨np', hnp, href'.vSize⟩

/-- Two bytes are written and read back. -/
theorem ramfs_write_read :
    ∃ s, Reachable runStep (fun s op => RamfsOp.Clean s.1 op) (emptyNode, []) s ∧
      s.2 = [1, 2] ∧ s.1.vSize = 2 ∧
      ∃ np', ramfsStep s.1 (.read 0 [[0, 0]]) = .ok ((none, [1, 2]), np') := by
  have hclean : RamfsOp.Clean emptyNode (.write 0 false [[1, 2]]) :=
    fun _ _ _ => ⟨by decide, by decide, fun h => absurd h (by decide)⟩
  obtain ⟨np, hnp, -⟩ := (ramfs_refines_file _ .refl).2 _ hclean
  have hstep : runStep (emptyNode, []) (.write 0 false [[1, 2]]) =
      .ok ((none, []), (np, [1, 2])) := by
    rw [runStep, hnp]
    rfl
  have hreach : Reachable runStep (fun s op => RamfsOp.Clean s.1 op) (emptyNode, [])
      (np, [1, 2]) := Reachable.refl.tail hclean hstep
  have hsize : np.vSize = 2 := (ramfs_refines_file _ hreach).1
  have hread : RamfsOp.Clean np (.read 0 [[0, 0]]) := by
    intro _
    simp only [hsize]
    decide
  obtain ⟨np', hr, -⟩ := (ramfs_refines_file _ hreach).2 _ hread
  exact ⟨_, hreach, rfl, hsize, np', hr⟩

/-- A new file that is truncated to one byte has that byte from `malloc`. -/
theorem ramfs_truncate_exposes :
    ∃ s, Reachable runStep (fun _ _ => True) (emptyNode, []) s ∧
      ∃ np', ramfsStep s.1 (.read 0 [[0]]) = .ok ((none, [7]), np') ∧
        (fileStep s.2 (.read 0 [[0]])).1 = (none, [0]) := by
  obtain ⟨s, hs, hread, hfile⟩ : ∃ s, Reachable runStep (fun _ _ => True) (emptyNode, []) s ∧
      (ramfsStep s.1 (.read 0 [[0]])).toOption.map (fun r => (r.1, ())) =
        some ((none, [7]), ()) ∧ (fileStep s.2 (.read 0 [[0]])).1 = (none, [0]) :=
    Reachable.exists_of_run [.truncate 1 (fun _ => 7)] (by decide +kernel)
  obtain ⟨np', hstep, -⟩ := Outcome.exists_of_eval _ (fun _ => ()) hread
  exact ⟨s, hs, np', hstep, hfile⟩

end Unikraft.Ramfs
