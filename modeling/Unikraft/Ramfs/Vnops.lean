import Unikraft.Ramfs.File
import Unikraft.Ramfs.Rename
import Unikraft.Vfscore.Process

/-!
# `ramfs` as a file system of `vfscore` (`ramfs_vnops.c`)

A vnode has the address of its node in `v_data`; nothing keeps the node from being freed before the
vnode, so a pointer to nothing is one to freed memory (`freed`).

The model has the node in place of its vnodes. What may differ between the vnodes of one node, and
what the allocator returns, is in the hands of the environment (`RamfsEnv`).
-/

namespace Unikraft.Ramfs

open Lib Vfscore

/-! ### The state -/

/-- The heap, the types of the vnodes, the node of the root, and the number of operations so far,
which is the address of new nodes and buffers. -/
structure RamfsState where
  heap : Heap
  vTypes : Nat → RnType
  root : Nat
  time : Nat

/-- What the operations find in their environment, by the time. -/
structure RamfsEnv where
  /-- Whether there is memory for a node, and for its name. -/
  nodeMem : Nat → Bool
  nameMem : Nat → Bool
  /-- Whether the two directories of a rename have one vnode if they have one node. -/
  oneVnode : Nat → Bool
  /-- The size in the vnode of a file. -/
  vSize : Nat → Nat
  /-- The contents of a new block of memory. -/
  garbage : Nat → Nat → UInt8

/-- The state after an operation. The type of a vnode stays when its node is freed. -/
def RamfsState.next (fs : RamfsState) (heap : Heap) : RamfsState :=
  { fs with
    heap := heap
    vTypes := fun np => ((heap.nodes np).map (·.rnType)).getD (fs.vTypes np)
    time := fs.time + 1 }

/-- An access through a pointer to nothing is one to freed memory. -/
def freed {α : Type} : Outcome α → Outcome α
  | .error .badPointer => .error .useAfterFree
  | r => r

def RamfsState.node (fs : RamfsState) (np : Nat) : Outcome TreeNode := freed (fs.heap.deref np)

/-- The bytes of the buffer of a node. -/
def RamfsState.buffer (fs : RamfsState) (n : TreeNode) : Outcome (Option (List UInt8)) :=
  match n.rnBuf with
  | none => .ok none
  | some b =>
    match fs.heap.bufs b with
    | none => .error .useAfterFree
    | some data => .ok (some data)

/-! ### Resolutions -/

/-- The search of `ramfs_lookup` in the list of children. -/
def findChild (fs : RamfsState) (name : Name) : List Nat → Outcome (Except Errno Nat)
  | [] => .ok (.error .enoent)
  | np :: rest => do
      let n ← fs.node np
      if n.rnName = name then .ok (.ok np) else findChild fs name rest

/-- `ramfs_lookup`. -/
def vopLookup (fs : RamfsState) (dnp : Nat) (name : Name) : Outcome (Except Errno Nat) :=
  if name = [] then .ok (.error .enoent)
  else do
    let d ← fs.node dnp
    findChild fs name d.rnChild

/-- `ramfs_readlink`, into a buffer of `PATH_MAX` characters. The text ends at a zero. -/
def vopReadlink (fs : RamfsState) (np : Nat) : Outcome (Except Errno (List Char)) :=
  if fs.vTypes np ≠ .lnk then .ok (.error .einval)
  else do
    let n ← fs.node np
    let buf ← fs.buffer n
    if n.rnSize = 0 then .ok (.ok [])
    else
      match buf with
      | none => .error .badPointer
      | some data =>
        .ok (.ok (((data.take (min n.rnSize pathMax)).map fun b => Char.ofNat b.toNat).takeWhile
          (· ≠ Char.ofNat 0)))

/-- `v_type`. -/
def vnodeType : RnType → Vfscore.VType
  | .dir => .vdir
  | .reg => .vreg
  | .lnk => .vlnk

/-- The vnode operations for resolutions. -/
def ramfsVops (fs : RamfsState) : Vops where
  lookup := vopLookup fs
  vtype np := vnodeType (fs.vTypes np)
  readlink := vopReadlink fs
  root _ := fs.root

/-! ### Files -/

def fileType : RnType → VType
  | .reg => .reg
  | .dir => .dir
  | .lnk => .other

/-- A vnode and its node, with the bytes of its buffer. -/
def fileView (env : RamfsEnv) (fs : RamfsState) (np : Nat) (n : TreeNode)
    (buf : Option (List UInt8)) : RamfsNode where
  vType := fileType (fs.vTypes np)
  vSize := env.vSize fs.time
  rnSize := n.rnSize
  rnBuf := buf
  rnBufsize := n.rnBufsize
  rnOwnsBuf := n.rnOwnsBuf

/-- A vnode without its node: what the first checks of an operation look at. -/
def vnodeView (env : RamfsEnv) (fs : RamfsState) (np : Nat) : RamfsNode :=
  fileView env fs np (newNode [] (fs.vTypes np)) none

/-- The node `np` after an operation on the file. With `moved`, the data are in a new block. -/
def storeFile (fs : RamfsState) (np : Nat) (n : TreeNode) (moved : Bool) (file : RamfsNode) :
    Outcome Heap :=
  let n' := { n with rnSize := file.rnSize, rnBufsize := file.rnBufsize,
                     rnOwnsBuf := file.rnOwnsBuf }
  match file.rnBuf, n.rnBuf with
  | none, _ => do
      let heap ← freeBuf fs.heap n
      .ok (heap.set np { n' with rnBuf := none })
  | some data, old =>
    if moved then do
      let heap ← freeBuf fs.heap (if n.rnSize ≠ 0 then n else { n with rnBuf := none })
      .ok ({ heap with bufs := Function.update heap.bufs fs.time (some data) }.set np
        { n' with rnBuf := some fs.time })
    else
      match old with
      | none => .error .badPointer
      | some b =>
        .ok ({ fs.heap with bufs := Function.update fs.heap.bufs b (some data) }.set np n')

/-- `ramfs_truncate`. -/
def vopTruncate (env : RamfsEnv) (fs : RamfsState) (np length : Nat) :
    Outcome (Option Errno × RamfsState) := do
  let n ← fs.node np
  let buf ← fs.buffer n
  let (error, file) ← ramfsTruncate (fileView env fs np n buf) length (env.garbage fs.time)
  let heap ← freed (storeFile fs np n (length ≠ 0 ∧ n.rnBufsize < length) file)
  .ok (error, fs.next heap)

/-- `ramfs_read` gets to the node. -/
def readsNode (v : RamfsNode) (uio : Uio) : Bool :=
  v.vType = .reg ∧ 0 ≤ uio.offset ∧ uio.resid ≠ 0 ∧ uio.offset < v.vSize

/-- `ramfs_read`. -/
def vopRead (env : RamfsEnv) (fs : RamfsState) (np : Nat) (uio : Uio) :
    Outcome (Option Errno × RamfsState) :=
  if readsNode (vnodeView env fs np) uio then do
    let n ← fs.node np
    let buf ← fs.buffer n
    let (error, _) ← ramfsRead (fileView env fs np n buf) uio
    .ok (error, fs.next fs.heap)
  else do
    let (error, _) ← ramfsRead (vnodeView env fs np) uio
    .ok (error, fs.next fs.heap)

/-- `ramfs_write` gets to the node. -/
def writesNode (v : RamfsNode) (uio : Uio) : Bool :=
  v.vType = .reg ∧ 0 ≤ uio.offset ∧ uio.offset < 2 ^ 63 - 1 ∧ uio.resid ≠ 0

/-- `ramfs_write` needs a larger buffer. -/
def writeMoves (v : RamfsNode) (uio : Uio) (append : Bool) : Bool :=
  let endPos := (if append then v.rnSize else uio.offset.toNat) + uio.resid
  v.vSize < endPos ∧ toOff v.rnBufsize < endPos

/-- `ramfs_write`. -/
def vopWrite (env : RamfsEnv) (fs : RamfsState) (np : Nat) (uio : Uio) (append : Bool) :
    Outcome (Option Errno × RamfsState) :=
  if writesNode (vnodeView env fs np) uio then do
    let n ← fs.node np
    let buf ← fs.buffer n
    let v := fileView env fs np n buf
    let (error, file) ← ramfsWrite v uio append
    let heap ← freed (storeFile fs np n (writeMoves v uio append) file)
    .ok (error, fs.next heap)
  else do
    let (error, _) ← ramfsWrite (vnodeView env fs np) uio append
    .ok (error, fs.next fs.heap)

/-! ### Names -/

def rnTypeOf : Vfscore.VType → RnType
  | .vdir => .dir
  | .vreg => .reg
  | .vlnk => .lnk

def RamfsEnv.newNode (env : RamfsEnv) (time : Nat) : Option Nat :=
  if env.nodeMem time then some time else none

/-- `ramfs_create` and `ramfs_mkdir`. -/
def vopCreate (env : RamfsEnv) (fs : RamfsState) (dnp : Nat) (name : Name) (type : Vfscore.VType) :
    Outcome (Option Errno × RamfsState) :=
  if nameMax < name.length then .ok (some .enametoolong, fs)
  else do
    let (np, heap) ← freed (ramfsAddNode fs.heap (env.newNode fs.time) (env.nameMem fs.time) dnp
      name (rnTypeOf type))
    .ok (if np.isSome then none else some .enomem, fs.next heap)

/-- `ramfs_remove` and `ramfs_rmdir`. -/
def vopRemove (fs : RamfsState) (dnp np : Nat) : Outcome (Option Errno × RamfsState) := do
  let (error, heap) ← freed (ramfsRemoveNode fs.heap dnp np)
  .ok (error, fs.next heap)

/-- The vnodes of the directories of a rename have the same address if they are one vnode. -/
def vopRename (env : RamfsEnv) (fs : RamfsState) (dnp1 np1 dnp2 : Nat) (np2 : Option Nat)
    (name2 : Name) : Outcome (Option Errno × RamfsState) := do
  let mem : RenameMem := ⟨env.newNode fs.time, env.nameMem fs.time, env.nameMem fs.time⟩
  let dvp2 : Vnode := ⟨if dnp1 = dnp2 ∧ env.oneVnode fs.time then 0 else 1, dnp2⟩
  let (error, heap) ← freed
    (ramfsRename fs.heap mem ⟨0, dnp1⟩ ⟨2, np1⟩ dvp2 (np2.map (⟨3, ·⟩)) name2)
  .ok (error, fs.next heap)

/-- `ramfs_readdir` finds `.`, `..` and then the first child, if there is one. -/
def vopIsEmpty (fs : RamfsState) (np : Nat) : Outcome Bool := do
  let d ← fs.node np
  match d.rnChild with
  | [] => .ok true
  | child :: _ => do
      let _ ← fs.node child
      .ok false

/-- The vnode operations of `ramfs`. -/
def ramfsSys (env : RamfsEnv) : FileSys RamfsState where
  vops := ramfsVops
  create := vopCreate env
  remove fs dnp np _ := vopRemove fs dnp np
  rmdir fs dnp np _ := vopRemove fs dnp np
  rename fs dnp1 np1 _ dnp2 np2 name2 := vopRename env fs dnp1 np1 dnp2 np2 name2
  truncate := vopTruncate env
  isEmpty := vopIsEmpty

end Unikraft.Ramfs
