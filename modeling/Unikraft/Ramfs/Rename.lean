import Unikraft.Ramfs.Tree

/-!
# `ramfs_rename` (`ramfs_vnops.c`)

In one directory the node gets another name; to another directory a new node is made and the old one
removed. What has the new name is removed first.
-/

namespace Unikraft.Ramfs

open Outcome Heap

/-- A vnode: its address, and its `v_data`. -/
structure Vnode where
  addr : Nat
  vData : Nat

/-- What the allocations of one call return: a new node, and whether there is memory for its name
and for a longer name of a node. -/
structure RenameMem where
  node : Option Nat
  name : Bool
  tmp : Bool

/-- The new node takes over the buffer of the old one. -/
def takeBuf (fs : Heap) (np oldNp : Nat) : Outcome Heap := do
  let old ← fs.deref oldNp
  match old.rnBuf with
  | none => .ok fs
  | some buf => do
      let n ← fs.deref np
      .ok ((fs.set np
          { n with rnBuf := some buf, rnSize := old.rnSize, rnBufsize := old.rnBufsize }).set oldNp
        { old with rnBuf := none })

/-- The branch of `ramfs_rename` for two directories. -/
def ramfsMoveNode (fs : Heap) (mem : RenameMem) (dnp1 oldNp dnp2 : Nat) (name2 : Name) :
    Outcome (Option Errno × Heap) := do
  let old ← fs.deref oldNp
  let (np, fs) ← ramfsAddNode fs mem.node mem.name dnp2 name2 old.rnType
  match np with
  | none => .ok (some .enomem, fs)
  | some np => do
      let fs ← takeBuf fs np oldNp
      let (_, fs) ← ramfsRemoveNode fs dnp1 oldNp
      .ok (none, fs)

/-- The target of a rename is removed, if there is one. -/
def removeTarget (fs : Heap) (dnp2 : Nat) (vp2 : Option Vnode) : Outcome (Option Errno × Heap) :=
  match vp2 with
  | none => .ok (none, fs)
  | some vp2 => ramfsRemoveNode fs dnp2 vp2.vData

def ramfsRename (fs : Heap) (mem : RenameMem) (dvp1 vp1 dvp2 : Vnode) (vp2 : Option Vnode)
    (name2 : Name) : Outcome (Option Errno × Heap) := do
  let (error, fs) ← removeTarget fs dvp2.vData vp2
  match error with
  | some error => .ok (some error, fs)
  | none =>
    if dvp1.addr = dvp2.addr then ramfsRenameNode fs vp1.vData name2 mem.tmp
    else ramfsMoveNode fs mem dvp1.vData vp1.vData dvp2.vData name2

end Unikraft.Ramfs
