import Unikraft.Basic
import Mathlib.Data.List.Perm.Basic

/-!
# Unikraft.Ramfs.Tree

The directory tree of `ramfs` (`ramfs_vnops.c`) as nodes on a heap, and the three functions that
change it: `ramfs_add_node`, `ramfs_remove_node` and `ramfs_rename_node`. An access to a node or a
buffer that is not there any more is a fault.
-/

namespace Unikraft.Ramfs

open Function Outcome

/-! ### The heap -/

/-- The types of `ramfs` nodes (`VREG`, `VDIR`, `VLNK`). -/
inductive RnType
  | reg
  | dir
  | lnk
  deriving DecidableEq

/-- A name in a directory: a string without its terminating zero. -/
abbrev Name := List Char

/-- `struct ramfs_node` without its times. `rnChild` is the list from `rn_child` on. -/
structure TreeNode where
  rnChild : List Nat
  rnType : RnType
  rnName : Name
  rnSize : Nat
  rnBuf : Option Nat
  rnBufsize : Nat
  rnMode : Nat
  rnOwnsBuf : Bool
  deriving DecidableEq

/-- The nodes and the data buffers on the heap. -/
structure Heap where
  nodes : Nat → Option TreeNode
  bufs : Nat → Option (List UInt8)

def Heap.deref (fs : Heap) (np : Nat) : Outcome TreeNode :=
  match fs.nodes np with
  | none => .error .badPointer
  | some n => .ok n

def Heap.set (fs : Heap) (np : Nat) (n : TreeNode) : Heap :=
  { fs with nodes := update fs.nodes np (some n) }

theorem Heap.set_nodes {fs : Heap} {np x : Nat} {n : TreeNode} :
    (fs.set np n).nodes x = if x = np then some n else fs.nodes x :=
  update_apply ..

theorem Heap.deref_ok {fs : Heap} {np : Nat} {n : TreeNode} (h : fs.nodes np = some n) :
    fs.deref np = .ok n := by
  unfold Heap.deref
  rw [h]

/-! ### The functions -/

abbrev nameMax : Nat := 255

/-- The mode of a new node: `S_IFDIR|0777`, `S_IFLNK|0777` or `S_IFREG|0777`. -/
def defaultMode : RnType → Nat
  | .dir => 0x4000 + 0x1ff
  | .lnk => 0xa000 + 0x1ff
  | .reg => 0x8000 + 0x1ff

/-- The node that `ramfs_allocate_node` makes. -/
def newNode (name : Name) (type : RnType) : TreeNode where
  rnChild := []
  rnType := type
  rnName := name
  rnSize := 0
  rnBuf := none
  rnBufsize := 0
  rnMode := defaultMode type
  rnOwnsBuf := true

/-- `ramfs_allocate_node`; `node` and `nameMem` are what its two calls of `malloc` return. -/
def ramfsAllocateNode (fs : Heap) (node : Option Nat) (nameMem : Bool) (name : Name)
    (type : RnType) : Option Nat × Heap :=
  match node with
  | none => (none, fs)
  | some np =>
    if nameMem then (some np, fs.set np (newNode name type)) else (none, fs)

/-- The data buffer of a node that is freed. -/
def freeBuf (fs : Heap) (n : TreeNode) : Outcome Heap :=
  match n.rnBuf with
  | none => .ok fs
  | some b =>
    if n.rnOwnsBuf then
      match fs.bufs b with
      | none => .error .badPointer
      | some _ => .ok { fs with bufs := update fs.bufs b none }
    else .ok fs

def ramfsFreeNode (fs : Heap) (np : Nat) : Outcome Heap := do
  let n ← fs.deref np
  let fs ← freeBuf fs n
  .ok { fs with nodes := update fs.nodes np none }

def ramfsAddNode (fs : Heap) (node : Option Nat) (nameMem : Bool) (dnp : Nat) (name : Name)
    (type : RnType) : Outcome (Option Nat × Heap) :=
  match ramfsAllocateNode fs node nameMem name type with
  | (none, fs) => .ok (none, fs)
  | (some np, fs) => do
      let d ← fs.deref dnp
      .ok (some np, fs.set dnp { d with rnChild := d.rnChild ++ [np] })

def ramfsRemoveNode (fs : Heap) (dnp np : Nat) : Outcome (Option Errno × Heap) := do
  let d ← fs.deref dnp
  if d.rnChild = [] then .ok (some .ebusy, fs)
  else if np ∉ d.rnChild then .ok (some .enoent, fs)
  else do
    let fs ← ramfsFreeNode (fs.set dnp { d with rnChild := d.rnChild.erase np }) np
    .ok (none, fs)

/-- `ramfs_rename_node`; `tmp` says whether the `malloc` for a longer name succeeds. -/
def ramfsRenameNode (fs : Heap) (np : Nat) (name : Name) (tmp : Bool) :
    Outcome (Option Errno × Heap) :=
  if nameMax < name.length then .ok (some .enametoolong, fs)
  else do
    let n ← fs.deref np
    if name.length ≤ n.rnName.length then .ok (none, fs.set np { n with rnName := name })
    else if tmp then .ok (none, fs.set np { n with rnName := name })
    else .ok (some .enomem, fs)

end Unikraft.Ramfs
