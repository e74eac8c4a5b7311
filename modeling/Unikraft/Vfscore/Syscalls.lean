import Unikraft.Vfscore.Namei

/-!
# Unikraft.Vfscore.Syscalls

The system calls that change names (`vfscore/syscalls.c`), over the vnode operations of any
file system (`FileSys`). They resolve their paths with the functions of `lookup.c`, call one
vnode operation, and then bring the dentry cache up to date.
-/

namespace Unikraft.Vfscore

open Lib

/-- The vnode operations of a file system with the states `σ`. -/
structure FileSys (σ : Type) where
  vops : σ → Vops
  /-- `VOP_CREATE` and `VOP_MKDIR`, by the type of the new vnode. -/
  create : σ → (dvp : Nat) → (name : List Char) → VType → Outcome (Option Errno × σ)
  remove : σ → (dvp vp : Nat) → (name : List Char) → Outcome (Option Errno × σ)
  rmdir : σ → (dvp vp : Nat) → (name : List Char) → Outcome (Option Errno × σ)
  rename : σ → (dvp1 vp1 : Nat) → (sname : List Char) → (dvp2 : Nat) → (vp2 : Option Nat) →
    (dname : List Char) → Outcome (Option Errno × σ)
  truncate : σ → (vp : Nat) → (length : Nat) → Outcome (Option Errno × σ)
  /-- Whether `VOP_READDIR` finds only `.` and `..`. -/
  isEmpty : σ → (vp : Nat) → Outcome Bool

/-- The state of a file system and the dentry cache. -/
structure Vfs (σ : Type) where
  fs : σ
  cache : Dcache

/-- The flags of `open` that matter to names; `write` is `UK_FWRITE`. -/
structure OpenFlags where
  creat : Bool := false
  excl : Bool := false
  nofollow : Bool := false
  directory : Bool := false
  write : Bool := false
  trunc : Bool := false

section

variable {σ : Type} (F : FileSys σ) (mounts : List Mount)

/-- `lookup` and `namei_last_nofollow` for one path: the directory, the name in it, and the last
dentry. -/
def lookupLast (fs : Vops) (c : Dcache) (path : List Char) :
    Outcome (Except Errno (Nat × List Char × Nat) × Dcache) := do
  let (r, c) ← lookup fs mounts c path
  match r with
  | .error e => .ok (.error e, c)
  | .ok (ddp, name) => do
      let (r, c) ← nameiLastNofollow fs mounts c path ddp
      match r with
      | .error e => do
          let c ← c.drele ddp
          .ok (.error e, c)
      | .ok dp => .ok (.ok (ddp, name, dp), c)

def openNoFollowChk (fs : Vops) (c : Dcache) (path : List Char) :
    Outcome (Option Errno × Dcache) := do
  let (r, c) ← lookupLast mounts fs c path
  match r with
  | .error e => .ok (some e, c)
  | .ok (ddp, _, dp) => do
      let d ← c.deref dp
      let c ← c.drele dp
      let c ← c.drele ddp
      .ok (if fs.vtype d.dVnode = .vlnk then some .eloop else none, c)

/-- The end of `sys_open`, when the dentry is known. Access is always granted, and there is
memory for the file. -/
def openDentry (s : Vfs σ) (dp : Nat) (flags : OpenFlags) :
    Outcome (Except Errno Nat × Vfs σ) := do
  let d ← s.cache.deref dp
  if flags.trunc then
    if ¬ flags.write ∨ (F.vops s.fs).vtype d.dVnode = .vdir then do
      let c ← s.cache.drele dp
      .ok (.error .einval, { s with cache := c })
    else do
      let (error, fs) ← F.truncate s.fs d.dVnode 0
      match error with
      | some e => do
          let c ← s.cache.drele dp
          .ok (.error e, ⟨fs, c⟩)
      | none => .ok (.ok dp, { s with fs := fs })
  else .ok (.ok dp, s)

/-- The branch of `sys_open` for a name that does not exist. -/
def openNew (s : Vfs σ) (path : List Char) (flags : OpenFlags) :
    Outcome (Except Errno Nat × Vfs σ) := do
  let (r, c) ← lookup (F.vops s.fs) mounts s.cache path
  match r with
  | .error e => .ok (.error e, { s with cache := c })
  | .ok (ddp, filename) => do
      let dd ← c.deref ddp
      let (error, fs) ← F.create s.fs dd.dVnode filename .vreg
      let c ← c.drele ddp
      match error with
      | some e => .ok (.error e, ⟨fs, c⟩)
      | none => do
          let (r, c) ← namei (F.vops fs) mounts c path
          match r with
          | .error e => .ok (.error e, ⟨fs, c⟩)
          | .ok none => .error .badPointer
          | .ok (some dp) => openDentry F ⟨fs, c⟩ dp { flags with trunc := false }

/-- The branch of `sys_open` without `O_CREAT`, from its call of `namei` on. -/
def openFound (s : Vfs σ) (path : List Char) (flags : OpenFlags) :
    Outcome (Except Errno Nat × Vfs σ) := do
  let (r, c) ← namei (F.vops s.fs) mounts s.cache path
  match r with
  | .error e => .ok (.error e, { s with cache := c })
  | .ok none => .error .badPointer
  | .ok (some dp) => do
      let d ← c.deref dp
      let isDir := (F.vops s.fs).vtype d.dVnode = .vdir
      if (flags.write ∨ flags.trunc) ∧ isDir then do
        let c ← c.drele dp
        .ok (.error .eisdir, { s with cache := c })
      else if flags.directory ∧ ¬ isDir then do
        let c ← c.drele dp
        .ok (.error .enotdir, { s with cache := c })
      else openDentry F { s with cache := c } dp flags

/-- The branch of `sys_open` without `O_CREAT`. -/
def openOld (s : Vfs σ) (path : List Char) (flags : OpenFlags) :
    Outcome (Except Errno Nat × Vfs σ) :=
  if flags.nofollow then do
    let (error, c) ← openNoFollowChk mounts (F.vops s.fs) s.cache path
    match error with
    | some e => .ok (.error e, { s with cache := c })
    | none => openFound F mounts { s with cache := c } path flags
  else openFound F mounts s path flags

/-- `sys_open`: the dentry of the file, on which it has a reference. -/
def sysOpen (s : Vfs σ) (path : List Char) (flags : OpenFlags) :
    Outcome (Except Errno Nat × Vfs σ) :=
  if flags.creat then do
    let (r, c) ← namei (F.vops s.fs) mounts s.cache path
    match r with
    | .error .enoent => openNew F mounts { s with cache := c } path flags
    | .error e => .ok (.error e, { s with cache := c })
    | .ok none =>
      if flags.excl then .ok (.error .eexist, { s with cache := c }) else .error .badPointer
    | .ok (some dp) =>
      if flags.excl then do
        let c ← c.drele dp
        .ok (.error .eexist, { s with cache := c })
      else openDentry F { s with cache := c } dp flags
  else openOld F mounts s path flags

/-- The loop of `check_dir_empty` over the entries of a directory. -/
def readDirEmpty (fs : σ) (vp : Nat) : Outcome (Option Errno) :=
  if (F.vops fs).vtype vp ≠ .vdir then .ok (some .enotdir)
  else do
    let empty ← F.isEmpty fs vp
    .ok (if empty then none else some .enotempty)

def checkDirEmpty (s : Vfs σ) (path : List Char) : Outcome (Option Errno × Vfs σ) := do
  let (r, s) ← sysOpen F mounts s path {}
  match r with
  | .error e => .ok (some e, s)
  | .ok dp => do
      let d ← s.cache.deref dp
      let error ← readDirEmpty F s.fs d.dVnode
      let c ← s.cache.drele dp
      .ok (error, { s with cache := c })

def sysMkdir (s : Vfs σ) (path : List Char) : Outcome (Option Errno × Vfs σ) := do
  let (r, c) ← namei (F.vops s.fs) mounts s.cache path
  match r with
  | .ok none => .error .assertion
  | .ok (some dp) => do
      let c ← c.drele dp
      .ok (some .eexist, { s with cache := c })
  | .error _ => do
      let (r, c) ← lookup (F.vops s.fs) mounts c path
      match r with
      | .error e => .ok (some e, { s with cache := c })
      | .ok (ddp, name) => do
          let dd ← c.deref ddp
          let (error, fs) ← F.create s.fs dd.dVnode name .vdir
          let c ← c.drele ddp
          .ok (error, ⟨fs, c⟩)

/-- `sys_stat`, up to what it reads from the vnode. -/
def sysStat (s : Vfs σ) (path : List Char) : Outcome (Option Errno × Vfs σ) := do
  let (r, c) ← namei (F.vops s.fs) mounts s.cache path
  match r with
  | .error e => .ok (some e, { s with cache := c })
  | .ok none => .error .badPointer
  | .ok (some dp) => do
      let c ← c.drele dp
      .ok (none, { s with cache := c })

def sysTruncate (s : Vfs σ) (path : List Char) (length : Nat) :
    Outcome (Option Errno × Vfs σ) := do
  let (r, c) ← namei (F.vops s.fs) mounts s.cache path
  match r with
  | .error e => .ok (some e, { s with cache := c })
  | .ok none => .error .badPointer
  | .ok (some dp) => do
      let d ← c.deref dp
      let (error, fs) ← F.truncate s.fs d.dVnode length
      let c ← c.drele dp
      .ok (error, ⟨fs, c⟩)

/-- The references on a vnode: one from each of its dentries. -/
def vRefcnt (c : Dcache) (v : Nat) : Nat :=
  (c.addrs.filter fun a => (c.dentries a).any fun d => d.dVnode = v).length

/-- `sys_rmdir`. The dentry is removed even if the vnode operation fails. -/
def sysRmdir (s : Vfs σ) (path : List Char) : Outcome (Option Errno × Vfs σ) := do
  let (error, s) ← checkDirEmpty F mounts s path
  match error with
  | some e => .ok (some e, s)
  | none => do
      let (r, c) ← namei (F.vops s.fs) mounts s.cache path
      match r with
      | .error e => .ok (some e, { s with cache := c })
      | .ok none => .error .badPointer
      | .ok (some dp) => do
          let d ← c.deref dp
          if (F.vops s.fs).vtype d.dVnode ≠ .vdir then do
            let c ← c.drele dp
            .ok (some .enotdir, { s with cache := c })
          else if d.dVnode = (F.vops s.fs).root d.dMount ∨ 2 ≤ vRefcnt c d.dVnode then do
            let c ← c.drele dp
            .ok (some .ebusy, { s with cache := c })
          else do
            let (r, c) ← lookup (F.vops s.fs) mounts c path
            match r with
            | .error e => do
                let c ← c.drele dp
                .ok (some e, { s with cache := c })
            | .ok (ddp, name) => do
                let dd ← c.deref ddp
                let (error, fs) ← F.rmdir s.fs dd.dVnode d.dVnode name
                let c ← dentryRemove c dp
                let c ← c.drele ddp
                let c ← c.drele dp
                .ok (error, ⟨fs, c⟩)

/-- `sys_unlink`. The dentry is removed even if the vnode operation fails. -/
def sysUnlink (s : Vfs σ) (path : List Char) : Outcome (Option Errno × Vfs σ) := do
  let (r, c) ← lookupLast mounts (F.vops s.fs) s.cache path
  match r with
  | .error e => .ok (some e, { s with cache := c })
  | .ok (ddp, name, dp) => do
      let d ← c.deref dp
      if (F.vops s.fs).vtype d.dVnode = .vdir then do
        let c ← c.drele dp
        let c ← c.drele ddp
        .ok (some .eisdir, { s with cache := c })
      else if d.dVnode = (F.vops s.fs).root d.dMount then do
        let c ← c.drele dp
        let c ← c.drele ddp
        .ok (some .ebusy, { s with cache := c })
      else do
        let dd ← c.deref ddp
        let (error, fs) ← F.remove s.fs dd.dVnode d.dVnode name
        let c ← dentryRemove c dp
        let c ← c.drele ddp
        let c ← c.drele dp
        .ok (error, ⟨fs, c⟩)

/-- Dropping several references. -/
def dreleAll : List Nat → Dcache → Outcome Dcache
  | [], c => .ok c
  | dp :: dps, c => do
      let c ← c.drele dp
      dreleAll dps c

/-- `strip_trailing` for slashes. -/
def stripTrailing (path : List Char) : List Char := (path.reverse.dropWhile (· = '/')).reverse

def isParent (parent child : List Char) : Prop :=
  parent <+: child ∧ (parent.getLast? = some '/' ∨ (child.drop parent.length).head? = some '/')
  deriving Decidable

/-- The check of `sys_rename` for a target of the given type. -/
def targetEmpty (s : Vfs σ) (type : VType) (dest : List Char) :
    Outcome (Option Errno × Vfs σ) :=
  if type = .vdir then checkDirEmpty F mounts s dest else .ok (none, s)

/-- The part of `sys_rename` that resolves the target: the dentry of its directory, and the one
of the target if it exists. -/
def renameTarget (s : Vfs σ) (isDir ts : Bool) (dest : List Char) :
    Outcome (Except Errno (Nat × Option Nat) × Vfs σ) := do
  let (r, c) ← lookup (F.vops s.fs) mounts s.cache dest
  match r with
  | .error e => .ok (.error e, { s with cache := c })
  | .ok (ddp2, _) => do
      let (r, c) ← nameiLastNofollow (F.vops s.fs) mounts c dest ddp2
      match r with
      | .ok dp2 => do
          let d2 ← c.deref dp2
          let type2 := (F.vops s.fs).vtype d2.dVnode
          if type2 ≠ .vdir ∧ type2 ≠ .vlnk ∧ (isDir = true ∨ ts = true) then do
            let c ← dreleAll [dp2, ddp2] c
            .ok (.error .enotdir, { s with cache := c })
          else if type2 = .vdir ∧ isDir = false then do
            let c ← dreleAll [dp2, ddp2] c
            .ok (.error .eisdir, { s with cache := c })
          else do
            let (error, s) ← targetEmpty F mounts { s with cache := c } type2 dest
            match error with
            | some _ => do
                let c ← dreleAll [dp2, ddp2] s.cache
                .ok (.error .eexist, { s with cache := c })
            | none => .ok (.ok (ddp2, some dp2), s)
      | .error .enoent =>
        if isDir = false ∧ ts = true then do
          let c ← dreleAll [ddp2] c
          .ok (.error .enotdir, { s with cache := c })
        else .ok (.ok (ddp2, none), { s with cache := c })
      | .error e => do
          let c ← dreleAll [ddp2] c
          .ok (.error e, { s with cache := c })

def targetVnode (c : Dcache) : Option Nat → Outcome (Option Nat)
  | none => .ok none
  | some dp2 => do
      let d2 ← c.deref dp2
      .ok (some d2.dVnode)

def targetRemove (c : Dcache) : Option Nat → Outcome Dcache
  | none => .ok c
  | some dp2 => dentryRemove c dp2

/-- The part of `sys_rename` that renames the vnode and moves the dentry. There is memory for
the path of the dentry, which is the new name only. -/
def renameDentry (s : Vfs σ) (ddp1 : Nat) (sname : List Char) (dp1 ddp2 : Nat) (dp2 : Option Nat)
    (dname : List Char) : Outcome (Option Errno × Vfs σ) := do
  let d1 ← s.cache.deref dp1
  let dd1 ← s.cache.deref ddp1
  let dd2 ← s.cache.deref ddp2
  let vp2 ← targetVnode s.cache dp2
  if dd1.dMount ≠ dd2.dMount then .ok (some .exdev, s)
  else do
    let (error, fs) ← F.rename s.fs dd1.dVnode d1.dVnode sname dd2.dVnode vp2 dname
    match error with
    | some e => .ok (some e, { s with fs := fs })
    | none => do
        let (error, c) ← dentryMove s.cache dp1 (some ddp2) dname true
        let c ← targetRemove c dp2
        .ok (error, ⟨fs, c⟩)

/-- A path has a slash at its end that `sys_rename` takes off. -/
def trailing (path : List Char) : Bool := endsSlash path && path.length ≠ 1

def stripped (path : List Char) : List Char :=
  if trailing path then stripTrailing path else path

/-- What `sys_rename` works on: the dentries of the source and of its directory, and those of
the target. -/
structure Renaming where
  ddp1 : Nat
  sname : List Char
  dp1 : Nat
  ddp2 : Nat
  dp2 : Option Nat

/-- The part of `sys_rename` that resolves the two paths. -/
def renameResolve (s : Vfs σ) (src dest : List Char) :
    Outcome (Except Errno Renaming × Vfs σ) := do
  let (r, c) ← lookupLast mounts (F.vops s.fs) s.cache (stripped src)
  match r with
  | .error e => .ok (.error e, { s with cache := c })
  | .ok (ddp1, sname, dp1) => do
      let d1 ← c.deref dp1
      let isDir : Bool := (F.vops s.fs).vtype d1.dVnode = .vdir
      if isDir = false ∧ trailing src = true then do
        let c ← dreleAll [dp1, ddp1] c
        .ok (.error .enotdir, { s with cache := c })
      else do
        let (r, s) ← renameTarget F mounts { s with cache := c } isDir (trailing dest)
          (stripped dest)
        match r with
        | .error e => do
            let c ← dreleAll [dp1, ddp1] s.cache
            .ok (.error e, { s with cache := c })
        | .ok (ddp2, dp2) => .ok (.ok ⟨ddp1, sname, dp1, ddp2, dp2⟩, s)

/-- The part of `sys_rename` between the resolution and the release of the dentries. -/
def renameAct (s : Vfs σ) (src dest : List Char) (args : Renaming) :
    Outcome (Option Errno × Vfs σ) :=
  if src = dest then .ok (if args.dp2.isSome then none else some .enoent, s)
  else if isParent src dest then .ok (some .einval, s)
  else
    match splitLast dest with
    | none => .ok (some .enotdir, s)
    | some (_, dname) =>
      renameDentry F s args.ddp1 args.sname args.dp1 args.ddp2 args.dp2 dname

def sysRename (s : Vfs σ) (src dest : List Char) : Outcome (Option Errno × Vfs σ) := do
  let (r, s) ← renameResolve F mounts s src dest
  match r with
  | .error e => .ok (some e, s)
  | .ok args => do
      let (error, s) ← renameAct F s (stripped src) (stripped dest) args
      let c ← dreleAll (args.dp2.toList ++ [args.ddp2, args.dp1, args.ddp1]) s.cache
      .ok (error, { s with cache := c })

end

end Unikraft.Vfscore
