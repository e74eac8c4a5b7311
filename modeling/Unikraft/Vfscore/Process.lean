import Unikraft.Vfscore.CallInv
import Unikraft.Vfscore.FullPath

/-!
# The calls of a process (`vfscore/main.c`)

A call makes a full path of its argument and passes it to a function of `syscalls.c`. An open file
has a reference on its dentry. The lemmas on the single functions are put together for a step of a
run (`callStep_keeps`).
-/

namespace Unikraft.Vfscore

open Lib

/-- How a call fails: it leaves the defined behaviour, or it returns an error number. -/
inductive Failure
  | fault (f : Fault)
  | errno (e : Errno)
  deriving DecidableEq

def failureOf {α : Type} : Except Failure α → Option Failure
  | .error f => some f
  | .ok _ => none

theorem failureOf_eq_some {α : Type} {r : Except Failure α} {f : Failure}
    (h : failureOf r = some f) : r = .error f := by
  cases r with
  | error f' => exact congrArg _ (Option.some.inj h)
  | ok v => cases h

/-- The file system, the dentry cache, and the dentries of the open files. -/
structure Sys (σ : Type) where
  vfs : Vfs σ
  files : List Nat

/-- A call. An open file is named by its dentry. -/
inductive Call
  | stat (path : List Char)
  | openFile (path : List Char) (flags : OpenFlags)
  | close (dp : Nat)
  | truncate (path : List Char) (length : Nat)
  | mkdir (path : List Char)
  | rmdir (path : List Char)
  | unlink (path : List Char)
  | rename (oldpath newpath : List Char)

/-- `task_conv`. The working directory is the root. -/
def taskConv (path : List Char) : Except Failure (List Char) :=
  match pathConv ['/'] path with
  | .error f => .error (.fault f)
  | .ok (.error e) => .error (.errno e)
  | .ok (.ok full) => .ok full

/-- `get_last_component`, which copies the component into a buffer of `PATH_MAX` characters. -/
def getLastComponent (path : List Char) : Outcome (List Char) :=
  let component := ((path.reverse.dropWhile (· = '/')).takeWhile (· ≠ '/')).reverse
  if component.length < pathMax then .ok component else .error .outOfBounds

section

variable {σ : Type} (F : FileSys σ) (mounts : List Mount)

/-- What a call without a result returns to the process. -/
def returned (files : List Nat) : Outcome (Option Errno × Vfs σ) →
    Except Failure (Option Nat × Sys σ)
  | .error f => .error (.fault f)
  | .ok (some e, _) => .error (.errno e)
  | .ok (none, vfs) => .ok (none, ⟨vfs, files⟩)

/-- What `open` returns; the file has the reference on the dentry. -/
def opened (files : List Nat) : Outcome (Except Errno Nat × Vfs σ) →
    Except Failure (Option Nat × Sys σ)
  | .error f => .error (.fault f)
  | .ok (.error e, _) => .error (.errno e)
  | .ok (.ok dp, vfs) => .ok (some dp, ⟨vfs, dp :: files⟩)

/-- What `close` does when a file is closed for the last time. -/
def closed (s : Sys σ) (dp : Nat) : Except Failure (Option Nat × Sys σ) :=
  match s.vfs.cache.drele dp with
  | .error f => .error (.fault f)
  | .ok c => .ok (none, ⟨{ s.vfs with cache := c }, s.files.erase dp⟩)

/-- `rename` does not take `.` and `..`. -/
def renameArg (path : List Char) : Except Failure Unit :=
  match getLastComponent path with
  | .error f => .error (.fault f)
  | .ok component =>
    if component = ['.'] ∨ component = ['.', '.'] then .error (.errno .einval) else .ok ()

def callStep (s : Sys σ) : Call → Except Failure (Option Nat × Sys σ)
  | .stat path => do
      let path ← taskConv path
      returned s.files (sysStat F mounts s.vfs path)
  | .openFile path flags => do
      let path ← taskConv path
      opened s.files (sysOpen F mounts s.vfs path flags)
  | .close dp => if dp ∈ s.files then closed s dp else .error (.errno .ebadf)
  | .truncate path length => do
      let path ← taskConv path
      returned s.files (sysTruncate F mounts s.vfs path length)
  | .mkdir path => do
      let path ← taskConv path
      returned s.files (sysMkdir F mounts s.vfs path)
  | .rmdir path => do
      let path ← taskConv path
      returned s.files (sysRmdir F mounts s.vfs path)
  | .unlink path => do
      let path ← taskConv path
      returned s.files (sysUnlink F mounts s.vfs path)
  | .rename oldpath newpath =>
    if oldpath = [] ∨ newpath = [] then .error (.errno .enoent)
    else do
      renameArg oldpath
      renameArg newpath
      let src ← taskConv oldpath
      let dest ← taskConv newpath
      returned s.files (sysRename F mounts s.vfs src dest)

end

/-! ### Invariants of a run -/

/-- The references that mounts and open files have on a dentry. -/
def Sys.refs {σ : Type} (mounts : List Mount) (s : Sys σ) (a : Nat) : Nat :=
  (s.files ++ mounts.map (·.mRoot)).count a

/-- The invariant holds of the file system and the cache, and the references are those of the
mounts and the open files. -/
def SysInv {σ : Type} (mounts : List Mount) (Inv : σ → Dcache → (Chain → List Nat) → Prop)
    (s : Sys σ) : Prop :=
  ∃ L, Inv s.vfs.fs s.vfs.cache L ∧ Mounted mounts s.vfs.cache L (s.refs mounts)

/-- What a step leaves: a success keeps the invariant, and no fault is `bad`. -/
def StepKept {σ ρ : Type} (bad : Fault → Prop) (I : σ → Prop) : Except Failure (ρ × σ) → Prop
  | .error (.fault f) => ¬ bad f
  | .error (.errno _) => True
  | .ok (_, s) => I s

/-! ### The first mount -/

/-- The mount whose root is the first dentry of the cache. -/
def firstMount (addr : Nat) (mPath : List Char) : Mount := ⟨addr, mPath, 0⟩

theorem Mounted.first {σ : Type} {m : Mount} {calloc : Nat → Bool} {vp : Nat} (hm : m.mRoot = 0)
    (fs : σ) : ∃ L, Mounted [m] ((dentryInit calloc).allocatedRoot m.addr vp ['/']) L
      ((⟨⟨fs, (dentryInit calloc).allocatedRoot m.addr vp ['/']⟩, []⟩ : Sys σ).refs [m]) := by
  have hok : DcacheOk ((dentryInit calloc).allocatedRoot m.addr vp ['/']) _ (0 + Pi.single 0 1) :=
    DcacheOk.init.alloc_root
  have hrefs : (⟨⟨fs, (dentryInit calloc).allocatedRoot m.addr vp ['/']⟩, []⟩ : Sys σ).refs [m] =
      0 + Pi.single 0 1 := by
    funext a
    rw [Sys.refs, List.nil_append, List.map_singleton, hm, List.count_singleton, zero_add,
      Pi.single_apply]
    simp only [beq_iff_eq, eq_comm (a := a)]
  refine ⟨_, hrefs ▸ hok, fun m' hm' => ?_, fun m' hm' => ?_⟩
  · rw [List.mem_singleton.mp hm', hm]
    exact ⟨hashed_cons.mpr (.inl rfl), _, by rw [allocatedRoot_ident]; rfl, rfl, rfl⟩
  rw [hrefs, List.mem_singleton.mp hm', hm]
  simp

section

variable {σ : Type} {F : FileSys σ} {mounts : List Mount} {bad : Fault → Prop}
  {Good : List Char → Prop} {Place : List Char → Dcache → (Chain → List Nat) → Nat → Prop}
  {Inv : σ → Dcache → (Chain → List Nat) → Prop} {s : Sys σ} {e : Call}

theorem refs_open (vfs : Vfs σ) (dp : Nat) (files : List Nat) :
    (⟨vfs, dp :: files⟩ : Sys σ).refs mounts =
      (⟨vfs, files⟩ : Sys σ).refs mounts + Pi.single dp 1 := by
  funext a
  rw [Sys.refs, List.cons_append, List.count_cons, Pi.add_apply, Sys.refs, Pi.single_apply]
  simp only [beq_iff_eq, eq_comm (a := a)]

theorem refs_close {dp : Nat} (vfs : Vfs σ) (hmem : dp ∈ s.files) :
    s.refs mounts = (⟨vfs, s.files.erase dp⟩ : Sys σ).refs mounts + Pi.single dp 1 := by
  rw [← refs_open]
  funext a
  have hperm := (List.perm_cons_erase hmem).append_right (mounts.map (·.mRoot))
  exact hperm.count_eq a

theorem refs_mount {m : Mount} (h : m ∈ mounts) (s : Sys σ) : s.refs mounts m.mRoot ≠ 0 :=
  (List.count_pos_iff.mpr (List.mem_append_right _ (List.mem_map_of_mem h))).ne'

theorem returned_keeps {call : Outcome (Option Errno × Vfs σ)}
    (h : call.Sat bad (CallKept mounts Inv (s.refs mounts))) :
    StepKept bad (SysInv mounts Inv) (returned s.files call) := by
  rcases call with fault | ⟨_ | e, vfs⟩
  · exact h
  · obtain ⟨L, hinv, hm⟩ := h rfl
    exact ⟨L, hinv, hm⟩
  · trivial

theorem opened_keeps {call : Outcome (Except Errno Nat × Vfs σ)}
    (h : call.Sat bad (OpenKept mounts Inv (s.refs mounts))) :
    StepKept bad (SysInv mounts Inv) (opened s.files call) := by
  rcases call with fault | ⟨e | dp, vfs⟩
  · exact h
  · trivial
  obtain ⟨L, hinv, hm⟩ := h
  exact ⟨L, hinv, (refs_open vfs dp s.files).symm ▸ hm⟩

theorem taskConv_keeps {ρ : Type} {I : Sys σ → Prop} {path : List Char}
    {next : List Char → Except Failure (ρ × Sys σ)}
    (h : ∀ full, pathConv ['/'] path = .ok (.ok full) → FullPath full →
      StepKept bad I (next full)) : StepKept bad I (taskConv path >>= next) := by
  rw [taskConv]
  rcases pathConv_root path with ⟨e, heq⟩ | ⟨full, heq, hfull⟩
  · rw [heq]
    trivial
  rw [heq]
  exact h full heq hfull

theorem renameArg_keeps {ρ : Type} {I : Sys σ → Prop} {path : List Char}
    {next : Unit → Except Failure (ρ × Sys σ)} (hbad : ¬ bad .outOfBounds)
    (h : StepKept bad I (next ())) : StepKept bad I (renameArg path >>= next) := by
  rw [renameArg]
  split
  · rename_i f hf
    rw [getLastComponent] at hf
    split at hf
    · cases hf
    cases hf
    exact hbad
  split
  · trivial
  · exact h

/-- **A step keeps the invariant** if the calls that take names away do. -/
theorem callStep_keeps (hC : CallInv F mounts bad Good Place Inv) (hbad : ¬ bad .outOfBounds)
    (hgood : ∀ path, FullPath path → Good path) (h : SysInv mounts Inv s)
    (hrmdir : ∀ path full, e = .rmdir path → pathConv ['/'] path = .ok (.ok full) →
      FullPath full → (sysRmdir F mounts s.vfs full).Sat bad (CallKept mounts Inv (s.refs mounts)))
    (hunlink : ∀ path full, e = .unlink path → pathConv ['/'] path = .ok (.ok full) →
      FullPath full → (sysUnlink F mounts s.vfs full).Sat bad (CallKept mounts Inv (s.refs mounts)))
    (hrename : ∀ oldpath newpath src dest, e = .rename oldpath newpath →
      pathConv ['/'] oldpath = .ok (.ok src) → pathConv ['/'] newpath = .ok (.ok dest) →
      FullPath src → FullPath dest →
      (sysRename F mounts s.vfs src dest).Sat bad (CallKept mounts Inv (s.refs mounts))) :
    StepKept bad (SysInv mounts Inv) (callStep F mounts s e) := by
  obtain ⟨L, hinv, hm⟩ := h
  cases e with
  | stat path =>
    exact taskConv_keeps fun full _ hfull =>
      returned_keeps (sysStat_keeps hC (hgood full hfull) hm hinv)
  | openFile path flags =>
    exact taskConv_keeps fun full _ hfull =>
      opened_keeps (sysOpen_keeps hC (hgood full hfull) hm hinv)
  | close dp =>
    rw [callStep]
    split
    · rename_i hmem
      rw [refs_close s.vfs hmem] at hm
      obtain ⟨c', L', hcall, hm', hinv', -⟩ := (hC.resolves s.vfs.fs).drele hm hinv
        fun m hmount => refs_mount hmount _
      rw [closed, hcall]
      exact ⟨L', hinv', hm'⟩
    · trivial
  | truncate path length =>
    exact taskConv_keeps fun full _ hfull =>
      returned_keeps (sysTruncate_keeps hC (hgood full hfull) hm hinv)
  | mkdir path =>
    exact taskConv_keeps fun full _ hfull =>
      returned_keeps (sysMkdir_keeps hC (hgood full hfull) hm hinv)
  | rmdir path =>
    exact taskConv_keeps fun full hconv hfull =>
      returned_keeps (hrmdir path full rfl hconv hfull)
  | unlink path =>
    exact taskConv_keeps fun full hconv hfull =>
      returned_keeps (hunlink path full rfl hconv hfull)
  | rename oldpath newpath =>
    rw [callStep]
    split
    · trivial
    refine renameArg_keeps hbad (renameArg_keeps hbad ?_)
    refine taskConv_keeps fun src hsrc hfull => ?_
    refine taskConv_keeps fun dest hdest hfull' => ?_
    exact returned_keeps (hrename oldpath newpath src dest rfl hsrc hdest hfull hfull')

end

end Unikraft.Vfscore
