import Unikraft.Vfscore.Move
import Unikraft.Vfscore.Syscalls

/-!
# Invariants of the file system and the dentry cache

`Resolves` says that an invariant survives the resolutions of a system call, and where the dentries
are that they find; `CallInv` adds the vnode operations that only make or change files. The other
calls also take names away: for them it is to be shown that the invariant holds after the vnode
operation (`sysUnlink_keeps`, `sysRmdir_keeps`, `sysRename_keeps`).
-/

namespace Unikraft.Vfscore

open Lib Outcome Pi

/-! ### Resolutions -/

/-- The path whose dentry `lookup` returns. -/
def parentPath (path : List Char) : List Char :=
  match splitLast (path.take (pathMax - 1)) with
  | none => []
  | some (dir, _) => if dir = [] then ['/'] else dir

/-- The resolutions of the `Good` paths keep an invariant, and the dentries that are held. A
dentry that is found for a path has its `Place`. -/
structure Resolves (fs : Vops) (mounts : List Mount) (bad : Fault → Prop)
    (Good : List Char → Prop) (Place : List Char → Dcache → (Chain → List Nat) → Nat → Prop)
    (Inv : Dcache → (Chain → List Nat) → Prop) : Prop where
  shrunk : ∀ {c L c' L' ext}, Inv c L → DcacheOk c' L' ext → Shrunk c L c' L' → Inv c' L'
  place : ∀ {path c L c' L' ext a}, Place path c L a → Held ext c L c' L' → ext a ≠ 0 →
    Place path c' L' a
  namei : ∀ {path c L ext}, Good path → Mounted mounts c L ext → Inv c L →
    (namei fs mounts c path).Sat bad
      (NameiKept mounts (fun c' L' => Inv c' L' ∧ Held ext c L c' L') ext (Place path) True)
  lookup : ∀ {path c L ext}, Good path → Mounted mounts c L ext → Inv c L →
    (lookup fs mounts c path).Sat bad
      (LookupKept fs mounts (fun c' L' => Inv c' L' ∧ Held ext c L c' L') ext
        (Place (parentPath path)) path)
  last : ∀ {path c L ext ddp dd}, Good path → Mounted mounts c L ext → Inv c L →
    c.dentries ddp = some dd → fs.vtype dd.dVnode = .vdir → Place (parentPath path) c L ddp →
    (nameiLastNofollow fs mounts c path ddp).Sat bad
      (EntryKept mounts (fun c' L' => Inv c' L' ∧ Held ext c L c' L') ext (Place path))

/-- The dentries of a path and of its directory have been found, the one under `name` in the
other; before, the cache was `c`. -/
structure Located (fs : Vops) (mounts : List Mount)
    (Place : List Char → Dcache → (Chain → List Nat) → Nat → Prop)
    (Inv : Dcache → (Chain → List Nat) → Prop) (ext : Nat → Nat) (path : List Char) (c : Dcache)
    (L : Chain → List Nat) (ddp : Nat) (name : List Char) (dp : Nat) (c' : Dcache)
    (L' : Chain → List Nat) : Prop where
  inv : Inv c' L'
  mounted : Mounted mounts c' L' (ext + Pi.single ddp 1 + Pi.single dp 1)
  held : Held ext c L c' L'
  dirPlace : Place (parentPath path) c' L' ddp
  place : Place path c' L' dp
  dir : ∃ dd, c'.dentries ddp = some dd ∧ fs.vtype dd.dVnode = .vdir
  name : ∃ dir, splitLast path = some (dir, name)

section

variable {fs : Vops} {mounts : List Mount} {bad : Fault → Prop} {Good : List Char → Prop}
  {Place : List Char → Dcache → (Chain → List Nat) → Nat → Prop}
  {Inv : Dcache → (Chain → List Nat) → Prop} {c : Dcache} {L : Chain → List Nat}
  {ext : Nat → Nat} {path : List Char} {a b : Nat}

theorem single_ne_zero : (ext + single a 1 : Nat → Nat) a ≠ 0 := by simp

theorem add_ne_zero (h : ext a ≠ 0) : (ext + single b 1 : Nat → Nat) a ≠ 0 := by
  rw [Pi.add_apply]
  omega

section

variable (hR : Resolves fs mounts bad Good Place Inv)

include hR

theorem Resolves.drele (h : Mounted mounts c L (ext + single a 1)) (hinv : Inv c L)
    (hheld : ∀ m ∈ mounts, ext m.mRoot ≠ 0) :
    ∃ c' L', c.drele a = .ok c' ∧ Mounted mounts c' L' ext ∧ Inv c' L' ∧ Held ext c L c' L' := by
  obtain ⟨c', L', hcall, hm, hshrunk, -⟩ := h.drele hheld
  exact ⟨c', L', hcall, hm, hR.shrunk hinv hm.ok hshrunk, hshrunk.held hm.ok⟩

theorem lookupLast_keeps (hgood : Good path) (h : Mounted mounts c L ext) (hinv : Inv c L) :
    (lookupLast mounts fs c path).Sat bad fun r =>
      match r with
      | (.error _, _) => True
      | (.ok (ddp, name, dp), c') =>
        ∃ L', Located fs mounts Place Inv ext path c L ddp name dp c' L' := by
  rw [lookupLast]
  refine (hR.lookup hgood h hinv).bind ?_
  intro ⟨r, c₁⟩ hr
  cases r with
  | error e => trivial
  | ok found =>
    obtain ⟨ddp, name⟩ := found
    obtain ⟨L₁, dd, ⟨hinv₁, hheld₁⟩, hm₁, hplace₁, hdd, hdir, hname⟩ := hr
    refine (hR.last hgood hm₁ hinv₁ hdd hdir hplace₁).bind ?_
    intro ⟨r, c₂⟩ ⟨L₂, ⟨hinv₂, hheld₂⟩, hr⟩
    cases r with
    | error e =>
      obtain ⟨c₃, L₃, hcall, -⟩ := hR.drele hr hinv₂ h.held
      simp only [hcall, ok_bind]
      trivial
    | ok dp =>
      obtain ⟨hm₂, hplace₂⟩ := hr
      obtain ⟨dd', hdd', hident⟩ := hheld₂.dentry single_ne_zero hdd
      have hvnode : dd'.dVnode = dd.dVnode := congrArg Ident.dVnode hident
      exact ⟨L₂, hinv₂, hm₂, hheld₁.trans (hheld₂.mono (le_hold (fun _ => le_rfl) ddp)),
        hR.place hplace₁ hheld₂ single_ne_zero, hplace₂, ⟨dd', hdd', by rw [hvnode, hdir]⟩,
        hname⟩

theorem openNoFollowChk_keeps (hgood : Good path) (h : Mounted mounts c L ext) (hinv : Inv c L) :
    (openNoFollowChk mounts fs c path).Sat bad fun r =>
      r.1 = none → ∃ L', Inv r.2 L' ∧ Mounted mounts r.2 L' ext := by
  rw [openNoFollowChk]
  refine (lookupLast_keeps hR hgood h hinv).bind ?_
  intro ⟨r, c₁⟩ hr
  cases r with
  | error e => exact nofun
  | ok found =>
    obtain ⟨ddp, name, dp⟩ := found
    obtain ⟨L₁, hloc⟩ := hr
    obtain ⟨d, hd⟩ := hloc.mounted.ok.live_of_held
    obtain ⟨c₂, L₂, hcall₂, hm₂, hinv₂, -⟩ := hR.drele hloc.mounted hloc.inv (held_add h.held ddp)
    obtain ⟨c₃, L₃, hcall₃, hm₃, hinv₃, -⟩ := hR.drele hm₂ hinv₂ h.held
    simp only [deref_some hd, hcall₂, hcall₃, ok_bind]
    exact fun _ => ⟨L₃, hinv₃, hm₃⟩

end

end

/-! ### Calls that make files -/

/-- `Inv` survives resolutions, new files and changes of the contents of files; no operation has a
`bad` fault. -/
structure CallInv {σ : Type} (F : FileSys σ) (mounts : List Mount) (bad : Fault → Prop)
    (Good : List Char → Prop) (Place : List Char → Dcache → (Chain → List Nat) → Nat → Prop)
    (Inv : σ → Dcache → (Chain → List Nat) → Prop) : Prop where
  null : ¬ bad .badPointer
  assertion : ¬ bad .assertion
  resolves : ∀ fs, Resolves (F.vops fs) mounts bad Good Place (Inv fs)
  create : ∀ {fs c L path ddp dd name type}, Good path → Inv fs c L → c.dentries ddp = some dd →
    (F.vops fs).vtype dd.dVnode = .vdir → Place (parentPath path) c L ddp →
    (∃ dir, splitLast path = some (dir, name)) →
    (F.create fs dd.dVnode name type).Sat bad fun r => r.1 = none → Inv r.2 c L
  truncate : ∀ {fs c L a d n}, Inv fs c L → c.dentries a = some d →
    (F.truncate fs d.dVnode n).Sat bad fun r => r.1 = none → Inv r.2 c L
  isEmpty : ∀ {fs c L a d}, Inv fs c L → c.dentries a = some d →
    (F.isEmpty fs d.dVnode).Sat bad fun _ => True

/-- A successful call of `sys_open` keeps the invariant, and the caller has a reference on the
dentry. -/
def OpenKept {σ : Type} (mounts : List Mount) (Inv : σ → Dcache → (Chain → List Nat) → Prop)
    (ext : Nat → Nat) : Except Errno Nat × Vfs σ → Prop
  | (.error _, _) => True
  | (.ok dp, s) => ∃ L, Inv s.fs s.cache L ∧ Mounted mounts s.cache L (ext + Pi.single dp 1)

def CallKept {σ : Type} (mounts : List Mount) (Inv : σ → Dcache → (Chain → List Nat) → Prop)
    (ext : Nat → Nat) (r : Option Errno × Vfs σ) : Prop :=
  r.1 = none → ∃ L, Inv r.2.fs r.2.cache L ∧ Mounted mounts r.2.cache L ext

section

variable {σ : Type} {F : FileSys σ} {mounts : List Mount} {bad : Fault → Prop}
  {Good : List Char → Prop} {Place : List Char → Dcache → (Chain → List Nat) → Nat → Prop}
  {Inv : σ → Dcache → (Chain → List Nat) → Prop} {s : Vfs σ} {L : Chain → List Nat}
  {ext : Nat → Nat} {path : List Char} {flags : OpenFlags} {dp : Nat}

theorem openDentry_keeps (hC : CallInv F mounts bad Good Place Inv)
    (h : Mounted mounts s.cache L (ext + single dp 1)) (hinv : Inv s.fs s.cache L)
    (hheld : ∀ m ∈ mounts, ext m.mRoot ≠ 0) :
    (openDentry F s dp flags).Sat bad (OpenKept mounts Inv ext) := by
  obtain ⟨d, hd⟩ := h.ok.live_of_held
  obtain ⟨c', L', hcall, -⟩ := h.drele hheld
  rw [openDentry, deref_some hd, ok_bind]
  split
  · split
    · simp only [hcall, ok_bind]
      trivial
    refine (hC.truncate hinv hd).bind ?_
    intro ⟨error, fs⟩ hinv'
    cases error with
    | some e =>
      simp only [hcall, ok_bind]
      trivial
    | none => exact ⟨L, hinv' rfl, h⟩
  · exact ⟨L, hinv, h⟩

section

variable (hC : CallInv F mounts bad Good Place Inv) (hgood : Good path)
  (h : Mounted mounts s.cache L ext) (hinv : Inv s.fs s.cache L)

include hC hgood h hinv

theorem openNew_keeps : (openNew F mounts s path flags).Sat bad (OpenKept mounts Inv ext) := by
  rw [openNew]
  refine ((hC.resolves s.fs).lookup hgood h hinv).bind ?_
  intro ⟨r, c₁⟩ hr
  cases r with
  | error e => trivial
  | ok found =>
    obtain ⟨ddp, name⟩ := found
    obtain ⟨L₁, dd, ⟨hinv₁, -⟩, hm₁, hplace, hdd, hdir, hname⟩ := hr
    obtain ⟨c₂, L₂, hcall, hm₂, hshrunk, -⟩ := hm₁.drele h.held
    simp only [deref_some hdd, ok_bind]
    refine (hC.create hgood hinv₁ hdd hdir hplace hname).bind ?_
    intro ⟨error, fs⟩ hcreate
    simp only [hcall, ok_bind]
    cases error with
    | some e => trivial
    | none =>
      have hinv₂ := (hC.resolves fs).shrunk (hcreate rfl) hm₂.ok hshrunk
      refine ((hC.resolves fs).namei hgood hm₂ hinv₂).bind ?_
      intro ⟨r, c₃⟩ hr
      cases r with
      | error e => trivial
      | ok x =>
        cases x with
        | none => exact hC.null
        | some dp =>
          obtain ⟨L₃, ⟨hinv₃, -⟩, hm₃, -⟩ := hr
          exact openDentry_keeps hC hm₃ hinv₃ h.held

theorem openFound_keeps : (openFound F mounts s path flags).Sat bad (OpenKept mounts Inv ext) := by
  rw [openFound]
  refine ((hC.resolves s.fs).namei hgood h hinv).bind ?_
  intro ⟨r, c₁⟩ hr
  cases r with
  | error e => trivial
  | ok x =>
    cases x with
    | none => exact hC.null
    | some dp =>
      obtain ⟨L₁, ⟨hinv₁, -⟩, hm₁, -⟩ := hr
      obtain ⟨d, hd⟩ := hm₁.ok.live_of_held
      obtain ⟨c₂, L₂, hcall, -⟩ := hm₁.drele h.held
      simp only [deref_some hd, ok_bind]
      split
      · simp only [hcall, ok_bind]
        trivial
      split
      · simp only [hcall, ok_bind]
        trivial
      exact openDentry_keeps (s := { s with cache := c₁ }) hC hm₁ hinv₁ h.held

theorem openOld_keeps : (openOld F mounts s path flags).Sat bad (OpenKept mounts Inv ext) := by
  rw [openOld]
  split
  · refine (openNoFollowChk_keeps (hC.resolves s.fs) hgood h hinv).bind ?_
    intro ⟨error, c₁⟩ hr
    cases error with
    | some e => trivial
    | none =>
      obtain ⟨L₁, hinv₁, hm₁⟩ := hr rfl
      exact openFound_keeps (s := { s with cache := c₁ }) hC hgood hm₁ hinv₁
  · exact openFound_keeps hC hgood h hinv

/-- **`sys_open` keeps the invariant.** -/
theorem sysOpen_keeps : (sysOpen F mounts s path flags).Sat bad (OpenKept mounts Inv ext) := by
  rw [sysOpen]
  split
  · refine ((hC.resolves s.fs).namei hgood h hinv).bind ?_
    intro ⟨r, c₁⟩ hr
    cases r with
    | error e =>
      obtain ⟨L₁, ⟨hinv₁, -⟩, hm₁⟩ := hr
      cases e with
      | enoent =>
        exact openNew_keeps (s := { s with cache := c₁ }) hC hgood hm₁ hinv₁
      | _ => trivial
    | ok x =>
      cases x with
      | none =>
        dsimp only
        split
        · trivial
        · exact hC.null
      | some dp =>
        obtain ⟨L₁, ⟨hinv₁, -⟩, hm₁, -⟩ := hr
        obtain ⟨c₂, L₂, hcall, -⟩ := hm₁.drele h.held
        dsimp only
        split
        · simp only [hcall, ok_bind]
          trivial
        exact openDentry_keeps (s := { s with cache := c₁ }) hC hm₁ hinv₁ h.held
  · exact openOld_keeps hC hgood h hinv

/-- **`sys_mkdir` keeps the invariant.** -/
theorem sysMkdir_keeps : (sysMkdir F mounts s path).Sat bad (CallKept mounts Inv ext) := by
  rw [sysMkdir]
  refine ((hC.resolves s.fs).namei hgood h hinv).bind ?_
  intro ⟨r, c₁⟩ hr
  cases r with
  | ok x =>
    cases x with
    | none => exact hC.assertion
    | some dp =>
      obtain ⟨L₁, -, hm₁, -⟩ := hr
      obtain ⟨c₂, L₂, hcall, -⟩ := hm₁.drele h.held
      simp only [hcall, ok_bind]
      exact nofun
  | error e =>
    obtain ⟨L₁, ⟨hinv₁, -⟩, hm₁⟩ := hr
    refine ((hC.resolves s.fs).lookup hgood hm₁ hinv₁).bind ?_
    intro ⟨r, c₂⟩ hr
    cases r with
    | error e => exact nofun
    | ok found =>
      obtain ⟨ddp, name⟩ := found
      obtain ⟨L₂, dd, ⟨hinv₂, -⟩, hm₂, hplace, hdd, hdir, hname⟩ := hr
      obtain ⟨c₃, L₃, hcall, hm₃, hshrunk, -⟩ := hm₂.drele h.held
      simp only [deref_some hdd, ok_bind]
      refine (hC.create hgood hinv₂ hdd hdir hplace hname).bind ?_
      intro ⟨error, fs⟩ hcreate
      simp only [hcall, ok_bind]
      intro hnone
      exact ⟨L₃, (hC.resolves fs).shrunk (hcreate hnone) hm₃.ok hshrunk, hm₃⟩

/-- **`sys_stat` keeps the invariant.** -/
theorem sysStat_keeps : (sysStat F mounts s path).Sat bad (CallKept mounts Inv ext) := by
  rw [sysStat]
  refine ((hC.resolves s.fs).namei hgood h hinv).bind ?_
  intro ⟨r, c₁⟩ hr
  cases r with
  | error e => exact nofun
  | ok x =>
    cases x with
    | none => exact hC.null
    | some dp =>
      obtain ⟨L₁, ⟨hinv₁, -⟩, hm₁, -⟩ := hr
      obtain ⟨c₂, L₂, hcall, hm₂, hinv₂, -⟩ := (hC.resolves s.fs).drele hm₁ hinv₁ h.held
      simp only [hcall, ok_bind]
      exact fun _ => ⟨L₂, hinv₂, hm₂⟩

/-- **`sys_truncate` keeps the invariant.** -/
theorem sysTruncate_keeps {length : Nat} :
    (sysTruncate F mounts s path length).Sat bad (CallKept mounts Inv ext) := by
  rw [sysTruncate]
  refine ((hC.resolves s.fs).namei hgood h hinv).bind ?_
  intro ⟨r, c₁⟩ hr
  cases r with
  | error e => exact nofun
  | ok x =>
    cases x with
    | none => exact hC.null
    | some dp =>
      obtain ⟨L₁, ⟨hinv₁, -⟩, hm₁, -⟩ := hr
      obtain ⟨d, hd⟩ := hm₁.ok.live_of_held
      obtain ⟨c₂, L₂, hcall, hm₂, hshrunk, -⟩ := hm₁.drele h.held
      simp only [deref_some hd, ok_bind]
      refine (hC.truncate hinv₁ hd).bind ?_
      intro ⟨error, fs⟩ htrunc
      simp only [hcall, ok_bind]
      intro hnone
      exact ⟨L₂, (hC.resolves fs).shrunk (htrunc hnone) hm₂.ok hshrunk, hm₂⟩

/-! ### Empty directories -/

/-- The directory of a path has been found to be empty. -/
def Emptied {σ : Type} (F : FileSys σ)
    (Place : List Char → Dcache → (Chain → List Nat) → Nat → Prop)
    (Inv : σ → Dcache → (Chain → List Nat) → Prop) (fs : σ) (path : List Char) : Prop :=
  ∃ c L dp d, Inv fs c L ∧ Place path c L dp ∧ c.dentries dp = some d ∧
    F.isEmpty fs d.dVnode = .ok true

/-- What a call leaves that only looks at the file system. -/
structure Looked {σ : Type} (mounts : List Mount)
    (Inv : σ → Dcache → (Chain → List Nat) → Prop) (ext ext' : Nat → Nat) (s : Vfs σ)
    (L : Chain → List Nat) (s' : Vfs σ) (L' : Chain → List Nat) : Prop where
  fs : s'.fs = s.fs
  inv : Inv s.fs s'.cache L'
  mounted : Mounted mounts s'.cache L' ext'
  held : Held ext s.cache L s'.cache L'

theorem sysOpen_looks :
    (sysOpen F mounts s path {}).Sat bad fun r =>
      match r with
      | (.error _, s') => ∃ L', Looked mounts Inv ext ext s L s' L'
      | (.ok dp, s') => ∃ L', Looked mounts Inv ext (ext + single dp 1) s L s' L' ∧
          Place path s'.cache L' dp := by
  rw [sysOpen, if_neg Bool.false_ne_true, openOld, if_neg Bool.false_ne_true, openFound]
  refine ((hC.resolves s.fs).namei hgood h hinv).bind ?_
  intro ⟨r, c₁⟩ hr
  cases r with
  | error e =>
    obtain ⟨L₁, ⟨hinv₁, hheld₁⟩, hm₁⟩ := hr
    exact ⟨L₁, rfl, hinv₁, hm₁, hheld₁⟩
  | ok x =>
    cases x with
    | none => exact hC.null
    | some dp =>
      obtain ⟨L₁, ⟨hinv₁, hheld₁⟩, hm₁, hplace₁⟩ := hr
      obtain ⟨d, hd⟩ := hm₁.ok.live_of_held
      simp only [deref_some hd, ok_bind, openDentry, Bool.false_eq_true, or_self,
        false_and, if_false]
      exact ⟨L₁, ⟨rfl, hinv₁, hm₁, hheld₁⟩, hplace₁⟩

theorem checkDirEmpty_looks :
    (checkDirEmpty F mounts s path).Sat bad fun r =>
      ∃ L', Looked mounts Inv ext ext s L r.2 L' ∧
        (r.1 = none → Emptied F Place Inv s.fs path) := by
  rw [checkDirEmpty]
  refine (sysOpen_looks hC hgood h hinv).bind ?_
  intro ⟨r, s₁⟩ hr
  cases r with
  | error e =>
    obtain ⟨L₁, hlooked⟩ := hr
    exact ⟨L₁, hlooked, nofun⟩
  | ok dp =>
    obtain ⟨fs₁, c₁⟩ := s₁
    obtain ⟨L₁, ⟨hfs, hinv₁, hm₁, hheld₁⟩, hplace₁⟩ := hr
    cases hfs
    obtain ⟨d, hd⟩ := hm₁.ok.live_of_held
    obtain ⟨c₂, L₂, hcall, hm₂, hinv₂, hheld₂⟩ := (hC.resolves s.fs).drele hm₁ hinv₁ h.held
    have hread : (readDirEmpty F s.fs d.dVnode).Sat bad fun error =>
        error = none → F.isEmpty s.fs d.dVnode = .ok true := by
      rw [readDirEmpty]
      split
      · exact nofun
      refine (hC.isEmpty hinv₁ hd).bind_eq fun empty hempty _ => ?_
      cases empty with
      | false => exact nofun
      | true => exact fun _ => hempty
    simp only [deref_some hd, ok_bind]
    refine hread.bind fun error hempty => ?_
    simp only [hcall, ok_bind]
    exact ⟨L₂, ⟨rfl, hinv₂, hm₂, hheld₁.trans hheld₂⟩, fun hnone =>
      ⟨c₁, L₁, dp, d, hinv₁, hplace₁, hd, hempty hnone⟩⟩

end

/-! ### Calls that take names away -/

variable {c c' : Dcache} {L' : Chain → List Nat} {ext' : Nat → Nat} {gone : Nat → Prop} {ddp : Nat}

theorem Mounted.unhashed (h : Mounted mounts c L ext) (hok : DcacheOk c' L' ext')
    (hun : Unhashed c L gone c' L') (hroot : ∀ m ∈ mounts, ¬ gone m.mRoot)
    (hheld : ∀ m ∈ mounts, ext' m.mRoot ≠ 0) : Mounted mounts c' L' ext' :=
  ⟨hok, fun m hm => (h.root m hm).kept (hok.live_of_ext (hheld m hm)) (hun.ident _)
    fun hhashed => hun.keep _ hhashed (hroot m hm), hheld⟩

theorem DcacheOk.removeRelease (h : DcacheOk c L (ext + single ddp 1 + single dp 1)) :
    ∃ c₁ c₂ c₃ L₃, Vfscore.dentryRemove c dp = .ok c₁ ∧ c₁.drele ddp = .ok c₂ ∧
      c₂.drele dp = .ok c₃ ∧ DcacheOk c₃ L₃ ext ∧ Unhashed c L (· = dp) c₃ L₃ := by
  obtain ⟨d, hd⟩ := h.live_of_held
  obtain ⟨c₁, L₁, hcall₁, hok₁, hun⟩ := h.dentryRemove hd
  rw [add_right_comm] at hok₁
  obtain ⟨c₂, L₂, hcall₂, hok₂, hshrunk₂, -⟩ := hok₁.drele
  obtain ⟨c₃, L₃, hcall₃, hok₃, hshrunk₃, -⟩ := hok₂.drele
  exact ⟨c₁, c₂, c₃, L₃, hcall₁, hcall₂, hcall₃, hok₃, (hun.shrunk hshrunk₂).shrunk hshrunk₃⟩

/-- For a vnode operation `op` that takes the name of `dp` away: the invariant holds when the dentry
has been taken out of the hash table and the references are dropped. -/
def TakesAway (mounts : List Mount) (bad : Fault → Prop)
    (Inv : σ → Dcache → (Chain → List Nat) → Prop) (ext : Nat → Nat) (c : Dcache)
    (L : Chain → List Nat) (dp : Nat) (op : Outcome (Option Errno × σ)) : Prop :=
  op.Sat bad fun r => r.1 = none → (∀ m ∈ mounts, m.mRoot ≠ dp) ∧
    ∀ c' L', DcacheOk c' L' ext → Unhashed c L (· = dp) c' L' → Inv r.2 c' L'

theorem TakesAway.finish {op : Outcome (Option Errno × σ)}
    (h : TakesAway mounts bad Inv ext c L dp op)
    (hm : Mounted mounts c L (ext + single ddp 1 + single dp 1))
    (hheld : ∀ m ∈ mounts, ext m.mRoot ≠ 0) :
    Outcome.Sat bad (do
      let (error, fs) ← op
      let c ← dentryRemove c dp
      let c ← c.drele ddp
      let c ← c.drele dp
      .ok (error, (⟨fs, c⟩ : Vfs σ))) (CallKept mounts Inv ext) := by
  obtain ⟨c₁, c₂, c₃, L₃, hcall₁, hcall₂, hcall₃, hok, hun⟩ := hm.ok.removeRelease
  refine Outcome.Sat.bind h fun r hr => ?_
  obtain ⟨error, fs⟩ := r
  simp only [hcall₁, hcall₂, hcall₃, ok_bind]
  intro hnone
  obtain ⟨hroot, hinv⟩ := hr hnone
  exact ⟨L₃, hinv c₃ L₃ hok hun, hm.unhashed hok hun hroot hheld⟩

/-- **`sys_unlink`**, up to what its vnode operation does. -/
theorem sysUnlink_keeps (hC : CallInv F mounts bad Good Place Inv) (hgood : Good path)
    (h : Mounted mounts s.cache L ext) (hinv : Inv s.fs s.cache L)
    (hact : ∀ {ddp name dp c L' dd d},
      lookupLast mounts (F.vops s.fs) s.cache path = .ok (.ok (ddp, name, dp), c) →
      Located (F.vops s.fs) mounts Place (Inv s.fs) ext path s.cache L ddp name dp c L' →
      c.dentries ddp = some dd → c.dentries dp = some d →
      (F.vops s.fs).vtype d.dVnode ≠ .vdir → d.dVnode ≠ (F.vops s.fs).root d.dMount →
      TakesAway mounts bad Inv ext c L' dp (F.remove s.fs dd.dVnode d.dVnode name)) :
    (sysUnlink F mounts s path).Sat bad (CallKept mounts Inv ext) := by
  rw [sysUnlink]
  refine (lookupLast_keeps (hC.resolves s.fs) hgood h hinv).bind_eq ?_
  intro ⟨r, c₁⟩ hcall hr
  cases r with
  | error e => exact nofun
  | ok found =>
    obtain ⟨ddp, name, dp⟩ := found
    obtain ⟨L₁, hloc⟩ := hr
    obtain ⟨d, hd⟩ := hloc.mounted.ok.live_of_held
    obtain ⟨dd, hdd, -⟩ := hloc.dir
    obtain ⟨c₂, L₂, hcall₂, hm₂, -⟩ := hloc.mounted.drele (held_add h.held ddp)
    obtain ⟨c₃, L₃, hcall₃, -⟩ := hm₂.drele h.held
    simp only [deref_some hd, deref_some hdd, ok_bind]
    split
    · simp only [hcall₂, hcall₃, ok_bind]
      exact nofun
    rename_i hfile
    split
    · simp only [hcall₂, hcall₃, ok_bind]
      exact nofun
    rename_i hroot
    exact (hact hcall hloc hdd hd hfile hroot).finish hloc.mounted h.held

/-- **`sys_rmdir`**, up to what its vnode operation does. -/
theorem sysRmdir_keeps (hC : CallInv F mounts bad Good Place Inv) (hgood : Good path)
    (h : Mounted mounts s.cache L ext) (hinv : Inv s.fs s.cache L)
    (hact : ∀ {ddp name dp c L' dd d},
      Located (F.vops s.fs) mounts Place (Inv s.fs) ext path s.cache L ddp name dp c L' →
      c.dentries ddp = some dd → c.dentries dp = some d →
      (F.vops s.fs).vtype d.dVnode = .vdir → d.dVnode ≠ (F.vops s.fs).root d.dMount →
      Emptied F Place Inv s.fs path →
      TakesAway mounts bad Inv ext c L' dp (F.rmdir s.fs dd.dVnode d.dVnode name)) :
    (sysRmdir F mounts s path).Sat bad (CallKept mounts Inv ext) := by
  have hR := hC.resolves s.fs
  rw [sysRmdir]
  refine (checkDirEmpty_looks hC hgood h hinv).bind ?_
  intro ⟨error, s₁⟩ hr
  cases error with
  | some e => exact nofun
  | none =>
    obtain ⟨fs₁, c₁⟩ := s₁
    obtain ⟨L₁, ⟨hfs, hinv₁, hm₁, hheld₁⟩, hempty⟩ := hr
    cases hfs
    refine (hR.namei hgood hm₁ hinv₁).bind ?_
    intro ⟨r, c₂⟩ hr
    cases r with
    | error e => exact nofun
    | ok x =>
      cases x with
      | none => exact hC.null
      | some dp =>
        obtain ⟨L₂, ⟨hinv₂, hheld₂⟩, hm₂, hplace₂⟩ := hr
        obtain ⟨d, hd⟩ := hm₂.ok.live_of_held
        obtain ⟨c₃, L₃, hcall₃, -⟩ := hm₂.drele h.held
        simp only [deref_some hd, ok_bind]
        split
        · simp only [hcall₃, ok_bind]
          exact nofun
        rename_i hdir
        split
        · simp only [hcall₃, ok_bind]
          exact nofun
        rename_i hbusy
        refine (hR.lookup hgood hm₂ hinv₂).bind ?_
        intro ⟨r, c₄⟩ hr
        cases r with
        | error e =>
          obtain ⟨L₄, -, hm₄⟩ := hr
          obtain ⟨c₅, L₅, hcall₅, -⟩ := hm₄.drele h.held
          simp only [hcall₅, ok_bind]
          exact nofun
        | ok found =>
          obtain ⟨ddp, name⟩ := found
          obtain ⟨L₄, dd, ⟨hinv₄, hheld₄⟩, hm₄, hplace₄, hdd, hdir₄, hname⟩ := hr
          obtain ⟨d', hd', hident⟩ := hheld₄.dentry single_ne_zero hd
          have hvnode : d'.dVnode = d.dVnode := congrArg Ident.dVnode hident
          have hmount : d'.dMount = d.dMount := congrArg Ident.dMount hident
          rw [add_right_comm] at hm₄
          have hheld := (hheld₁.trans hheld₂).trans (hheld₄.mono (le_hold (fun _ => le_rfl) dp))
          have hloc : Located (F.vops s.fs) mounts Place (Inv s.fs) ext path s.cache L
              ddp name dp c₄ L₄ :=
            ⟨hinv₄, hm₄, hheld, hplace₄, hR.place hplace₂ hheld₄ single_ne_zero,
              ⟨dd, hdd, hdir₄⟩, hname⟩
          have hvdir : (F.vops s.fs).vtype d'.dVnode = .vdir := by
            rw [hvnode]
            exact not_not.mp hdir
          have hroot : d'.dVnode ≠ (F.vops s.fs).root d'.dMount := by
            rw [hvnode, hmount]
            exact fun heq => hbusy (.inl heq)
          have htakes := hact hloc hdd hd' hvdir hroot (hempty rfl)
          rw [hvnode] at htakes
          simp only [deref_some hdd, ok_bind]
          exact htakes.finish hm₄ h.held

/-! ### Renaming -/

/-- The references when there is one more on each of the dentries. -/
def holdAll (ext : Nat → Nat) (dps : List Nat) : Nat → Nat :=
  dps.foldr (fun a ext => ext + Pi.single a 1) ext

/-- The dentries of the target of a rename have been found; `isDir` says whether the source is a
directory. -/
structure TargetLocated {σ : Type} (F : FileSys σ) (mounts : List Mount)
    (Place : List Char → Dcache → (Chain → List Nat) → Nat → Prop)
    (Inv : σ → Dcache → (Chain → List Nat) → Prop) (ext : Nat → Nat) (isDir : Bool)
    (dest : List Char) (s : Vfs σ) (L : Chain → List Nat) (ddp2 : Nat) (dp2 : Option Nat)
    (s' : Vfs σ) (L' : Chain → List Nat) : Prop where
  looked : Looked mounts Inv ext (holdAll ext (dp2.toList ++ [ddp2])) s L s' L'
  dirPlace : Place (parentPath dest) s'.cache L' ddp2
  dir : ∃ dd, s'.cache.dentries ddp2 = some dd ∧ (F.vops s.fs).vtype dd.dVnode = .vdir
  target : ∀ a, dp2 = some a → Place dest s'.cache L' a ∧ ∃ d, s'.cache.dentries a = some d ∧
    ((F.vops s.fs).vtype d.dVnode = .vdir → isDir = true ∧ Emptied F Place Inv s.fs dest)

/-- The dentries of both paths of a rename have been found. -/
structure RenameLocated {σ : Type} (F : FileSys σ) (mounts : List Mount)
    (Place : List Char → Dcache → (Chain → List Nat) → Nat → Prop)
    (Inv : σ → Dcache → (Chain → List Nat) → Prop) (ext : Nat → Nat) (src dest : List Char)
    (s : Vfs σ) (L : Chain → List Nat) (args : Renaming) (s' : Vfs σ) (L' : Chain → List Nat) :
    Prop where
  looked : Looked mounts Inv ext
    (holdAll ext (args.dp2.toList ++ [args.ddp2, args.dp1, args.ddp1])) s L s' L'
  srcDirPlace : Place (parentPath src) s'.cache L' args.ddp1
  srcPlace : Place src s'.cache L' args.dp1
  srcDir : ∃ dd, s'.cache.dentries args.ddp1 = some dd ∧ (F.vops s.fs).vtype dd.dVnode = .vdir
  srcName : ∃ dir, splitLast src = some (dir, args.sname)
  dirPlace : Place (parentPath dest) s'.cache L' args.ddp2
  dir : ∃ dd, s'.cache.dentries args.ddp2 = some dd ∧ (F.vops s.fs).vtype dd.dVnode = .vdir
  target : ∀ a, args.dp2 = some a → Place dest s'.cache L' a ∧
    ∃ d d1, s'.cache.dentries a = some d ∧ s'.cache.dentries args.dp1 = some d1 ∧
      ((F.vops s.fs).vtype d.dVnode = .vdir →
        (F.vops s.fs).vtype d1.dVnode = .vdir ∧ Emptied F Place Inv s.fs dest)

variable {src dest : List Char} {isDir ts : Bool} {dps : List Nat} {dp2 : Option Nat} {a p : Nat}

theorem le_holdAll (a : Nat) : ext a ≤ holdAll ext dps a := by
  induction dps with
  | nil => exact le_rfl
  | cons dp dps ih => exact ih.trans (Nat.le_add_right _ _)

theorem holdAll_apply (dps : List Nat) (a : Nat) : holdAll ext dps a = ext a + dps.count a := by
  induction dps with
  | nil => rfl
  | cons dp dps ih =>
    have hcons : holdAll ext (dp :: dps) a = holdAll ext dps a + (single dp 1 : Nat → Nat) a :=
      rfl
    rw [hcons, ih, List.count_cons, single_apply]
    simp only [beq_iff_eq, eq_comm (a := a)]
    omega

theorem holdAll_ne_zero (h : a ∈ dps) : holdAll ext dps a ≠ 0 := by
  induction dps with
  | nil => cases h
  | cons dp dps ih =>
    rcases List.mem_cons.mp h with rfl | h
    · exact single_ne_zero
    · exact add_ne_zero (ih h)

theorem DcacheOk.dreleAll (h : DcacheOk c L (holdAll ext dps)) :
    ∃ c' L', Vfscore.dreleAll dps c = .ok c' ∧ DcacheOk c' L' ext ∧ Shrunk c L c' L' := by
  induction dps generalizing c L with
  | nil => exact ⟨c, L, rfl, h, Shrunk.refl⟩
  | cons dp dps ih =>
    have hcons : DcacheOk c L (holdAll ext dps + single dp 1) := h
    obtain ⟨c₁, L₁, hcall₁, hok₁, hshrunk₁, -⟩ := hcons.drele
    obtain ⟨c', L', hcall, hok, hshrunk⟩ := ih hok₁
    refine ⟨c', L', ?_, hok, hshrunk₁.trans hshrunk⟩
    rw [Vfscore.dreleAll, hcall₁]
    exact hcall

theorem Resolves.dreleAll {fs : Vops} {Inv : Dcache → (Chain → List Nat) → Prop}
    (hR : Resolves fs mounts bad Good Place Inv) (h : Mounted mounts c L (holdAll ext dps))
    (hinv : Inv c L) (hheld : ∀ m ∈ mounts, ext m.mRoot ≠ 0) :
    ∃ c' L', Vfscore.dreleAll dps c = .ok c' ∧ Mounted mounts c' L' ext ∧ Inv c' L' ∧
      Held ext c L c' L' := by
  obtain ⟨c', L', hcall, hok, hshrunk⟩ := h.ok.dreleAll
  exact ⟨c', L', hcall, h.shrunk hok hshrunk hheld, hR.shrunk hinv hok hshrunk, hshrunk.held hok⟩

/-- A dentry with a reference is still there, and of the same type. -/
theorem Held.vtype {fs : Vops} {d : Dentry} {type : VType} (h : Held ext c L c' L')
    (ha : ext a ≠ 0) (hd : c.dentries a = some d) (htype : fs.vtype d.dVnode = type) :
    ∃ d', c'.dentries a = some d' ∧ fs.vtype d'.dVnode = type := by
  obtain ⟨d', hd', hident⟩ := h.dentry ha hd
  refine ⟨d', hd', ?_⟩
  rw [← htype]
  exact congrArg (fun i => fs.vtype i.dVnode) hident

section

variable (hC : CallInv F mounts bad Good Place Inv)

include hC

theorem release_looks (dps : List Nat) (h : Mounted mounts c L' (holdAll ext dps))
    (hinv : Inv s.fs c L') (hroots : ∀ m ∈ mounts, ext m.mRoot ≠ 0)
    (hheld : Held ext s.cache L c L') :
    ∃ c', dreleAll dps c = .ok c' ∧
      ∃ L₁, Looked mounts Inv ext ext s L { s with cache := c' } L₁ := by
  obtain ⟨c', L₁, hcall, hm, hinv', hheld'⟩ := (hC.resolves s.fs).dreleAll h hinv hroots
  exact ⟨c', hcall, L₁, rfl, hinv', hm, hheld.trans hheld'⟩

theorem targetEmpty_looks {type : VType}
    (hgood : Good dest) (h : Mounted mounts s.cache L ext) (hinv : Inv s.fs s.cache L) :
    (targetEmpty F mounts s type dest).Sat bad fun r =>
      ∃ L', Looked mounts Inv ext ext s L r.2 L' ∧
        (r.1 = none → type = .vdir → Emptied F Place Inv s.fs dest) := by
  rw [targetEmpty]
  split
  · refine (checkDirEmpty_looks hC hgood h hinv).mono ?_
    intro r ⟨L', hlooked, hempty⟩
    exact ⟨L', hlooked, fun hnone _ => hempty hnone⟩
  rename_i htype
  exact ⟨L, ⟨rfl, hinv, h, Held.refl⟩, fun _ heq => absurd heq htype⟩

theorem renameTarget_looks (hgood : Good dest)
    (h : Mounted mounts s.cache L ext) (hinv : Inv s.fs s.cache L) :
    (renameTarget F mounts s isDir ts dest).Sat bad fun r =>
      match r with
      | (.error _, s') => ∃ L', Looked mounts Inv ext ext s L s' L'
      | (.ok (ddp2, dp2), s') => ∃ L',
          TargetLocated F mounts Place Inv ext isDir dest s L ddp2 dp2 s' L' := by
  have hR := hC.resolves s.fs
  rw [renameTarget]
  refine (hR.lookup hgood h hinv).bind ?_
  intro ⟨r, c₁⟩ hr
  cases r with
  | error e =>
    obtain ⟨L₁, ⟨hinv₁, hheld₁⟩, hm₁⟩ := hr
    exact ⟨L₁, rfl, hinv₁, hm₁, hheld₁⟩
  | ok found =>
    obtain ⟨ddp2, name⟩ := found
    obtain ⟨L₁, dd, ⟨hinv₁, hheld₁⟩, hm₁, hplace₁, hdd, hdir, -⟩ := hr
    refine (hR.last hgood hm₁ hinv₁ hdd hdir hplace₁).bind ?_
    intro ⟨r, c₂⟩ ⟨L₂, ⟨hinv₂, hheld₂⟩, hr⟩
    -- the directory is still there
    have hheld := hheld₁.trans (hheld₂.mono (le_hold (fun _ => le_rfl) ddp2))
    have hplace₂ := hR.place hplace₁ hheld₂ single_ne_zero
    obtain ⟨dd₂, hdd₂, hdir₂⟩ := hheld₂.vtype single_ne_zero hdd hdir
    cases r with
    | error e =>
      obtain ⟨c₃, hcall₃, hfail⟩ := release_looks hC [ddp2] hr hinv₂ h.held hheld
      cases e with
      | enoent =>
        dsimp only
        split
        · simp only [hcall₃, ok_bind]
          exact hfail
        · exact ⟨L₂, ⟨rfl, hinv₂, hr, hheld⟩, hplace₂, ⟨dd₂, hdd₂, hdir₂⟩, nofun⟩
      | _ =>
        simp only [hcall₃, ok_bind]
        exact hfail
    | ok dp2 =>
      obtain ⟨hm₂, htarget⟩ := hr
      obtain ⟨d2, hd2⟩ := hm₂.ok.live_of_held
      obtain ⟨c₃, hcall₃, hfail⟩ := release_looks hC [dp2, ddp2] hm₂ hinv₂ h.held hheld
      simp only [deref_some hd2, ok_bind]
      split
      · simp only [hcall₃, ok_bind]
        exact hfail
      split
      · simp only [hcall₃, ok_bind]
        exact hfail
      rename_i hisdir
      refine (targetEmpty_looks (s := { s with cache := c₂ }) hC hgood hm₂ hinv₂).bind ?_
      intro ⟨error, s₄⟩ hr
      obtain ⟨fs₄, c₄⟩ := s₄
      obtain ⟨L₄, ⟨hfs, hinv₄, hm₄, hheld₄⟩, hempty⟩ := hr
      cases hfs
      have hle : ∀ a, ext a ≤ (ext + single ddp2 1 + single dp2 1 : Nat → Nat) a :=
        le_hold (le_hold (fun _ => le_rfl) ddp2) dp2
      have hheld' := hheld.trans (hheld₄.mono hle)
      cases error with
      | some e =>
        obtain ⟨c₅, hcall₅, hfail⟩ := release_looks (s := s) hC [dp2, ddp2] hm₄ hinv₄ h.held hheld'
        simp only [hcall₅, ok_bind]
        exact hfail
      | none =>
        have hdir₄ := hheld₄.vtype (add_ne_zero single_ne_zero) hdd₂ hdir₂
        obtain ⟨d2', hd2', hident⟩ := hheld₄.dentry single_ne_zero hd2
        have hvnode : d2'.dVnode = d2.dVnode := congrArg Ident.dVnode hident
        refine ⟨L₄, ⟨rfl, hinv₄, hm₄, hheld'⟩,
          hR.place hplace₂ hheld₄ (add_ne_zero single_ne_zero), hdir₄, ?_⟩
        intro a ha
        cases ha
        refine ⟨hR.place htarget hheld₄ single_ne_zero, d2', hd2', fun hvdir => ?_⟩
        rw [hvnode] at hvdir
        refine ⟨?_, hempty rfl hvdir⟩
        by_contra hfalse
        exact hisdir ⟨hvdir, Bool.not_eq_true _ ▸ hfalse⟩

theorem renameResolve_looks (hsrc : Good (stripped src)) (hdest : Good (stripped dest))
    (h : Mounted mounts s.cache L ext) (hinv : Inv s.fs s.cache L) :
    (renameResolve F mounts s src dest).Sat bad fun r =>
      match r with
      | (.error _, _) => True
      | (.ok args, s') => ∃ L', RenameLocated F mounts Place Inv ext (stripped src)
          (stripped dest) s L args s' L' := by
  have hR := hC.resolves s.fs
  rw [renameResolve]
  refine (lookupLast_keeps hR hsrc h hinv).bind ?_
  intro ⟨r, c₁⟩ hr
  cases r with
  | error e => trivial
  | ok found =>
    obtain ⟨ddp1, sname, dp1⟩ := found
    obtain ⟨L₁, hloc⟩ := hr
    obtain ⟨d1, hd1⟩ := hloc.mounted.ok.live_of_held
    have hm₁ : Mounted mounts c₁ L₁ (holdAll ext [dp1, ddp1]) := hloc.mounted
    obtain ⟨c₂, L₂, hcall₂, -⟩ := hR.dreleAll hm₁ hloc.inv h.held
    simp only [deref_some hd1, ok_bind]
    split
    · simp only [hcall₂, ok_bind]
      trivial
    refine (renameTarget_looks (s := { s with cache := c₁ }) hC hdest hm₁ hloc.inv).bind ?_
    intro ⟨r, s₃⟩ hr
    cases r with
    | error e =>
      obtain ⟨fs₃, c₃⟩ := s₃
      obtain ⟨L₃, hfs, hinv₃, hm₃, -⟩ := hr
      cases hfs
      obtain ⟨c₄, L₄, hcall₄, -⟩ := hR.dreleAll hm₃ hinv₃ h.held
      simp only [hcall₄, ok_bind]
      trivial
    | ok target =>
      obtain ⟨ddp2, dp2⟩ := target
      obtain ⟨L₃, hdst⟩ := hr
      have hheld := hdst.looked.held
      have hdp1 : holdAll ext [dp1, ddp1] dp1 ≠ 0 := single_ne_zero
      have hddp1 : holdAll ext [dp1, ddp1] ddp1 ≠ 0 := add_ne_zero single_ne_zero
      obtain ⟨dd1, hdd1, hdir1⟩ := hloc.dir
      obtain ⟨d1', hd1', hident⟩ := hheld.dentry hdp1 hd1
      have hvnode : d1'.dVnode = d1.dVnode := congrArg Ident.dVnode hident
      have hmounted := hdst.looked.mounted
      rw [holdAll, holdAll, ← List.foldr_append, List.append_assoc] at hmounted
      refine ⟨L₃, ⟨hdst.looked.fs, hdst.looked.inv, hmounted, hloc.held.trans
        (hheld.mono le_holdAll)⟩, hR.place hloc.dirPlace hheld hddp1,
        hR.place hloc.place hheld hdp1, hheld.vtype hddp1 hdd1 hdir1, hloc.name,
        hdst.dirPlace, hdst.dir, fun a ha => ?_⟩
      obtain ⟨hplace, d2, hd2, hvdir⟩ := hdst.target a ha
      refine ⟨hplace, d2, d1', hd2, hd1', fun htype => ?_⟩
      obtain ⟨hisdir, hempty⟩ := hvdir htype
      rw [hvnode]
      exact ⟨of_decide_eq_true hisdir, hempty⟩

end

theorem Mounted.rehung {path : List Char} (h : Mounted mounts c L ext) (hok : DcacheOk c' L' ext')
    (hre : Rehung c L a p path c' L') (hroot : ∀ m ∈ mounts, m.mRoot ≠ a)
    (hheld : ∀ m ∈ mounts, ext' m.mRoot ≠ 0) : Mounted mounts c' L' ext' :=
  ⟨hok, fun m hm => (h.root m hm).kept (hok.live_of_ext (hheld m hm))
    (fun i => hre.ident _ i (hroot m hm)) (hre.keep _ (hroot m hm)), hheld⟩

theorem DcacheOk.targetRemove (h : DcacheOk c L ext) (hheld : ∀ a, dp2 = some a → ext a ≠ 0) :
    ∃ c' L', Vfscore.targetRemove c dp2 = .ok c' ∧ DcacheOk c' L' ext ∧
      Unhashed c L (dp2 = some ·) c' L' := by
  cases dp2 with
  | none =>
    exact ⟨c, L, rfl, h, fun _ _ hi => hi, fun _ d hd => ⟨d, hd, fun _ hy => hy⟩,
      fun _ hx => ⟨hx, nofun⟩, fun _ hx _ _ => hx⟩
  | some a =>
    obtain ⟨d, hd⟩ := h.live_of_ext (hheld a rfl)
    obtain ⟨c', L', hcall, hok, hun⟩ := h.dentryRemove hd
    exact ⟨c', L', hcall, hok, hun.ident, hun.kids, fun x hx =>
        ⟨(hun.hashed x hx).1, fun heq => (hun.hashed x hx).2 (Option.some.inj heq).symm⟩,
      fun x hx hne => hun.keep x hx fun heq => hne (heq ▸ rfl)⟩

/-- For a vnode operation `op` that gives the source a new name: the source has no children, and the
invariant holds when its dentry has been moved, the one of the target taken out of the hash table,
and the references dropped. -/
def Moves (mounts : List Mount) (bad : Fault → Prop)
    (Inv : σ → Dcache → (Chain → List Nat) → Prop) (ext : Nat → Nat) (c : Dcache)
    (L : Chain → List Nat) (args : Renaming) (dname : List Char)
    (op : Outcome (Option Errno × σ)) : Prop :=
  op.Sat bad fun r => r.1 = none →
    (∀ m ∈ mounts, m.mRoot ≠ args.dp1 ∧ args.dp2 ≠ some m.mRoot) ∧ args.dp1 ≠ args.ddp2 ∧
    (∀ d, c.dentries args.dp1 = some d → d.dChildren = []) ∧
    ∀ c₁ L₁ c₂ L₂, Rehung c L args.dp1 args.ddp2 dname c₁ L₁ → DcacheOk c₂ L₂ ext →
      Unhashed c₁ L₁ (args.dp2 = some ·) c₂ L₂ → Inv r.2 c₂ L₂

/-- What a part of a call leaves that has still to drop references: after that, a successful call
has kept the invariant. -/
def Releasable (mounts : List Mount) (Inv : σ → Dcache → (Chain → List Nat) → Prop)
    (ext ext' : Nat → Nat) (r : Option Errno × Vfs σ) : Prop :=
  ∃ L, DcacheOk r.2.cache L ext' ∧ (r.1 = none → ∀ c' L', DcacheOk c' L' ext →
    Shrunk r.2.cache L c' L' → Inv r.2.fs c' L' ∧ Mounted mounts c' L' ext)

theorem renameDentry_keeps {args : Renaming} {d1 dd1 dd2 : Dentry} {vp2 : Option Nat}
    {dname : List Char} (h : Mounted mounts s.cache L
      (holdAll ext (args.dp2.toList ++ [args.ddp2, args.dp1, args.ddp1])))
    (hheld : ∀ m ∈ mounts, ext m.mRoot ≠ 0) (hd1 : s.cache.dentries args.dp1 = some d1)
    (hdd1 : s.cache.dentries args.ddp1 = some dd1) (hdd2 : s.cache.dentries args.ddp2 = some dd2)
    (hvp2 : targetVnode s.cache args.dp2 = .ok vp2)
    (hmoves : dd1.dMount = dd2.dMount → Moves mounts bad Inv ext s.cache L args dname
      (F.rename s.fs dd1.dVnode d1.dVnode args.sname dd2.dVnode vp2 dname)) :
    (renameDentry F s args.ddp1 args.sname args.dp1 args.ddp2 args.dp2 dname).Sat bad
      (Releasable mounts Inv ext
        (holdAll ext (args.dp2.toList ++ [args.ddp2, args.dp1, args.ddp1]))) := by
  simp only [renameDentry, deref_some hd1, deref_some hdd1, deref_some hdd2, hvp2, ok_bind]
  split
  · exact ⟨L, h.ok, nofun⟩
  rename_i hmount
  refine Outcome.Sat.bind (hmoves (not_not.mp hmount)) ?_
  intro ⟨error, fs⟩ hr
  cases error with
  | some e => exact ⟨L, h.ok, nofun⟩
  | none =>
    obtain ⟨hroot, hne, hkids, hinv⟩ := hr rfl
    obtain ⟨c₁, L₁, hcall₁, hok₁, hre⟩ := h.ok.dentryMove hd1 (hkids d1 hd1) hdd2 hne dname
    have htarget : ∀ a, args.dp2 = some a →
        holdAll ext (args.dp2.toList ++ [args.ddp2, args.dp1, args.ddp1]) a ≠ 0 :=
      fun a ha => holdAll_ne_zero (by simp [ha])
    obtain ⟨c₂, L₂, hcall₂, hok₂, hun⟩ := hok₁.targetRemove htarget
    simp only [hcall₁, hcall₂, ok_bind]
    refine ⟨L₂, hok₂, fun _ c' L' hok' hshrunk => ?_⟩
    have hun' := hun.shrunk hshrunk
    have hm₁ := h.rehung hok₁ hre (fun m hm => (hroot m hm).1) h.held
    exact ⟨hinv c₁ L₁ c' L' hre hok' hun',
      hm₁.unhashed hok' hun' (fun m hm => (hroot m hm).2) hheld⟩

/-- **`sys_rename`**, up to what its vnode operation does. -/
theorem sysRename_keeps (hC : CallInv F mounts bad Good Place Inv) (hsrc : Good (stripped src))
    (hdest : Good (stripped dest)) (h : Mounted mounts s.cache L ext) (hinv : Inv s.fs s.cache L)
    (hact : ∀ {args s' L' d1 dd1 dd2 vp2 dir dname},
      renameResolve F mounts s src dest = .ok (.ok args, s') →
      RenameLocated F mounts Place Inv ext (stripped src) (stripped dest) s L args s' L' →
      s'.cache.dentries args.dp1 = some d1 → s'.cache.dentries args.ddp1 = some dd1 →
      s'.cache.dentries args.ddp2 = some dd2 → targetVnode s'.cache args.dp2 = .ok vp2 →
      stripped src ≠ stripped dest → ¬ isParent (stripped src) (stripped dest) →
      splitLast (stripped dest) = some (dir, dname) → dd1.dMount = dd2.dMount →
      Moves mounts bad Inv ext s'.cache L' args dname
        (F.rename s.fs dd1.dVnode d1.dVnode args.sname dd2.dVnode vp2 dname)) :
    (sysRename F mounts s src dest).Sat bad (CallKept mounts Inv ext) := by
  rw [sysRename]
  refine (renameResolve_looks hC hsrc hdest h hinv).bind_eq ?_
  intro ⟨r, s₁⟩ hcall hr
  cases r with
  | error e => exact nofun
  | ok args =>
    obtain ⟨fs₁, c₁⟩ := s₁
    obtain ⟨L₁, hloc⟩ := hr
    obtain ⟨hfs, hinv₁, hm₁, -⟩ := hloc.looked
    cases hfs
    have hlive : ∀ a ∈ args.dp2.toList ++ [args.ddp2, args.dp1, args.ddp1],
        ∃ d, c₁.dentries a = some d :=
      fun a ha => hm₁.ok.live_of_ext (holdAll_ne_zero ha)
    have hrelease : (renameAct F ⟨s.fs, c₁⟩ (stripped src) (stripped dest) args).Sat bad
        (Releasable mounts Inv ext
          (holdAll ext (args.dp2.toList ++ [args.ddp2, args.dp1, args.ddp1]))) := by
      unfold renameAct
      split
      · refine ⟨L₁, hm₁.ok, fun _ c' L' hok' hshrunk => ?_⟩
        exact ⟨(hC.resolves s.fs).shrunk hinv₁ hok' hshrunk, hm₁.shrunk hok' hshrunk h.held⟩
      rename_i hne
      split
      · exact ⟨L₁, hm₁.ok, nofun⟩
      rename_i hparent
      split
      · exact ⟨L₁, hm₁.ok, nofun⟩
      rename_i dir dname hsplit
      obtain ⟨d1, hd1⟩ := hlive args.dp1 (by simp)
      obtain ⟨dd1, hdd1⟩ := hlive args.ddp1 (by simp)
      obtain ⟨dd2, hdd2⟩ := hlive args.ddp2 (by simp)
      obtain ⟨vp2, hvp2⟩ : ∃ vp2, targetVnode c₁ args.dp2 = .ok vp2 := by
        cases hdp2 : args.dp2 with
        | none => exact ⟨none, rfl⟩
        | some a =>
          obtain ⟨d2, hd2⟩ := hlive a (by simp [hdp2])
          exact ⟨some d2.dVnode, by rw [targetVnode, deref_some hd2]; rfl⟩
      exact renameDentry_keeps hm₁ h.held hd1 hdd1 hdd2 hvp2
        (hact hcall hloc hd1 hdd1 hdd2 hvp2 hne hparent hsplit)
    refine hrelease.bind ?_
    intro ⟨error, s₂⟩ ⟨L₂, hok₂, hkeep⟩
    obtain ⟨c₃, L₃, hcall₃, hok₃, hshrunk⟩ := hok₂.dreleAll
    simp only [hcall₃, ok_bind]
    intro hnone
    obtain ⟨hinv₃, hm₃⟩ := hkeep hnone c₃ L₃ hok₃ hshrunk
    exact ⟨L₃, hinv₃, hm₃⟩

end

end Unikraft.Vfscore
