import Unikraft.Basic
import Unikraft.Lib.RefCount

/-!
# Unikraft.Vfscore.Fd

The descriptor table (`vfscore/fd.c`) and the reference counts of open files (`vfscore/file.c`).
`FdTable.Bal` is the reference law with the ledger of the running call (`Lib.RefCount`), and every
function has a lemma on the references it takes and drops.
-/

namespace Unikraft.Vfscore

open Lib Outcome

abbrev fdtableMaxFiles : Nat := 1024

/-- `struct vfscore_file`, as far as descriptors are concerned. -/
structure File where
  fCount : Nat
  fFlags : BitVec 32
  fd : Int

/-- `struct fdtable`, and the files in memory. -/
structure FdTable where
  bitmap : Vector Bool fdtableMaxFiles
  files : Vector (Option Nat) fdtableMaxFiles
  heap : Nat → Option File
  /-- The next file that `calloc` returns. -/
  next : Nat

/-- Write the memory of file `f`. -/
def FdTable.setFile (t : FdTable) (f : Nat) (file : Option File) : FdTable :=
  { t with heap := Function.update t.heap f file }

/-- An access to the table at `fd`. -/
def fdIndex (fd : Int) : Outcome (Fin fdtableMaxFiles) :=
  if h : 0 ≤ fd ∧ fd < fdtableMaxFiles then .ok ⟨fd.toNat, by omega⟩ else .error .outOfBounds

/-! ### file.c -/

def fhold (t : FdTable) (fp : Option Nat) : Outcome FdTable :=
  match fp with
  | none => .error .badPointer
  | some f =>
    match t.heap f with
    | none => .error .badPointer
    | some file =>
      .ok (t.setFile f (some { file with fCount := file.fCount + 1 }))

/-- `fdrop`; with the last reference the file is closed and freed. -/
def fdrop (t : FdTable) (f : Nat) : Outcome FdTable :=
  match t.heap f with
  | none => .error .badPointer
  | some file => do
      ukAssert (0 < file.fCount)
      .ok (t.setFile f
        (if file.fCount = 1 then none else some { file with fCount := file.fCount - 1 }))

/-- `if (fp) fdrop(fp)`. -/
def fdropIf (t : FdTable) : Option Nat → Outcome FdTable
  | none => .ok t
  | some f => fdrop t f

/-! ### fd.c -/

/-- `fdtable.files[fd] = file`. -/
def FdTable.putSlot (t : FdTable) (i : Fin fdtableMaxFiles) (file : Option Nat) : FdTable :=
  { t with files := t.files.set i file }

/-- `file->fd = fd`. -/
def FdTable.setFd (t : FdTable) (f : Nat) (fd : Int) : FdTable :=
  t.setFile f ((t.heap f).map fun file => { file with fd })

/-- `uk_find_next_zero_bit(fdtable.bitmap, FDTABLE_MAX_FILES, 0)`. -/
@[irreducible] def ukFindNextZeroBit (bitmap : Vector Bool fdtableMaxFiles) :
    Option (Fin fdtableMaxFiles) :=
  (List.finRange fdtableMaxFiles).find? fun i => !bitmap[i]

/-- `vfscore_alloc_fd`: the first clear bit. -/
def vfscoreAllocFd (t : FdTable) : Int × FdTable :=
  match ukFindNextZeroBit t.bitmap with
  | none => (-Errno.enfile.code, t)
  | some i => (i, { t with bitmap := t.bitmap.set i true })

def vfscoreReserveFd (t : FdTable) (fd : Int) : Outcome (Int × FdTable) := do
  let i ← fdIndex fd
  if t.bitmap[i] then .ok (-Errno.ebusy.code, t)
  else .ok (0, { t with bitmap := t.bitmap.set i true })

def vfscorePutFd (t : FdTable) (fd : Int) : Outcome (Int × FdTable) := do
  ukAssert (fd < fdtableMaxFiles)
  let i ← fdIndex fd
  let fp := t.files[i]
  let t ← fdropIf ({ t with bitmap := t.bitmap.set i false }.putSlot i none) fp
  .ok (0, t)

def vfscoreInstallFd (t : FdTable) (fd : Int) (file : Option Nat) : Outcome (Int × FdTable) :=
  match file with
  | none => .ok (-Errno.ebadf.code, t)
  | some f =>
    if fdtableMaxFiles ≤ fd then .ok (-Errno.ebadf.code, t)
    else do
      let t ← fhold t (some f)
      let t := t.setFd f fd
      let i ← fdIndex fd
      let orig := t.files[i]
      let t ← fdrop (t.putSlot i (some f)) f
      let t ← fdropIf t orig
      .ok (0, t)

def vfscoreGetFile (t : FdTable) (fd : Int) : Outcome (Option Nat × FdTable) := do
  ukAssert (fd < fdtableMaxFiles)
  let i ← fdIndex fd
  if t.bitmap[i] then do
    let t' ← fhold t t.files[i]
    .ok (t.files[i], t')
  else .ok (none, t)

/-- `fget`: an error code, the file and the table. -/
def fget (t : FdTable) (fd : Int) : Outcome (Except Int Nat × FdTable) := do
  let (fp, t) ← vfscoreGetFile t fd
  match fp with
  | none => .ok (.error Errno.ebadf.code, t)
  | some f => .ok (.ok f, t)

/-- `fdalloc`: an error code or the new descriptor. When there is no descriptor left,
the reference taken at the start is not dropped. -/
def fdalloc (t : FdTable) (f : Nat) : Outcome (Except Int Int × FdTable) := do
  let t ← fhold t (some f)
  let (fd, t) := vfscoreAllocFd t
  if fd < 0 then .ok (.error fd, t)
  else do
    let (ret, t) ← vfscoreInstallFd t fd (some f)
    if ret ≠ 0 then do
      let t ← fdrop t f
      .ok (.error ret, t)
    else .ok (.ok fd, t)

/-! ### The reference law with a ledger -/

variable {t t' : FdTable} {x : Nat → Int} {f g : Nat} {fd : Int} {i : Fin fdtableMaxFiles}

def FdTable.cnt (t : FdTable) : Nat → Option Nat := fun f => (t.heap f).map File.fCount

def FdTable.refs (t : FdTable) (f : Nat) : Nat := t.files.count (some f)

/-- The reference law while a call holds the references of the ledger `x`. -/
structure FdTable.Bal (t : FdTable) (x : Nat → Int) : Prop where
  counts : Balanced t.cnt t.refs x
  bit : ∀ i : Fin fdtableMaxFiles, t.files[i] ≠ none → t.bitmap[i] = true
  fresh : ∀ f, t.next ≤ f → t.heap f = none

variable {file : Option File}

theorem FdTable.cnt_setFile :
    (t.setFile f file).cnt = Function.update t.cnt f (file.map File.fCount) := by
  funext g
  by_cases h : g = f
  · subst h
    simp [FdTable.cnt, FdTable.setFile]
  · simp [FdTable.cnt, FdTable.setFile, h]

/-- Two tables that differ only in the memory of files. -/
structure FdTable.Same (t t' : FdTable) : Prop where
  files : t'.files = t.files
  bitmap : t'.bitmap = t.bitmap

theorem FdTable.refs_pos (h : t.files[i] = some f) : 0 < t.refs f :=
  Vector.count_pos_iff.mpr (h ▸ Vector.getElem_mem i.isLt)

section

variable (h : t.Bal x) {file : File}

include h

theorem FdTable.Bal.live_of_slot (hi : t.files[i] = some f) : ∃ file, t.heap f = some file := by
  obtain ⟨c, hc⟩ := h.counts.live_of_refs (FdTable.refs_pos hi).ne'
  obtain ⟨file, hfile, -⟩ := Option.map_eq_some_iff.mp hc
  exact ⟨file, hfile⟩

theorem FdTable.Bal.live_of_extra (hx : x f ≠ 0) : ∃ file, t.heap f = some file := by
  obtain ⟨c, hc⟩ := h.counts.live_of_extra hx
  obtain ⟨file, hfile, -⟩ := Option.map_eq_some_iff.mp hc
  exact ⟨file, hfile⟩

section

variable (hf : t.heap f = some file)

include hf

theorem FdTable.Bal.setFile {y : Nat → Int} {file' : Option File}
    (hc : Balanced (Function.update t.cnt f (file'.map File.fCount)) t.refs y) :
    (t.setFile f file').Bal y where
  counts := by
    rw [FdTable.cnt_setFile]
    exact hc
  bit := h.bit
  fresh g hg := by
    have hne : g ≠ f := by
      rintro rfl
      simp [h.fresh g hg] at hf
    simpa [FdTable.setFile, hne] using h.fresh g hg

theorem fhold_ok : ∃ t', fhold t (some f) = .ok t' ∧ t'.Bal (x + Pi.single f 1) ∧ t.Same t' := by
  have heq : fhold t (some f) =
      .ok (t.setFile f (some { file with fCount := file.fCount + 1 })) := by simp only [fhold, hf]
  refine ⟨_, heq, h.setFile hf ?_, rfl, rfl⟩
  exact h.counts.hold (c := file.fCount) (by simp [FdTable.cnt, hf])

theorem fdrop_ok (hown : 0 < x f ∨ 1 < file.fCount) :
    ∃ t', fdrop t f = .ok t' ∧ t'.Bal (x - Pi.single f 1) ∧ t.Same t' := by
  have hcnt : t.cnt f = some file.fCount := by simp [FdTable.cnt, hf]
  have hpos := h.counts.pos f _ hcnt
  have heq : fdrop t f = .ok (t.setFile f
      (if file.fCount = 1 then none else some { file with fCount := file.fCount - 1 })) := by
    simp only [fdrop, hf, ukAssert_pos hpos, ok_bind]
  refine ⟨_, heq, h.setFile hf ?_, rfl, rfl⟩
  rw [apply_ite (Option.map File.fCount)]
  exact h.counts.drop hcnt hown

end

/-- The reference a slot of the table stands for. -/
def held : Option Nat → Nat → Int
  | none => 0
  | some f => Pi.single f 1

theorem fdrop_owned (hown : 0 < x f) :
    ∃ t', fdrop t f = .ok t' ∧ t'.Bal (x - Pi.single f 1) ∧ t.Same t' := by
  obtain ⟨file, hf⟩ := h.live_of_extra (f := f) (by omega)
  exact fdrop_ok h hf (.inl hown)

theorem fdropIf_owned {v : Option Nat} (hown : ∀ f, v = some f → 0 < x f) :
    ∃ t', fdropIf t v = .ok t' ∧ t'.Bal (x - held v) ∧ t.Same t' := by
  cases v with
  | none => exact ⟨t, rfl, by simpa only [held, sub_zero] using h, rfl, rfl⟩
  | some f => exact fdrop_owned h (hown f rfl)

end

theorem held_apply (v : Option Nat) (g : Nat) : held v g = if v = some g then 1 else 0 := by
  cases v with
  | none => rfl
  | some f =>
    simp only [held, Pi.single_apply, Option.some.injEq]
    by_cases h : f = g
    · simp [h]
    · simp [h, Ne.symm h]

theorem refs_set (files : Vector (Option Nat) fdtableMaxFiles) (v : Option Nat) (g : Nat) :
    ((files.set i v).count (some g) : Int) = files.count (some g) - held files[i] g + held v g := by
  have hpos : files[i] = some g → 0 < files.count (some g) := fun h =>
    Vector.count_pos_iff.mpr (h ▸ Vector.getElem_mem i.isLt)
  rw [Vector.count_set, held_apply, held_apply]
  by_cases h1 : files[i] = some g
  · have := hpos h1
    by_cases h2 : v = some g <;> simp_all
  · by_cases h2 : v = some g <;> simp_all

theorem held_nonneg (v : Option Nat) (g : Nat) : 0 ≤ held v g := by
  rw [held_apply]
  split <;> simp

theorem FdTable.Bal.putSlot {v : Option Nat} (h : t.Bal x)
    (hv : ∀ f, v = some f → ∃ file, t.heap f = some file) (hbit : v ≠ none → t.bitmap[i] = true) :
    (t.putSlot i v).Bal (x + held t.files[i] - held v) where
  counts := by
    refine h.counts.move (fun g => ?_) (fun g hg => ?_)
    · simp only [FdTable.refs, FdTable.putSlot, refs_set, Pi.add_apply, Pi.sub_apply]
      omega
    have h0 := (h.counts.dead g hg).1
    have hne : v ≠ some g := by
      rintro rfl
      obtain ⟨file, hfile⟩ := hv g rfl
      simp [FdTable.cnt, hfile] at hg
    have hset := refs_set (i := i) t.files v g
    have h1 := held_nonneg t.files[i] g
    rw [held_apply v, if_neg hne] at hset
    simp only [FdTable.refs, FdTable.putSlot] at h0 ⊢
    omega
  bit j hj := by
    by_cases hji : j = i
    · subst hji
      exact hbit (by simpa [FdTable.putSlot] using hj)
    have hji' : (i : Nat) ≠ j := fun he => hji (Fin.ext he.symm)
    exact h.bit j (by simpa [FdTable.putSlot, Vector.getElem_set_ne _ _ hji'] using hj)
  fresh := h.fresh

/-! ### What the functions of fd.c do to the ledger -/

theorem fdIndex_eq_ok : fdIndex fd = .ok i ↔ fd = (i : Nat) := by
  unfold fdIndex
  split
  · rename_i h
    rw [Except.ok.injEq, Fin.ext_iff]
    simp only
    omega
  rename_i h
  have := i.isLt
  simp only [reduceCtorEq, false_iff]
  omega

theorem fdIndex_cast (i : Fin fdtableMaxFiles) : fdIndex (i : Nat) = .ok i := fdIndex_eq_ok.mpr rfl

theorem cast_lt_maxFiles (i : Fin fdtableMaxFiles) : ((i : Nat) : Int) < fdtableMaxFiles := by
  have := i.isLt
  omega

section

variable (h : t.Bal x)

include h

theorem vfscoreGetFile_open (hi : t.files[i] = some f) :
    ∃ t', vfscoreGetFile t (i : Nat) = .ok (some f, t') ∧ t'.Bal (x + Pi.single f 1) ∧
      t.Same t' := by
  obtain ⟨file, hf⟩ := h.live_of_slot hi
  obtain ⟨t', ht', hbal, hsame⟩ := fhold_ok h hf
  have hbit := h.bit i (by simp [hi])
  refine ⟨t', ?_, hbal, hsame⟩
  rw [vfscoreGetFile, ukAssert_pos (cast_lt_maxFiles i), ok_bind, fdIndex_cast,
    ok_bind, if_pos hbit, hi, ht']
  rfl

theorem vfscoreGetFile_inv {fp : Option Nat} (hget : vfscoreGetFile t fd = .ok (fp, t')) :
    ∃ i : Fin fdtableMaxFiles, fd = (i : Nat) ∧ fp = t.files[i] ∧
      ((∃ f, fp = some f ∧ t'.Bal (x + Pi.single f 1) ∧ t.Same t') ∨
        (fp = none ∧ t' = t ∧ t.bitmap[i] = false)) := by
  obtain ⟨-, -, hindex⟩ := bind_ok.mp hget
  obtain ⟨i, hidx, hfile⟩ := bind_ok.mp hindex
  obtain rfl := fdIndex_eq_ok.mp hidx
  refine ⟨i, rfl, ?_⟩
  cases hi : t.files[i] with
  | some f =>
    obtain ⟨t₁, ht₁, hbal, hsame⟩ := vfscoreGetFile_open h hi
    rw [hget] at ht₁
    cases ht₁
    exact ⟨rfl, .inl ⟨f, rfl, hbal, hsame⟩⟩
  | none =>
    by_cases hbit : t.bitmap[i] = true
    · rw [if_pos hbit, hi] at hfile
      cases hfile
    rw [if_neg hbit] at hfile
    cases hfile
    exact ⟨rfl, .inr ⟨rfl, rfl, by simpa using hbit⟩⟩

theorem fget_inv {r : Except Int Nat} (hget : fget t fd = .ok (r, t')) :
    ∃ i : Fin fdtableMaxFiles, fd = (i : Nat) ∧
      ((∃ f, r = .ok f ∧ t.files[i] = some f ∧ t'.Bal (x + Pi.single f 1) ∧ t.Same t') ∨
        (r = .error Errno.ebadf.code ∧ t.files[i] = none ∧ t' = t ∧ t.bitmap[i] = false)) := by
  obtain ⟨⟨fp, t₁⟩, hfile, hrest⟩ := bind_ok.mp hget
  obtain ⟨i, rfl, hfp, ⟨f, rfl, hbal, hsame⟩ | ⟨rfl, rfl, hbit⟩⟩ := vfscoreGetFile_inv h hfile
  · cases hrest
    exact ⟨i, rfl, .inl ⟨f, rfl, hfp.symm, hbal, hsame⟩⟩
  cases hrest
  exact ⟨i, rfl, .inr ⟨rfl, hfp.symm, rfl, hbit⟩⟩

theorem FdTable.Bal.setBitmap {bitmap : Vector Bool fdtableMaxFiles}
    (hbit : ∀ j : Fin fdtableMaxFiles, t.files[j] ≠ none → bitmap[j] = true) :
    FdTable.Bal { t with bitmap } x :=
  ⟨h.counts, hbit, h.fresh⟩

theorem vfscorePutFd_ok (hx : ∀ g, 0 ≤ x g) (i : Fin fdtableMaxFiles) :
    ∃ t', vfscorePutFd t (i : Nat) = .ok (0, t') ∧ t'.Bal x ∧
      t'.files = t.files.set i none ∧ t'.bitmap = t.bitmap.set i false := by
  have h₁ : FdTable.Bal ({ t with bitmap := t.bitmap.set i false }.putSlot i none)
      (x + held t.files[i]) := by
    have hput := h.putSlot (i := i) (v := none) nofun (by simp)
    rw [show held none = 0 from rfl, sub_zero] at hput
    refine hput.setBitmap fun j hj => ?_
    have hji : (i : Nat) ≠ j := by
      intro hij
      obtain rfl := Fin.ext hij
      simp [FdTable.putSlot] at hj
    have hbit := hput.bit j hj
    simpa [FdTable.putSlot, Vector.getElem_set_ne _ _ hji] using hbit
  obtain ⟨t', ht', hbal, hsame⟩ := fdropIf_owned (v := t.files[i]) h₁ (by
    intro f hf
    have := hx f
    simp only [Pi.add_apply, held_apply, hf, if_true]
    omega)
  rw [add_sub_cancel_right] at hbal
  refine ⟨t', ?_, hbal, hsame.files, hsame.bitmap⟩
  simp only [vfscorePutFd, ukAssert_pos (cast_lt_maxFiles i), ok_bind, fdIndex_cast, ht']

theorem FdTable.Bal.mapFile (upd : File → File) (hcount : ∀ file, (upd file).fCount = file.fCount) :
    (t.setFile f ((t.heap f).map upd)).Bal x where
  counts := by
    have hsame : ((t.heap f).map upd).map File.fCount = t.cnt f := by
      simp [FdTable.cnt, Option.map_map, Function.comp_def, hcount]
    rw [FdTable.cnt_setFile, hsame, Function.update_eq_self]
    exact h.counts
  bit := h.bit
  fresh g hg := by
    have hnone := h.fresh g hg
    by_cases hgf : g = f
    · subst hgf
      simp [FdTable.setFile, hnone]
    · simpa [FdTable.setFile, hgf] using hnone

theorem vfscoreInstallFd_ok (hx : ∀ g, 0 ≤ x g) (hown : 0 < x f) (hbit : t.bitmap[i] = true) :
    ∃ t', vfscoreInstallFd t (i : Nat) (some f) = .ok (0, t') ∧ t'.Bal (x - Pi.single f 1) ∧
      t'.files = t.files.set i (some f) ∧ t'.bitmap = t.bitmap := by
  obtain ⟨file, hf⟩ := h.live_of_extra (f := f) (by omega)
  obtain ⟨t₁, hhold, h₁, hs₁⟩ := fhold_ok h hf
  have h₂ : (t₁.setFd f (i : Nat)).Bal (x + Pi.single f 1) := h₁.mapFile _ fun _ => rfl
  have hfiles : (t₁.setFd f (i : Nat)).files = t.files := hs₁.files
  have h₃ := h₂.putSlot (i := i) (v := some f) (fun g hg => by
      obtain rfl := Option.some.inj hg
      exact h₂.live_of_extra (by
        simp only [Pi.add_apply, Pi.single_eq_same]
        omega))
    (fun _ => (congrArg (·[i]) hs₁.bitmap).trans hbit)
  rw [show held (some f) = Pi.single f 1 from rfl, hfiles, add_right_comm,
    add_sub_cancel_right] at h₃
  -- the reference that `fhold` took
  obtain ⟨t₄, hdrop, h₄, hs₄⟩ := fdrop_owned (f := f) h₃ (by
    have := held_nonneg t.files[i] f
    simp only [Pi.add_apply]
    omega)
  rw [add_sub_right_comm] at h₄
  -- the reference of the old file
  obtain ⟨t₅, hdrop', h₅, hs₅⟩ := fdropIf_owned (v := t.files[i]) h₄ (by
    intro g hg
    have hxg := hx g
    simp only [Pi.add_apply, Pi.sub_apply, held_apply, hg, if_true, Pi.single_apply]
    by_cases hgf : g = f
    · subst hgf
      simpa using hown
    simp only [hgf, if_false]
    omega)
  rw [add_sub_cancel_right] at h₅
  refine ⟨t₅, ?_, h₅, ?_, ?_⟩
  · simp only [vfscoreInstallFd, if_neg (not_le.mpr (cast_lt_maxFiles i)), hhold, ok_bind,
      fdIndex_cast, hfiles, hdrop, hdrop']
  · rw [hs₅.files, hs₄.files]
    exact congrArg (·.set i (some f)) hfiles
  rw [hs₅.bitmap, hs₄.bitmap]
  exact hs₁.bitmap

end

/-- No number is free. -/
def FdTable.Full (t : FdTable) : Prop := ∀ i : Fin fdtableMaxFiles, t.bitmap.get i = true

theorem vfscoreAllocFd_full (h : ukFindNextZeroBit t.bitmap = none) :
    t.Full ∧ vfscoreAllocFd t = (-Errno.enfile.code, t) := by
  refine ⟨fun i => ?_, by rw [vfscoreAllocFd, h]⟩
  unfold ukFindNextZeroBit at h
  rw [Vector.get_eq_getElem]
  simpa using List.find?_eq_none.mp h i (List.mem_finRange i)

theorem vfscoreAllocFd_free (h : ukFindNextZeroBit t.bitmap = some i) :
    t.bitmap[i] = false ∧
      vfscoreAllocFd t = (((i : Nat) : Int), { t with bitmap := t.bitmap.set i true }) := by
  refine ⟨?_, by rw [vfscoreAllocFd, h]⟩
  unfold ukFindNextZeroBit at h
  simpa using List.find?_some h

theorem fdalloc_cases (h : t.Bal x) (hx : ∀ g, 0 ≤ x g) (hlive : ∃ file, t.heap f = some file) :
    (t.Full ∧ ∃ t', fdalloc t f = .ok (.error (-Errno.enfile.code), t') ∧
      t'.Bal (x + Pi.single f 1) ∧ t.Same t') ∨
    ∃ (i : Fin fdtableMaxFiles) (t' : FdTable), t.bitmap[i] = false ∧
      fdalloc t f = .ok (.ok (i : Nat), t') ∧ t'.Bal x ∧
      t'.files = t.files.set i (some f) ∧ t'.bitmap = t.bitmap.set i true := by
  obtain ⟨file, hf⟩ := hlive
  obtain ⟨t₁, hhold, h₁, hs₁⟩ := fhold_ok h hf
  have hx₁ : ∀ g, 0 ≤ (x + Pi.single f 1 : Nat → Int) g := fun g => by
    have h1 := hx g
    have h2 := held_nonneg (some f) g
    simp only [held] at h2
    simp only [Pi.add_apply]
    omega
  cases hfind : ukFindNextZeroBit t₁.bitmap with
  | none =>
    obtain ⟨hfull, halloc⟩ := vfscoreAllocFd_full hfind
    refine .inl ⟨fun i => hs₁.bitmap ▸ hfull i, t₁, ?_, h₁, hs₁⟩
    have hneg : -Errno.enfile.code < 0 := by decide
    simp only [fdalloc, hhold, ok_bind, halloc, if_pos hneg]
  | some i =>
    obtain ⟨hclear, halloc⟩ := vfscoreAllocFd_free hfind
    have hset : ∀ j : Fin fdtableMaxFiles, t₁.files[j] ≠ none →
        (t₁.bitmap.set i true)[j] = true := by
      intro j hj
      by_cases hij : (i : Nat) = j
      · simp [hij]
      · simpa [Vector.getElem_set_ne _ _ hij] using h₁.bit j hj
    obtain ⟨t₂, hinst, h₂, hfiles, hbitmap⟩ :=
      vfscoreInstallFd_ok (i := i) (f := f) (h₁.setBitmap hset) hx₁ (by
        have := hx f
        simp only [Pi.add_apply, Pi.single_eq_same]
        omega) (by simp)
    rw [add_sub_cancel_right] at h₂
    refine .inr ⟨i, t₂, ?_, ?_, h₂, ?_, ?_⟩
    · rw [← hs₁.bitmap]
      exact hclear
    · have hnn : ¬ ((i : Nat) : Int) < 0 := by omega
      simp only [fdalloc, hhold, ok_bind, halloc, if_neg hnn, hinst, ne_eq,
        not_true_eq_false, if_false]
    · rw [hfiles]
      exact congrArg (·.set i (some f)) hs₁.files
    rw [hbitmap]
    exact congrArg (·.set i true) hs₁.bitmap

end Unikraft.Vfscore
