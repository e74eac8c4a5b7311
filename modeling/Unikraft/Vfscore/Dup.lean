import Unikraft.Vfscore.Fd
import Unikraft.Lib.Run

/-!
# Unikraft.Vfscore.Dup

The system calls on descriptors of `vfscore/main.c`, over the table of `Vfscore.Fd`.

Between calls the counter of every file is the number of its descriptors, and a file without one is
freed. Each call is followed by its ledger, which is empty again when it succeeds, except for
`dup3`: it drops the reference of the old file that `vfscore_install_fd` has given away, and keeps
the one of the file at the new descriptor. This cancels out when both refer to the same file.
-/

namespace Unikraft.Vfscore

open Lib Outcome FdTable

/-- What a system call returns: a result, or `-1` with an error number. -/
inductive SysRet
  | ret (r : Int)
  | fail (errno : Int)
  deriving DecidableEq

/-! ### The calls -/

/-- `open`. What path lookup and the file system answer is a parameter: an error, or the flags of
the new file. -/
def openPath (t : FdTable) (sysOpen : Except Int (BitVec 32)) : Outcome (SysRet × FdTable) :=
  match sysOpen with
  | .error error => .ok (.fail error, t)
  | .ok flags => do
      let f := t.next
      let t := { t.setFile f (some ⟨1, flags, 0⟩) with next := f + 1 }
      let (r, t) ← fdalloc t f
      let t ← fdrop t f
      match r with
      | .error error => .ok (.fail error, t)
      | .ok fd => .ok (.ret fd, t)

def fdclose (t : FdTable) (fd : Int) : Outcome (Int × FdTable) := do
  let (fp, t) ← vfscoreGetFile t fd
  match fp with
  | none => .ok (Errno.ebadf.code, t)
  | some f => do
      let (error, t) ← vfscorePutFd t fd
      if error = 0 then do
        let t ← fdrop t f
        .ok (error, t)
      else .ok (error, t)

def close (t : FdTable) (fd : Int) : Outcome (SysRet × FdTable) := do
  let (error, t) ← fdclose t fd
  if error ≠ 0 then .ok (.fail error, t) else .ok (.ret 0, t)

def dup (t : FdTable) (oldfd : Int) : Outcome (SysRet × FdTable) := do
  let (r, t) ← fget t oldfd
  match r with
  | .error error => .ok (.fail error, t)
  | .ok fp => do
      let (r, t) ← fdalloc t fp
      let t ← fdrop t fp
      match r with
      | .error error => .ok (.fail error, t)
      | .ok newfd => .ok (.ret newfd, t)

def oCloexec : BitVec 32 := 0x80000

/-- The part of `dup3` after the old descriptor of the new number is gone. -/
def dup3Install (t : FdTable) (fp : Nat) (newfd : Int) : Outcome (SysRet × FdTable) := do
  let (error, t) ← vfscoreReserveFd t newfd
  if error ≠ 0 then .ok (.fail error, t)
  else do
    let (error, t) ← vfscoreInstallFd t newfd (some fp)
    let t ← fdrop t fp
    if error ≠ 0 then .ok (.fail error, t) else .ok (.ret newfd, t)

def dup3 (t : FdTable) (oldfd newfd : Int) (flags : BitVec 32) : Outcome (SysRet × FdTable) :=
  if flags &&& ~~~oCloexec ≠ 0 then .ok (.fail Errno.einval.code, t)
  else if oldfd = newfd then .ok (.fail Errno.einval.code, t)
  else do
    let (r, t) ← fget t oldfd
    match r with
    | .error error => .ok (.fail error, t)
    | .ok fp => do
        let (r, t) ← fget t newfd
        match r with
        | .error _ => dup3Install t fp newfd
        | .ok _ => do
            -- if newfd is open, then close it
            let (c, t) ← close t newfd
            match c with
            | .fail _ => .ok (.fail (-1), t)
            | .ret _ => dup3Install t fp newfd

def dup2 (t : FdTable) (oldfd newfd : Int) : Outcome (SysRet × FdTable) :=
  if oldfd = newfd then .ok (.ret newfd, t) else dup3 t oldfd newfd 0

/-- The commands of `fcntl`; `F_GETFL` and `F_SETFL`, which only convert the flag
word, are left out. -/
inductive FcntlCmd
  | dupfd
  | dupfdCloexec
  | getfd
  | setfd (arg : BitVec 32)
  /-- `F_SETLK`, `F_GETLK`, `F_SETLKW` and `F_SETOWN`: a warning. -/
  | stubbed
  | unsupported

/-- `fp->f_flags = flags`. -/
def FdTable.setFlags (t : FdTable) (f : Nat) (flags : BitVec 32 → BitVec 32) : FdTable :=
  t.setFile f ((t.heap f).map fun file => { file with fFlags := flags file.fFlags })

/-- `fcntl`. On the error exits of the two `DUPFD` commands `fp` is not dropped. -/
def fcntl (t : FdTable) (fd : Int) (cmd : FcntlCmd) : Outcome (SysRet × FdTable) := do
  let (r, t) ← fget t fd
  match r with
  | .error error => .ok (.fail error, t)
  | .ok fp =>
    match cmd with
    | .dupfd => do
        let (r, t) ← fdalloc t fp
        match r with
        | .error error => .ok (.fail error, t)
        | .ok newfd => do
            let t ← fdrop t fp
            .ok (.ret newfd, t)
    | .dupfdCloexec => do
        let (r, t) ← fdalloc t fp
        match r with
        | .error error => .ok (.fail error, t)
        | .ok newfd => do
            let t ← fdrop (t.setFlags fp (· ||| oCloexec)) fp
            .ok (.ret newfd, t)
    | .getfd => do
        let t' ← fdrop t fp
        .ok (.ret (match t.heap fp with
          | some file => if file.fFlags &&& oCloexec ≠ 0 then 1 else 0
          | none => 0), t')
    | .setfd arg => do
        let t ← fdrop (t.setFlags fp fun flags =>
          (flags &&& ~~~oCloexec) ||| (if arg &&& 1 ≠ 0 then oCloexec else 0)) fp
        .ok (.ret 0, t)
    | .stubbed => do
        let t ← fdrop t fp
        .ok (.ret 0, t)
    | .unsupported => do
        let t ← fdrop t fp
        .ok (.fail Errno.einval.code, t)

/-! ### The law -/

variable {t t' : FdTable} {x : Nat → Int} {f r : Nat} {fd : Int} {i : Fin fdtableMaxFiles}

/-- **The reference law.** The counter of a file is the number of its descriptors; a descriptor of a
file is taken in the bitmap, and the file is in memory; a file in memory has a descriptor. -/
structure FdTable.Law (t : FdTable) : Prop where
  count : ∀ f file, t.heap f = some file → file.fCount = t.refs f
  bit : ∀ i : Fin fdtableMaxFiles, t.files.get i ≠ none → t.bitmap.get i = true
  live : ∀ (i : Fin fdtableMaxFiles) (f : Nat), t.files.get i = some f →
    ∃ file, t.heap f = some file
  held : ∀ f file, t.heap f = some file → ∃ i : Fin fdtableMaxFiles, t.files.get i = some f
  /-- `calloc` returns memory that is not in use. -/
  fresh : ∀ f, t.next ≤ f → t.heap f = none

theorem FdTable.refs_pos_iff :
    0 < t.refs f ↔ ∃ i : Fin fdtableMaxFiles, t.files.get i = some f := by
  rw [refs, Vector.count_pos_iff, Vector.mem_iff_getElem]
  constructor
  · rintro ⟨i, hi, h⟩
    exact ⟨⟨i, hi⟩, h⟩
  rintro ⟨i, h⟩
  exact ⟨i, i.isLt, h⟩

theorem FdTable.law_iff_bal : t.Law ↔ t.Bal 0 := by
  constructor
  · intro h
    refine ⟨⟨fun f c hc => ?_, fun f c hc => ?_, fun f hf => ⟨?_, rfl⟩⟩, h.bit, h.fresh⟩
    · obtain ⟨file, hfile, rfl⟩ := Option.map_eq_some_iff.mp hc
      simpa using h.count f file hfile
    · obtain ⟨file, hfile, rfl⟩ := Option.map_eq_some_iff.mp hc
      rw [h.count f file hfile]
      exact refs_pos_iff.mpr (h.held f file hfile)
    by_contra hne
    obtain ⟨i, hi⟩ := refs_pos_iff.mp (Nat.pos_of_ne_zero hne)
    obtain ⟨file, hfile⟩ := h.live i f hi
    simp [cnt, hfile] at hf
  intro h
  have hcount : ∀ f file, t.heap f = some file → file.fCount = t.refs f := fun f file hf => by
    have := h.counts.count f file.fCount (by simp [cnt, hf])
    simpa using this
  refine ⟨hcount, h.bit, fun i f hi => h.live_of_slot hi, fun f file hf => ?_, h.fresh⟩
  rw [← refs_pos_iff, ← hcount f file hf]
  exact h.counts.pos f file.fCount (by simp [cnt, hf])

def FdTable.slot (t : FdTable) (fd : Int) : Option Nat :=
  match fdIndex fd with
  | .ok i => t.files.get i
  | .error _ => none

theorem FdTable.slot_cast (i : Fin fdtableMaxFiles) : t.slot (i : Nat) = t.files.get i := by
  rw [slot, fdIndex_cast]

theorem FdTable.slot_ne_none (h : t.files.get i = some f) : t.slot (i : Nat) ≠ none := by
  intro hnone
  rw [slot_cast] at hnone
  cases h.symm.trans hnone

/-! ### The ledgers of the calls -/

theorem single_nonneg (f g : Nat) : 0 ≤ (Pi.single f 1 : Nat → Int) g := held_nonneg (some f) g

theorem add_single_nonneg (hx : ∀ g, 0 ≤ x g) (f g : Nat) :
    0 ≤ (x + Pi.single f 1 : Nat → Int) g := add_nonneg (hx g) (single_nonneg f g)

theorem add_single_pos (hx : ∀ g, 0 ≤ x g) (f : Nat) : 0 < (x + Pi.single f 1 : Nat → Int) f := by
  have := hx f
  simp only [Pi.add_apply, Pi.single_eq_same]
  omega

theorem fdrop_inv (h : t.Bal (x + Pi.single f 1)) (hx : ∀ g, 0 ≤ x g)
    (hs : fdrop t f = .ok t') : t'.Bal x ∧ t.Same t' := by
  obtain ⟨t₁, h₁, hbal, hsame⟩ := fdrop_owned h (add_single_pos hx f)
  rw [hs] at h₁
  cases h₁
  rw [add_sub_cancel_right] at hbal
  exact ⟨hbal, hsame⟩

theorem fdalloc_inv {r : Except Int Int} (h : t.Bal (x + Pi.single f 1)) (hx : ∀ g, 0 ≤ x g)
    (hs : fdalloc t f = .ok (r, t')) :
    (∃ e, r = .error e ∧ t.Full ∧ t'.Bal (x + Pi.single f 1 + Pi.single f 1) ∧ t.Same t') ∨
      ∃ fd, r = .ok fd ∧ t'.Bal (x + Pi.single f 1) := by
  rcases fdalloc_cases h (add_single_nonneg hx f) (h.live_of_extra (add_single_pos hx f).ne') with
    ⟨hfull, t₁, h₁, hbal, hsame⟩ | ⟨i, t₁, -, h₁, hbal, -, -⟩
  · rw [hs] at h₁
    cases h₁
    exact .inl ⟨_, rfl, hfull, hbal, hsame⟩
  · rw [hs] at h₁
    cases h₁
    exact .inr ⟨_, rfl, hbal⟩

theorem close_open (h : t.Bal x) (hx : ∀ g, 0 ≤ x g) (hi : t.files.get i = some f) :
    ∃ t', close t (i : Nat) = .ok (.ret 0, t') ∧ t'.Bal x ∧ t'.files = t.files.set i none i.isLt ∧
      t'.bitmap = t.bitmap.set i false i.isLt := by
  obtain ⟨t₁, hget, h₁, hs₁⟩ := vfscoreGetFile_open h hi
  obtain ⟨t₂, hput, h₂, hf₂, hb₂⟩ := vfscorePutFd_ok h₁ (add_single_nonneg hx f) i
  obtain ⟨t₃, hdrop, h₃, hs₃⟩ := fdrop_owned h₂ (add_single_pos hx f)
  rw [add_sub_cancel_right] at h₃
  refine ⟨t₃, ?_, h₃, by rw [hs₃.files, hf₂, hs₁.files], by rw [hs₃.bitmap, hb₂, hs₁.bitmap]⟩
  simp only [close, fdclose, hget, ok_bind, hput, if_true, hdrop, ne_eq, not_true_eq_false,
    if_false]

/-- What the calls other than `dup2` and `dup3` leave: the law. If they fail, the table is as it
was; but a call that `allocates` a descriptor leaves a reference too many if the table is full. -/
def Settled (allocates : Prop) (t : FdTable) : SysRet → FdTable → Prop
  | .ret _, t' => t'.Bal 0
  | .fail _, t' => t.Same t' ∧ ((t.Full ∧ allocates ∧ ∃ f x, t'.Bal x ∧ 0 < x f) ∨
      ¬ (t.Full ∧ allocates) ∧ t'.Bal 0)

theorem Settled.unchanged {allocates : Prop} {e : Int} (hno : ¬ allocates) (h : t.Bal 0) :
    Settled allocates t (.fail e) t :=
  ⟨⟨rfl, rfl⟩, .inr ⟨fun hfull => hno hfull.2, h⟩⟩

theorem FdTable.Same.trans {t₁ : FdTable} (h : t.Same t₁) (h' : t₁.Same t') : t.Same t' :=
  ⟨h'.files.trans h.files, h'.bitmap.trans h.bitmap⟩

/-- The commands that take a new descriptor. -/
def FcntlCmd.Allocates (cmd : FcntlCmd) : Prop := cmd matches .dupfd | .dupfdCloexec

variable {r : SysRet}

theorem openPath_settled {sysOpen : Except Int (BitVec 32)} (h : t.Bal 0)
    (hs : openPath t sysOpen = .ok (r, t')) :
    Settled (∃ flags, sysOpen = .ok flags) t r t' := by
  cases sysOpen with
  | error error =>
    cases hs
    exact .unchanged nofun h
  | ok flags =>
    obtain ⟨⟨r₁, t₁⟩, hall, hs⟩ := bind_ok.mp hs
    obtain ⟨t₂, hdrop, hs⟩ := bind_ok.mp hs
    -- the new file, with the reference of `sys_open`
    have hnew : FdTable.Bal { t.setFile t.next (some ⟨1, flags, 0⟩) with next := t.next + 1 }
        (0 + Pi.single t.next 1) := by
      refine ⟨?_, h.bit, fun f hf => ?_⟩
      · have hnone : t.cnt t.next = none := by simp [cnt, h.fresh t.next le_rfl]
        have hcnt : (t.setFile t.next (some ⟨1, flags, 0⟩)).cnt = _ := cnt_setFile
        exact hcnt ▸ h.counts.alloc hnone
      have hne : f ≠ t.next := by
        simp only at hf
        omega
      have hge : t.next ≤ f := by
        simp only at hf
        omega
      simpa [setFile, hne] using h.fresh f hge
    rcases fdalloc_inv hnew (fun _ => le_rfl) hall with
      ⟨e, rfl, hfull, hbal, hsame⟩ | ⟨fd, rfl, hbal⟩
    · cases hs
      obtain ⟨hbal, hsame'⟩ := fdrop_inv hbal (add_single_nonneg (fun _ => le_rfl) _) hdrop
      have hsame₀ : t.Same { t.setFile t.next (some ⟨1, flags, 0⟩) with next := t.next + 1 } :=
        ⟨rfl, rfl⟩
      exact ⟨(hsame₀.trans hsame).trans hsame', .inl ⟨hfull, ⟨flags, rfl⟩, _, _, hbal,
        add_single_pos (fun _ => le_rfl) _⟩⟩
    · cases hs
      exact (fdrop_inv hbal (fun _ => le_rfl) hdrop).1

theorem close_settled (h : t.Bal 0) (hs : close t fd = .ok (r, t')) : Settled False t r t' := by
  obtain ⟨⟨error, t₁⟩, hclose, -⟩ := bind_ok.mp hs
  obtain ⟨⟨fp, t₂⟩, hget, hrest⟩ := bind_ok.mp hclose
  obtain ⟨i, rfl, hfp, ⟨f, rfl, -, -⟩ | ⟨rfl, rfl, -⟩⟩ := vfscoreGetFile_inv h hget
  · obtain ⟨t₃, ht₃, hbal, -⟩ := close_open h (fun _ => le_rfl) hfp.symm
    rw [hs] at ht₃
    cases ht₃
    exact hbal
  -- not open: `EBADF`
  cases hrest
  simp only [close, hclose, ok_bind] at hs
  cases hs
  exact .unchanged id h

theorem dup_settled (h : t.Bal 0) (hs : dup t fd = .ok (r, t')) :
    Settled (t.slot fd ≠ none) t r t' := by
  obtain ⟨⟨r₁, t₁⟩, hget, hs₁⟩ := bind_ok.mp hs
  obtain ⟨i, rfl, ⟨f, rfl, hi, hbal, hsame⟩ | ⟨rfl, hi, rfl, -⟩⟩ := fget_inv h hget
  · obtain ⟨⟨r₂, t₂⟩, hall, hs⟩ := bind_ok.mp hs₁
    obtain ⟨t₃, hdrop, hs⟩ := bind_ok.mp hs
    rcases fdalloc_inv hbal (fun _ => le_rfl) hall with
      ⟨e, rfl, hfull, hbal, hsame₂⟩ | ⟨fd, rfl, hbal⟩
    · cases hs
      obtain ⟨hbal, hsame₃⟩ := fdrop_inv hbal (add_single_nonneg (fun _ => le_rfl) _) hdrop
      exact ⟨(hsame.trans hsame₂).trans hsame₃, .inl ⟨fun i => hsame.bitmap ▸ hfull i,
        slot_ne_none hi, f, _, hbal, add_single_pos (fun _ => le_rfl) f⟩⟩
    · cases hs
      exact (fdrop_inv hbal (fun _ => le_rfl) hdrop).1
  · cases hs₁
    exact .unchanged (not_not.mpr ((slot_cast i).trans hi)) h

theorem FdTable.Bal.setFlags (h : t.Bal x) (f : Nat) (flags : BitVec 32 → BitVec 32) :
    (t.setFlags f flags).Bal x :=
  h.mapFile _ fun _ => rfl

theorem fcntl_settled {cmd : FcntlCmd} (h : t.Bal 0) (hs : fcntl t fd cmd = .ok (r, t')) :
    Settled (cmd.Allocates ∧ t.slot fd ≠ none) t r t' := by
  obtain ⟨⟨r₁, t₁⟩, hget, hs₁⟩ := bind_ok.mp hs
  obtain ⟨i, rfl, ⟨f, rfl, hi, hbal, hsame⟩ | ⟨rfl, hi, rfl, -⟩⟩ := fget_inv h hget
  · -- every command that does not fail ends with `fdrop`
    have hdropped : ∀ {t₂ t₃}, t₂.Bal (0 + Pi.single f 1) → fdrop t₂ f = .ok t₃ →
        t₃.Bal 0 ∧ t₂.Same t₃ := fun h₂ => fdrop_inv h₂ fun _ => le_rfl
    cases cmd with
    | dupfd | dupfdCloexec =>
      obtain ⟨⟨r₂, t₂⟩, hall, hs⟩ := bind_ok.mp hs₁
      rcases fdalloc_inv hbal (fun _ => le_rfl) hall with
        ⟨e, rfl, hfull, hbal, hsame₂⟩ | ⟨fd, rfl, hbal⟩
      · cases hs
        exact ⟨hsame.trans hsame₂, .inl ⟨fun i => hsame.bitmap ▸ hfull i,
          ⟨rfl, slot_ne_none hi⟩, f, _, hbal,
          add_single_pos (add_single_nonneg (fun _ => le_rfl) f) f⟩⟩
      obtain ⟨t₃, hdrop, hs⟩ := bind_ok.mp hs
      cases hs
      first
      | exact (hdropped hbal hdrop).1
      | exact (hdropped (hbal.setFlags f _) hdrop).1
    | getfd | stubbed =>
      obtain ⟨t₃, hdrop, hs⟩ := bind_ok.mp hs₁
      cases hs
      exact (hdropped hbal hdrop).1
    | setfd arg =>
      obtain ⟨t₃, hdrop, hs⟩ := bind_ok.mp hs₁
      cases hs
      exact (hdropped (hbal.setFlags f _) hdrop).1
    | unsupported =>
      obtain ⟨t₃, hdrop, hs⟩ := bind_ok.mp hs₁
      cases hs
      obtain ⟨hbal₃, hsame₃⟩ := hdropped hbal hdrop
      exact ⟨hsame.trans hsame₃, .inr ⟨fun hfull => (nomatch hfull.2.1), hbal₃⟩⟩
  · cases hs₁
    exact .unchanged (fun hall => hall.2 ((slot_cast i).trans hi)) h

theorem dup3Install_ok {j : Fin fdtableMaxFiles} (h : t.Bal (x + Pi.single f 1))
    (hx : ∀ g, 0 ≤ x g) (hi : t.files.get i = some f) (hj : t.files.get j = none)
    (hbit : t.bitmap.get j = false) :
    ∃ t', dup3Install t f (j : Nat) = .ok (.ret (j : Nat), t') ∧ t'.Bal (x - Pi.single f 1) ∧
      t'.files = t.files.set j (some f) j.isLt := by
  have hreserve : vfscoreReserveFd t (j : Nat) =
      .ok (0, { t with bitmap := t.bitmap.set j true }) := by
    have hclear : t.bitmap[j] = false := hbit
    rw [vfscoreReserveFd, fdIndex_cast, ok_bind, if_neg (by rw [hclear]; decide)]
  have h₁ : FdTable.Bal { t with bitmap := t.bitmap.set j true } (x + Pi.single f 1) := by
    refine h.setBitmap fun k hk => ?_
    by_cases hjk : (j : Nat) = k
    · simp [hjk]
    · simpa [Vector.getElem_set_ne _ _ hjk] using h.bit k hk
  obtain ⟨t₂, hinst, h₂, hf₂, -⟩ := vfscoreInstallFd_ok (i := j) h₁ (add_single_nonneg hx f)
    (add_single_pos hx f) (by simp)
  rw [add_sub_cancel_right] at h₂
  -- both descriptors refer to the file: it is not freed
  have hrefs : (t₂.refs f : Int) = t.refs f + 1 := by
    have hset := refs_set (i := j) t.files (some f) f
    have hnone : t.files[j] = none := hj
    simp only [refs, hf₂, hset, hnone, held_apply]
    simp
  have hpos := refs_pos hi
  obtain ⟨file, hfile⟩ := h₂.live_of_slot (i := j) (f := f) (by simp [hf₂])
  have hcount := h₂.counts.count f file.fCount (by simp [cnt, hfile])
  obtain ⟨t₃, hdrop, h₃, hs₃⟩ := fdrop_ok h₂ hfile (.inr (by
    have := hx f
    omega))
  refine ⟨t₃, ?_, h₃, by rw [hs₃.files, hf₂]⟩
  simp only [dup3Install, hreserve, ok_bind, ne_eq, not_true_eq_false, if_false, hinst, hdrop]

/-- If `dup3` fails, nothing has changed. The ledger of a successful one: one reference too many
for the file that was open at the new number, one too few for the old file. -/
theorem dup3_cases {oldfd newfd : Int} {flags : BitVec 32} (h : t.Bal 0)
    (hs : dup3 t oldfd newfd flags = .ok (r, t')) :
    (t' = t ∧ ∃ e, r = .fail e) ∨ ∃ (i j : Fin fdtableMaxFiles) (f : Nat), r = .ret newfd ∧
      oldfd = (i : Nat) ∧ newfd = (j : Nat) ∧ t.files.get i = some f ∧ t'.files.get i = some f ∧
      t'.Bal (held (t.files.get j) - Pi.single f 1) := by
  unfold dup3 at hs
  split at hs
  · cases hs
    exact .inl ⟨rfl, _, rfl⟩
  split at hs
  · cases hs
    exact .inl ⟨rfl, _, rfl⟩
  rename_i hne
  obtain ⟨⟨r₁, t₁⟩, hget, hs₁⟩ := bind_ok.mp hs
  obtain ⟨i, rfl, ⟨f, rfl, hi, hbal, hsame⟩ | ⟨rfl, -, rfl, -⟩⟩ := fget_inv h hget
  swap
  · cases hs₁
    exact .inl ⟨rfl, _, rfl⟩
  right
  obtain ⟨⟨r₂, t₂⟩, hget', hs₂⟩ := bind_ok.mp hs₁
  obtain ⟨j, rfl, hcases⟩ := fget_inv hbal hget'
  have hij : (j : Nat) ≠ i := fun he => hne (by rw [he])
  have hi₁ : t₁.files.get i = some f := by
    rw [hsame.files]
    exact hi
  rcases hcases with ⟨g, rfl, hj, hbal₂, hsame₂⟩ | ⟨rfl, hj, rfl, hbit⟩
  · -- the new number is in use: its file keeps the reference of `fget`
    obtain ⟨t₃, hclose, hbal₃, hf₃, hb₃⟩ := close_open (i := j) (f := g) hbal₂
      (add_single_nonneg (add_single_nonneg (fun _ => le_rfl) f) g) (by
        rw [hsame₂.files]
        exact hj)
    simp only [hclose, ok_bind] at hs₂
    rw [zero_add, add_comm] at hbal₃
    obtain ⟨t₄, hinst, hbal₄, hf₄⟩ := dup3Install_ok (i := i) (j := j) hbal₃ (single_nonneg g) (by
        rw [Vector.get_eq_getElem, hf₃, hsame₂.files, Vector.getElem_set_ne _ _ hij]
        exact hi₁)
      (by simp [Vector.get_eq_getElem, hf₃]) (by simp [Vector.get_eq_getElem, hb₃])
    simp only [hinst] at hs₂
    cases hs₂
    refine ⟨i, j, f, rfl, rfl, rfl, hi, ?_, ?_⟩
    · rw [Vector.get_eq_getElem, hf₄, hf₃, hsame₂.files, Vector.getElem_set_ne _ _ hij,
        Vector.getElem_set_ne _ _ hij]
      exact hi₁
    have hslot : t₁.files.get j = some g := hj
    rw [← hsame.files, hslot]
    exact hbal₄
  obtain ⟨t₄, hinst, hbal₄, hf₄⟩ :=
    dup3Install_ok (i := i) (j := j) hbal (fun _ => le_rfl) hi₁ hj hbit
  simp only [hinst] at hs₂
  cases hs₂
  refine ⟨i, j, f, rfl, rfl, rfl, hi, ?_, ?_⟩
  · rw [Vector.get_eq_getElem, hf₄, Vector.getElem_set_ne _ _ hij]
    exact hi₁
  have hslot : t₂.files.get j = none := hj
  rw [← hsame.files, hslot]
  exact hbal₄

/-! ### Runs -/

inductive FdCall
  | openPath (sysOpen : Except Int (BitVec 32))
  | close (fd : Int)
  | dup (oldfd : Int)
  | dup2 (oldfd newfd : Int)
  | dup3 (oldfd newfd : Int) (flags : BitVec 32)
  | fcntl (fd : Int) (cmd : FcntlCmd)

def fdStep (t : FdTable) : FdCall → Outcome (SysRet × FdTable)
  | .openPath sysOpen => openPath t sysOpen
  | .close fd => close t fd
  | .dup oldfd => dup t oldfd
  | .dup2 oldfd newfd => dup2 t oldfd newfd
  | .dup3 oldfd newfd flags => dup3 t oldfd newfd flags
  | .fcntl fd cmd => fcntl t fd cmd

/-- The call returns something other than `-1`. -/
def FdCall.Succeeds (t : FdTable) (c : FdCall) : Prop :=
  match fdStep t c with
  | .ok (.ret _, _) => True
  | _ => False

/-- The calls that keep the reference law: `dup2` and `dup3` only between two
descriptors of the same file. -/
def FdCall.KeepsLaw (t : FdTable) : FdCall → Prop
  | .dup2 oldfd newfd => oldfd = newfd ∨ t.slot newfd = t.slot oldfd
  | .dup3 oldfd newfd _ => t.slot newfd = t.slot oldfd
  | _ => True

instance (t : FdTable) (c : FdCall) : Decidable (c.Succeeds t) :=
  match h : fdStep t c with
  | .ok (.ret _, _) => .isTrue (by simp [FdCall.Succeeds, h])
  | .ok (.fail _, _) => .isFalse (by simp [FdCall.Succeeds, h])
  | .error _ => .isFalse (by simp [FdCall.Succeeds, h])

instance (t : FdTable) (c : FdCall) : Decidable (c.KeepsLaw t) := by
  cases c <;> dsimp only [FdCall.KeepsLaw] <;> infer_instance

theorem dup3_law_iff {oldfd newfd : Int} {flags : BitVec 32} {n : Int} (h : t.Law)
    (hs : dup3 t oldfd newfd flags = .ok (.ret n, t')) : t'.Law ↔ t.slot newfd = t.slot oldfd := by
  obtain ⟨-, e, he⟩ | ⟨i, j, f, -, rfl, rfl, hi, hi', hbal⟩ :=
    dup3_cases (law_iff_bal.mp h) hs
  · cases he
  rw [law_iff_bal, slot_cast, slot_cast, hi]
  constructor
  · intro h0
    -- the counter of the old file has both values only if the ledger is empty
    obtain ⟨file, hfile⟩ := h0.live_of_slot hi'
    have hc := hbal.counts.count f file.fCount (by simp [cnt, hfile])
    have hc' := h0.counts.count f file.fCount (by simp [cnt, hfile])
    by_contra hne
    simp only [Pi.sub_apply, Pi.single_eq_same, held_apply, if_neg hne, Pi.zero_apply] at hc hc'
    omega
  intro hj
  rw [hj, held, sub_self] at hbal
  exact hbal

/-- **Step lemma.** A successful call keeps the law if and only if it is one of
`KeepsLaw`. -/
theorem fdStep_law_iff {c : FdCall} {n : Int} (h : t.Law) (hs : fdStep t c = .ok (.ret n, t')) :
    t'.Law ↔ c.KeepsLaw t := by
  have hbal := law_iff_bal.mp h
  have hkept (hb : t'.Bal 0) : t'.Law ↔ True := iff_true_intro (law_iff_bal.mpr hb)
  cases c with
  | openPath sysOpen => exact hkept (openPath_settled hbal hs)
  | close fd => exact hkept (close_settled hbal hs)
  | dup oldfd => exact hkept (dup_settled hbal hs)
  | fcntl fd cmd => exact hkept (fcntl_settled hbal hs)
  | dup3 oldfd newfd flags => exact dup3_law_iff h hs
  | dup2 oldfd newfd =>
    simp only [fdStep, dup2] at hs
    split at hs
    · rename_i heq
      cases hs
      exact iff_of_true h (.inl heq)
    rename_i hne
    rw [dup3_law_iff h hs]
    exact ⟨.inr, fun hk => hk.resolve_left hne⟩

theorem FdCall.Succeeds.exists_ret {c : FdCall} (h : c.Succeeds t) :
    ∃ r t', fdStep t c = .ok (.ret r, t') := by
  unfold FdCall.Succeeds at h
  split at h
  · rename_i r t' hs
    exact ⟨r, t', hs⟩
  · exact h.elim

/-- **Reference counting of descriptors.** In every run of successful calls in which `dup2` and
`dup3` are only used between descriptors of one file, the reference law holds; and a further
successful call keeps it if and only if it meets this condition. -/
theorem fd_reference_law (t₀ t : FdTable) (h₀ : t₀.Law)
    (h : Reachable fdStep (fun t c => FdCall.Succeeds t c ∧ c.KeepsLaw t) t₀ t) :
    t.Law ∧ ∀ c : FdCall, c.Succeeds t →
      ∃ r t', fdStep t c = .ok (.ret r, t') ∧ (t'.Law ↔ c.KeepsLaw t) := by
  have hlaw : t.Law := by
    refine h.invariant h₀ ?_
    rintro t c r t' hlaw ⟨hsucc, hkeeps⟩ hs
    obtain ⟨r', t₁, hs₁⟩ := hsucc.exists_ret
    rw [hs] at hs₁
    cases hs₁
    exact (fdStep_law_iff hlaw hs).mpr hkeeps
  refine ⟨hlaw, fun c hc => ?_⟩
  obtain ⟨r, t', hs⟩ := hc.exists_ret
  exact ⟨r, t', hs, fdStep_law_iff hlaw hs⟩

def emptyTable : FdTable where
  bitmap := Vector.replicate fdtableMaxFiles false
  files := Vector.replicate fdtableMaxFiles none
  heap _ := none
  next := 0

theorem emptyTable_law : emptyTable.Law := by
  constructor <;> simp [emptyTable]

/-- Two descriptors of one file, one of them closed again: the file is still there. -/
theorem fd_reference_law_dup_close :
    ∃ t, Reachable fdStep (fun t c => FdCall.Succeeds t c ∧ c.KeepsLaw t) emptyTable t ∧
      t.slot 0 = some 0 ∧ t.slot 1 = none ∧
      ∃ file, t.heap 0 = some file ∧ file.fCount = t.refs 0 := by
  obtain ⟨t, hreach, hzero, hone⟩ : ∃ t, Reachable fdStep
      (fun t c => FdCall.Succeeds t c ∧ c.KeepsLaw t) emptyTable t ∧ t.slot 0 = some 0 ∧
      t.slot 1 = none :=
    Reachable.exists_of_run [.openPath (.ok 1), .dup 0, .close 1] (by decide +kernel)
  have hlaw := (fd_reference_law _ _ emptyTable_law hreach).1
  obtain ⟨file, hfile⟩ := hlaw.live 0 0 hzero
  exact ⟨t, hreach, hzero, hone, file, hfile, hlaw.count 0 file hfile⟩

/-- After `open` and `dup2` to a free number, `close` of the second descriptor frees
the file that the first one still refers to. -/
theorem dup2_breaks_law :
    emptyTable.Law ∧ ∃ t, Reachable fdStep (fun t c => FdCall.Succeeds t c) emptyTable t ∧
        t.slot 0 = some 0 ∧ t.heap 0 = none := by
  simp only [← Option.isNone_iff_eq_none]
  exact ⟨emptyTable_law,
    Reachable.exists_of_run [.openPath (.ok 1), .dup2 0 1, .close 1] (by decide +kernel)⟩

/-! ### Failed calls -/

/-- By the law the descriptors of a file determine its counter. -/
theorem FdTable.Bal.cnt_eq (h : t.Bal 0) (f : Nat) :
    t.cnt f = if t.refs f = 0 then none else some (t.refs f) := by
  cases hcnt : t.cnt f with
  | none => rw [if_pos (h.counts.dead f hcnt).1]
  | some c =>
    have hcount := h.counts.count f c hcnt
    have hpos := h.counts.pos f c hcnt
    simp only [Pi.zero_apply, add_zero, Nat.cast_inj] at hcount
    rw [if_neg (by omega), hcount]

/-- The calls that take a new descriptor. -/
def FdCall.Allocates (t : FdTable) : FdCall → Prop
  | .openPath sysOpen => ∃ flags, sysOpen = .ok flags
  | .dup oldfd => t.slot oldfd ≠ none
  | .fcntl fd cmd => cmd.Allocates ∧ t.slot fd ≠ none
  | _ => False

theorem fdStep_settled {c : FdCall} {e : Int} (h : t.Bal 0)
    (hs : fdStep t c = .ok (.fail e, t')) : Settled (c.Allocates t) t (.fail e) t' := by
  have hdup3 : ∀ {oldfd newfd flags}, dup3 t oldfd newfd flags = .ok (.fail e, t') →
      Settled False t (.fail e) t' := by
    intro oldfd newfd flags hs
    obtain ⟨rfl, -⟩ | ⟨i, j, f, hret, -⟩ := dup3_cases h hs
    · exact .unchanged id h
    · cases hret
  cases c with
  | openPath sysOpen => exact openPath_settled h hs
  | close fd => exact close_settled h hs
  | dup oldfd => exact dup_settled h hs
  | fcntl fd cmd => exact fcntl_settled h hs
  | dup3 oldfd newfd flags => exact hdup3 hs
  | dup2 oldfd newfd =>
    simp only [fdStep, dup2] at hs
    split at hs
    · cases hs
    · exact hdup3 hs

/-- **Failed calls.** A call that returns `-1` changes neither the open descriptors and their files
nor the counter of any file, exactly if it needs no new descriptor or a number is free. -/
theorem failed_call_changes_nothing (t t' : FdTable) (c : FdCall) (e : Int) (h : t.Law)
    (hs : fdStep t c = .ok (.fail e, t')) :
    (t'.bitmap = t.bitmap ∧ t'.files = t.files ∧ t'.cnt = t.cnt) ↔
      (c.Allocates t → ∃ i : Fin fdtableMaxFiles, t.bitmap.get i = false) := by
  have hbal := FdTable.law_iff_bal.mp h
  have hfree : (∃ i : Fin fdtableMaxFiles, t.bitmap.get i = false) ↔ ¬ t.Full := by
    simp [FdTable.Full]
  obtain ⟨hsame, ⟨hfull, hall, f, x, hbal', hpos⟩ | ⟨hno, hbal'⟩⟩ := fdStep_settled hbal hs
  · -- the counter of `f` is larger than the number of its descriptors
    refine iff_of_false (fun hunchanged => ?_) fun himp => hfree.mp (himp hall) hfull
    obtain ⟨c, hc⟩ := hbal'.counts.live_of_extra hpos.ne'
    have hcount := hbal'.counts.count f c hc
    have hold := hbal.counts.count f c (hunchanged.2.2 ▸ hc)
    rw [FdTable.refs, hsame.files] at hcount
    simp only [Pi.zero_apply, FdTable.refs] at hold
    omega
  · refine iff_of_true ⟨hsame.bitmap, hsame.files, funext fun f => ?_⟩
      fun hall => hfree.mpr fun hfull => hno ⟨hfull, hall⟩
    rw [hbal'.cnt_eq, hbal.cnt_eq, FdTable.refs, FdTable.refs, hsame.files]

/-- `dup` of a number that is not open, while another file is. -/
theorem failed_call_changes_nothing_closed : ∃ t t', t.slot 0 = some 0 ∧
    dup t 5 = .ok (.fail Errno.ebadf.code, t') ∧ t'.cnt = t.cnt := by
  obtain ⟨t, hopen, heval⟩ := exists_of_eval (openPath emptyTable (.ok 1))
    (fun t => (t.slot 0, (dup t 5).toOption.map Prod.fst, decide (t.slot 5 = none)))
    (a := .ret 0) (b := (some 0, some (.fail Errno.ebadf.code), true)) (by decide +kernel)
  simp only [Prod.mk.injEq, decide_eq_true_eq] at heval
  obtain ⟨hslot, hdup, hclosed⟩ := heval
  have hlaw : t.Law :=
    FdTable.law_iff_bal.mpr (openPath_settled (FdTable.law_iff_bal.mp emptyTable_law) hopen)
  obtain ⟨⟨r, t'⟩, hs, rfl⟩ : ∃ res, dup t 5 = .ok res ∧ res.1 = .fail Errno.ebadf.code := by
    cases hcall : dup t 5 with
    | error e =>
      rw [hcall] at hdup
      cases hdup
    | ok res =>
      rw [hcall] at hdup
      exact ⟨res, rfl, Option.some.inj hdup⟩
  exact ⟨t, t', hslot, hs, ((failed_call_changes_nothing t t' (.dup 5) _ hlaw hs).mpr
    fun hall => absurd hclosed hall).2.2⟩

/-- In a full table a failed `open` leaves its file in memory. -/
theorem openPath_full (hfind : ukFindNextZeroBit t.bitmap = none) (flags : BitVec 32) :
    ∃ t', openPath t (.ok flags) = .ok (.fail (-Errno.enfile.code), t') ∧
      t'.cnt t.next = some 1 := by
  have hneg : -Errno.enfile.code < 0 := by decide
  simp only [openPath, fdalloc, fhold, vfscoreAllocFd, hfind, if_pos hneg, fdrop,
    setFile, Function.update_self, ok_bind, ukAssert_pos, Nat.zero_lt_succ]
  exact ⟨_, rfl, by simp [cnt]⟩

/-- All numbers are reserved. -/
def fullTable : FdTable := { emptyTable with bitmap := Vector.replicate fdtableMaxFiles true }

theorem full_table_leaks : fullTable.Law ∧ fullTable.cnt 0 = none ∧
    ∃ t', openPath fullTable (.ok 1) = .ok (.fail (-Errno.enfile.code), t') ∧
      t'.cnt 0 = some 1 := by
  have hlaw : fullTable.Law := by
    constructor <;> simp [fullTable, emptyTable]
  have hfind : ukFindNextZeroBit fullTable.bitmap = none := by
    unfold ukFindNextZeroBit
    simp [fullTable]
  exact ⟨hlaw, rfl, openPath_full hfind 1⟩

end Unikraft.Vfscore
