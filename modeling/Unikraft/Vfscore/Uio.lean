import Unikraft.Basic

/-!
# Unikraft.Vfscore.Uio

Scatter/gather transfers: the loop of `vfscore_uioforeach` (`vfscore/uio.h`) with `memcpy`, and
`vfscore_uiomove`.

An iovec is the memory it describes; advancing `iov_base` and decreasing `iov_len` drops its first
bytes. A read is described by the bytes it stores in the iovecs.
-/

namespace Unikraft.Vfscore

open List

inductive UioRw
  | read
  | write
  deriving DecidableEq

structure Uio where
  iov : List (List UInt8)
  offset : Int
  resid : Nat
  rw : UioRw

/-- What a transfer leaves behind. -/
structure Moved where
  /-- The linear buffer, from `cp` on. -/
  cp : List UInt8
  /-- The bytes stored in the iovecs, in order. -/
  out : List UInt8
  /-- The iovecs that are left, and `uio_resid`. -/
  iov : List (List UInt8)
  resid : Nat

/-- One `memcpy` of `cnt` bytes between `cp` and the first iovec, put before what the
rest of the loop does. -/
def Moved.after (rw : UioRw) (cp iov : List UInt8) (cnt : Nat) (m : Moved) : Moved :=
  match rw with
  | .read => { m with cp := cp.take cnt ++ m.cp, out := cp.take cnt ++ m.out }
  | .write => { m with cp := iov.take cnt ++ m.cp }

/-- The loop of `vfscore_uioforeach`. An empty iovec is skipped; when the list ends
too early, the loop reads beyond it. -/
def uioforeach (rw : UioRw) : List (List UInt8) → Nat → List UInt8 → Nat → Outcome Moved
  | [], resid, cp, n =>
    if n = 0 ∨ resid = 0 then .ok ⟨cp, [], [], resid⟩ else .error .outOfBounds
  | iov :: rest, resid, cp, n =>
    if n = 0 ∨ resid = 0 then .ok ⟨cp, [], iov :: rest, resid⟩
    else
      let cnt := min iov.length n
      if cp.length < cnt then .error .outOfBounds
      else if cnt < iov.length then
        -- `n` is used up, the iovec is not
        .ok (.after rw cp iov cnt ⟨cp.drop cnt, [], iov.drop cnt :: rest, resid - cnt⟩)
      else do
        let m ← uioforeach rw rest (resid - cnt) (cp.drop cnt) (n - cnt)
        .ok (m.after rw cp iov cnt)

/-- `vfscore_uiomove`: the length is passed as an `int`. -/
def vfscoreUiomove (cp : List UInt8) (n : Nat) (uio : Uio) : Outcome (Moved × Uio) := do
  let m ← uioforeach uio.rw uio.iov uio.resid cp (toSize (toInt n))
  .ok (m, { uio with
    iov := m.iov, resid := m.resid, offset := uio.offset + ((uio.resid : Int) - m.resid) })

variable {iov : List (List UInt8)} {resid n : Nat} {cp : List UInt8} {uio : Uio}

/-- **The loop moves `min(n, uio_resid)` bytes**, in order. -/
theorem uioforeach_spec (rw : UioRw) (cp : List UInt8) (n : Nat) (hiov : iov.flatten.length = resid)
    (hcp : min n resid ≤ cp.length) :
    ∃ iov', uioforeach rw iov resid cp n = .ok {
        cp := match rw with
          | .read => cp
          | .write => iov.flatten.take (min n resid) ++ cp.drop (min n resid)
        out := match rw with
          | .read => cp.take (min n resid)
          | .write => []
        iov := iov'
        resid := resid - min n resid } ∧
      iov'.flatten = iov.flatten.drop (min n resid) := by
  induction iov generalizing resid cp n with
  | nil =>
    obtain rfl : resid = 0 := by simpa using hiov.symm
    refine ⟨[], ?_, by simp⟩
    cases rw <;> simp [uioforeach]
  | cons head rest ih =>
    rw [flatten_cons, length_append] at hiov
    by_cases hstop : n = 0 ∨ resid = 0
    · have hm : min n resid = 0 := by omega
      refine ⟨head :: rest, ?_, by simp [hm]⟩
      rw [uioforeach, if_pos hstop, hm]
      cases rw <;> simp
    have hlen : ¬ cp.length < min head.length n := by omega
    by_cases hcut : min head.length n < head.length
    · -- the length ends inside of this iovec
      have hcnt : min head.length n = n := by omega
      have hm : min n resid = n := by omega
      rw [hcnt] at hlen hcut
      refine ⟨head.drop n :: rest, ?_, ?_⟩
      · simp only [uioforeach, if_neg hstop, hcnt, if_neg hlen, if_pos hcut, hm]
        cases rw <;> simp [Moved.after, take_append_of_le_length hcut.le]
      · rw [hm, flatten_cons, flatten_cons, drop_append_of_le_length hcut.le]
    have hcnt : min head.length n = head.length := by omega
    have hm : min n resid = head.length + min (n - head.length) (resid - head.length) := by
      omega
    rw [hcnt] at hlen hcut
    obtain ⟨iov', hrest, hflat⟩ := ih (cp.drop head.length) (n - head.length)
      (show _ = resid - head.length by omega) (by rw [length_drop]; omega)
    refine ⟨iov', ?_, ?_⟩
    · simp only [uioforeach, if_neg hstop, hcnt, if_neg hlen, if_neg hcut, hrest,
        Outcome.ok_bind, hm, Nat.sub_add_eq]
      cases rw with
      | read => simp [Moved.after, take_add]
      | write => simp [Moved.after, take_length_add_append]
    · rw [hm, hflat, flatten_cons, drop_length_add_append]

/-- **A transfer moves `min(n, uio_resid)` bytes** and leaves the iovecs of the others, for every
list of iovecs and every length that is an `int`. -/
theorem vfscore_uiomove_moves (hiov : (uio.iov.map length).sum = uio.resid) (hn : n < 2 ^ 31)
    (hcp : min n uio.resid ≤ cp.length) :
    ∃ m uio', vfscoreUiomove cp n uio = .ok (m, uio') ∧
      (match uio.rw with
        | .read => m.cp = cp ∧ m.out = cp.take (min n uio.resid)
        | .write => m.cp = uio.iov.flatten.take (min n uio.resid) ++ cp.drop (min n uio.resid) ∧
          m.out = []) ∧
      uio'.iov.flatten = uio.iov.flatten.drop (min n uio.resid) ∧
      uio'.resid = uio.resid - min n uio.resid ∧
      uio'.offset = uio.offset + (min n uio.resid : Nat) := by
  obtain ⟨iov', hloop, hflat⟩ :=
    uioforeach_spec uio.rw cp n (length_flatten.trans hiov) hcp
  rw [vfscoreUiomove, toSize_toInt hn, hloop, Outcome.ok_bind]
  refine ⟨_, _, rfl, ?_, hflat, rfl, ?_⟩
  · cases uio.rw <;> exact ⟨rfl, rfl⟩
  · simp only
    omega

/-- Empty iovecs before, between and behind the data, and a length that ends in the second one. -/
theorem vfscore_uiomove_moves_three :
    ∃ m uio', vfscoreUiomove [1, 2, 3] 3 ⟨[[], [7, 8], [], [9, 10], []], 5, 4, .read⟩ =
        .ok (m, uio') ∧
      (m.cp = [1, 2, 3] ∧ m.out = [1, 2, 3]) ∧ uio'.iov.flatten = [10] ∧ uio'.resid = 1 ∧
      uio'.offset = 8 :=
  vfscore_uiomove_moves rfl (by decide) (by decide)

end Unikraft.Vfscore
