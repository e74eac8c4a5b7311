import Mathlib.Data.List.Basic
import Mathlib.Order.Monotone.Basic

/-!
# Unikraft.Lib.Blocks

**An interval cut into blocks of one size**, at the multiples of `size`; the first and the last
block may be parts of one. Going through the blocks is going through the interval
(`flatMap_blockRange`).
-/

namespace Unikraft.Lib

open List

theorem flatMap_range'_cuts {c : Nat → Nat} (hmono : Monotone c) (m : Nat) :
    (range m).flatMap (fun k => range' (c k) (c (k + 1) - c k)) = range' (c 0) (c m - c 0) := by
  induction m with
  | zero => simp
  | succ m ih =>
    have hle : c 0 ≤ c m := hmono (Nat.zero_le m)
    have hnext : c m ≤ c (m + 1) := hmono (Nat.le_succ m)
    have hcat := range'_append_1 (s := c 0) (m := c m - c 0) (n := c (m + 1) - c m)
    rw [Nat.add_sub_cancel' hle] at hcat
    rw [range_succ, flatMap_append, ih, flatMap_singleton, hcat]
    congr 1
    omega

variable {size first n : Nat}

/-- The number of blocks that hold the `n` positions from `first` on. -/
def blockCount (size first n : Nat) : Nat := (first + n - 1) / size + 1

/-- The positions in block `k`, counted from its start. -/
def blockRange (size first n k : Nat) : List Nat :=
  let lo := if k = 0 then first else 0
  let hi := if k + 1 = blockCount size first n then (first + n - 1) % size else size - 1
  range' lo (hi + 1 - lo)

/-- Where block `k` starts. -/
def blockCut (size first n k : Nat) : Nat := if k = 0 then first else min (k * size) (first + n)

theorem blockCut_monotone (hfirst : first < size) : Monotone (blockCut size first n) := by
  refine monotone_nat_of_le_succ fun k => ?_
  have hnext : (k + 1) * size = k * size + size := Nat.succ_mul k size
  unfold blockCut
  rw [if_neg (Nat.succ_ne_zero k), hnext]
  split
  · omega
  · omega

theorem blockCut_blockCount (hpos : 0 < size) :
    blockCut size first n (blockCount size first n) = first + n := by
  have hlt : first + n - 1 < blockCount size first n * size := by
    rw [blockCount, Nat.mul_comm]
    exact Nat.lt_mul_div_succ _ hpos
  have hne : blockCount size first n ≠ 0 := Nat.succ_ne_zero _
  rw [blockCut, if_neg hne]
  omega

/-- A block is the piece between two cuts. -/
theorem map_blockRange (hfirst : first < size) (hn : 0 < n) {k : Nat}
    (hk : k < blockCount size first n) :
    (blockRange size first n k).map (k * size + ·) = range' (blockCut size first n k)
        (blockCut size first n (k + 1) - blockCut size first n k) := by
  have hpos : 0 < size := by omega
  have hnext : (k + 1) * size = k * size + size := Nat.succ_mul k size
  have hmod := Nat.div_add_mod (first + n - 1) size
  have hlt := Nat.mod_lt (first + n - 1) hpos
  have hle : k ≤ (first + n - 1) / size := Nat.le_of_lt_succ hk
  have hstart : k * size ≤ first + n - 1 := (Nat.le_div_iff_mul_le hpos).mp hle
  rw [blockRange, map_add_range', blockCut, blockCut, if_neg (Nat.succ_ne_zero k), hnext]
  by_cases hlast : k + 1 = blockCount size first n
  · have hk' : (first + n - 1) / size = k := (Nat.succ.inj hlast).symm
    rw [hk', Nat.mul_comm] at hmod
    rw [if_pos hlast]
    split
    · rename_i hzero
      subst hzero
      congr 1 <;> omega
    · congr 1 <;> omega
  have hmore : k + 1 ≤ (first + n - 1) / size := by
    rw [blockCount] at hlast hk
    omega
  have hend : (k + 1) * size ≤ first + n - 1 := (Nat.le_div_iff_mul_le hpos).mp hmore
  rw [if_neg hlast]
  split
  · rename_i hzero
    subst hzero
    congr 1 <;> omega
  · congr 1 <;> omega

/-- **Going through the blocks is going through the interval.** -/
theorem flatMap_blockRange (hfirst : first < size) (hn : 0 < n) :
    (range (blockCount size first n)).flatMap
        (fun k => (blockRange size first n k).map (k * size + ·)) = range' first n := by
  have hcuts := flatMap_range'_cuts (blockCut_monotone (n := n) hfirst) (blockCount size first n)
  rw [blockCut_blockCount (by omega), blockCut, if_pos rfl, Nat.add_sub_cancel_left] at hcuts
  rw [← hcuts]
  exact flatMap_congr fun k hk => map_blockRange hfirst hn (mem_range.mp hk)

end Unikraft.Lib
