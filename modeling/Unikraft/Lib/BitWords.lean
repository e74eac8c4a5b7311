import Mathlib.Data.Nat.Bitwise

/-!
# Bit arrays in 64-bit words

Bit `p` of an array of words is bit `p % 64` of word `p / 64`. The masks a range update is made of
are `2 ^ k - 1`, the bits below `k`, and `-2 ^ k`, the bits from `k` on.
-/

namespace Unikraft.Lib

/-- Bit `p` of the words `bm`. -/
def bitAt (bm : Nat → BitVec 64) (p : Nat) : Bool := (bm (p / 64)).getLsbD (p % 64)

variable {bm : Nat → BitVec 64} {k i p : Nat}

theorem getLsbD_lowMask (hk : k < 64) : ((1#64 <<< k) - 1#64).getLsbD i = decide (i < k) := by
  have hlt : 2 ^ k < 2 ^ 64 := Nat.pow_lt_pow_right (by decide) hk
  have hpos := Nat.two_pow_pos k
  have hval : ((1#64 <<< k) - 1#64).toNat = 2 ^ k - 1 := by
    rw [← BitVec.twoPow_eq, BitVec.toNat_sub, BitVec.toNat_twoPow_of_lt hk, BitVec.toNat_ofNat]
    omega
  rw [BitVec.getLsbD, hval, Nat.testBit_two_pow_sub_one]

theorem getLsbD_highMask (hk : k < 64) (hi : i < 64) :
    (-(1#64 <<< k)).getLsbD i = decide (k ≤ i) := by
  have hnot : -(1#64 <<< k) = ~~~((1#64 <<< k) - 1#64) := by
    rw [← BitVec.not_neg, BitVec.not_not]
  rw [hnot, BitVec.getLsbD_not, getLsbD_lowMask hk, decide_eq_true hi, Bool.true_and,
    ← decide_not, decide_eq_decide]
  exact Nat.not_lt

/-- Store `v` in the `count` words from `idx` on. -/
def fillWords (v : BitVec 64) : Nat → Nat → (Nat → BitVec 64) → Nat → BitVec 64
  | _, 0, bm => bm
  | idx, count + 1, bm => fillWords v (idx + 1) count (Function.update bm idx v)

theorem fillWords_apply {v : BitVec 64} {idx count w : Nat} :
    fillWords v idx count bm w = if idx ≤ w ∧ w < idx + count then v else bm w := by
  induction count generalizing idx bm with
  | zero => rw [fillWords, if_neg (by omega)]
  | succ count ih =>
    rw [fillWords, ih]
    by_cases hw : w = idx
    · subst hw
      rw [if_neg (by omega), if_pos (by omega), Function.update_self]
    rw [Function.update_of_ne hw]
    congr 1
    exact propext (by omega)

end Unikraft.Lib
