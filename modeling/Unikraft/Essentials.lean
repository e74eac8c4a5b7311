import Unikraft.Basic

/-!
# Unikraft.Essentials

The rounding macros of `uk/essentials.h` and `uk/page.h` on `unsigned long`.

`ALIGN_UP` and `ALIGN_DOWN` are bit masks in the source; the lemmas give their
arithmetic for a power of two, the only alignment they are used with.
-/

namespace Unikraft

/-- `~a` on an `unsigned long`. -/
def notU64 (a : Nat) : Nat := 2 ^ 64 - 1 - a

/-- `ALIGN_DOWN(v, a)`. -/
def alignDown (v a : Nat) : Nat := v &&& notU64 (a - 1)

/-- `ALIGN_UP(v, a)`. -/
def alignUp (v a : Nat) : Nat := addU64 v (a - 1) &&& notU64 (a - 1)

/-- `DIV_ROUND_UP(v, d)`. -/
def divRoundUp (v d : Nat) : Nat := addU64 v (d - 1) / d

/-- `round_pgup(a)`. -/
def roundPgup (a : Nat) : Nat := alignUp a pageSize

/-- `round_pgdown(a)`. -/
def roundPgdown (a : Nat) : Nat := alignDown a pageSize

variable {v k : Nat}

theorem alignDown_two_pow (hk : k ≤ 64) (hv : v < 2 ^ 64) :
    alignDown v (2 ^ k) = v / 2 ^ k * 2 ^ k := by
  have hpos : 0 < 2 ^ k := Nat.two_pow_pos k
  have hle : 2 ^ k ≤ 2 ^ 64 := Nat.pow_le_pow_right (by norm_num) hk
  have hnot : notU64 (2 ^ k - 1) = 2 ^ 64 - (2 ^ k - 1 + 1) := by
    unfold notU64
    omega
  rw [alignDown, hnot]
  apply Nat.eq_of_testBit_eq
  intro i
  rw [Nat.testBit_and, Nat.testBit_two_pow_sub_succ (by omega), Nat.testBit_two_pow_sub_one,
    Nat.testBit_mul_two_pow, Nat.testBit_div_two_pow]
  by_cases hi : k ≤ i
  · by_cases h64 : i < 64
    · simp [hi, h64, Nat.not_lt.mpr hi]
    have hbit : v.testBit i = false :=
      Nat.testBit_lt_two_pow (hv.trans_le (Nat.pow_le_pow_right (by norm_num) (by omega)))
    simp [hbit, hi]
  · simp [hi, Nat.lt_of_not_le hi]

theorem alignUp_two_pow (hk : k ≤ 64) (hfit : v + (2 ^ k - 1) < 2 ^ 64) :
    alignUp v (2 ^ k) = (v + (2 ^ k - 1)) / 2 ^ k * 2 ^ k := by
  rw [← alignDown_two_pow hk hfit, alignUp, addU64_eq hfit, alignDown]

theorem alignUp_bounds (hk : k ≤ 64) (hfit : v + (2 ^ k - 1) < 2 ^ 64) :
    2 ^ k ∣ alignUp v (2 ^ k) ∧ v ≤ alignUp v (2 ^ k) ∧ alignUp v (2 ^ k) ≤ v + (2 ^ k - 1) := by
  rw [alignUp_two_pow hk hfit]
  have hmod := Nat.lt_div_mul_add (a := v + (2 ^ k - 1)) (Nat.two_pow_pos k)
  exact ⟨Nat.dvd_mul_left _ _, by omega, Nat.div_mul_le_self _ _⟩

theorem roundPgdown_eq (hv : v < 2 ^ 64) : roundPgdown v = v / 4096 * 4096 :=
  alignDown_two_pow (k := 12) (by omega) hv

theorem roundPgup_eq (hfit : v + 4095 < 2 ^ 64) : roundPgup v = (v + 4095) / 4096 * 4096 :=
  alignUp_two_pow (k := 12) (by omega) hfit

theorem roundPgdown_dvd (hv : v < 2 ^ 64) : pageSize ∣ roundPgdown v := by
  rw [roundPgdown_eq hv]
  exact Dvd.intro_left _ rfl

theorem roundPgdown_lt (hv : v < 2 ^ 64) : roundPgdown v < 2 ^ 64 := by
  rw [roundPgdown_eq hv]
  omega

theorem roundPgup_dvd (v : Nat) : pageSize ∣ roundPgup v :=
  roundPgdown_dvd (addU64_lt v (pageSize - 1))

/-! ### Ranges -/

/-- `IN_RANGE(val, base, len)`. -/
def InRange (val base len : Nat) : Prop := base ≤ val ∧ val < addU64 base len
  deriving Decidable

/-- `RANGE_OVERLAP(base0, len0, base1, len1)`. -/
def RangeOverlap (base0 len0 base1 len1 : Nat) : Prop :=
  InRange base1 base0 len0 ∨ InRange (addU64 base1 len1) base0 len0 ∨
    (base1 ≤ base0 ∧ addU64 base0 len0 ≤ addU64 base1 len1)
  deriving Decidable

end Unikraft
