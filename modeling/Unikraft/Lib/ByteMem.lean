import Mathlib.Tactic.Ring

/-!
# Byte-addressed memory

Numbers are stored in little-endian order (`storeLE`, `loadLE`), blocks are copied (`copyBytes`),
set (`fillBytes`) and stored (`storeBytes`). A load returns the number stored last, and an operation
on one range is not seen by another one.
-/

namespace Unikraft.Lib

/-- A byte-addressed memory. -/
abbrev ByteMem := Nat → UInt8

variable {m m' : ByteMem} {a v n x : Nat}

/-- Two memories agree on the `n` bytes from `a` on. -/
def AgreeOn (m m' : ByteMem) (a n : Nat) : Prop := ∀ x, a ≤ x → x < a + n → m x = m' x

theorem AgreeOn.mono {b k : Nat} (h : AgreeOn m m' a n) (hb : a ≤ b) (hk : b + k ≤ a + n) :
    AgreeOn m m' b k :=
  fun x h1 h2 => h x (hb.trans h1) (Nat.lt_of_lt_of_le h2 hk)

/-! ### Numbers -/

/-- Store the `n` low bytes of `v` at `a`. -/
def storeLE (m : ByteMem) (a v : Nat) : Nat → ByteMem
  | 0 => m
  | n + 1 => fun x => if x = a then UInt8.ofNat v else storeLE m (a + 1) (v / 256) n x

/-- Load an `n`-byte number from `a`. -/
def loadLE (m : ByteMem) (a : Nat) : Nat → Nat
  | 0 => 0
  | n + 1 => (m a).toNat + 256 * loadLE m (a + 1) n

theorem storeLE_succ :
    storeLE m a v (n + 1) x =
      if x = a then UInt8.ofNat v else storeLE m (a + 1) (v / 256) n x := rfl

theorem storeLE_of_outside (h : x < a ∨ a + n ≤ x) : storeLE m a v n x = m x := by
  induction n generalizing a v with
  | zero => rfl
  | succ n ih =>
    rw [storeLE_succ, if_neg (by omega)]
    exact ih (by omega)

theorem storeLE_of_inside (h : a ≤ x ∧ x < a + n) : storeLE m a v n x = storeLE m' a v n x := by
  induction n generalizing a v with
  | zero => omega
  | succ n ih =>
    rw [storeLE_succ, storeLE_succ]
    split
    · rfl
    · exact ih (by omega)

theorem agreeOn_storeLE {b k : Nat} (h : a + n ≤ b ∨ b + k ≤ a) : AgreeOn (storeLE m a v n) m b k :=
  fun _ h1 h2 => storeLE_of_outside (by omega)

theorem loadLE_congr (h : AgreeOn m m' a n) : loadLE m a n = loadLE m' a n := by
  induction n generalizing a with
  | zero => rfl
  | succ n ih =>
    rw [loadLE, loadLE, h a le_rfl (by omega), ih (h.mono (by omega) (by omega))]

theorem loadLE_lt (m : ByteMem) (a n : Nat) : loadLE m a n < 256 ^ n := by
  induction n generalizing a with
  | zero => exact Nat.one_pos
  | succ n ih =>
    have hbyte := (m a).toNat_lt
    have hrest := ih (a + 1)
    rw [loadLE, pow_succ]
    omega

theorem loadLE_storeLE (h : v < 256 ^ n) : loadLE (storeLE m a v n) a n = v := by
  induction n generalizing a v with
  | zero =>
    rw [pow_zero] at h
    exact (Nat.lt_one_iff.mp h).symm
  | succ n ih =>
    have hv : v / 256 < 256 ^ n := by
      rw [Nat.div_lt_iff_lt_mul (by norm_num), ← pow_succ]
      exact h
    have htail : loadLE (storeLE m a v (n + 1)) (a + 1) n =
        loadLE (storeLE m (a + 1) (v / 256) n) (a + 1) n :=
      loadLE_congr fun x h1 _ => if_neg (by omega)
    rw [loadLE, htail, ih hv, storeLE_succ, if_pos rfl, UInt8.toNat_ofNat', Nat.mod_add_div]

/-! ### Blocks -/

/-- Copy the `n` bytes at `src` to `dst` (`memcpy`). -/
def copyBytes (m : ByteMem) (dst src n : Nat) : ByteMem :=
  fun x => if dst ≤ x ∧ x < dst + n then m (src + (x - dst)) else m x

theorem agreeOn_copyBytes {dst src b k : Nat} (h : dst + n ≤ b ∨ b + k ≤ dst) :
    AgreeOn (copyBytes m dst src n) m b k :=
  fun _ h1 h2 => if_neg (by omega)

/-- Set the `n` bytes at `dst` to `v` (`memset`). -/
def fillBytes (m : ByteMem) (dst : Nat) (v : UInt8) (n : Nat) : ByteMem :=
  fun x => if dst ≤ x ∧ x < dst + n then v else m x

variable {k : Nat} {b : UInt8} {bytes : List UInt8}

/-- Store `bytes` at `a`. -/
def storeBytes (m : ByteMem) (a : Nat) (bytes : List UInt8) : ByteMem :=
  fun x => if a ≤ x then bytes.getD (x - a) (m x) else m x

theorem storeBytes_inside (h : bytes[k]? = some b) : storeBytes m a bytes (a + k) = b := by
  rw [storeBytes, if_pos (Nat.le_add_right a k), Nat.add_sub_cancel_left,
    List.getD_eq_getElem?_getD, h]
  rfl

theorem storeBytes_outside (h : x < a ∨ a + bytes.length ≤ x) : storeBytes m a bytes x = m x := by
  rw [storeBytes]
  split_ifs with hle
  · rw [List.getD_eq_getElem?_getD, List.getElem?_eq_none (by omega)]
    rfl
  · rfl

theorem storeBytes_nil (m : ByteMem) (a : Nat) : storeBytes m a [] = m :=
  funext fun x => storeBytes_outside (by simp only [List.length_nil]; omega)

/-- Store `bytes` in some ranges, each with its address and its length, in order. -/
def scatter : ByteMem → List (Nat × Nat) → List UInt8 → ByteMem
  | m, [], _ => m
  | m, (a, n) :: ranges, bytes => scatter (storeBytes m a (bytes.take n)) ranges (bytes.drop n)

end Unikraft.Lib
