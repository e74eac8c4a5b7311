import Unikraft.Lib.Ring

/-!
# Files as sequences

Setting the size cuts a file or extends it with `zero` (`resize`), a write past the end fills the
gap (`overwrite`), a read returns what there is (`readAt`).
-/

namespace Unikraft.Lib

open List

variable {α : Type*} {zero : α} {f bs : List α} {off n i : Nat}

/-- Cut or extend to `n` elements. -/
def resize (zero : α) (f : List α) (n : Nat) : List α :=
  f.take n ++ List.replicate (n - f.length) zero

/-- Write `bs` at `off`; writing nothing does not extend the file. -/
def overwrite (zero : α) (f : List α) (off : Nat) (bs : List α) : List α :=
  if bs.isEmpty then f else splice (resize zero f (max f.length (off + bs.length))) off bs

/-- Read up to `n` elements from `off` on. -/
def readAt (f : List α) (off n : Nat) : List α := (f.drop off).take n

@[simp] theorem length_resize : (resize zero f n).length = n := by
  simp only [resize, length_append, length_take, length_replicate]
  omega

theorem getElem?_resize :
    (resize zero f n)[i]? = if i < n then if i < f.length then f[i]? else some zero else none := by
  rcases Nat.lt_or_ge i n with hn | hn
  · rw [if_pos hn, resize]
    rcases Nat.lt_or_ge i f.length with hc | hc
    · rw [if_pos hc, getElem?_append_left (by rw [length_take]; omega), getElem?_take_of_lt hn]
    rw [if_neg (by omega), getElem?_append_right (by rw [length_take]; omega),
      getElem?_replicate, if_pos (by rw [length_take]; omega)]
  · rw [if_neg (by omega), getElem?_eq_none (by rw [length_resize]; exact hn)]

theorem overwrite_eq (h : bs ≠ []) :
    overwrite zero f off bs = splice (resize zero f (max f.length (off + bs.length))) off bs :=
  if_neg (by simpa using h)

theorem length_overwrite (h : bs ≠ []) :
    (overwrite zero f off bs).length = max f.length (off + bs.length) := by
  rw [overwrite_eq h, length_splice (by rw [length_resize]; omega), length_resize]

/-- An element of a written file: new in the written range, old elsewhere, and zero
in a gap. -/
theorem getElem?_overwrite (h : bs ≠ []) :
    (overwrite zero f off bs)[i]? = if off ≤ i ∧ i < off + bs.length then bs[i - off]?
      else if i < f.length then f[i]? else if i < off then some zero else none := by
  have hpos := length_pos_iff.mpr h
  rw [overwrite_eq h, getElem?_splice (by rw [length_resize]; omega), getElem?_resize]
  split
  · rfl
  rename_i hrange
  by_cases hc : i < f.length
  · simp only [hc, if_true]
    rw [if_pos (by omega)]
  by_cases hoff : i < off
  · simp only [hc, hoff, if_true, if_false]
    rw [if_pos (by omega)]
  simp only [hc, hoff, if_false]
  rw [if_neg (by omega)]

/-! ### A file in a larger buffer -/

variable {b : List α}

theorem prefix_of_getElem? (h : ∀ i < f.length, b[i]? = f[i]?) : f <+: b := by
  rw [prefix_iff_getElem?]
  intro i hi
  rw [h i hi, getElem?_eq_getElem hi]

theorem getElem?_of_prefix (h : f <+: b) (hi : i < f.length) : b[i]? = f[i]? := by
  rw [prefix_iff_getElem?.mp h i hi, getElem?_eq_getElem hi]

/-- The size may be set to anything up to the size of the buffer, as long as the
buffer has zeros where the file grows. -/
theorem resize_prefix (h : f <+: b)
    (hzero : ∀ i < n, f.length ≤ i → b[i]? = some zero) : resize zero f n <+: b := by
  refine prefix_of_getElem? fun i hi => ?_
  rw [length_resize] at hi
  rw [getElem?_resize, if_pos hi]
  split
  · rename_i hc
    exact getElem?_of_prefix h hc
  rename_i hc
  exact hzero i hi (Nat.not_lt.mp hc)

/-- A write inside of the buffer writes the file, as long as the buffer has zeros in
the gap that it leaves. -/
theorem overwrite_prefix (h : f <+: b) (hne : bs ≠ []) (hfit : off + bs.length ≤ b.length)
    (hzero : ∀ i < off, f.length ≤ i → b[i]? = some zero) :
    overwrite zero f off bs <+: splice b off bs := by
  refine prefix_of_getElem? fun i hi => ?_
  rw [length_overwrite hne] at hi
  rw [getElem?_splice hfit, getElem?_overwrite hne]
  split
  · rfl
  rename_i hrange
  split
  · rename_i hc
    exact getElem?_of_prefix h hc
  rename_i hc
  have hoff : i < off := by omega
  rw [if_pos hoff]
  exact hzero i hoff (Nat.not_lt.mp hc)

end Unikraft.Lib
