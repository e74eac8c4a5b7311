import Mathlib.Data.List.Basic
import Mathlib.Data.Nat.ModEq

/-!
# Circular arrays with free-running positions

A position `s` is never reset and denotes the slot `s % d.length`. `Holds d s bs` says that the
slots from `s` on hold `bs`. It splits at any point (`holds_append`), depends on the position modulo
the length (`Holds.congr_mod`), is what `ringRead` returns and is extended by `ringWrite`.
-/

namespace Unikraft.Lib

open List Nat

variable {α : Type*} {d bs q xs ys : List α} {s t n off : Nat}

/-! ### Overwriting a block of an array -/

/-- Overwrite the elements of `d` from `off` on with `bs`. -/
def splice (d : List α) (off : Nat) (bs : List α) : List α :=
  d.take off ++ bs ++ d.drop (off + bs.length)

section

variable (h : off + bs.length ≤ d.length)

include h

theorem length_splice : (splice d off bs).length = d.length := by
  simp only [splice, length_append, length_take, length_drop]
  omega

theorem getElem?_splice (i : Nat) :
    (splice d off bs)[i]? = if off ≤ i ∧ i < off + bs.length then bs[i - off]? else d[i]? := by
  have htake : (d.take off).length = off := by rw [length_take]; omega
  unfold splice
  by_cases h1 : i < off
  · rw [if_neg (by omega), append_assoc, getElem?_append_left (by omega), getElem?_take_of_lt h1]
  by_cases h2 : i < off + bs.length
  · rw [if_pos ⟨by omega, h2⟩, getElem?_append_left (by rw [length_append]; omega),
      getElem?_append_right (by omega), htake]
  rw [if_neg (by omega), getElem?_append_right (by rw [length_append]; omega),
    length_append, htake, getElem?_drop]
  congr 1
  omega

theorem take_drop_splice : ((splice d off bs).drop off).take bs.length = bs := by
  have htake : (d.take off).length = off := by rw [length_take]; omega
  rw [splice, append_assoc, drop_left' htake, take_left' rfl]

end

theorem splice_append (h : off + xs.length + ys.length ≤ d.length) :
    splice (splice d off xs) (off + xs.length) ys = splice d off (xs ++ ys) := by
  have htake : (d.take off ++ xs).length = off + xs.length := by
    rw [length_append, length_take]
    omega
  rw [splice, splice, splice, take_left' htake, drop_append, htake,
    drop_eq_nil_of_le (by omega), nil_append, drop_drop, length_append]
  simp only [append_assoc]
  congr 4
  omega

/-! ### What a ring holds -/

/-- Read circularly from position `s` on, the ring `d` holds `bs`. -/
def Holds (d : List α) (s : Nat) (bs : List α) : Prop :=
  ∀ j < bs.length, d[(s + j) % d.length]? = bs[j]?

theorem Holds.nil : Holds d s [] := fun _ h => absurd h (not_lt_zero _)

theorem holds_append : Holds d s (xs ++ ys) ↔ Holds d s xs ∧ Holds d (s + xs.length) ys := by
  constructor
  · intro h
    refine ⟨fun j hj => ?_, fun j hj => ?_⟩
    · rw [h j (by rw [length_append]; omega), getElem?_append_left hj]
    have := h (xs.length + j) (by rw [length_append]; omega)
    rw [getElem?_append_right (by omega), Nat.add_sub_cancel_left] at this
    rw [Nat.add_assoc, this]
  rintro ⟨hx, hy⟩ j hj
  rw [length_append] at hj
  by_cases h : j < xs.length
  · rw [hx j h, getElem?_append_left h]
  have := hy (j - xs.length) (by omega)
  rw [getElem?_append_right (by omega), ← this]
  congr 2
  omega

theorem Holds.congr_mod (h : Holds d s bs) (hst : t % d.length = s % d.length) : Holds d t bs := by
  intro j hj
  rw [← h j hj]
  congr 1
  exact Nat.ModEq.add_right j hst

theorem add_mod_slot {L j : Nat} (hj : j < L) :
    (s + j) % L = if s % L + j < L then s % L + j else s % L + j - L := by
  have hs : s % L < L := mod_lt _ (by omega)
  rw [add_mod, mod_eq_of_lt hj]
  split
  · rename_i h
    exact mod_eq_of_lt h
  · rw [mod_eq_sub_mod (by omega), mod_eq_of_lt (by omega)]

/-! ### Moving a block out of a ring -/

/-- Read `n` elements from position `s` on, in one piece or in two. -/
def ringRead (d : List α) (s n : Nat) : List α :=
  if s % d.length + n ≤ d.length then (d.drop (s % d.length)).take n
  else d.drop (s % d.length) ++ d.take (s % d.length + n - d.length)

theorem Holds.ringRead (h : Holds d s bs) (hlen : bs.length ≤ d.length) :
    ringRead d s bs.length = bs := by
  apply ext_getElem?
  intro j
  unfold Lib.ringRead
  split
  · rename_i hfit
    by_cases hj : j < bs.length
    · rw [← h j hj, add_mod_slot (by omega), getElem?_take_of_lt hj, getElem?_drop,
        if_pos (by omega)]
    · rw [getElem?_eq_none (by rw [length_take]; omega), getElem?_eq_none (by omega)]
  rename_i hwrap
  have hdrop : (d.drop (s % d.length)).length = d.length - s % d.length := length_drop
  have hs : 0 < d.length → s % d.length < d.length := mod_lt s
  by_cases hj : j < bs.length
  · rw [← h j hj, add_mod_slot (by omega)]
    by_cases hp : s % d.length + j < d.length
    · rw [if_pos hp, getElem?_append_left (by omega), getElem?_drop]
    rw [if_neg hp, getElem?_append_right (by omega), getElem?_take_of_lt (by omega), hdrop]
    congr 1
    omega
  · rw [getElem?_eq_none (by rw [length_append, length_take]; omega), getElem?_eq_none (by omega)]

/-! ### Moving a block into a ring -/

/-- Write `bs` from position `t` on, in one piece or in two. -/
def ringWrite (d : List α) (t : Nat) (bs : List α) : List α :=
  if t % d.length + bs.length ≤ d.length then splice d (t % d.length) bs
  else
    splice (splice d (t % d.length) (bs.take (d.length - t % d.length))) 0
      (bs.drop (d.length - t % d.length))

theorem length_ringWrite (hd : 0 < d.length) (h : bs.length ≤ d.length) :
    (ringWrite d t bs).length = d.length := by
  have ht : t % d.length < d.length := mod_lt _ hd
  unfold ringWrite
  split
  · exact length_splice (by assumption)
  have h1 : (splice d (t % d.length) (bs.take (d.length - t % d.length))).length = d.length :=
    length_splice (by rw [length_take]; omega)
  rw [length_splice (by rw [h1, length_drop]; omega), h1]

/-- A ring write replaces exactly the `bs.length` slots from position `t` on. -/
theorem getElem?_ringWrite (h : bs.length ≤ d.length) {j : Nat} (hj : j < d.length) :
    (ringWrite d t bs)[(t + j) % d.length]? =
      if j < bs.length then bs[j]? else d[(t + j) % d.length]? := by
  have ht : t % d.length < d.length := mod_lt _ (by omega)
  rw [add_mod_slot hj]
  unfold ringWrite
  split
  · rename_i hfit
    rw [getElem?_splice hfit]
    by_cases hp : t % d.length + j < d.length
    · simp only [if_pos hp, Nat.add_sub_cancel_left, Nat.le_add_right, true_and,
        Nat.add_lt_add_iff_left]
    · rw [if_neg hp, if_neg (by omega), if_neg (by omega)]
  rename_i hwrap
  have hk : (bs.take (d.length - t % d.length)).length = d.length - t % d.length := by
    rw [length_take]; omega
  have h1 : (splice d (t % d.length) (bs.take (d.length - t % d.length))).length = d.length :=
    length_splice (by omega)
  rw [getElem?_splice (by rw [h1, length_drop]; omega), getElem?_splice (by omega)]
  simp only [length_drop, hk]
  by_cases hp : t % d.length + j < d.length
  · rw [if_pos hp, if_neg (by omega), if_pos (by omega), if_pos (by omega),
      getElem?_take_of_lt (by omega)]
    congr 1
    omega
  rw [if_neg hp]
  by_cases hjb : j < bs.length
  · rw [if_pos (by omega), if_pos hjb, getElem?_drop]
    congr 1
    omega
  · rw [if_neg (by omega), if_neg (by omega), if_neg hjb]

theorem ringWrite_congr_mod (hst : t % d.length = s % d.length) :
    ringWrite d t bs = ringWrite d s bs := by
  unfold ringWrite
  rw [hst]

theorem ringWrite_nil : ringWrite d t [] = d := by
  have hsplice : ∀ off, splice d off [] = d := fun off => by
    rw [splice, append_nil, length_nil, add_zero, take_append_drop]
  unfold ringWrite
  split
  · exact hsplice _
  · rw [take_nil, drop_nil, hsplice, hsplice]

/-- Two blocks can be written one after the other. -/
theorem ringWrite_append (h : xs.length + ys.length ≤ d.length) :
    ringWrite (ringWrite d t xs) (t + xs.length) ys = ringWrite d t (xs ++ ys) := by
  rcases Nat.eq_zero_or_pos d.length with hd | hd
  · obtain rfl : xs = [] := length_eq_zero_iff.mp (by omega)
    rw [ringWrite_nil, nil_append, length_nil, add_zero]
  have hlen : (ringWrite d t xs).length = d.length := length_ringWrite hd (by omega)
  have happ : (xs ++ ys).length = xs.length + ys.length := length_append
  apply ext_getElem?
  intro i
  by_cases hi : i < d.length
  · -- the slot `i` is the one `j` positions behind `t`
    obtain ⟨j, hj, rfl⟩ : ∃ j < d.length, i = (t + j) % d.length := by
      have ht := mod_lt t hd
      refine ⟨if t % d.length ≤ i then i - t % d.length else i + d.length - t % d.length, ?_, ?_⟩
      · split <;> omega
      rw [add_mod_slot (by split <;> omega)]
      split <;> split <;> omega
    rw [getElem?_ringWrite (by omega) hj, getElem?_append]
    by_cases hx : j < xs.length
    · -- behind the second block, around the end
      have hslot :
          (t + j) % d.length = (t + xs.length + (d.length - xs.length + j)) % d.length := by
        rw [show t + xs.length + (d.length - xs.length + j) = t + j + d.length by omega,
          add_mod_right]
      rw [if_pos (by omega), if_pos hx, hslot, ← hlen, getElem?_ringWrite (by omega) (by omega),
        if_neg (by omega), hlen, ← hslot, getElem?_ringWrite (by omega) hj, if_pos hx]
    have hslot : (t + j) % d.length = (t + xs.length + (j - xs.length)) % d.length := by
      congr 1
      omega
    rw [if_neg hx, hslot, ← hlen, getElem?_ringWrite (by omega) (by omega), hlen, ← hslot,
      getElem?_ringWrite (by omega) hj, if_neg hx, happ]
    simp only [show j - xs.length < ys.length ↔ j < xs.length + ys.length by omega]
  rw [getElem?_eq_none, getElem?_eq_none]
  · rw [length_ringWrite hd (by omega)]
    omega
  rw [length_ringWrite (by omega) (by omega), hlen]
  omega

/-- **Append to a ring.** A write right behind a view extends it, as long as the
two together fit into the ring. -/
theorem Holds.ringWrite (h : Holds d s q) (hlen : q.length + bs.length ≤ d.length) :
    Holds (ringWrite d (s + q.length) bs) s (q ++ bs) := by
  rcases Nat.eq_zero_or_pos d.length with hd | hd
  · have hq : q = [] := length_eq_zero_iff.mp (by omega)
    have hb : bs = [] := length_eq_zero_iff.mp (by omega)
    subst hq hb
    exact Holds.nil
  rw [holds_append]
  refine ⟨fun j hj => ?_, fun j hj => ?_⟩
  · -- a slot of the old view lies behind the written block
    have hslot : (s + j) % d.length = (s + q.length + (d.length - q.length + j)) % d.length := by
      rw [show s + q.length + (d.length - q.length + j) = s + j + d.length by omega,
        add_mod_right]
    rw [length_ringWrite hd (by omega), hslot, getElem?_ringWrite (by omega) (by omega),
      if_neg (by omega), ← hslot, h j hj]
  · rw [length_ringWrite hd (by omega), getElem?_ringWrite (by omega) (by omega), if_pos hj]

/-! ### One element at a time -/

theorem Holds.head {x : α} (h : Holds d s (x :: bs)) : d[s % d.length]? = some x := by
  simpa using h 0 (by simp)

theorem Holds.tail {x : α} (h : Holds d s (x :: bs)) : Holds d (s + 1) bs :=
  (holds_append.mp (show Holds d s ([x] ++ bs) from h)).2

theorem Holds.push {x : α} (h : Holds d s q) (hlen : q.length < d.length) :
    Holds (d.set ((s + q.length) % d.length) x) s (q ++ [x]) := by
  rw [holds_append]
  have hslot : (s + q.length) % d.length < d.length := mod_lt _ (by omega)
  refine ⟨fun j hj => ?_, fun j hj => ?_⟩
  · have hne : (s + q.length) % d.length ≠ (s + j) % d.length := by
      intro heq
      have := Nat.ModEq.add_left_cancel' s heq
      rw [Nat.ModEq, mod_eq_of_lt hlen, mod_eq_of_lt (by omega)] at this
      omega
    rw [length_set, getElem?_set_ne hne, h j hj]
  obtain rfl : j = 0 := by simpa using hj
  simp [hslot]

end Unikraft.Lib
