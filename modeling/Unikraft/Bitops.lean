import Unikraft.Basic
import Unikraft.Lib.BitWords

/-!
# Unikraft.Bitops

The bitmap functions of `uk/bitmap.h` and `uk/bitops.h` that a tag allocator needs, on 64-bit
words.

The mask of the last word shifts by `64 - n`, where `n` is the end of the whole range. For a range
that ends behind the first word this is negative; both targets take it modulo 64, which gives the
mask that is meant (`lastWordMask_and`).
-/

namespace Unikraft

open Lib Function BitVec Bool

/-! ### The source -/

/-- `UK_BITMAP_FIRST_WORD_MASK(start)`. -/
def firstWordMask (start : Nat) : BitVec 64 := allOnes 64 <<< (start % 64)

/-- `UK_BITMAP_LAST_WORD_MASK(n)`, with the count of the shift taken modulo 64. -/
def lastWordMask (n : Nat) : BitVec 64 := allOnes 64 >>> (subU32 64 n % 64)

/-- The loop and the last word of `uk_bitmap_set` and `uk_bitmap_clear`, which differ in what
they do to a word under a mask. -/
def bitmapLoop (op : BitVec 64 → BitVec 64 → BitVec 64) (size : Nat) :
    Nat → (Nat → BitVec 64) → Nat → Nat → Nat → BitVec 64 → Nat → BitVec 64
  | 0, map, _, _, _, _ => map
  | fuel + 1, map, word, nr, bits, mask =>
    if bits ≤ nr then
      bitmapLoop op size fuel (update map word (op (map word) mask)) (word + 1)
        (nr - bits) 64 (allOnes 64)
    else if nr ≠ 0 then
      update map word (op (map word) (mask &&& lastWordMask size))
    else map

def ukBitmapSet (map : Nat → BitVec 64) (start nr : Nat) : Nat → BitVec 64 :=
  bitmapLoop (fun word mask => word ||| mask) (start + nr) (nr + 1) map (start / 64) nr
    (64 - start % 64) (firstWordMask start)

def ukBitmapClear (map : Nat → BitVec 64) (start nr : Nat) : Nat → BitVec 64 :=
  bitmapLoop (fun word mask => word &&& ~~~mask) (start + nr) (nr + 1) map (start / 64) nr
    (64 - start % 64) (firstWordMask start)

/-- `ukarch_ffsl`: the index of the lowest bit of a word that is set. -/
def ukarchFfsl (word : BitVec 64) : Nat := (List.range 64).findIdx word.getLsbD

/-- The loop over the words of `uk_find_next_zero_bit`. -/
def findZeroLoop (map : Nat → BitVec 64) : Nat → Nat → Nat → Nat → Nat
  | 0, _, _, bit => bit
  | fuel + 1, word, size, bit =>
    if 64 ≤ size then
      if ~~~map word = 0 then findZeroLoop map fuel (word + 1) (size - 64) (bit + 64)
      else bit + ukarchFfsl (~~~map word)
    else if size ≠ 0 then
      let mask := ~~~map word &&& lastWordMask size
      if mask ≠ 0 then bit + ukarchFfsl mask else bit + size
    else bit

def ukFindNextZeroBit (map : Nat → BitVec 64) (size offset : Nat) : Nat :=
  if size ≤ offset then size
  else
    let pos := offset / 64
    let offs := offset % 64
    let bit := 64 * pos
    if offs ≠ 0 then
      let mask := ~~~map pos &&& ~~~lastWordMask offs
      if mask ≠ 0 then bit + ukarchFfsl mask
      else if size - bit ≤ 64 then size
      else findZeroLoop map (size + 1) (pos + 1) (size - (bit + 64)) (bit + 64)
    else findZeroLoop map (size + 1) pos (size - bit) bit

/-! ### One bit -/

variable {map : Nat → BitVec 64}

theorem lastWordMask_and (t : Nat) :
    firstWordMask t &&& lastWordMask (t + 1) = twoPow 64 (t % 64) := by
  have hcount : subU32 64 (t + 1) % 64 = 63 - t % 64 := by
    unfold subU32
    omega
  ext i hi
  simp only [firstWordMask, lastWordMask, hcount, getElem_and, getElem_shiftLeft,
    getElem_ushiftRight, getElem_twoPow, getElem_allOnes,
    getLsbD_allOnes]
  by_cases hlow : i < t % 64
  · simp [hlow, hlow.ne]
  have hand : 63 - t % 64 + i < 64 ↔ i = t % 64 := by omega
  simp [hlow, hand]

theorem bitmapLoop_one (op : BitVec 64 → BitVec 64 → BitVec 64) (t : Nat) :
    bitmapLoop op (t + 1) 2 map (t / 64) 1 (64 - t % 64) (firstWordMask t) =
      update map (t / 64) (op (map (t / 64)) (twoPow 64 (t % 64))) := by
  by_cases hlast : t % 64 = 63
  · -- the bit is the last one of its word: the word is done by the loop
    have hmask : firstWordMask t = twoPow 64 (t % 64) := by
      rw [firstWordMask, hlast]
      decide
    rw [bitmapLoop, hlast, if_pos le_rfl, bitmapLoop, if_neg (by decide), if_neg (by decide),
      hmask, hlast]
  · rw [bitmapLoop, if_neg (by omega), if_pos one_ne_zero, lastWordMask_and]

theorem bitAt_update (t p : Nat) (w : BitVec 64) :
    bitAt (update map (t / 64) w) p =
      if p / 64 = t / 64 then w.getLsbD (p % 64) else bitAt map p := by
  unfold bitAt
  by_cases h : p / 64 = t / 64
  · rw [if_pos h, h, update_self]
  · rw [if_neg h, update_of_ne h]

theorem getLsbD_twoPow_mod (t p : Nat) (h : p / 64 = t / 64) :
    (twoPow 64 (t % 64)).getLsbD (p % 64) = decide (p = t) := by
  rw [getLsbD_twoPow]
  have hlt : t % 64 < 64 := Nat.mod_lt _ (by decide)
  have hiff : t % 64 = p % 64 ↔ p = t := by omega
  simp [hlt, hiff]

theorem bitAt_ukBitmapSet (t p : Nat) :
    bitAt (ukBitmapSet map t 1) p = (decide (p = t) || bitAt map p) := by
  rw [ukBitmapSet, bitmapLoop_one, bitAt_update]
  by_cases h : p / 64 = t / 64
  · rw [if_pos h, getLsbD_or, getLsbD_twoPow_mod t p h, Bool.or_comm, bitAt, h]
  have hne : p ≠ t := fun heq => h (heq ▸ rfl)
  rw [if_neg h, decide_eq_false hne, Bool.false_or]

theorem bitAt_ukBitmapClear (t p : Nat) :
    bitAt (ukBitmapClear map t 1) p = (!decide (p = t) && bitAt map p) := by
  rw [ukBitmapClear, bitmapLoop_one, bitAt_update]
  by_cases h : p / 64 = t / 64
  · have hlt : p % 64 < 64 := Nat.mod_lt _ (by decide)
    rw [if_pos h, getLsbD_and, getLsbD_not, getLsbD_twoPow_mod t p h,
      decide_eq_true hlt, Bool.true_and, Bool.and_comm, bitAt, h]
  have hne : p ≠ t := fun heq => h (heq ▸ rfl)
  rw [if_neg h, decide_eq_false hne, Bool.not_false, Bool.true_and]

/-! ### The next clear bit -/

theorem ukarchFfsl_spec {w : BitVec 64} (h : w ≠ 0) :
    ukarchFfsl w < 64 ∧ w.getLsbD (ukarchFfsl w) = true ∧
      ∀ i < ukarchFfsl w, w.getLsbD i = false := by
  have hex : ∃ i ∈ List.range 64, w.getLsbD i = true := by
    by_contra hno
    refine h (eq_of_getLsbD_eq fun i hi => ?_)
    rw [ofNat_eq_ofNat, getLsbD_zero, eq_false_iff]
    exact fun hbit => hno ⟨i, List.mem_range.mpr hi, hbit⟩
  have hlt : (List.range 64).findIdx w.getLsbD < (List.range 64).length :=
    List.findIdx_lt_length.mpr hex
  refine ⟨List.length_range (n := 64) ▸ hlt, ?_, fun i hi => ?_⟩
  · have hfound := List.findIdx_getElem (w := hlt)
    rwa [List.getElem_range] at hfound
  have hbefore := List.not_of_lt_findIdx hi
  rwa [List.getElem_range] at hbefore

/-- What a search from `start` on in a bitmap of `stop` bits returns. -/
structure NextZero (map : Nat → BitVec 64) (start stop r : Nat) : Prop where
  le : r ≤ stop
  set_below : ∀ p, start ≤ p → p < r → bitAt map p = true
  clear_at : r < stop → bitAt map r = false

theorem bitAt_word (word : Nat) {i : Nat} (hi : i < 64) :
    bitAt map (64 * word + i) = !(~~~map word).getLsbD i := by
  have hdiv : (64 * word + i) / 64 = word := by omega
  have hmod : (64 * word + i) % 64 = i := by omega
  rw [bitAt, hdiv, hmod, getLsbD_not, decide_eq_true hi, Bool.true_and, Bool.not_not]

theorem findZeroLoop_nextZero (fuel n word : Nat) (hfuel : n < fuel) :
    NextZero map (64 * word) (64 * (word + n))
      (findZeroLoop map fuel word (64 * n) (64 * word)) := by
  induction fuel generalizing n word with
  | zero => exact absurd hfuel (Nat.not_lt_zero _)
  | succ fuel ih =>
    rw [findZeroLoop]
    cases n with
    | zero =>
      rw [if_neg (by omega), if_neg (by omega)]
      refine ⟨le_rfl, fun p h1 h2 => absurd h2 (Nat.not_lt.mpr h1), fun h => ?_⟩
      exact absurd h (lt_irrefl _)
    | succ n =>
      rw [if_pos (by omega)]
      by_cases hfull : ~~~map word = 0
      · -- all bits of the word are set
        obtain ⟨hle, hset, hclear⟩ := ih n (word + 1) (by omega)
        have hsize : 64 * (n + 1) - 64 = 64 * n := by omega
        have hbit : 64 * word + 64 = 64 * (word + 1) := by omega
        have hstop : word + 1 + n = word + (n + 1) := by omega
        rw [hstop] at hle hclear
        rw [if_pos hfull, hsize, hbit]
        refine ⟨hle, fun p h1 h2 => ?_, hclear⟩
        by_cases hp : 64 * (word + 1) ≤ p
        · exact hset p hp h2
        obtain ⟨i, rfl⟩ := Nat.exists_eq_add_of_le h1
        rw [bitAt_word word (by omega), hfull]
        simp
      obtain ⟨hlt, hbit, hbelow⟩ := ukarchFfsl_spec hfull
      rw [if_neg hfull]
      refine ⟨by omega, fun p h1 h2 => ?_, fun _ => ?_⟩
      · obtain ⟨i, rfl⟩ := Nat.exists_eq_add_of_le h1
        rw [bitAt_word word (by omega), hbelow i (by omega), Bool.not_false]
      · rw [bitAt_word word hlt, hbit, Bool.not_true]

/-- **`uk_find_next_zero_bit`** in a bitmap of whole words returns the first clear bit, or
the size if there is none. -/
theorem ukFindNextZeroBit_nextZero (map : Nat → BitVec 64) (n : Nat) :
    NextZero map 0 (64 * n) (ukFindNextZeroBit map (64 * n) 0) := by
  unfold ukFindNextZeroBit
  by_cases hzero : 64 * n ≤ 0
  · rw [if_pos hzero]
    exact ⟨le_rfl, fun p _ h => absurd h (by omega), fun h => absurd h (lt_irrefl _)⟩
  have hloop : NextZero map _ _ _ := findZeroLoop_nextZero (64 * n + 1) n 0 (by omega)
  rw [if_neg hzero]
  simpa using hloop

end Unikraft
