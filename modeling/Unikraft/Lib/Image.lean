import Mathlib.Data.List.Infix
import Mathlib.Data.List.TakeWhile

/-!
# A block of bytes at an address

`Image.At` says which bytes lie at an address; it splits along an append, so that a reader can be
followed through the fields of a record.
-/

namespace Unikraft.Lib

open List

/-- A block of bytes that starts at `base`. -/
structure Image where
  base : Nat
  bytes : List UInt8

namespace Image

variable {m : Image} {a : Nat} {b : UInt8} {bs cs : List UInt8}

def last (m : Image) : Nat := m.base + m.bytes.length

/-- The bytes at `a` are `bs`. -/
def At (m : Image) (a : Nat) (bs : List UInt8) : Prop :=
  m.base ≤ a ∧ bs <+: m.bytes.drop (a - m.base)

/-- The byte at `a`. -/
def byte (m : Image) (a : Nat) : Option UInt8 :=
  if m.base ≤ a then m.bytes[a - m.base]? else none

/-- The `n` bytes at `a`. -/
def read (m : Image) (a n : Nat) : Option (List UInt8) :=
  if m.base ≤ a ∧ a + n ≤ m.last then some ((m.bytes.drop (a - m.base)).take n) else none

/-- The string at `a`: the bytes before the first zero. -/
def readString (m : Image) (a : Nat) : Option (List UInt8) :=
  if m.base ≤ a ∧ 0 ∈ m.bytes.drop (a - m.base) then
    some ((m.bytes.drop (a - m.base)).takeWhile (· ≠ 0))
  else none

/-- Compare the string at `a` with a given one. Reading ends at the first difference. -/
def strEq (m : Image) : Nat → List UInt8 → Option Bool
  | a, [] => (m.byte a).map (· = 0)
  | a, c :: cs => do
      let b ← m.byte a
      if b = c then m.strEq (a + 1) cs else some false

/-! ### What lies at an address -/

theorem at_base (m : Image) : m.At m.base m.bytes := ⟨le_rfl, by simp⟩

theorem At.mono (h : m.At a bs) (hcs : cs <+: bs) : m.At a cs := ⟨h.1, hcs.trans h.2⟩

theorem At.left (h : m.At a (bs ++ cs)) : m.At a bs := h.mono (prefix_append bs cs)

theorem At.right (h : m.At a (bs ++ cs)) : m.At (a + bs.length) cs := by
  obtain ⟨hle, rest, hrest⟩ := h
  refine ⟨Nat.le_add_right_of_le hle, rest, ?_⟩
  rw [Nat.sub_add_comm hle, ← drop_drop, ← hrest, append_assoc, drop_left]

theorem At.tail (h : m.At a (b :: bs)) : m.At (a + 1) bs :=
  (show m.At a ([b] ++ bs) from h).right

theorem At.flatMap {α : Type*} {f : α → List UInt8} {k i : Nat} {vs : List α} {v : α}
    (hf : ∀ v, (f v).length = k) (h : m.At a (vs.flatMap f)) (hi : vs[i]? = some v) :
    m.At (a + k * i) (f v) := by
  induction vs generalizing a i with
  | nil => simp at hi
  | cons w vs ih =>
    rw [flatMap_cons] at h
    cases i with
    | zero =>
      obtain rfl : w = v := by simpa using hi
      exact h.left
    | succ i =>
      have htail := ih h.right (by simpa using hi)
      rw [hf, Nat.add_assoc] at htail
      rwa [Nat.mul_succ, Nat.add_comm (k * i) k]

theorem At.le_last (h : m.At a bs) (hbs : bs ≠ []) : a + bs.length ≤ m.last := by
  have hlen := h.2.length_le
  have hpos := length_pos_iff.mpr hbs
  have hle := h.1
  rw [length_drop] at hlen
  unfold last
  omega

/-! ### Reading it -/

theorem At.byte (h : m.At a (b :: bs)) : m.byte a = some b := by
  obtain ⟨hle, rest, hrest⟩ := h
  rw [Image.byte, if_pos hle, ← head?_drop, ← hrest]
  rfl

theorem At.read (h : m.At a bs) (hbs : bs ≠ []) : m.read a bs.length = some bs := by
  have hlast := h.le_last hbs
  obtain ⟨hle, rest, hrest⟩ := h
  rw [Image.read, if_pos ⟨hle, hlast⟩, ← hrest, take_left]

theorem At.readString (h : m.At a (bs ++ 0 :: cs)) (hbs : 0 ∉ bs) : m.readString a = some bs := by
  obtain ⟨hle, rest, hrest⟩ := h
  rw [Image.readString, ← hrest, if_pos ⟨hle, by simp⟩, append_assoc, takeWhile_append_of_pos (by
      intro x hx
      exact decide_eq_true fun hzero => hbs (hzero ▸ hx))]
  simp

/-- A comparison with a string that has no zero inside. -/
theorem At.strEq {s : List UInt8} (h : m.At a (bs ++ 0 :: cs)) (hbs : 0 ∉ bs) (hs : 0 ∉ s) :
    m.strEq a s = some (decide (bs = s)) := by
  induction s generalizing a bs with
  | nil =>
    cases bs with
    | nil => rw [Image.strEq, At.byte h]; rfl
    | cons b bs =>
      have hb : b ≠ 0 := fun hb => hbs (hb ▸ mem_cons_self ..)
      rw [Image.strEq, At.byte h]
      simp [hb]
  | cons c s ih =>
    cases bs with
    | nil =>
      have hc : 0 ≠ c := fun hc => hs (hc ▸ mem_cons_self ..)
      rw [Image.strEq, At.byte h]
      simp [hc]
    | cons b bs =>
      rw [Image.strEq, At.byte h, Option.bind_eq_bind, Option.bind_some]
      by_cases hbc : b = c
      · rw [if_pos hbc, ih h.tail (fun hmem => hbs (mem_cons_of_mem _ hmem))
          (fun hmem => hs (mem_cons_of_mem _ hmem))]
        simp [hbc]
      rw [if_neg hbc]
      simp [hbc]

end Image

end Unikraft.Lib
