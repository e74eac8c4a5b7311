import Mathlib

/-!
# Reference counts with a ledger

Of the references to an object, `refs n` are stored in a data structure and `extra n` are in the
hands of the running code; a negative `extra` is a debt. `Balanced` ties them to the counter, and a
call is followed by its ledger.
-/

namespace Unikraft.Lib

variable {N : Type*} [DecidableEq N]

/-- Every counter is the number of references, an object is freed when there is
none left, and nobody refers to a freed object. -/
structure Balanced (cnt : N → Option Nat) (refs : N → Nat) (extra : N → Int) : Prop where
  count : ∀ n c, cnt n = some c → (c : Int) = refs n + extra n
  pos : ∀ n c, cnt n = some c → 0 < c
  dead : ∀ n, cnt n = none → refs n = 0 ∧ extra n = 0

namespace Balanced

variable {cnt : N → Option Nat} {refs refs' : N → Nat} {extra extra' : N → Int} {n : N} {c : Nat}

omit [DecidableEq N] in
theorem move (h : Balanced cnt refs extra)
    (hsum : ∀ n, (refs' n : Int) + extra' n = refs n + extra n)
    (hdead : ∀ n, cnt n = none → refs' n = 0) : Balanced cnt refs' extra' where
  count n c hn := by rw [h.count n c hn, hsum]
  pos := h.pos
  dead n hn := by
    have h0 := h.dead n hn
    have h1 := hsum n
    have h2 := hdead n hn
    omega

omit [DecidableEq N] in
theorem live_of_extra (h : Balanced cnt refs extra) (hx : extra n ≠ 0) : ∃ c, cnt n = some c :=
  Option.ne_none_iff_exists'.mp fun hn => hx (h.dead n hn).2

omit [DecidableEq N] in
theorem live_of_refs (h : Balanced cnt refs extra) (hr : refs n ≠ 0) : ∃ c, cnt n = some c :=
  Option.ne_none_iff_exists'.mp fun hn => hr (h.dead n hn).1

section

variable (h : Balanced cnt refs extra)

include h

/-- What happens to one object concerns only its own entry in the ledger. -/
theorem update {v : Option Nat} {k : Int}
    (hsome : ∀ c, v = some c → 0 < c ∧ (c : Int) = refs n + (extra n + k))
    (hnone : v = none → refs n = 0 ∧ extra n + k = 0) :
    Balanced (Function.update cnt n v) refs (extra + Pi.single n k) where
  count m c hm := by
    by_cases hmn : m = n
    · subst hmn
      simpa using (hsome c (by simpa using hm)).2
    · simpa [hmn] using h.count m c (by simpa [hmn] using hm)
  pos m c hm := by
    by_cases hmn : m = n
    · subst hmn
      exact (hsome c (by simpa using hm)).1
    · exact h.pos m c (by simpa [hmn] using hm)
  dead m hm := by
    by_cases hmn : m = n
    · subst hmn
      simpa using hnone (by simpa using hm)
    · simpa [hmn] using h.dead m (by simpa [hmn] using hm)

theorem alloc (hn : cnt n = none) :
    Balanced (Function.update cnt n (some 1)) refs (extra + Pi.single n 1) := by
  have h0 := h.dead n hn
  refine h.update (fun c hc => ?_) nofun
  cases hc
  omega

theorem hold (hn : cnt n = some c) :
    Balanced (Function.update cnt n (some (c + 1))) refs (extra + Pi.single n 1) := by
  have h0 := h.count n c hn
  refine h.update (fun d hd => ?_) nofun
  cases hd
  omega

/-- Dropping a reference that the code has, or one of several. The last one frees
the object. -/
theorem drop (hn : cnt n = some c) (hown : 0 < extra n ∨ 1 < c) :
    Balanced (Function.update cnt n (if c = 1 then none else some (c - 1))) refs
      (extra - Pi.single n 1) := by
  have h0 := h.count n c hn
  have h1 := h.pos n c hn
  rw [sub_eq_add_neg, ← Pi.single_neg]
  refine h.update (fun d hd => ?_) (fun hd => ?_)
  · split at hd <;> cases hd
    omega
  split at hd <;> cases hd
  omega

end

end Balanced

end Unikraft.Lib
