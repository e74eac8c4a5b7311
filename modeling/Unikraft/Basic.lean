import Mathlib.Tactic.Ring
import Mathlib.Data.Nat.Bitwise
import Unikraft.Lib.Ring

/-!
# Unikraft.Basic

What every part of the model shares: the outcome of a C call, machine words and the constants of a
64-bit target.

A C function becomes a Lean function of the same name into `Outcome`: it returns a value, or leaves
the defined behaviour with a `Fault`. Unsigned words are natural numbers, with an explicit
reduction at every operation that can wrap.
-/

namespace Unikraft

/-- How a call can leave the defined behaviour of the C code. -/
inductive Fault
  /-- A failed `UK_ASSERT`, or a call of `UK_CRASH`. -/
  | assertion
  /-- An access outside of the array or memory block it is made to. -/
  | outOfBounds
  /-- A dereference of `NULL` or of a pointer to no object. -/
  | badPointer
  /-- A shift by at least the width of the type, a signed overflow, or a division by zero. -/
  | undefinedArith
  /-- A loop that does not end. -/
  | divergence
  /-- An access to an object that has been freed. -/
  | useAfterFree
  deriving Repr, DecidableEq

/-- The outcome of a C call. -/
abbrev Outcome := Except Fault

/-- `UK_ASSERT(p)`. -/
def ukAssert (p : Prop) [Decidable p] : Outcome Unit :=
  if p then .ok () else .error .assertion

variable {p : Prop}

theorem ukAssert_pos [Decidable p] (h : p) : ukAssert p = .ok () := if_pos h

theorem ukAssert_neg [Decidable p] (h : ¬ p) : ukAssert p = .error .assertion := if_neg h

theorem of_ukAssert [Decidable p] {u : Unit} (h : ukAssert p = .ok u) : p := by
  by_contra hnot
  rw [ukAssert_neg hnot] at h
  cases h

variable {α β : Type} {a : Nat}

/-- Invert a sequence of two calls that returned: the first one returned, and so
did the second one on its result. -/
theorem Outcome.bind_ok {first : Outcome α} {second : α → Outcome β} {r : β} :
    first >>= second = .ok r ↔ ∃ v, first = .ok v ∧ second v = .ok r := by
  rcases first with fault | v
  · exact ⟨nofun, fun ⟨_, h, _⟩ => nomatch h⟩
  · exact ⟨fun h => ⟨v, rfl, h⟩, fun ⟨_, h, hr⟩ => by cases h; exact hr⟩

/-- A computation that succeeds, although it starts with a call that may report an error. -/
theorem Outcome.bind_except {ε σ : Type} {first : Outcome (Except ε α × σ)}
    {second : Except ε α × σ → Outcome β} {r : β} (h : first >>= second = .ok r)
    (herror : ∀ e s, second (.error e, s) ≠ .ok r) :
    ∃ a s, first = .ok (.ok a, s) ∧ second (.ok a, s) = .ok r := by
  obtain ⟨⟨res, s⟩, hfirst, h⟩ := Outcome.bind_ok.mp h
  cases res with
  | error e => exact absurd h (herror e s)
  | ok a => exact ⟨a, s, hfirst, h⟩

@[simp] theorem Outcome.ok_bind (v : α) (second : α → Outcome β) :
    (.ok v : Outcome α) >>= second = second v := rfl

@[simp] theorem Outcome.error_bind (fault : Fault) (second : α → Outcome β) :
    (.error fault : Outcome α) >>= second = .error fault := rfl

def Outcome.Ends {α : Type} (call : Outcome α) : Prop := call ≠ .error .divergence

theorem Outcome.Ends.bind {first : Outcome α} {second : α → Outcome β}
    (hfirst : first.Ends) (hsecond : ∀ v, (second v).Ends) : Outcome.Ends (first >>= second) := by
  rcases first with fault | v
  · exact fun heq => hfirst (congrArg _ (Except.error.inj heq))
  · exact hsecond v

/-- No fault of a call is `bad`, and what it returns is as `post` says. -/
def Outcome.Sat {α : Type} (bad : Fault → Prop) (call : Outcome α) (post : α → Prop) : Prop :=
  match call with
  | .error fault => ¬ bad fault
  | .ok v => post v

section

variable {α β : Type} {bad : Fault → Prop} {call : Outcome α} {post post' : α → Prop}

section

variable (h : call.Sat bad post)

include h

theorem Outcome.Sat.mono (himp : ∀ v, post v → post' v) : call.Sat bad post' := by
  rcases call with fault | v
  · exact h
  · exact himp v h

theorem Outcome.Sat.bind_eq {next : α → Outcome β} {final : β → Prop}
    (hnext : ∀ v, call = .ok v → post v → (next v).Sat bad final) :
    Outcome.Sat bad (call >>= next) final := by
  rcases call with fault | v
  · exact h
  · exact hnext v rfl h

theorem Outcome.Sat.bind {next : α → Outcome β} {final : β → Prop}
    (hnext : ∀ v, post v → (next v).Sat bad final) : Outcome.Sat bad (call >>= next) final :=
  h.bind_eq fun v _ => hnext v

end

theorem Outcome.Sat.ite [Decidable p] {call' : Outcome α} (h : p → call.Sat bad post)
    (h' : ¬ p → call'.Sat bad post) : Outcome.Sat bad (if p then call else call') post := by
  split
  · rename_i hp
    exact h hp
  rename_i hp
  exact h' hp

end

theorem Outcome.exists_of_toOption {ε σ : Type} {call : Outcome (Except ε α × σ)} {v : α}
    (h : call.toOption.map (fun r => r.1.toOption) = some (some v)) :
    ∃ s, call = .ok (.ok v, s) := by
  rcases call with fault | ⟨e | w, s⟩
  · cases h
  · cases h
  cases h
  exact ⟨s, rfl⟩

theorem Outcome.exists_of_eval {σ β : Type} (call : Outcome (α × σ)) (g : σ → β) {a : α} {b : β}
    (h : call.toOption.map (fun r => (r.1, g r.2)) = some (a, b)) :
    ∃ s, call = .ok (a, s) ∧ g s = b := by
  rcases call with fault | ⟨v, s⟩
  · cases h
  cases h
  exact ⟨s, rfl, rfl⟩

/-- The error numbers the modelled functions return. -/
inductive Errno
  | einval
  | enomem
  | enobufs
  | enomsg
  | ebadf
  | ebusy
  | enfile
  | eio
  | eisdir
  | efbig
  | enospc
  | eperm
  | enotsup
  | enametoolong
  | enoent
  | enotdir
  | eloop
  | eexist
  | enotempty
  | exdev
  | efault
  | eagain
  deriving Repr, DecidableEq

def Errno.code : Errno → Int
  | einval => 22
  | enomem => 12
  | enobufs => 55
  | enomsg => 83
  | ebadf => 9
  | ebusy => 16
  | enfile => 23
  | eio => 5
  | eisdir => 21
  | efbig => 27
  | enospc => 28
  | eperm => 1
  | enotsup => 97
  | enametoolong => 63
  | enoent => 2
  | enotdir => 20
  | eloop => 62
  | eexist => 17
  | enotempty => 66
  | exdev => 18
  | efault => 14
  | eagain => 35

/-! ### Machine words -/

/-- `__PAGE_SIZE`, that is `1 << __PAGE_SHIFT` with `__PAGE_SHIFT` 12. -/
abbrev pageSize : Nat := 4096

/-- Addition of two `unsigned long`. -/
def addU64 (a b : Nat) : Nat := (a + b) % 2 ^ 64

/-- Subtraction of two `unsigned long`. -/
def subU64 (a b : Nat) : Nat := (a + (2 ^ 64 - b % 2 ^ 64)) % 2 ^ 64

/-- Addition of two `uint32_t`. -/
def addU32 (a b : Nat) : Nat := (a + b) % 2 ^ 32

/-- Subtraction of two `uint32_t`. -/
def subU32 (a b : Nat) : Nat := (a + (2 ^ 32 - b % 2 ^ 32)) % 2 ^ 32

theorem addU32_eq {b : Nat} (h : a + b < 2 ^ 32) : addU32 a b = a + b := Nat.mod_eq_of_lt h

theorem addU64_eq {b : Nat} (h : a + b < 2 ^ 64) : addU64 a b = a + b := Nat.mod_eq_of_lt h

theorem subU64_eq {b : Nat} (hb : b ≤ a) (ha : a < 2 ^ 64) : subU64 a b = a - b := by
  unfold subU64
  omega

theorem addU64_lt (a b : Nat) : addU64 a b < 2 ^ 64 := Nat.mod_lt _ (by norm_num)

theorem subU64_lt (a b : Nat) : subU64 a b < 2 ^ 64 := Nat.mod_lt _ (by norm_num)

/-- The value of a 64-bit word as a signed number (`off_t`). -/
def toOff (a : Nat) : Int := if a < 2 ^ 63 then a else a - 2 ^ 64

/-- Conversion of an unsigned value to `int`: the low 32 bits in two's complement. -/
def toInt (a : Nat) : Int :=
  if a % 2 ^ 32 < 2 ^ 31 then ((a % 2 ^ 32 : Nat) : Int) else ((a % 2 ^ 32 : Nat) : Int) - 2 ^ 32

/-- Conversion of an `int` to `size_t` (sign extension). -/
def toSize (i : Int) : Nat := (i % 2 ^ 64).toNat

theorem toSize_toInt (h : a < 2 ^ 31) : toSize (toInt a) = a := by
  unfold toSize toInt
  omega

/-- A value survives the conversion to `int` and back exactly when it has the
low 32 bits of a small one. -/
theorem toSize_toInt_eq_iff {c : Nat} (hc : c < 2 ^ 31) :
    toSize (toInt a) = c ↔ a % 2 ^ 32 = c := by
  unfold toSize toInt
  split <;> omega

/-! ### Copies between byte arrays -/

/-- The source side of a `memcpy`: `n` bytes of `src` from `off` on. -/
def copyOut {α : Type} (src : List α) (off n : Nat) : Outcome (List α) :=
  if off + n ≤ src.length then .ok ((src.drop off).take n) else .error .outOfBounds

theorem copyOut_ok {src : List α} {off n : Nat} (h : off + n ≤ src.length) :
    copyOut src off n = .ok ((src.drop off).take n) := if_pos h

theorem copyOut_error {src : List α} {off n : Nat} (h : src.length < off + n) :
    copyOut src off n = .error .outOfBounds := if_neg (Nat.not_le.mpr h)

/-! ### Reference counters -/

/-- `uk_refcount_acquire`, which increments the low 16 bits. -/
def refcountAcquire (r : Nat) : Nat := r / 2 ^ 16 * 2 ^ 16 + (r + 1) % 2 ^ 16

/-- `uk_refcount_release`, which decrements the low 16 bits. -/
def refcountRelease (r : Nat) : Nat := r / 2 ^ 16 * 2 ^ 16 + (r + (2 ^ 16 - 1)) % 2 ^ 16

theorem refcountRelease_eq {r : Nat} (hpos : 0 < r) (hlt : r < 2 ^ 16) :
    refcountRelease r = r - 1 := by
  unfold refcountRelease
  omega

end Unikraft
