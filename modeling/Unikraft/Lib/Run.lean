import Mathlib.Logic.Relation

/-!
# Runs of a system of calls

In a state, an event leaves the defined behaviour with a fault, or returns a result and the next
state. `Reachable` collects the states reached through events that are allowed, and
`Reachable.invariant` is the one induction over runs. `runEvents` executes a run.
-/

namespace Unikraft.Lib

variable {σ ε ρ φ : Type*}

/-- One successful event the guard `ok` allows in the state before it. -/
def Next (step : σ → ε → Except φ (ρ × σ)) (ok : σ → ε → Prop) (s s' : σ) : Prop :=
  ∃ e r, ok s e ∧ step s e = .ok (r, s')

/-- The states a run of allowed events reaches from `s₀`. -/
def Reachable (step : σ → ε → Except φ (ρ × σ)) (ok : σ → ε → Prop) (s₀ s : σ) : Prop :=
  Relation.ReflTransGen (Next step ok) s₀ s

variable {step : σ → ε → Except φ (ρ × σ)} {ok : σ → ε → Prop} {s₀ s s' : σ}

theorem Reachable.refl : Reachable step ok s₀ s₀ := Relation.ReflTransGen.refl

section

variable (h : Reachable step ok s₀ s)

include h

theorem Reachable.tail {e : ε} {r : ρ} (hok : ok s e)
    (hs : step s e = .ok (r, s')) : Reachable step ok s₀ s' :=
  Relation.ReflTransGen.tail h ⟨e, r, hok, hs⟩

theorem Reachable.mono {ok' : σ → ε → Prop}
    (himp : ∀ s e, ok s e → ok' s e) : Reachable step ok' s₀ s := by
  have hnext : Next step ok ≤ Next step ok' := fun _ _ ⟨e, r, hok, hs⟩ => ⟨e, r, himp _ e hok, hs⟩
  exact Relation.ReflTransGen.mono hnext _ _ h

/-- **The invariant rule.** What holds at the start and is kept by every allowed
event holds in every reachable state. -/
theorem Reachable.invariant {I : σ → Prop} (hinit : I s₀)
    (hstep : ∀ s e r s', I s → ok s e → step s e = .ok (r, s') → I s') : I s := by
  induction h with
  | refl => exact hinit
  | tail _ hnext ih =>
    obtain ⟨e, r, hok, hs⟩ := hnext
    exact hstep _ e r _ ih hok hs

/-- The rule for a guard under which every event returns. -/
theorem Reachable.invariant_of_returns {I : σ → Prop} (hinit : I s₀)
    (hstep : ∀ s e, I s → ok s e → ∃ r s', step s e = .ok (r, s') ∧ I s') : I s := by
  refine h.invariant hinit fun s e r s' hs hok heq => ?_
  obtain ⟨r', t, ht, hinv⟩ := hstep s e hs hok
  cases ht.symm.trans heq
  exact hinv

end

/-- Execute a list of events, as long as each of them is allowed and returns. -/
def runEvents (step : σ → ε → Except φ (ρ × σ)) (ok : σ → ε → Prop)
    [∀ s e, Decidable (ok s e)] : σ → List ε → Option σ
  | s, [] => some s
  | s, e :: es =>
    if ok s e then
      match step s e with
      | .ok (_, s') => runEvents step ok s' es
      | .error _ => none
    else none

/-- An executed list of events ends in a reachable state. -/
theorem Reachable.of_runEvents [∀ s e, Decidable (ok s e)] {es : List ε}
    (h : runEvents step ok s es = some s') (hs : Reachable step ok s₀ s) :
    Reachable step ok s₀ s' := by
  induction es generalizing s with
  | nil =>
    cases h
    exact hs
  | cons e es ih =>
    rw [runEvents] at h
    split at h
    · rename_i hok
      split at h
      · rename_i r t ht
        exact ih h (hs.tail hok ht)
      · cases h
    · cases h

/-- A run that has been executed, and what holds of its last state. -/
theorem Reachable.exists_of_run [∀ s e, Decidable (ok s e)] (es : List ε) {P : σ → Prop}
    (h : ∃ s ∈ runEvents step ok s₀ es, P s) : ∃ s, Reachable step ok s₀ s ∧ P s := by
  obtain ⟨s, hs, hP⟩ := h
  exact ⟨s, .of_runEvents hs .refl, hP⟩

end Unikraft.Lib
