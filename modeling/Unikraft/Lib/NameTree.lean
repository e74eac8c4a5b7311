import Mathlib.Data.List.Infix
import Mathlib.Data.Option.Basic

/-!
# Trees of names

A graph gives for a node and a name the node of that name in it; `follow` is along a path. If no
node has two names and the root has none (`Rooted`), a node has one path. `Moved` describes by its
edges what moving a node to another path does to the graph.
-/

namespace Unikraft.Lib

open List Option

variable {N K : Type*} {e e' : N → K → Option N} {r : N} {p q : List K} {x : N}

/-- The node at the end of a path from `r`. -/
def follow (e : N → K → Option N) : N → List K → Option N
  | r, [] => some r
  | r, k :: p => (e r k).bind fun c => follow e c p

theorem follow_cons {k : K} : follow e r (k :: p) = (e r k).bind fun c => follow e c p := rfl

theorem follow_append : follow e r (p ++ q) = (follow e r p).bind fun c => follow e c q := by
  induction p generalizing r with
  | nil => rfl
  | cons k p ih =>
    rw [cons_append, follow_cons, follow_cons, bind_assoc]
    exact bind_congr fun c _ => ih

theorem follow_concat {k : K} : follow e r (p ++ [k]) = (follow e r p).bind fun c => e c k := by
  rw [follow_append]
  refine bind_congr fun c _ => ?_
  rw [follow_cons]
  cases e c k <;> rfl

theorem follow_congr (h : ∀ q k, q ++ [k] <+: p → ∀ d, follow e r q = some d → e' d k = e d k) :
    follow e' r p = follow e r p := by
  induction p generalizing r with
  | nil => rfl
  | cons k p ih =>
    have hfirst : e' r k = e r k := h [] k (prefix_append _ _) r rfl
    rw [follow_cons, follow_cons, hfirst]
    refine bind_congr fun c hc => ih fun q j hq d hd => ?_
    refine h (k :: q) j (cons_prefix_cons.mpr ⟨rfl, hq⟩) d ?_
    rw [follow_cons, hc]
    exact hd

theorem follow_mono (h : ∀ d k c, e d k = some c → e' d k = some c)
    (hp : follow e r p = some x) : follow e' r p = some x := by
  induction p generalizing r with
  | nil => exact hp
  | cons k p ih =>
    rw [follow_cons] at hp ⊢
    obtain ⟨c, hc, hrest⟩ := bind_eq_some_iff.mp hp
    rw [h r k c hc]
    exact ih hrest

/-- No node has two names, and the root has none. -/
structure Rooted (e : N → K → Option N) (r : N) : Prop where
  parent_unique : ∀ d k d' k' c, e d k = some c → e d' k' = some c → d = d' ∧ k = k'
  root_nameless : ∀ d k, e d k ≠ some r

theorem Rooted.path_unique (h : Rooted e r) (hp : follow e r p = some x)
    (hq : follow e r q = some x) : p = q := by
  induction p using List.reverseRecOn generalizing q x with
  | nil =>
    cases some.inj hp
    rcases eq_nil_or_concat' q with rfl | ⟨q, k, rfl⟩
    · rfl
    rw [follow_concat] at hq
    obtain ⟨d, -, hd⟩ := bind_eq_some_iff.mp hq
    exact absurd hd (h.root_nameless d k)
  | append_singleton p k ih =>
    rw [follow_concat] at hp
    obtain ⟨d, hd, hdk⟩ := bind_eq_some_iff.mp hp
    rcases eq_nil_or_concat' q with rfl | ⟨q, j, rfl⟩
    · cases some.inj hq
      exact absurd hdk (h.root_nameless d k)
    rw [follow_concat] at hq
    obtain ⟨d', hd', hdj⟩ := bind_eq_some_iff.mp hq
    obtain ⟨rfl, rfl⟩ := h.parent_unique d k d' j x hdk hdj
    rw [ih hd hd']

/-- If the edge `k` at the end of `q` leads to a node without edges, then no other path needs
it. -/
theorem Rooted.follow_unlink {d v : N} {k : K} (h : Rooted e r) (hq : follow e r q = some d)
    (hv : e d k = some v) (hleaf : ∀ j, e v j = none)
    (hother : ∀ a j, (a, j) ≠ (d, k) → e' a j = e a j) (hp : follow e r p = some x)
    (hne : p ≠ q ++ [k]) : follow e' r p = some x := by
  rw [← hp]
  refine follow_congr fun q' j hpre a ha => hother a j fun heq => hne ?_
  cases heq
  obtain ⟨rest, rfl⟩ := hpre
  rw [h.path_unique ha hq, follow_append, follow_concat, hq, bind_some, hv, bind_some] at hp
  cases rest with
  | nil => rw [append_nil, h.path_unique ha hq]
  | cons i rest =>
    rw [follow_cons, hleaf i] at hp
    cases hp

/-! ### Moving a subtree -/

/-- The node `v` at `q₁ ++ [k₁]` is moved to `q₂ ++ [k₂]`, where it is `v'`; the `Freed` nodes lose
their edges. -/
structure Moved (e e' : N → K → Option N) (r : N) (q₁ : List K) (k₁ : K) (q₂ : List K) (k₂ : K)
    (d₁ v d₂ v' : N) (Freed : N → Prop) : Prop where
  rooted : Rooted e r
  source_dir : follow e r q₁ = some d₁
  source : e d₁ k₁ = some v
  target_dir : follow e r q₂ = some d₂
  /-- Neither of the two places is below the other one. -/
  outside : ¬ q₁ ++ [k₁] <+: q₂ ++ [k₂]
  apart : ¬ q₂ ++ [k₂] <+: q₁ ++ [k₁]
  /-- At most the replaced target and the source are freed. -/
  freed : ∀ x, Freed x → e d₂ k₂ = some x ∨ x = v
  edges : ∀ x k y, e' x k = some y ↔ (x = d₂ ∧ k = k₂ ∧ y = v') ∨
      (e x k = some y ∧ y ≠ v ∧ e d₂ k₂ ≠ some y ∧ ¬ Freed x)

namespace Moved

variable {q₁ q₂ : List K} {k₁ k₂ k : K} {d₁ v d₂ v' : N} {Freed : N → Prop}

section

variable (h : Moved e e' r q₁ k₁ q₂ k₂ d₁ v d₂ v' Freed)

include h

theorem source_path : follow e r (q₁ ++ [k₁]) = some v := by
  rw [follow_concat, h.source_dir]
  exact h.source

/-- An edge at a node that stays is as before, unless it leads to one of the two places. -/
theorem edge_eq (hq : follow e r q = some x) (hx : ¬ Freed x) (hq₁ : q ++ [k] ≠ q₁ ++ [k₁])
    (hq₂ : q ++ [k] ≠ q₂ ++ [k₂]) : e' x k = e x k := by
  refine ext fun y => (h.edges x k y).trans ⟨fun hedge => ?_, fun hedge => ?_⟩
  · rcases hedge with ⟨rfl, rfl, -⟩ | ⟨hedge, -⟩
    · exact absurd (by rw [h.rooted.path_unique hq h.target_dir]) hq₂
    · exact hedge
  have hy : follow e r (q ++ [k]) = some y := by
    rw [follow_concat, hq]
    exact hedge
  refine .inr ⟨hedge, fun heq => ?_, fun heq => ?_, hx⟩
  · exact hq₁ (h.rooted.path_unique hy (heq ▸ h.source_path))
  refine hq₂ (h.rooted.path_unique hy ?_)
  rw [follow_concat, h.target_dir]
  exact heq

theorem freed_path (hq : follow e r q = some x) (hx : Freed x) :
    q = q₁ ++ [k₁] ∨ q = q₂ ++ [k₂] := by
  rcases h.freed x hx with htarget | rfl
  · refine .inr (h.rooted.path_unique hq ?_)
    rw [follow_concat, h.target_dir]
    exact htarget
  · exact .inl (h.rooted.path_unique hq h.source_path)

theorem follow_other (hp₁ : ¬ q₁ ++ [k₁] <+: p) (hp₂ : ¬ q₂ ++ [k₂] <+: p) :
    follow e' r p = follow e r p := by
  refine follow_congr fun q k hqk d hd => ?_
  have hqp : q <+: p := (prefix_append q [k]).trans hqk
  refine h.edge_eq hd (fun hfreed => ?_) (fun heq => hp₁ (heq ▸ hqk)) fun heq => hp₂ (heq ▸ hqk)
  rcases h.freed_path hd hfreed with rfl | rfl
  · exact hp₁ hqp
  · exact hp₂ hqp

end

end Moved

end Unikraft.Lib
