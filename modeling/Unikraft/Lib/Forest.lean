import Mathlib.Data.List.Nodup
import Mathlib.Data.List.Perm.Basic
import Unikraft.Lib.PartialMap

/-!
# Lists of children

In a `Forest`, the children of a node are there as well, and no node is in two places. A node may
lose its list and its place (`Forest.remove`) or get one (`Forest.add`).
-/

namespace Unikraft.Lib

/-- Children are there, and a node is in one place at most. -/
structure Forest {N : Type*} (kids : N → Option (List N)) : Prop where
  live : ∀ d l c, kids d = some l → c ∈ l → (kids c).isSome
  nodup : ∀ d l, kids d = some l → l.Nodup
  one : ∀ d l d' l' c, kids d = some l → kids d' = some l' → c ∈ l → c ∈ l' → d = d'

namespace Forest

open Function

variable {N : Type*} [DecidableEq N] {kids : N → Option (List N)} {d c x : N} {l : List N}

/-- A node is taken out of the list it is in, and goes away. -/
theorem remove (h : Forest kids) (hd : kids d = some l) (hc : c ∈ l) :
    Forest (update (update kids d (some (l.erase c))) c none) := by
  -- a list that is left is an old one without the node
  have hold : ∀ x lx, update (update kids d (some (l.erase c))) c none x = some lx →
      x ≠ c ∧ ∃ l₀, kids x = some l₀ ∧ lx = l₀.erase c := by
    intro x lx hx
    obtain ⟨hxc, hx⟩ := update_none hx
    refine ⟨hxc, ?_⟩
    rcases update_some hx with ⟨rfl, rfl⟩ | ⟨hxd, hx⟩
    · exact ⟨l, hd, rfl⟩
    have hnot : c ∉ lx := fun hmem => hxd (h.one x lx d l c hx hd hmem hc)
    exact ⟨lx, hx, (List.erase_of_not_mem hnot).symm⟩
  refine ⟨?_, ?_, ?_⟩
  · intro x lx y hx hy
    obtain ⟨-, l₀, hl₀, rfl⟩ := hold x lx hx
    obtain ⟨hyc, hmem⟩ := (h.nodup x l₀ hl₀).mem_erase_iff.mp hy
    rw [update_of_ne hyc]
    by_cases hyd : y = d
    · rw [hyd, update_self]
      rfl
    rw [update_of_ne hyd]
    exact h.live x l₀ y hl₀ hmem
  · intro x lx hx
    obtain ⟨-, l₀, hl₀, rfl⟩ := hold x lx hx
    exact (h.nodup x l₀ hl₀).erase c
  intro x lx x' lx' y hx hx' hy hy'
  obtain ⟨-, l₀, hl₀, rfl⟩ := hold x lx hx
  obtain ⟨-, l₀', hl₀', rfl⟩ := hold x' lx' hx'
  exact h.one x l₀ x' l₀' y hl₀ hl₀' (List.mem_of_mem_erase hy) (List.mem_of_mem_erase hy')

/-- A new node without children is put at the end of a list. -/
theorem add (h : Forest kids) (hd : kids d = some l) (hc : kids c = none) :
    Forest (update (update kids c (some [])) d (some (l ++ [c]))) := by
  have hnot : ∀ {x lx}, kids x = some lx → c ∉ lx := by
    intro x lx hx hmem
    have hlive := h.live x lx c hx hmem
    rw [hc] at hlive
    cases hlive
  -- a list is empty, an old one, or the one with the new node
  have hcases : ∀ x lx, update (update kids c (some [])) d (some (l ++ [c])) x = some lx →
      lx = [] ∨ ∃ l₀, kids x = some l₀ ∧ (lx = l₀ ∨ x = d ∧ lx = l₀ ++ [c]) := by
    intro x lx hx
    rcases update_some hx with ⟨rfl, rfl⟩ | ⟨-, hx⟩
    · exact .inr ⟨l, hd, .inr ⟨rfl, rfl⟩⟩
    rcases update_some hx with ⟨-, rfl⟩ | ⟨-, hx⟩
    · exact .inl rfl
    · exact .inr ⟨lx, hx, .inl rfl⟩
  have hmem : ∀ x lx y, update (update kids c (some [])) d (some (l ++ [c])) x = some lx → y ∈ lx →
      (y = c ∧ x = d) ∨ ∃ l₀, kids x = some l₀ ∧ y ∈ l₀ := by
    intro x lx y hx hy
    rcases hcases x lx hx with rfl | ⟨l₀, hl₀, rfl | ⟨hxd, rfl⟩⟩
    · cases hy
    · exact .inr ⟨lx, hl₀, hy⟩
    rcases List.mem_append.mp hy with hy | hy
    · exact .inr ⟨l₀, hl₀, hy⟩
    · exact .inl ⟨List.mem_singleton.mp hy, hxd⟩
  refine ⟨?_, ?_, ?_⟩
  · intro x lx y hx hy
    by_cases hyd : y = d
    · rw [hyd, update_self]
      rfl
    rw [update_of_ne hyd]
    by_cases hyc : y = c
    · rw [hyc, update_self]
      rfl
    rw [update_of_ne hyc]
    rcases hmem x lx y hx hy with ⟨heq, -⟩ | ⟨l₀, hl₀, hy⟩
    · exact absurd heq hyc
    · exact h.live x l₀ y hl₀ hy
  · intro x lx hx
    rcases hcases x lx hx with rfl | ⟨l₀, hl₀, rfl | ⟨-, rfl⟩⟩
    · exact List.nodup_nil
    · exact h.nodup x lx hl₀
    exact (List.perm_append_singleton c l₀).nodup_iff.mpr
      (List.nodup_cons.mpr ⟨hnot hl₀, h.nodup x l₀ hl₀⟩)
  intro x lx x' lx' y hx hx' hy hy'
  rcases hmem x lx y hx hy with ⟨rfl, rfl⟩ | ⟨l₀, hl₀, hy⟩
  · rcases hmem x' lx' y hx' hy' with ⟨-, rfl⟩ | ⟨l₀', hl₀', hy'⟩
    · rfl
    · exact absurd hy' (hnot hl₀')
  rcases hmem x' lx' y hx' hy' with ⟨rfl, -⟩ | ⟨l₀', hl₀', hy'⟩
  · exact absurd hy (hnot hl₀)
  · exact h.one x l₀ x' l₀' y hl₀ hl₀' hy hy'

end Forest

end Unikraft.Lib
