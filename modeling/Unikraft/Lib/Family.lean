import Mathlib.Algebra.Group.Pi.Basic
import Mathlib.Algebra.GroupWithZero.Nat
import Mathlib.Data.List.Nodup
import Unikraft.Lib.PartialMap

/-!
# Counted objects with a parent

A member may have a parent, on which it holds a counted reference, and which has it in its list of
children; `ext a` references on `a` are in the hands of the code. The rules of `Family` follow a
call reference by reference: `hold` and `drop`, `alloc` and `remove`, `detach` and `attach`.
-/

namespace Unikraft.Lib

/-- A member: its parent, its children and its counter. -/
structure Member (N : Type*) where
  parent : Option N
  kids : List N
  count : Nat

/-- Parents and children agree, and every counter is the number of references. -/
structure Family {N : Type*} (f : N → Option (Member N)) (ext : N → Nat) : Prop where
  kids : ∀ a m x, f a = some m → (x ∈ m.kids ↔ ∃ k, f x = some k ∧ k.parent = some a)
  nodup : ∀ a m, f a = some m → m.kids.Nodup
  parent : ∀ x k a, f x = some k → k.parent = some a → ∃ m, f a = some m
  irrefl : ∀ x k, f x = some k → k.parent ≠ some x
  count : ∀ a m, f a = some m → m.count = m.kids.length + ext a
  pos : ∀ a m, f a = some m → 0 < m.count
  held : ∀ a, ext a ≠ 0 → ∃ m, f a = some m

namespace Family

open Function Pi

variable {N : Type*} [DecidableEq N] {f : N → Option (Member N)} {ext ext' : N → Nat} {a b x : N}
  {m k k' m' n : Member N}

/-- Only the counter of `a` changes. -/
theorem recount {n : Nat} (h : Family f ext) (ha : f a = some m) (hn : 0 < n)
    (hcount : n = m.kids.length + ext' a) (hext : ∀ b, b ≠ a → ext' b = ext b) :
    Family (update f a (some { m with count := n })) ext' := by
  -- a member after the change is one before it, with the same parent and children
  have hold : ∀ b m', update f a (some { m with count := n }) b = some m' →
      ∃ m₀, f b = some m₀ ∧ m'.parent = m₀.parent ∧ m'.kids = m₀.kids := by
    intro b m' hb
    rcases update_some hb with ⟨rfl, rfl⟩ | ⟨-, hb⟩
    · exact ⟨m, ha, rfl, rfl⟩
    · exact ⟨m', hb, rfl, rfl⟩
  have hnew : ∀ b m₀, f b = some m₀ →
      ∃ m', update f a (some { m with count := n }) b = some m' ∧ m'.parent = m₀.parent := by
    intro b m₀ hb
    by_cases hba : b = a
    · rw [hba, ha] at hb
      cases hb
      exact ⟨{ m with count := n }, by rw [hba, update_self], rfl⟩
    · exact ⟨m₀, by rw [update_of_ne hba, hb], rfl⟩
  refine ⟨?_, ?_, ?_, ?_, ?_, ?_, ?_⟩
  · intro b m' y hb
    obtain ⟨m₀, hm₀, -, hkids⟩ := hold b m' hb
    rw [hkids, h.kids b m₀ y hm₀]
    constructor
    · intro ⟨k, hk, hkp⟩
      obtain ⟨k', hk', hp⟩ := hnew y k hk
      exact ⟨k', hk', hp.trans hkp⟩
    intro ⟨k', hk', hkp⟩
    obtain ⟨k, hk, hp, -⟩ := hold y k' hk'
    exact ⟨k, hk, hp ▸ hkp⟩
  · intro b m' hb
    obtain ⟨m₀, hm₀, -, hkids⟩ := hold b m' hb
    exact hkids ▸ h.nodup b m₀ hm₀
  · intro y k' b hy hp
    obtain ⟨k, hk, hkp, -⟩ := hold y k' hy
    obtain ⟨m₀, hm₀⟩ := h.parent y k b hk (hkp ▸ hp)
    obtain ⟨m', hm', -⟩ := hnew b m₀ hm₀
    exact ⟨m', hm'⟩
  · intro y k' hy hp
    obtain ⟨k, hk, hkp, -⟩ := hold y k' hy
    exact h.irrefl y k hk (hkp ▸ hp)
  · exact forall_update hcount fun b m' hba hb => hext b hba ▸ h.count b m' hb
  · exact forall_update hn fun b m' _ => h.pos b m'
  intro b hb
  by_cases hba : b = a
  · exact ⟨_, by rw [hba, update_self]⟩
  obtain ⟨m₀, hm₀⟩ := h.held b (hext b hba ▸ hb)
  exact ⟨m₀, by rw [update_of_ne hba, hm₀]⟩

theorem hold (h : Family f ext) (ha : f a = some m) :
    Family (update f a (some { m with count := m.count + 1 })) (ext + single a 1) := by
  refine h.recount ha (Nat.succ_pos _) ?_ fun b hb => ?_
  · have hcount := h.count a m ha
    simp only [Pi.add_apply, single_eq_same]
    omega
  · simp [single_eq_of_ne hb]

theorem drop (h : Family f (ext + single a 1)) (ha : f a = some m) (hm : m.count ≠ 1) :
    Family (update f a (some { m with count := m.count - 1 })) ext := by
  have hcount := h.count a m ha
  have hpos := h.pos a m ha
  simp only [Pi.add_apply, single_eq_same] at hcount
  refine h.recount ha (by omega) (by omega) fun b hb => ?_
  simp [single_eq_of_ne hb]

/-- A new member without a parent, with one reference in the hands of the code. -/
theorem alloc (h : Family f ext) (ha : f a = none) :
    Family (update f a (some ⟨none, [], 1⟩)) (ext + single a 1) := by
  have hne : ∀ b m, f b = some m → b ≠ a := fun b m hb heq => by rw [heq, ha] at hb; cases hb
  have hext : ext a = 0 := by
    by_contra hne
    obtain ⟨m, hm⟩ := h.held a hne
    rw [ha] at hm
    cases hm
  have hkeep : ∀ b m, f b = some m → update f a (some ⟨none, [], 1⟩) b = some m :=
    fun b m hb => (update_of_ne (hne b m hb) ..).trans hb
  refine ⟨?_, ?_, ?_, ?_, ?_, ?_, ?_⟩
  · intro b m y hb
    rcases update_some hb with ⟨rfl, rfl⟩ | ⟨hba, hb⟩
    · constructor
      · intro hy
        cases hy
      intro ⟨k, hk, hp⟩
      rcases update_some hk with ⟨-, rfl⟩ | ⟨-, hk⟩
      · cases hp
      obtain ⟨m, hm⟩ := h.parent y k b hk hp
      rw [ha] at hm
      cases hm
    rw [h.kids b m y hb]
    constructor
    · intro ⟨k, hk, hp⟩
      exact ⟨k, hkeep y k hk, hp⟩
    intro ⟨k, hk, hp⟩
    rcases update_some hk with ⟨-, rfl⟩ | ⟨-, hk⟩
    · cases hp
    · exact ⟨k, hk, hp⟩
  · exact forall_update List.nodup_nil fun b m _ => h.nodup b m
  · intro y k b hy hp
    rcases update_some hy with ⟨-, rfl⟩ | ⟨-, hy⟩
    · cases hp
    obtain ⟨m, hm⟩ := h.parent y k b hy hp
    exact ⟨m, hkeep b m hm⟩
  · exact forall_update nofun fun y k _ => h.irrefl y k
  · refine forall_update (by simp [hext]) fun b m hba hb => ?_
    simp [h.count b m hb, single_eq_of_ne hba]
  · exact forall_update Nat.one_pos fun b m _ => h.pos b m
  intro b hb
  by_cases hba : b = a
  · exact ⟨⟨none, [], 1⟩, by rw [hba, update_self]⟩
  simp only [Pi.add_apply, single_eq_of_ne hba, Nat.add_zero] at hb
  obtain ⟨m, hm⟩ := h.held b hb
  exact ⟨m, hkeep b m hm⟩

/-- The last reference on a member without a parent: it has no children. -/
theorem remove (h : Family f (ext + single a 1)) (ha : f a = some m) (hp : m.parent = none)
    (hm : m.count = 1) : Family (update f a none) ext := by
  have hcount := h.count a m ha
  simp only [Pi.add_apply, single_eq_same] at hcount
  have hkids : m.kids = [] := List.length_eq_zero_iff.mp (by omega)
  have hext : ext a = 0 := by omega
  -- nobody has the member as its parent, and it is nobody's child
  have hparent : ∀ y k, f y = some k → k.parent ≠ some a := by
    intro y k hy hyp
    have hmem := (h.kids a m y ha).mpr ⟨k, hy, hyp⟩
    rw [hkids] at hmem
    cases hmem
  refine ⟨?_, ?_, ?_, ?_, ?_, ?_, ?_⟩
  · intro b m' y hb
    obtain ⟨hba, hb⟩ := update_none hb
    rw [h.kids b m' y hb]
    constructor
    · intro ⟨k, hk, hkp⟩
      refine ⟨k, (update_of_ne ?_ ..).trans hk, hkp⟩
      intro hya
      rw [hya, ha] at hk
      cases hk
      rw [hp] at hkp
      cases hkp
    intro ⟨k, hk, hkp⟩
    exact ⟨k, (update_none hk).2, hkp⟩
  · intro b m' hb
    exact h.nodup b m' (update_none hb).2
  · intro y k b hy hyp
    obtain ⟨-, hy⟩ := update_none hy
    obtain ⟨m', hm'⟩ := h.parent y k b hy hyp
    have hba : b ≠ a := fun hba => hparent y k hy (by rw [hyp, hba])
    exact ⟨m', (update_of_ne hba ..).trans hm'⟩
  · intro y k hy
    exact h.irrefl y k (update_none hy).2
  · intro b m' hb
    obtain ⟨hba, hb⟩ := update_none hb
    simpa [single_eq_of_ne hba] using h.count b m' hb
  · intro b m' hb
    exact h.pos b m' (update_none hb).2
  intro b hb
  have hba : b ≠ a := fun hba => hb (hba ▸ hext)
  obtain ⟨m', hm'⟩ := h.held b (by simpa [single_eq_of_ne hba] using hb)
  exact ⟨m', (update_of_ne hba ..).trans hm'⟩

theorem cases_update₂ {y : N} (hy : update (update f a (some m')) x (some k') y = some n) :
    (y = x ∧ n = k') ∨ (y ≠ x ∧ y = a ∧ n = m') ∨ (y ≠ x ∧ y ≠ a ∧ f y = some n) := by
  rcases update_some hy with hy | ⟨hyx, hy⟩
  · exact .inl hy
  rcases update_some hy with hy | hy
  · exact .inr (.inl ⟨hyx, hy⟩)
  · exact .inr (.inr ⟨hyx, hy⟩)

theorem forall_update₂ {P : N → Member N → Prop} (hx : P x k') (ha : P a m')
    (hold : ∀ b n, b ≠ a → f b = some n → P b n) :
    ∀ b n, update (update f a (some m')) x (some k') b = some n → P b n :=
  forall_update hx fun b n _ => forall_update (P := P) ha hold b n

theorem exists_update₂ {y : N} (hy : f y = some n) :
    ∃ n', update (update f a (some m')) x (some k') y = some n' := by
  by_cases hyx : y = x
  · exact ⟨k', by rw [hyx, update_self]⟩
  rw [update_of_ne hyx]
  by_cases hya : y = a
  · exact ⟨m', by rw [hya, update_self]⟩
  · exact ⟨n, by rw [update_of_ne hya, hy]⟩

section

variable (h : Family f ext)

include h

/-- The children of `b` when only the parent of `x` has changed, to `q`. -/
theorem child_iff {q : Option N} {l : List N} {c : Nat} (ha : f a = some m)
    {b y : N} (hb : f b = some n) :
    (∃ n', update (update f a (some ⟨m.parent, l, c⟩)) x (some ⟨q, k.kids, k.count⟩) y = some n' ∧
        n'.parent = some b) ↔
      if y = x then q = some b else y ∈ n.kids := by
  split
  · rename_i hyx
    rw [hyx, update_self]
    constructor
    · intro ⟨n', hn', hp⟩
      cases hn'
      exact hp
    intro hq
    exact ⟨_, rfl, hq⟩
  rename_i hyx
  rw [update_of_ne hyx, h.kids b n y hb]
  by_cases hya : y = a
  · rw [hya, update_self]
    constructor
    · intro ⟨n', hn', hp⟩
      cases hn'
      exact ⟨m, ha, hp⟩
    intro ⟨n', hn', hp⟩
    rw [ha] at hn'
    cases hn'
    exact ⟨_, rfl, hp⟩
  · rw [update_of_ne hya]

/-- The parent of `x` changes to `q`, and the children of `a` with it. -/
theorem reparent {q : Option N} {l : List N} {c : Nat} (hx : f x = some k)
    (ha : f a = some m) (hxa : x ≠ a) (hq : ∀ b, q = some b → b = a) (hnodup : l.Nodup)
    (hl : ∀ y, y ∈ l ↔ if y = x then q = some a else y ∈ m.kids)
    (hother : ∀ b n, f b = some n → b ≠ a → x ∉ n.kids) (hpos : 0 < c)
    (hcount : c = l.length + ext' a) (hext : ∀ b, b ≠ a → ext' b = ext b) :
    Family (update (update f a (some ⟨m.parent, l, c⟩)) x (some ⟨q, k.kids, k.count⟩)) ext' := by
  -- the children of a member other than `a` are the same
  have hsame : ∀ b n y, f b = some n → b ≠ a →
      (y ∈ n.kids ↔ if y = x then q = some b else y ∈ n.kids) := by
    intro b n y hb hba
    split
    · rename_i hyx
      rw [hyx]
      exact ⟨fun hin => absurd hin (hother b n hb hba), fun hqb => absurd (hq b hqb) hba⟩
    · rfl
  refine ⟨?_, ?_, ?_, ?_, ?_, ?_, ?_⟩
  · intro b n y hb
    rcases cases_update₂ hb with ⟨rfl, rfl⟩ | ⟨-, rfl, rfl⟩ | ⟨-, hba, hb⟩
    · rw [h.child_iff ha hx]
      exact hsame b k y hx hxa
    · rw [h.child_iff ha ha]
      exact hl y
    rw [h.child_iff ha hb]
    exact hsame b n y hb hba
  · exact forall_update₂ (h.nodup x k hx) hnodup fun b n _ => h.nodup b n
  · intro y n b hy hyp
    rcases cases_update₂ hy with ⟨-, rfl⟩ | ⟨-, rfl, rfl⟩ | ⟨-, -, hy⟩
    · rw [hq b hyp]
      exact exists_update₂ ha
    · obtain ⟨n', hn'⟩ := h.parent y m b ha hyp
      exact exists_update₂ hn'
    obtain ⟨n', hn'⟩ := h.parent y n b hy hyp
    exact exists_update₂ hn'
  · exact forall_update₂ (fun hyp => hxa (hq x hyp)) (h.irrefl a m ha) fun y n _ => h.irrefl y n
  · refine forall_update₂ ?_ hcount fun b n hba hb => ?_
    · rw [hext x hxa]
      exact h.count x k hx
    · rw [hext b hba]
      exact h.count b n hb
  · exact forall_update₂ (h.pos x k hx) hpos fun b n _ => h.pos b n
  intro b hb
  by_cases hba : b = a
  · exact exists_update₂ (hba ▸ ha)
  obtain ⟨n, hn⟩ := h.held b (hext b hba ▸ hb)
  exact exists_update₂ hn

/-- A member gives up its parent; the reference it had is in the hands of the code. -/
theorem detach (hx : f x = some k) (hp : k.parent = some a) (ha : f a = some m) :
    Family (update (update f a (some { m with kids := m.kids.erase x })) x
      (some { k with parent := none })) (ext + single a 1) := by
  have hxa : x ≠ a := fun hxa => h.irrefl x k hx (by rw [hp, hxa])
  have hmem : x ∈ m.kids := (h.kids a m x ha).mpr ⟨k, hx, hp⟩
  have hlen := List.length_erase_of_mem hmem
  have hone := List.length_pos_of_mem hmem
  have hcount := h.count a m ha
  refine h.reparent hx ha hxa nofun ((h.nodup a m ha).erase x) (fun y => ?_) ?_ (h.pos a m ha) ?_
    fun b hb => by simp [single_eq_of_ne hb]
  · rw [(h.nodup a m ha).mem_erase_iff]
    split
    · rename_i hyx
      simp [hyx]
    rename_i hyx
    simp [hyx]
  · -- `x` was the child of `a` only
    intro b n hb hba hin
    obtain ⟨k', hk', hp'⟩ := (h.kids b n x hb).mp hin
    rw [hx] at hk'
    cases hk'
    rw [hp] at hp'
    exact hba (Option.some.inj hp').symm
  simp only [Pi.add_apply, single_eq_same, hlen]
  omega

/-- A member without a parent takes one, with a reference of its own. -/
theorem attach (hx : f x = some k) (hp : k.parent = none) (ha : f a = some m) (hxa : x ≠ a) :
    Family (update (update f a (some { m with kids := x :: m.kids, count := m.count + 1 })) x
      (some { k with parent := some a })) ext := by
  -- `x` was nobody's child
  have hnot : ∀ b n, f b = some n → x ∉ n.kids := by
    intro b n hb hin
    obtain ⟨k', hk', hp'⟩ := (h.kids b n x hb).mp hin
    rw [hx] at hk'
    cases hk'
    rw [hp] at hp'
    cases hp'
  have hcount := h.count a m ha
  refine h.reparent hx ha hxa (fun b hb => (Option.some.inj hb).symm)
    (List.nodup_cons.mpr ⟨hnot a m ha, h.nodup a m ha⟩) (fun y => ?_) (fun b n hb _ => hnot b n hb)
    (Nat.succ_pos _) ?_ fun _ _ => rfl
  · rw [List.mem_cons]
    split
    · rename_i hyx
      simp [hyx]
    rename_i hyx
    simp [hyx]
  rw [List.length_cons]
  omega

end

end Family

end Unikraft.Lib
