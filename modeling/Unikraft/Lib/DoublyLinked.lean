import Mathlib.Data.List.Nodup
import Mathlib.Data.Set.Insert

/-!
# Doubly linked chains without a head

`Linked` describes a piece of a chain together with the nodes before and behind it, so that it can
be cut anywhere (`linked_append`) and its ends joined to something else. `Chains next prev C` says
that `C` is a family of disjoint chains; an operation puts others of the same nodes in the place of
some of them (`Chains.replace`).
-/

namespace Unikraft.Lib

open Function List

variable {N : Type*}

/-- The nodes follow each other, with `before` before the first and `after` behind the last. -/
def Linked (next prev : N → Option N) : Option N → List N → Option N → Prop
  | _, [], _ => True
  | before, x :: xs, after =>
    prev x = before ∧ next x = xs.head?.or after ∧ Linked next prev (some x) xs after

variable {next prev next' prev' : N → Option N} {before after v : Option N} {xs ys c : List N}
  {x y : N}

theorem Linked.congr (h : Linked next prev before c after)
    (hsame : ∀ x ∈ c, next' x = next x ∧ prev' x = prev x) : Linked next' prev' before c after := by
  induction c generalizing before with
  | nil => trivial
  | cons x c ih =>
    obtain ⟨hprev, hnext, htail⟩ := h
    obtain ⟨hn, hp⟩ := hsame x mem_cons_self
    exact ⟨hp.trans hprev, hn.trans hnext, ih htail fun y hy => hsame y (mem_cons_of_mem _ hy)⟩

theorem linked_append : Linked next prev before (xs ++ ys) after ↔
    Linked next prev before xs (ys.head?.or after) ∧
      Linked next prev (xs.getLast?.or before) ys after := by
  induction xs generalizing before with
  | nil => simp [Linked]
  | cons x xs ih =>
    have hhead : (xs ++ ys).head?.or after = xs.head?.or (ys.head?.or after) := by
      cases xs <;> simp
    have hlast : (x :: xs).getLast?.or before = xs.getLast?.or (some x) := by
      rw [getLast?_cons]
      cases xs.getLast? <;> simp
    rw [cons_append, Linked, Linked, ih, hhead, hlast, and_assoc, and_assoc]

variable [DecidableEq N]

/-- The pointers with that of `o`, if there is one, set to `v`. -/
def relink (f : N → Option N) (o v : Option N) : N → Option N :=
  match o with
  | some a => update f a v
  | none => f

theorem relink_of_notMem {f : N → Option N} {o : Option N} (h : x ∉ o) : relink f o v x = f x := by
  cases o with
  | none => rfl
  | some a =>
    have hne : x ≠ a := fun heq => h (congrArg some heq.symm)
    exact update_of_ne hne _ _

theorem Linked.setAfter (h : Linked next prev before c after) (hnd : c.Nodup) (v : Option N) :
    Linked (relink next c.getLast? v) prev before c v := by
  induction c generalizing before with
  | nil => trivial
  | cons x c ih =>
    obtain ⟨hprev, hnext, htail⟩ := h
    obtain ⟨hx, hnd⟩ := nodup_cons.mp hnd
    cases c with
    | nil => exact ⟨hprev, update_self _ _ _, trivial⟩
    | cons y c =>
      refine ⟨hprev, ?_, ih htail hnd⟩
      rw [relink_of_notMem fun hmem => hx ?_, hnext]
      · rfl
      rw [getLast?_cons_cons] at hmem
      exact mem_of_getLast? hmem

theorem Linked.setBefore (h : Linked next prev before c after) (hnd : c.Nodup) (v : Option N) :
    Linked next (relink prev c.head? v) v c after := by
  cases c with
  | nil => trivial
  | cons x c =>
    obtain ⟨-, hnext, htail⟩ := h
    refine ⟨update_self _ _ _, hnext, htail.congr fun y hy => ⟨rfl, ?_⟩⟩
    have hne : y ≠ x := fun heq => (nodup_cons.mp hnd).1 (heq ▸ hy)
    exact update_of_ne hne _ _

omit [DecidableEq N] in
theorem Linked.pointers (h : Linked next prev none (xs ++ x :: ys) none) :
    prev x = xs.getLast? ∧ next x = ys.head? := by
  obtain ⟨-, hprev, hnext, -⟩ := linked_append.mp h
  simp only [Option.or_none] at hprev hnext
  exact ⟨hprev, hnext⟩

/-! ### Families of chains -/

/-- The chains `C` are proper and have no node in common. -/
structure Chains (next prev : N → Option N) (C : Set (List N)) : Prop where
  ne : ∀ c ∈ C, c ≠ []
  nodup : ∀ c ∈ C, c.Nodup
  linked : ∀ c ∈ C, Linked next prev none c none
  unique : ∀ c ∈ C, ∀ c' ∈ C, ∀ x, x ∈ c → x ∈ c' → c = c'

namespace Chains

variable {C old new : Set (List N)}

omit [DecidableEq N] in
/-- **Replacing chains.** Pointers of the other chains do not change, and the new chains have no
node that was not in an old one. -/
theorem replace (h : Chains next prev C) (hold : old ⊆ C)
    (hsame : ∀ x, (∀ c ∈ old, x ∉ c) → next' x = next x ∧ prev' x = prev x)
    (hnew : ∀ c ∈ new, c ≠ [] ∧ c.Nodup ∧ Linked next' prev' none c none)
    (hsub : ∀ c ∈ new, ∀ x ∈ c, ∃ c' ∈ old, x ∈ c')
    (hunique : ∀ c ∈ new, ∀ c' ∈ new, ∀ x, x ∈ c → x ∈ c' → c = c') :
    Chains next' prev' (C \ old ∪ new) := by
  -- a node of a chain that stays is in no old chain
  have hoff : ∀ c ∈ C \ old, ∀ x ∈ c, ∀ c' ∈ old, x ∉ c' := fun c hc x hx c' hc' hx' =>
    hc.2 (h.unique c hc.1 c' (hold hc') x hx hx' ▸ hc')
  refine ⟨?_, ?_, ?_, ?_⟩
  · rintro c (hc | hc)
    · exact h.ne c hc.1
    · exact (hnew c hc).1
  · rintro c (hc | hc)
    · exact h.nodup c hc.1
    · exact (hnew c hc).2.1
  · rintro c (hc | hc)
    · exact (h.linked c hc.1).congr fun x hx => hsame x (hoff c hc x hx)
    · exact (hnew c hc).2.2
  rintro c (hc | hc) c' (hc' | hc') x hx hx'
  · exact h.unique c hc.1 c' hc'.1 x hx hx'
  · obtain ⟨c'', hc'', hmem⟩ := hsub c' hc' x hx'
    exact absurd hmem (hoff c hc x hx c'' hc'')
  · obtain ⟨c'', hc'', hmem⟩ := hsub c hc x hx
    exact absurd hmem (hoff c' hc' x hx' c'' hc'')
  · exact hunique c hc c' hc' x hx hx'

omit [DecidableEq N] in
theorem forget (h : Chains next prev C) (old : Set (List N)) : Chains next prev (C \ old) :=
  ⟨fun c hc => h.ne c hc.1, fun c hc => h.nodup c hc.1, fun c hc => h.linked c hc.1,
    fun c hc c' hc' => h.unique c hc.1 c' hc'.1⟩

omit [DecidableEq N] in
theorem disjoint_of_ne (h : Chains next prev C) (hxs : xs ∈ C) (hys : ys ∈ C) (hne : xs ≠ ys) :
    ∀ x ∈ xs, x ∉ ys := fun x hx hx' => hne (h.unique xs hxs ys hys x hx hx')

/-- **Joining two chains**: the last node of the one and the first node of the other. -/
theorem join (h : Chains next prev C) (hxs : xs ∈ C) (hys : ys ∈ C) (hne : xs ≠ ys) :
    Chains (relink next xs.getLast? ys.head?) (relink prev ys.head? xs.getLast?)
      (C \ {xs, ys} ∪ {xs ++ ys}) := by
  have hdisj := h.disjoint_of_ne hxs hys hne
  have hlast : ∀ x ∈ ys, x ∉ xs.getLast? := fun x hx hmem =>
    hdisj x (mem_of_getLast? hmem) hx
  have hhead : ∀ x ∈ xs, x ∉ ys.head? := fun x hx hmem => hdisj x hx (mem_of_head? hmem)
  refine h.replace (Set.insert_subset hxs (Set.singleton_subset_iff.mpr hys)) (fun x hx => ?_)
    ?_ ?_ ?_
  · have hx1 := hx xs (Set.mem_insert _ _)
    have hx2 := hx ys (Set.mem_insert_of_mem _ rfl)
    exact ⟨relink_of_notMem fun hmem => hx1 (mem_of_getLast? hmem),
      relink_of_notMem fun hmem => hx2 (mem_of_head? hmem)⟩
  · rintro c rfl
    refine ⟨fun hnil => h.ne xs hxs (append_eq_nil_iff.mp hnil).1,
      (h.nodup xs hxs).append (h.nodup ys hys) fun x hx hx' => hdisj x hx hx',
      linked_append.mpr ⟨?_, ?_⟩⟩
    · rw [Option.or_none]
      exact ((h.linked xs hxs).setAfter (h.nodup xs hxs) _).congr fun x hx =>
        ⟨rfl, relink_of_notMem (hhead x hx)⟩
    rw [Option.or_none]
    exact ((h.linked ys hys).setBefore (h.nodup ys hys) _).congr fun x hx =>
      ⟨relink_of_notMem (hlast x hx), rfl⟩
  · rintro c rfl x hx
    rcases mem_append.mp hx with hx | hx
    · exact ⟨xs, Set.mem_insert _ _, hx⟩
    · exact ⟨ys, Set.mem_insert_of_mem _ rfl, hx⟩
  rintro c rfl c' rfl x _ _
  rfl

/-- **Taking a node out of its chain**: its neighbours are joined, and it is a chain of its own. -/
theorem unlink (h : Chains next prev C) (hc : xs ++ x :: ys ∈ C) :
    Chains (update (relink next xs.getLast? ys.head?) x none)
      (update (relink prev ys.head? xs.getLast?) x none)
      (C \ {xs ++ x :: ys} ∪ {c | c = [x] ∨ c = xs ++ ys ∧ c ≠ []}) := by
  have hnd := h.nodup _ hc
  have hnd' : (x :: (xs ++ ys)).Nodup := (perm_middle.nodup_iff).mp hnd
  obtain ⟨hx, hrest⟩ := nodup_cons.mp hnd'
  obtain ⟨hndx, hndy, hdisj⟩ := nodup_append.mp hrest
  have hne (y : N) (hy : y ∈ xs ++ ys) : y ≠ x := fun heq => hx (heq ▸ hy)
  obtain ⟨hleft, -, -, hright⟩ := linked_append.mp (h.linked _ hc)
  have hlinked : Linked (update (relink next xs.getLast? ys.head?) x none)
      (update (relink prev ys.head? xs.getLast?) x none) none (xs ++ ys) none := by
    refine linked_append.mpr ⟨?_, ?_⟩
    · rw [Option.or_none]
      refine (hleft.setAfter hndx _).congr fun y hy => ?_
      have hyx := hne y (mem_append_left _ hy)
      rw [update_of_ne hyx, update_of_ne hyx]
      exact ⟨rfl, relink_of_notMem fun hmem => hdisj y hy y (mem_of_head? hmem) rfl⟩
    rw [Option.or_none]
    refine (hright.setBefore hndy _).congr fun y hy => ?_
    have hyx := hne y (mem_append_right _ hy)
    rw [update_of_ne hyx, update_of_ne hyx]
    exact ⟨relink_of_notMem fun hmem => hdisj y (mem_of_getLast? hmem) y hy rfl, rfl⟩
  refine h.replace (Set.singleton_subset_iff.mpr hc) (fun y hy => ?_) ?_ ?_ ?_
  · have hy := hy _ rfl
    rw [mem_append, mem_cons, not_or, not_or] at hy
    rw [update_of_ne hy.2.1, update_of_ne hy.2.1]
    exact ⟨relink_of_notMem fun hmem => hy.1 (mem_of_getLast? hmem),
      relink_of_notMem fun hmem => hy.2.2 (mem_of_head? hmem)⟩
  · rintro c (rfl | ⟨rfl, hnil⟩)
    · exact ⟨by simp, nodup_singleton x, update_self _ _ _,
        update_self _ _ _, trivial⟩
    · exact ⟨hnil, hrest, hlinked⟩
  · rintro c (rfl | ⟨rfl, -⟩) y hy
    · exact ⟨_, rfl, by simp [mem_singleton.mp hy]⟩
    refine ⟨_, rfl, ?_⟩
    rcases mem_append.mp hy with hy | hy <;> simp [hy]
  rintro c (rfl | ⟨rfl, -⟩) c' (rfl | ⟨rfl, -⟩) y hy hy'
  · rfl
  · exact absurd (mem_singleton.mp hy) (hne y hy')
  · exact absurd (mem_singleton.mp hy') (hne y hy)
  · rfl

end Chains

end Unikraft.Lib
