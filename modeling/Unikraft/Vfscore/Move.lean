import Unikraft.Vfscore.Dentry

/-!
# Dentries that change their place (`dentry_remove` and `dentry_move` of `vfscore/dentry.c`)

`dentry_move` also takes the children of the dentry out of the hash table, but puts them on no other
list, so that the invariant of the cache survives only if there are none.
-/

namespace Unikraft.Vfscore

open Lib Function Outcome

/-- What is left of the cache when the dentries that are `gone` are taken out of the hash table
and references are dropped. -/
structure Unhashed (c : Dcache) (L : Chain → List Nat) (gone : Nat → Prop) (c' : Dcache)
    (L' : Chain → List Nat) : Prop where
  ident : ∀ x i, c'.ident x = some i → c.ident x = some i
  kids : ∀ x d', c'.dentries x = some d' → ∃ d, c.dentries x = some d ∧ d'.dChildren ⊆ d.dChildren
  hashed : ∀ x, Hashed L' x → Hashed L x ∧ ¬ gone x
  keep : ∀ x, Hashed L x → ¬ gone x → (c'.ident x).isSome → Hashed L' x

/-- What is left of the cache when the dentry `a` gets the path `path` and the parent `p` and
references are dropped. -/
structure Rehung (c : Dcache) (L : Chain → List Nat) (a p : Nat) (path : List Char) (c' : Dcache)
    (L' : Chain → List Nat) : Prop where
  ident : ∀ x i, x ≠ a → c'.ident x = some i → c.ident x = some i
  moved : ∀ i, c'.ident a = some i →
    ∃ i₀, c.ident a = some i₀ ∧ i = { i₀ with dPath := path, dParent := some p }
  kids : ∀ x d', c'.dentries x = some d' →
    ∃ d, c.dentries x = some d ∧ ∀ y ∈ d'.dChildren, y ∈ d.dChildren ∨ x = p
  hashed : ∀ x, Hashed L' x → x = a ∨ Hashed L x
  keep : ∀ x, x ≠ a → Hashed L x → (c'.ident x).isSome → Hashed L' x

section

variable {c c' c₁ : Dcache} {L L' L₁ : Chain → List Nat} {ext : Nat → Nat} {a p : Nat} {d : Dentry}
  {gone : Nat → Prop} {path : List Char}

theorem Unhashed.shrunk (h : Unhashed c L gone c₁ L₁) (h' : Shrunk c₁ L₁ c' L') :
    Unhashed c L gone c' L' where
  ident x i hi := h.ident x i (h'.ident x i hi)
  kids x d' hd' := by
    obtain ⟨d₁, hd₁, hsub₁⟩ := h'.kids x d' hd'
    obtain ⟨d, hd, hsub⟩ := h.kids x d₁ hd₁
    exact ⟨d, hd, fun y hy => hsub (hsub₁ hy)⟩
  hashed x hx := h.hashed x (h'.hashed hx)
  keep x hx hgone hlive := h'.hashed_keep (h.keep x hx hgone (h'.live hlive)) hlive

theorem Rehung.shrunk (h : Rehung c L a p path c₁ L₁) (h' : Shrunk c₁ L₁ c' L') :
    Rehung c L a p path c' L' where
  ident x i hx hi := h.ident x i hx (h'.ident x i hi)
  moved i hi := h.moved i (h'.ident a i hi)
  kids x d' hd' := by
    obtain ⟨d₁, hd₁, hsub₁⟩ := h'.kids x d' hd'
    obtain ⟨d, hd, hsub⟩ := h.kids x d₁ hd₁
    exact ⟨d, hd, fun y hy => hsub y (hsub₁ hy)⟩
  hashed x hx := h.hashed x (h'.hashed hx)
  keep x hne hx hlive := h'.hashed_keep (h.keep x hne hx (h'.live hlive)) hlive

theorem Rehung.old_vnode {x : Nat} {i : Ident} (h : Rehung c L a p path c' L')
    (hi : c'.ident x = some i) : ∃ i₀, c.ident x = some i₀ ∧ i.dVnode = i₀.dVnode ∧
      (i = i₀ ∨ i.dPath = path ∧ i.dParent = some p) := by
  by_cases hx : x = a
  · obtain ⟨i₀, hi₀, rfl⟩ := h.moved i (hx ▸ hi)
    exact ⟨i₀, hx ▸ hi₀, rfl, .inr ⟨rfl, rfl⟩⟩
  · exact ⟨i, h.ident x i hx hi, rfl, .inl rfl⟩

theorem ChainsOk.mem_move {links : Links Chain Nat} {ident : Nat → Option Ident}
    (h : ChainsOk links ident L) {ch : Chain} {xs ys : List Nat} (hL : L ch = xs ++ a :: ys)
    (ch' h' : Chain) (x : Nat) :
    x ∈ update (update L ch (xs ++ ys)) ch' (a :: update L ch (xs ++ ys) ch') h' ↔
      (x = a ∧ h' = ch') ∨ (x ∈ L h' ∧ x ≠ a) := by
  by_cases hch : h' = ch'
  · rw [hch, update_self, List.mem_cons, h.mem_del hL]
    simp
  rw [update_of_ne hch, h.mem_del hL]
  simp [hch]

theorem DcacheOk.dentryRemove (h : DcacheOk c L ext) (hd : c.dentries a = some d) :
    ∃ c' L', Vfscore.dentryRemove c a = .ok c' ∧ DcacheOk c' L' ext ∧
      Unhashed c L (· = a) c' L' := by
  obtain ⟨ch, xs, ys, hL⟩ := h.chains.split hd
  have hmove := h.chains.move (i := d.toIdent) hL (.inl rfl)
  rw [← ident_some hd, update_eq_self] at hmove
  have hmem := h.chains.mem_move hL .fake
  refine ⟨{ c with links := (c.links.del a).addHead .fake a }, _, ?_,
    ⟨h.family, hmove, h.addrs, h.addrs_nodup, h.fresh⟩, ?_⟩
  · rw [Vfscore.dentryRemove, deref_some hd]
    rfl
  refine ⟨fun _ _ hi => hi, fun _ d' hd' => ⟨d', hd', fun _ hy => hy⟩, ?_, ?_⟩
  · intro x ⟨b, hb⟩
    rcases (hmem (.bucket b) x).mp hb with ⟨-, hfake⟩ | ⟨hx, hne⟩
    · cases hfake
    · exact ⟨⟨b, hx⟩, hne⟩
  intro x ⟨b, hb⟩ hne _
  exact ⟨b, (hmem (.bucket b) x).mpr (.inr ⟨hb, hne⟩)⟩

/-- `c₁` is `c` after `a` has been taken from the children of its parent; the reference on the
parent is in the hands of the code. -/
structure Detached (c : Dcache) (a : Nat) (d : Dentry) (c₁ : Dcache) (ext : Nat → Nat) : Prop where
  links : c₁.links = c.links
  addrs : c₁.addrs = c.addrs
  next : c₁.next = c.next
  self : c₁.dentries a = some d
  ident : c₁.ident = c.ident
  kids : ∀ x d₁, c₁.dentries x = some d₁ → ∃ d, c.dentries x = some d ∧ d₁.dChildren ⊆ d.dChildren
  family : Family (update c₁.fam a (some { d.member with parent := none })) ext

theorem DcacheOk.detach_none (h : DcacheOk c L ext) (hd : c.dentries a = some d)
    (hparent : d.dParent = none) : Detached c a d c ext where
  links := rfl
  addrs := rfl
  next := rfl
  self := hd
  ident := rfl
  kids _ d₁ hd₁ := ⟨d₁, hd₁, fun _ hy => hy⟩
  family := by
    have hmember : ({ d.member with parent := none } : Member Nat) = d.member := by
      rw [← hparent]
      rfl
    rw [hmember, ← fam_some hd, update_eq_self]
    exact h.family

theorem DcacheOk.detach_some {q : Nat} (h : DcacheOk c L ext) (hd : c.dentries a = some d)
    (hparent : d.dParent = some q) :
    ∃ qd, c.dentries q = some qd ∧
      Detached c a d (c.set q { qd with dChildren := qd.dChildren.erase a })
        (ext + Pi.single q 1) := by
  obtain ⟨m, hm⟩ := h.family.parent a _ q (fam_some hd) hparent
  obtain ⟨qd, hq, rfl⟩ := dentry_of_fam hm
  have hne : a ≠ q := fun heq => h.family.irrefl a _ (fam_some hd) (heq ▸ hparent)
  have hident : c.ident q = some qd.toIdent := ident_some hq
  have hshrunk : Shrunk c L (c.set q { qd with dChildren := qd.dChildren.erase a }) L :=
    Shrunk.set hq rfl List.erase_subset
  refine ⟨qd, hq, rfl, rfl, rfl, (set_of_ne hne).trans hd, ident_set_same hident, hshrunk.kids, ?_⟩
  · rw [fam_set]
    exact h.family.detach (fam_some hd) hparent (fam_some hq)

/-- The cache after `a` has been put below `p` under another path. -/
def Dcache.rehung (c : Dcache) (a p : Nat) (d pd : Dentry) (path : List Char) : Dcache :=
  { (c.set p { pd with dRefcnt := pd.dRefcnt + 1, dChildren := a :: pd.dChildren }).set a
      { d with dPath := path, dParent := some p } with
    links := (c.links.del a).addHead (.bucket (dentryHash d.dMount path)) a }

variable {pd : Dentry}

theorem Detached.rehung_family (hdet : Detached c a d c₁ ext)
    (hp : c₁.dentries p = some pd) (hne : a ≠ p) : Family (c₁.rehung a p d pd path).fam ext := by
  have hpar : update c₁.fam a (some { d.member with parent := none }) p = some pd.member := by
    rw [update_of_ne hne.symm, fam_some hp]
  have hatt := hdet.family.attach (update_self ..) rfl hpar hne
  rw [update_comm hne, update_idem] at hatt
  have hfam : (c₁.rehung a p d pd path).fam =
      ((c₁.set p { pd with dRefcnt := pd.dRefcnt + 1, dChildren := a :: pd.dChildren }).set a
        { d with dPath := path, dParent := some p }).fam := rfl
  rw [hfam, fam_set, fam_set]
  exact hatt

theorem Detached.rehung_ident (hdet : Detached c a d c₁ ext)
    (hp : c₁.dentries p = some pd) (path : List Char) : (c₁.rehung a p d pd path).ident =
      update c.ident a (some { d.toIdent with dPath := path, dParent := some p }) := by
  have hident : (c₁.rehung a p d pd path).ident =
      ((c₁.set p { pd with dRefcnt := pd.dRefcnt + 1, dChildren := a :: pd.dChildren }).set a
        { d with dPath := path, dParent := some p }).ident := rfl
  have hsame : ∀ pd' : Dentry, pd'.toIdent = pd.toIdent → (c₁.set p pd').ident = c₁.ident :=
    fun pd' heq => ident_set_same (by rw [ident_some hp, heq])
  rw [hident, ident_set, ← hdet.ident]
  exact congrArg (update · a _) (hsame _ rfl)

theorem DcacheOk.rehang {ext' : Nat → Nat} (h : DcacheOk c L ext') (hdet : Detached c a d c₁ ext)
    (hp : c₁.dentries p = some pd) (hne : a ≠ p) (path : List Char) :
    ∃ L', DcacheOk (c₁.rehung a p d pd path) L' ext ∧
      Rehung c L a p path (c₁.rehung a p d pd path) L' := by
  have hident := hdet.rehung_ident hp path
  have hself : c.ident a = some d.toIdent := by rw [← hdet.ident, ident_some hdet.self]
  obtain ⟨d₀, hd₀, -⟩ := dentry_of_ident hself
  obtain ⟨ch, xs, ys, hL⟩ := h.chains.split hd₀
  have hmem := h.chains.mem_move hL (.bucket (dentryHash d.dMount path))
  have hlive : ∀ x, ((c₁.rehung a p d pd path).dentries x).isSome ↔ (c.dentries x).isSome := by
    intro x
    rw [isSome_ident, isSome_ident, hident]
    by_cases hx : x = a
    · rw [hx, update_self, hself]
      simp
    · rw [update_of_ne hx]
  refine ⟨update (update L ch (xs ++ ys)) (.bucket (dentryHash d.dMount path))
      (a :: update L ch (xs ++ ys) (.bucket (dentryHash d.dMount path))),
    ⟨hdet.rehung_family hp hne, ?_, ?_, ?_, ?_⟩, ?_, ?_, ?_, ?_, ?_⟩
  · rw [hident]
    show ChainsOk ((c₁.links.del a).addHead _ a) _ _
    rw [hdet.links]
    exact h.chains.move hL (.inr rfl)
  · intro x
    rw [hlive]
    show x ∈ c₁.addrs ↔ _
    rw [hdet.addrs]
    exact h.addrs x
  · show c₁.addrs.Nodup
    rw [hdet.addrs]
    exact h.addrs_nodup
  · intro x hx
    show x < c₁.next
    rw [hdet.next]
    exact h.fresh x ((hlive x).mp hx)
  · intro x i hx hi
    rwa [hident, update_of_ne hx] at hi
  · intro i hi
    rw [hident, update_self] at hi
    exact ⟨_, hself, (Option.some.inj hi).symm⟩
  · intro x d' hd'
    by_cases hxa : x = a
    · obtain ⟨d₁, hd₁, hsub⟩ := hdet.kids x d (hxa ▸ hdet.self)
      have hself' : (c₁.rehung a p d pd path).dentries a =
          some { d with dPath := path, dParent := some p } := set_self
      rw [hxa, hself'] at hd'
      cases hd'
      exact ⟨d₁, hd₁, fun y hy => .inl (hsub hy)⟩
    have hother : (c₁.rehung a p d pd path).dentries x = (c₁.set p _).dentries x := set_of_ne hxa
    rw [hother] at hd'
    by_cases hxp : x = p
    · obtain ⟨d₁, hd₁, -⟩ := hdet.kids x pd (hxp ▸ hp)
      exact ⟨d₁, hd₁, fun y _ => .inr hxp⟩
    rw [set_of_ne hxp] at hd'
    obtain ⟨d₁, hd₁, hsub⟩ := hdet.kids x d' hd'
    exact ⟨d₁, hd₁, fun y hy => .inl (hsub hy)⟩
  · intro x ⟨b, hb⟩
    rcases (hmem (.bucket b) x).mp hb with ⟨hx, -⟩ | ⟨hx, -⟩
    · exact .inl hx
    · exact .inr ⟨b, hx⟩
  intro x hx ⟨b, hb⟩ _
  exact ⟨b, (hmem (.bucket b) x).mpr (.inr ⟨hb, hx⟩)⟩

/-- **`dentry_move`** of a dentry without children. -/
theorem DcacheOk.dentryMove (h : DcacheOk c L ext) (hd : c.dentries a = some d)
    (hkids : d.dChildren = []) (hp : c.dentries p = some pd) (hne : a ≠ p) (path : List Char) :
    ∃ c' L', Vfscore.dentryMove c a (some p) path true = .ok (none, c') ∧ DcacheOk c' L' ext ∧
      Rehung c L a p path c' L' := by
  -- what follows when the dentry has been taken out of the list of its parent's children
  have hput : ∀ {c₁ : Dcache} {ext₁ : Nat → Nat}, Detached c a d c₁ ext₁ →
      ∃ pd₁ c₂, c₁.dentries p = some pd₁ ∧ Vfscore.dref c₁ p = .ok c₂ ∧
        addChild c₂ p a = .ok (c₁.set p
          { pd₁ with dRefcnt := pd₁.dRefcnt + 1, dChildren := a :: pd₁.dChildren }) := by
    intro c₁ ext₁ hdet
    obtain ⟨pd₁, hp₁, -⟩ := dentry_of_ident ((congrFun hdet.ident p).trans (ident_some hp))
    have hpos : 0 < pd₁.dRefcnt := by
      refine hdet.family.pos p pd₁.member ?_
      rw [update_of_ne hne.symm, fam_some hp₁]
    refine ⟨pd₁, c₁.set p { pd₁ with dRefcnt := pd₁.dRefcnt + 1 }, hp₁, ?_, ?_⟩
    · rw [Vfscore.dref, deref_some hp₁, ok_bind, ukAssert_pos hpos]
      rfl
    rw [addChild, deref_some set_self, ok_bind, Dcache.set, Dcache.set]
    simp only [update_idem]
    rfl
  have hnone : ∀ c₂, dentryChildrenRemove d.dChildren c₂ = .ok c₂ := by
    intro c₂
    rw [hkids]
    rfl
  cases hparent : d.dParent with
  | none =>
    have hdet := h.detach_none hd hparent
    obtain ⟨pd₁, c₂, hp₁, href, hadd⟩ := hput hdet
    obtain ⟨L', hok, hrehung⟩ := h.rehang hdet hp₁ hne path
    refine ⟨_, L', ?_, hok, hrehung⟩
    simp only [Vfscore.dentryMove, deref_some hd, ok_bind, hparent, href, hadd,
      deref_some ((set_of_ne hne).trans hdet.self), hnone, Bool.not_true,
      Bool.false_eq_true, if_false]
    rfl
  | some q =>
    obtain ⟨qd, hq, hdet⟩ := h.detach_some hd hparent
    obtain ⟨pd₁, c₂, hp₁, href, hadd⟩ := hput hdet
    obtain ⟨L₁, hok₁, hrehung₁⟩ := h.rehang hdet hp₁ hne path
    obtain ⟨c', L', hcall, hok, hshrunk, -⟩ := hok₁.drele
    have hremove : removeChild c q a =
        .ok (c.set q { qd with dChildren := qd.dChildren.erase a }) := by
      rw [removeChild, deref_some hq]
      rfl
    refine ⟨c', L', ?_, hok, hrehung₁.shrunk hshrunk⟩
    simp only [Vfscore.dentryMove, deref_some hd, ok_bind, hparent, hremove, href, hadd,
      deref_some ((set_of_ne hne).trans hdet.self), hnone, Bool.not_true,
      Bool.false_eq_true, if_false]
    -- what is left is the release of the old parent
    exact congrArg (· >>= fun c => .ok (none, c)) hcall

end

end Unikraft.Vfscore
