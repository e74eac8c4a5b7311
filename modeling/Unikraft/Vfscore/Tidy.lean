import Unikraft.Vfscore.CallInv
import Unikraft.Vfscore.FullPath
import Unikraft.Vfscore.NameSpace

/-!
# The dentry cache agrees with the file system

In a tidy cache, each dentry that is hashed under a path from the root stands for the object at that
path, alone, and its parent is hashed under the path of the directory. A rename leaves its dentry
hashed under the last name; nothing is said about it. A cache stays tidy when an object gets another
name if its dentry has no children (`Tidy.rename`).
-/

namespace Unikraft.Vfscore

open Lib List

/-! ### The file system -/

/-- The vnode operations for resolutions. There are no symbolic links. -/
def nameSpaceVops (fs : NameSpace) : Vops where
  lookup d k := .ok <| if k = [] then .error .enoent
    else
      match fs.edge d k with
      | none => .error .enoent
      | some v => .ok v
  vtype v := if fs.isDir v then .vdir else .vreg
  readlink _ := .ok (.error .einval)
  root _ := fs.root

/-- The vnode operations of a file system that keeps a name space. They fail if the entries are
not what the caller says. -/
def nameSpaceSys : FileSys NameSpace where
  vops := nameSpaceVops
  create fs d k type := if k = [] then .ok (some .einval, fs)
    else if fs.isDir d = false then .ok (some .enotdir, fs)
    else if (fs.edge d k).isSome then .ok (some .eexist, fs)
    else .ok (none, fs.create d k (type = .vdir))
  remove fs d v k := if fs.edge d k = some v ∧ fs.isDir v = false then .ok (none, fs.remove d k)
    else .ok (some .enoent, fs)
  rmdir fs d v k :=
    if fs.edge d k = some v ∧ fs.isDir v ∧ fs.isEmpty v then .ok (none, fs.remove d k)
    else .ok (some .enotempty, fs)
  rename fs d₁ v₁ k₁ d₂ v₂ k₂ :=
    if k₂ ≠ [] ∧ fs.isDir d₂ ∧ fs.edge d₁ k₁ = some v₁ ∧ fs.edge d₂ k₂ = v₂ then
      .ok (none, fs.rename d₁ k₁ d₂ k₂ v₁)
    else .ok (some .einval, fs)
  truncate fs _ _ := .ok (none, fs)
  isEmpty fs v := .ok (fs.isEmpty v)

theorem edge_of_lookup {fs : NameSpace} {d w : Nat} {k : Name}
    (h : (nameSpaceVops fs).lookup d k = .ok (.ok w)) : k ≠ [] ∧ fs.edge d k = some w := by
  have heq := Except.ok.inj h
  split at heq
  · cases heq
  rename_i hne
  refine ⟨hne, ?_⟩
  cases hedge : fs.edge d k with
  | none =>
    rw [hedge] at heq
    cases heq
  | some v =>
    rw [hedge] at heq
    cases heq
    rfl

theorem nameSpaceVops_vtype (fs : NameSpace) (v : Nat) :
    (nameSpaceVops fs).vtype v = if fs.isDir v then .vdir else .vreg := rfl

theorem isDir_of_vtype {fs : NameSpace} {v : Nat} (h : (nameSpaceVops fs).vtype v = .vdir) :
    fs.isDir v = true := by
  by_contra hfile
  rw [nameSpaceVops_vtype, if_neg hfile] at h
  cases h

theorem vtype_ne_vlnk (fs : NameSpace) (v : Nat) : (nameSpaceVops fs).vtype v ≠ .vlnk := by
  rw [nameSpaceVops_vtype]
  split
  · exact nofun
  · exact nofun

/-! ### Tidy caches -/

/-- The dentry `a` is hashed under a path from the root. -/
def Cached (c : Dcache) (L : Chain → List Nat) (ns : List Name) (a : Nat) (i : Ident) : Prop :=
  Hashed L a ∧ c.ident a = some i ∧ i.dPath = joinPath ns

/-- The dentries of the mount agree with the names of the file system. -/
structure Tidy (m : Mount) (fs : NameSpace) (c : Dcache) (L : Chain → List Nat) : Prop where
  ok : fs.Ok
  mount : ∀ a i, c.ident a = some i → i.dMount = m.addr
  rooted : ∀ a i, Hashed L a → c.ident a = some i → i.dPath.head? = some '/' →
    ∃ ns, Kept ns ∧ i.dPath = joinPath ns
  node : ∀ ns a i, Kept ns → Cached c L ns a i → fs.nodeAt ns = some i.dVnode
  unique : ∀ ns a b i j, Cached c L ns a i → Cached c L ns b j → a = b
  parent : ∀ ns k a i, Kept (ns ++ [k]) → Cached c L (ns ++ [k]) a i →
    ∃ p j, i.dParent = some p ∧ Cached c L ns p j

section

variable {m : Mount} {fs fs' : NameSpace} {c c' : Dcache} {L L' : Chain → List Nat}
  {ext : Nat → Nat} {ns ns' : List Name} {a b p : Nat} {i j : Ident} {d : Dentry}

theorem Cached.at (h : Tidy m fs c L) (hc : Cached c L ns a i) : At c L m.addr (joinPath ns) a :=
  ⟨hc.1, i, hc.2.1, h.mount a i hc.2.1, hc.2.2⟩

theorem At.cached (h : At c L m.addr (joinPath ns) a) (hd : c.dentries a = some d) :
    Cached c L ns a d.toIdent := by
  obtain ⟨hhashed, i, hi, -, hpath⟩ := h
  rw [ident_some hd] at hi
  cases hi
  exact ⟨hhashed, ident_some hd, hpath⟩

theorem Cached.names_eq (h : Cached c L ns a i) (h' : Cached c L ns' a j) (hns : Kept ns)
    (hns' : Kept ns') : ns = ns' := by
  have hi := h.2.1
  rw [h'.2.1] at hi
  cases hi
  exact joinPath_inj hns hns' (h.2.2.symm.trans h'.2.2)

theorem Kept.left {ns' : List Name} (h : Kept (ns ++ ns')) : Kept ns :=
  fun k hk => h k (mem_append_left _ hk)

theorem DcacheOk.parent_mem (h : DcacheOk c L ext) (hi : c.ident a = some i)
    (hp : i.dParent = some p) : ∃ pd, c.dentries p = some pd ∧ a ∈ pd.dChildren := by
  obtain ⟨d, hd, rfl⟩ := dentry_of_ident hi
  obtain ⟨pm, hpm⟩ := h.family.parent a d.member p (fam_some hd) hp
  obtain ⟨pd, hpd, rfl⟩ := dentry_of_fam hpm
  exact ⟨pd, hpd, (h.family.kids p pd.member a hpm).mpr ⟨d.member, fam_some hd, hp⟩⟩

theorem Tidy.sub (h : Tidy m fs c L) (hok : fs'.Ok)
    (hmount : ∀ a i, c'.ident a = some i → i.dMount = m.addr)
    (hold : ∀ a i, Hashed L' a → c'.ident a = some i → i.dPath.head? = some '/' →
      Hashed L a ∧ c.ident a = some i)
    (hnode : ∀ ns a i, Kept ns → Cached c' L' ns a i → fs.nodeAt ns = some i.dVnode →
      fs'.nodeAt ns = some i.dVnode)
    (hparent : ∀ ns k a i p j, Kept (ns ++ [k]) → Cached c' L' (ns ++ [k]) a i →
      i.dParent = some p → Cached c L ns p j → Hashed L' p ∧ c'.ident p = some j) :
    Tidy m fs' c' L' := by
  have hcached : ∀ {ns a i}, Cached c' L' ns a i → Cached c L ns a i := by
    intro ns a i ⟨hhashed, hi, hpath⟩
    obtain ⟨hhashed', hi'⟩ := hold a i hhashed hi (by rw [hpath]; exact joinPath_head ns)
    exact ⟨hhashed', hi', hpath⟩
  refine ⟨hok, hmount, ?_, ?_, ?_, ?_⟩
  · intro a i hhashed hi hhead
    obtain ⟨hhashed', hi'⟩ := hold a i hhashed hi hhead
    exact h.rooted a i hhashed' hi' hhead
  · intro ns a i hns hc
    exact hnode ns a i hns hc (h.node ns a i hns (hcached hc))
  · intro ns a b i j ha hb
    exact h.unique ns a b i j (hcached ha) (hcached hb)
  intro ns k a i hns hc
  obtain ⟨p, j, hp, hpc⟩ := h.parent ns k a i hns (hcached hc)
  obtain ⟨hhashed, hj⟩ := hparent ns k a i p j hns hc hp hpc
  exact ⟨p, j, hp, hhashed, hj, hpc.2.2⟩

theorem Tidy.shrunk (h : Tidy m fs c L) (hok : DcacheOk c' L' ext) (hshrunk : Shrunk c L c' L') :
    Tidy m fs c' L' := by
  refine h.sub h.ok (fun a i hi => h.mount a i (hshrunk.ident a i hi)) ?_ ?_ ?_
  · intro a i hhashed hi _
    exact ⟨hshrunk.hashed hhashed, hshrunk.ident a i hi⟩
  · exact fun _ _ _ _ _ hnode => hnode
  intro ns k a i p j _ hc hp ⟨hhashed, hj, _⟩
  obtain ⟨pd, hpd, -⟩ := hok.parent_mem hc.2.1 hp
  have hident := ident_some hpd
  have heq := hshrunk.ident p _ hident
  rw [hj] at heq
  cases heq
  exact ⟨hshrunk.hashed_keep hhashed (by rw [hident]; rfl), hident⟩

variable {k : Name}

theorem Tidy.alloc {ddp w : Nat} {dd : Dentry} (h : Tidy m fs c L) (hok : DcacheOk c L ext)
    (hdd : c.dentries ddp = some dd) (hns : Kept (ns ++ [k])) (hc : Cached c L ns ddp dd.toIdent)
    (hedge : fs.edge dd.dVnode k = some w) (hmiss : ∀ a, ¬ At c L m.addr (joinPath (ns ++ [k])) a) :
    Tidy m fs (c.allocated m.addr ddp dd w (joinPath (ns ++ [k])))
      (pushed c L m.addr (joinPath (ns ++ [k]))) := by
  -- a dentry is the new one, or it was there before
  have hcases : ∀ a i, Hashed (pushed c L m.addr (joinPath (ns ++ [k]))) a →
      (c.allocated m.addr ddp dd w (joinPath (ns ++ [k]))).ident a = some i →
      (a = c.next ∧ i = ⟨joinPath (ns ++ [k]), w, m.addr, some ddp⟩) ∨
        (Hashed L a ∧ c.ident a = some i) := by
    intro a i hhashed hi
    by_cases ha : a = c.next
    · rw [ha, ident_next hok hdd] at hi
      exact .inl ⟨ha, (Option.some.inj hi).symm⟩
    · exact .inr (hashed_old hok hdd ha hhashed hi)
  have hnew : fs.nodeAt (ns ++ [k]) = some w := by
    rw [NameSpace.nodeAt_concat, h.node ns ddp _ hns.left hc]
    exact hedge
  have hnone : ∀ {a i}, ¬ Cached c L (ns ++ [k]) a i := fun hc => hmiss _ (hc.at h)
  refine ⟨h.ok, ?_, ?_, ?_, ?_, ?_⟩
  · intro a i hi
    by_cases ha : a = c.next
    · rw [ha, ident_next hok hdd] at hi
      cases hi
      rfl
    rw [allocated_ident hdd (fun heq => by rw [heq, hok.next_free] at hdd; cases hdd),
      Function.update_of_ne ha] at hi
    exact h.mount a i hi
  · intro a i hhashed hi hhead
    rcases hcases a i hhashed hi with ⟨-, rfl⟩ | ⟨hhashed', hi'⟩
    · exact ⟨_, hns, rfl⟩
    · exact h.rooted a i hhashed' hi' hhead
  · intro q a i hq ⟨hhashed, hi, hpath⟩
    rcases hcases a i hhashed hi with ⟨-, rfl⟩ | ⟨hhashed', hi'⟩
    · rw [← joinPath_inj hns hq hpath]
      exact hnew
    · exact h.node q a i hq ⟨hhashed', hi', hpath⟩
  · intro q a b i j ⟨hhashed, hi, hpath⟩ ⟨hhashed₂, hj, hpath₂⟩
    rcases hcases a i hhashed hi with ⟨ha, rfl⟩ | ⟨hhashed', hi'⟩
    · rcases hcases b j hhashed₂ hj with ⟨hb, -⟩ | ⟨hhashed₂', hj'⟩
      · rw [ha, hb]
      · exact absurd ⟨hhashed₂', hj', hpath₂.trans hpath.symm⟩ hnone
    rcases hcases b j hhashed₂ hj with ⟨-, rfl⟩ | ⟨hhashed₂', hj'⟩
    · exact absurd ⟨hhashed', hi', hpath.trans hpath₂.symm⟩ hnone
    · exact h.unique q a b i j ⟨hhashed', hi', hpath⟩ ⟨hhashed₂', hj', hpath₂⟩
  intro q k' a i hq ⟨hhashed, hi, hpath⟩
  have hkeep : ∀ {p j}, Cached c L q p j →
      Cached (c.allocated m.addr ddp dd w (joinPath (ns ++ [k])))
        (pushed c L m.addr (joinPath (ns ++ [k]))) q p j :=
    fun ⟨hhashed, hj, hpath⟩ => ⟨hashed_cons.mpr (.inr hhashed), ident_old hok hdd hj, hpath⟩
  rcases hcases a i hhashed hi with ⟨-, rfl⟩ | ⟨hhashed', hi'⟩
  · obtain ⟨rfl, -⟩ := append_inj' (joinPath_inj hns hq hpath) rfl
    exact ⟨ddp, _, rfl, hkeep hc⟩
  obtain ⟨p, j, hp, hpc⟩ := h.parent q k' a i hq ⟨hhashed', hi', hpath⟩
  exact ⟨p, j, hp, hkeep hpc⟩

theorem Tidy.create {dir : Nat} {isDir : Bool} (h : Tidy m fs c L) (hnode : fs.nodeAt ns = some dir)
    (hdir : fs.isDir dir = true) (hedge : fs.edge dir k = none) :
    Tidy m (fs.create dir k isDir) c L := by
  have hok : (fs.create dir k isDir).Ok := h.ok.create hnode hdir hedge
  exact h.sub hok h.mount (fun _ _ hhashed hi _ => ⟨hhashed, hi⟩)
    (fun _ _ _ _ _ hp => h.ok.nodeAt_create hok hp)
    (fun _ _ _ _ _ _ _ _ _ hpc => ⟨hpc.1, hpc.2.1⟩)

theorem NameSpace.Ok.nodeAt_below {v x : Nat} (h : fs.Ok) (hv : fs.nodeAt ns = some v)
    (hempty : fs.isEmpty v = true) (hpre : ns <+: ns') (hx : fs.nodeAt ns' = some x) :
    ns' = ns := by
  obtain ⟨rest, rfl⟩ := hpre
  cases rest with
  | nil => exact append_nil ns
  | cons k rest =>
    rw [NameSpace.nodeAt, follow_append] at hx
    rw [NameSpace.nodeAt] at hv
    rw [hv, Option.bind_some, follow_cons, h.edge_of_isEmpty hempty] at hx
    cases hx

theorem Tidy.remove {dir v : Nat} (h : Tidy m fs c L) (hok : DcacheOk c' L' ext)
    (hun : Unhashed c L (· = a) c' L') (hns : Kept (ns ++ [k])) (hc : Cached c L (ns ++ [k]) a i)
    (hnode : fs.nodeAt ns = some dir) (hedge : fs.edge dir k = some v)
    (hempty : fs.isEmpty v = true) : Tidy m (fs.remove dir k) c' L' := by
  have hv : fs.nodeAt (ns ++ [k]) = some v := by
    rw [NameSpace.nodeAt_concat, hnode]
    exact hedge
  refine h.sub h.ok.remove (fun x j hj => h.mount x j (hun.ident x j hj)) ?_ ?_ ?_
  · intro x j hhashed hj _
    exact ⟨(hun.hashed x hhashed).1, hun.ident x j hj⟩
  · intro q x j hq ⟨hhashed, hj, hpath⟩ hx
    obtain ⟨hhashed', hne⟩ := hun.hashed x hhashed
    refine h.ok.nodeAt_remove hnode hedge hempty hx fun heq => hne ?_
    exact h.unique (ns ++ [k]) x a j i ⟨hhashed', hun.ident x j hj, heq ▸ hpath⟩ hc
  intro q k' x j p jp hq hxc hp hpc
  obtain ⟨pd, hpd, -⟩ := hok.parent_mem hxc.2.1 hp
  have hident := ident_some hpd
  have heq := hun.ident p _ hident
  rw [hpc.2.1] at heq
  cases heq
  refine ⟨hun.keep p hpc.1 ?_ (by rw [hident]; rfl), hident⟩
  -- the dentry of the name has nothing below it
  rintro rfl
  have hq' := hpc.names_eq hc hq.left hns
  have hx := h.node _ x j hq ⟨(hun.hashed x hxc.1).1, hun.ident x j hxc.2.1, hxc.2.2⟩
  have hlen := congrArg length
    (h.ok.nodeAt_below hv hempty (hq' ▸ prefix_append q [k']) hx)
  rw [hq', length_append] at hlen
  simp at hlen

theorem Tidy.childless (h : Tidy m fs c L) (hok : DcacheOk c L ext) (hc : Cached c L ns a i)
    (hd : c.dentries a = some d) (hkids : d.dChildren = []) (hns' : Kept ns')
    (hb : Cached c L ns' b j) (hpre : ns <+: ns') : ns' = ns := by
  obtain ⟨rest, rfl⟩ := hpre
  induction rest using reverseRecOn generalizing b j with
  | nil => exact append_nil ns
  | append_singleton rest k ih =>
    rw [← append_assoc] at hns' hb
    obtain ⟨p, jp, hp, hpc⟩ := h.parent _ k b j hns' hb
    rw [ih hns'.left hpc] at hpc
    cases h.unique ns p a jp i hpc hc
    obtain ⟨pd, hpd, hmem⟩ := hok.parent_mem hb.2.1 hp
    rw [hd] at hpd
    cases hpd
    rw [hkids] at hmem
    cases hmem

variable {L₁ : Chain → List Nat} {c₁ : Dcache}

theorem Rehung.old {gone : Nat → Prop} (hre : Rehung c L a p k c₁ L₁)
    (hun : Unhashed c₁ L₁ gone c' L') (hk : '/' ∉ k) (hhashed : Hashed L' b)
    (hj : c'.ident b = some j) (hhead : j.dPath.head? = some '/') :
    b ≠ a ∧ ¬ gone b ∧ Hashed L b ∧ c.ident b = some j := by
  have hj₁ := hun.ident b j hj
  have hne : b ≠ a := by
    rintro rfl
    obtain ⟨i₀, -, rfl⟩ := hre.moved j hj₁
    exact hk (mem_of_mem_head? hhead)
  obtain ⟨hhashed₁, hgone⟩ := hun.hashed b hhashed
  exact ⟨hne, hgone, (hre.hashed b hhashed₁).resolve_left hne, hre.ident b j hne hj₁⟩

theorem Rehung.cached {gone : Nat → Prop} (hre : Rehung c L a p k c₁ L₁)
    (hun : Unhashed c₁ L₁ gone c' L')
    (hk : '/' ∉ k) (hb : Cached c' L' ns b j) : b ≠ a ∧ ¬ gone b ∧ Cached c L ns b j := by
  obtain ⟨hhashed, hj, hpath⟩ := hb
  obtain ⟨hne, hgone, hhashed', hj'⟩ :=
    hre.old hun hk hhashed hj (by rw [hpath]; exact joinPath_head ns)
  exact ⟨hne, hgone, hhashed', hj', hpath⟩

theorem Tidy.rename {ext' : Nat → Nat} {d₁ d₂ v : Nat} {target : Option Nat}
    {q₁ q₂ : List Name} {k₁ k₂ : Name} (h : Tidy m fs c L) (hok : DcacheOk c L ext)
    (hok' : DcacheOk c' L' ext') (hre : Rehung c L a p k₂ c₁ L₁)
    (hun : Unhashed c₁ L₁ (target = some ·) c' L') (hsrc : Kept (q₁ ++ [k₁]))
    (hdest : Kept (q₂ ++ [k₂])) (hc : Cached c L (q₁ ++ [k₁]) a i) (hd : c.dentries a = some d)
    (hkids : d.dChildren = []) (hd₁ : fs.nodeAt q₁ = some d₁) (hv : fs.edge d₁ k₁ = some v)
    (hd₂ : fs.nodeAt q₂ = some d₂) (hdir : fs.isDir d₂ = true) (hout : ¬ q₁ ++ [k₁] <+: q₂ ++ [k₂])
    (htarget : ∀ b, target = some b → ∃ j, Cached c L (q₂ ++ [k₂]) b j)
    (hleaf : ∀ ns x, q₂ ++ [k₂] <+: ns → fs.nodeAt ns = some x → ns = q₂ ++ [k₂] ∧ target ≠ none) :
    Tidy m (fs.rename d₁ k₁ d₂ k₂ v) c' L' := by
  have hfs : (fs.rename d₁ k₁ d₂ k₂ v).Ok := h.ok.rename hv hd₂ hdir
  have hnode : fs.nodeAt (q₁ ++ [k₁]) = some v := by
    rw [NameSpace.nodeAt_concat, hd₁]
    exact hv
  have hapart : ¬ q₂ ++ [k₂] <+: q₁ ++ [k₁] := by
    intro hpre
    rw [(hleaf _ v hpre hnode).1] at hout
    exact hout (prefix_refl _)
  have hslash : '/' ∉ k₂ := (hdest k₂ (by simp)).2
  -- nothing that is left is below the source or the target
  have hsource : ∀ {q x j}, Kept q → x ≠ a → Cached c L q x j → ¬ q₁ ++ [k₁] <+: q := by
    intro q x j hq hne hxc hpre
    rw [h.childless hok hc hd hkids hq hxc hpre] at hxc
    exact hne (h.unique _ x a j i hxc hc)
  have hbelow : ∀ {q x j}, Kept q → target ≠ some x → Cached c L q x j → ¬ q₂ ++ [k₂] <+: q := by
    intro q x j hq hne hxc hpre
    obtain ⟨hq', hsome⟩ := hleaf q _ hpre (h.node q x j hq hxc)
    obtain ⟨b, hb⟩ := Option.ne_none_iff_exists'.mp hsome
    obtain ⟨jb, hbc⟩ := htarget b hb
    rw [hq'] at hxc
    rw [h.unique _ x b j jb hxc hbc] at hne
    exact hne hb
  refine h.sub hfs ?_ ?_ ?_ ?_
  · intro x j hj
    have hj₁ := hun.ident x j hj
    by_cases hx : x = a
    · rw [hx] at hj₁
      obtain ⟨i₀, hi₀, rfl⟩ := hre.moved j hj₁
      exact h.mount a i₀ hi₀
    · exact h.mount x j (hre.ident x j hx hj₁)
  · intro x j hhashed hj hhead
    exact (hre.old hun hslash hhashed hj hhead).2.2
  · intro q x j hq hxc' hx
    obtain ⟨hne, hgone, hxc⟩ := hre.cached hun hslash hxc'
    rw [h.ok.nodeAt_rename hfs hd₁ hv hd₂ hout hapart (hsource hq hne hxc) (hbelow hq hgone hxc)]
    exact hx
  intro q k x j y jy hq hxc' hp hyc
  obtain ⟨hne, hgone, hxc⟩ := hre.cached hun hslash hxc'
  have hya : y ≠ a := by
    rintro rfl
    rw [← hyc.names_eq hc hq.left hsrc] at hsource
    exact hsource hq hne hxc (prefix_append q [k])
  have hyt : target ≠ some y := by
    intro heq
    obtain ⟨jb, hbc⟩ := htarget y heq
    rw [← hyc.names_eq hbc hq.left hdest] at hbelow
    exact hbelow hq hgone hxc (prefix_append q [k])
  obtain ⟨yd, hyd, -⟩ := hok'.parent_mem hxc'.2.1 hp
  have hident := ident_some hyd
  have heq := hre.ident y _ hya (hun.ident y _ hident)
  rw [hyc.2.1] at heq
  cases heq
  have hlive : (c'.ident y).isSome := by rw [hident]; rfl
  have hlive₁ : (c₁.ident y).isSome := by rw [hun.ident y _ hident]; rfl
  exact ⟨hun.keep y (hre.keep y hya hyc.1 hlive₁) hyt hlive, hident⟩

end

end Unikraft.Vfscore
