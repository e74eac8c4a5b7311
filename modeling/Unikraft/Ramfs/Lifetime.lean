import Unikraft.Ramfs.Live

/-!
# No use of freed nodes

`ramfs_remove_node` frees a node at once, though an open file, the target of a rename or a file that
has been moved may still lead to it. If unlinks and renames take away only what nobody else refers
to (`unshared`), every dentry stands for a node that is there (`Alive`), and no call uses a node or
a buffer that has been freed.
-/

namespace Unikraft.Ramfs

open Lib Vfscore Function List Option

/-! ### The invariant -/

/-- Every dentry stands for a node that has not been freed, and parents of dentries and the roots
of mounts stand for directories. -/
structure Alive (fs : RamfsState) (c : Dcache) (_ : Chain → List Nat) : Prop where
  ok : RamfsOk fs
  live : ∀ a i, c.ident a = some i → fs.Live i.dVnode
  parent : ∀ a p i j, c.ident a = some i → i.dParent = some p → c.ident p = some j →
    fs.vTypes j.dVnode = .dir
  top : ∀ a i, c.ident a = some i → i.dPath = ['/'] → fs.vTypes i.dVnode = .dir

section

variable {fs fs' : RamfsState} {c c' c₁ : Dcache} {L L' L₁ : Chain → List Nat} {ext : Nat → Nat}
  {gone : Nat → Prop} {mp a ddp w : Nat} {d dd : Dentry} {name node : List Char}

section

variable (h : Alive fs c L)

include h

theorem Alive.sub (hafter : After gone fs fs')
    (hident : ∀ a i, c'.ident a = some i → c.ident a = some i ∧ ¬ gone i.dVnode) :
    Alive fs' c' L' where
  ok := hafter.ok
  live := by
    intro a i hi
    obtain ⟨hi, hgone⟩ := hident a i hi
    exact hafter.live (h.live a i hi) hgone
  parent := by
    intro a p i j hi hp hj
    obtain ⟨hj, hgone⟩ := hident p j hj
    rw [hafter.type h.ok (h.live p j hj) hgone]
    exact h.parent a p i j (hident a i hi).1 hp hj
  top := by
    intro a i hi hpath
    obtain ⟨hi, hgone⟩ := hident a i hi
    rw [hafter.type h.ok (h.live a i hi) hgone]
    exact h.top a i hi hpath

theorem Alive.shrunk (hshrunk : Shrunk c L c' L') : Alive fs c' L' :=
  h.sub (After.refl h.ok) fun a i hi => ⟨hshrunk.ident a i hi, id⟩

theorem Alive.after (hafter : After (fun _ => False) fs fs') : Alive fs' c L :=
  h.sub hafter fun _ _ hi => ⟨hi, id⟩

theorem Alive.alloc (hok : DcacheOk c L ext) (hdd : c.dentries ddp = some dd)
    (hlookup : vopLookup fs dd.dVnode name = .ok (.ok w)) (hnode : node ≠ ['/']) :
    Alive fs (c.allocated mp ddp dd w node) L' := by
  have hfound := vopLookup_sat h.ok (h.live ddp _ (ident_some hdd)) name
  rw [hlookup] at hfound
  obtain ⟨hlive, hdir⟩ := hfound w rfl
  have hne : ddp ≠ c.next := fun heq => by rw [heq, hok.next_free] at hdd; cases hdd
  -- a dentry is the new one or an old one
  have hcases : ∀ a i, (c.allocated mp ddp dd w node).ident a = some i →
      (a = c.next ∧ i = ⟨node, w, mp, some ddp⟩) ∨ c.ident a = some i := by
    intro a i hi
    rw [allocated_ident hdd hne] at hi
    exact (update_some hi).imp_right And.right
  refine ⟨h.ok, fun a i hi => ?_, fun a p i j hi hp hj => ?_, fun a i hi hpath => ?_⟩
  · rcases hcases a i hi with ⟨-, rfl⟩ | hi
    · exact hlive
    · exact h.live a i hi
  · rcases hcases a i hi with ⟨-, rfl⟩ | hi
    · cases hp
      rw [ident_old hok hdd (ident_some hdd)] at hj
      cases hj
      exact hdir
    rcases hcases p j hj with ⟨rfl, -⟩ | hj
    · -- the new dentry is not yet a parent
      obtain ⟨d, hd, rfl⟩ := dentry_of_ident hi
      obtain ⟨m, hm⟩ := hok.family.parent a _ c.next (fam_some hd) hp
      obtain ⟨d', hd', -⟩ := dentry_of_fam hm
      rw [hok.next_free] at hd'
      cases hd'
    · exact h.parent a p i j hi hp hj
  rcases hcases a i hi with ⟨-, rfl⟩ | hi
  · exact absurd hpath hnode
  · exact h.top a i hi hpath

theorem Alive.rehung (hafter : After gone fs fs')
    (hre : Rehung c L a ddp node c₁ L₁) (hsub : ∀ x i, c'.ident x = some i → c₁.ident x = some i)
    (hgone : ∀ x i, c'.ident x = some i → ¬ gone i.dVnode)
    (hdir : ∀ j, c.ident ddp = some j → fs.vTypes j.dVnode = .dir) (hnode : node ≠ ['/']) :
    Alive fs' c' L' := by
  have htype : ∀ x i i₀, c'.ident x = some i → c.ident x = some i₀ → i.dVnode = i₀.dVnode →
      fs'.vTypes i.dVnode = fs.vTypes i₀.dVnode := by
    intro x i i₀ hi hi₀ heq
    rw [hafter.type h.ok (heq ▸ h.live x i₀ hi₀) (hgone x i hi), heq]
  refine ⟨hafter.ok, fun x i hi => ?_, fun x p i j hi hp hj => ?_, fun x i hi hpath => ?_⟩
  · obtain ⟨i₀, hi₀, heq, -⟩ := hre.old_vnode (hsub x i hi)
    exact hafter.live (heq ▸ h.live x i₀ hi₀) (hgone x i hi)
  · obtain ⟨j₀, hj₀, heq, -⟩ := hre.old_vnode (hsub p j hj)
    rw [htype p j j₀ hj hj₀ heq]
    obtain ⟨i₀, hi₀, -, rfl | ⟨-, hparent⟩⟩ := hre.old_vnode (hsub x i hi)
    · exact h.parent x p i j₀ hi₀ hp hj₀
    rw [hparent] at hp
    cases hp
    exact hdir j₀ hj₀
  obtain ⟨i₀, hi₀, heq, rfl | ⟨hnew, -⟩⟩ := hre.old_vnode (hsub x i hi)
  · rw [htype x i i hi hi₀ rfl]
    exact h.top x i hi₀ hpath
  · exact absurd (hnew.symm.trans hpath) hnode

theorem Alive.childless (hok : DcacheOk c L ext) (hd : c.dentries a = some d)
    (hfile : fs.vTypes d.dVnode ≠ .dir) : d.dChildren = [] := by
  refine eq_nil_iff_forall_not_mem.mpr fun x hx => ?_
  obtain ⟨k, hk, hparent⟩ := (hok.family.kids a _ x (fam_some hd)).mp hx
  obtain ⟨dx, hdx, rfl⟩ := dentry_of_fam hk
  exact hfile (h.parent x a _ _ (ident_some hdx) hparent (ident_some hd))

end

end

/-! ### Resolutions -/

section

variable {fs : RamfsState} {mounts : List Mount} {c : Dcache} {L : Chain → List Nat}
  {ext : Nat → Nat} {a : Nat} {d : Dentry}

theorem push_sat (out : List Char) (x : Char) : (push out x).Sat Dangling fun _ => True :=
  .ite (fun _ => trivial) fun _ => sat_fault (by decide)

theorem convComp_sat (out comp : List Char) : (convComp out comp).Sat Dangling fun _ => True := by
  rw [convComp]
  refine .ite (fun _ => ?_) fun _ => .ite (fun _ => trivial) fun _ => ?_
  · rw [backUp]
    refine .ite (fun _ => ?_) fun _ => trivial
    cases out.tail.dropWhile (· ≠ '/') with
    | nil => exact sat_fault (by decide)
    | cons slash rest => trivial
  rcases pushAll_cases out comp with hpush | ⟨hpush, -⟩ <;> rw [hpush]
  · trivial
  · exact sat_fault (by decide)

theorem convLoop_sat (fuel : Nat) (src out : List Char) :
    (convLoop fuel src out).Sat Dangling fun _ => True := by
  induction fuel generalizing src out with
  | zero =>
    rw [convLoop]
    exact .ite (fun _ => trivial) fun _ => sat_fault (by decide)
  | succ fuel ih =>
    rw [convLoop]
    refine .ite (fun _ => trivial) fun _ => ?_
    refine (convComp_sat _ _).bind fun out' _ => ?_
    cases src.dropWhile (· ≠ '/') with
    | nil => trivial
    | cons slash src' =>
      have hslash : (addSlash out').Sat Dangling fun _ => True :=
        .ite (fun _ => push_sat out' '/') fun _ => trivial
      exact hslash.bind fun out'' _ => ih src' out''

theorem pathConv_sat (wd cpath : List Char) : (pathConv wd cpath).Sat Dangling fun _ => True := by
  rw [pathConv]
  refine .ite (fun _ => trivial) fun _ => .ite (fun _ => trivial) fun _ => ?_
  exact (convLoop_sat _ _ _).bind fun out _ =>
    .ite (fun _ => trivial) fun _ => sat_fault (by decide)

theorem nameiFollowLink_sat (h : Alive fs c L) (hd : c.dentries a = some d)
    (node name fp : List Char) (n : Nat) :
    (nameiFollowLink (ramfsVops fs) d.dVnode node name fp n).Sat Dangling fun _ => True := by
  have hlink : ((ramfsVops fs).readlink d.dVnode).Sat Dangling fun _ => True :=
    vopReadlink_sat h.ok (h.live a _ (ident_some hd))
  rw [nameiFollowLink]
  refine hlink.bind fun r _ => ?_
  cases r with
  | error e => trivial
  | ok link =>
    refine .ite (fun _ => sat_fault (by decide)) fun _ => .ite (fun _ => trivial) fun _ => ?_
    refine (pathConv_sat _ _).bind fun r _ => ?_
    cases r with
    | error e | ok full => trivial

theorem alive_walk (fs : RamfsState) (ext : Nat → Nat) :
    WalkInv (ramfsVops fs) Dangling ext (fun _ => True) (Alive fs) where
  shrunk h _ _ hshrunk := h.shrunk hshrunk
  lookup h hd name := (vopLookup_sat h.ok (h.live _ _ (ident_some hd)) name).mono fun _ _ => trivial
  link h hd _ node name fp n := nameiFollowLink_sat h hd node name fp n
  alloc := by
    intro c L ext' mp ddp dd done name w h hok hdd _ hkept _ hlookup _
    refine h.alloc hok hdd hlookup fun hroot => ?_
    have hnil : Kept [] := fun _ hk => absurd hk not_mem_nil
    exact absurd (joinPath_inj hkept hnil hroot) (by simp)

theorem namei_alive (path : List Char) (h : Mounted mounts c L ext) (hinv : Alive fs c L) :
    (namei (ramfsVops fs) mounts c path).Sat Dangling
      (NameiKept mounts (fun c' L' => Alive fs c' L' ∧ Held ext c L c' L') ext
        (fun _ _ _ => True) True) :=
  (namei_keeps ((alive_walk fs ext).held c L) (fun _ => trivial) h ⟨hinv, Held.refl⟩ path).mono
    fun _ hr => hr.mono (fun _ _ => trivial) fun _ => trivial

theorem mem_of_lastComponent {path name node : List Char} {mp : Nat}
    (h : lastComponent mounts path = .ok (mp, name, node)) : ∃ m ∈ mounts, m.addr = mp := by
  rw [lastComponent] at h
  split at h
  · cases h
  split at h
  · cases h
  · cases h
  rename_i m pos _ hroot
  cases h
  exact ⟨m, mem_of_vfsFindroot hroot, rfl⟩

theorem alive_resolves (fs : RamfsState) :
    Resolves (ramfsVops fs) mounts Dangling FullPath (fun _ _ _ _ => True) (Alive fs) where
  shrunk h _ hshrunk := h.shrunk hshrunk
  place _ _ _ := trivial
  namei _ h hinv := namei_alive _ h hinv
  lookup := by
    intro path c L ext _ h hinv
    exact lookup_keeps ((alive_walk fs ext).held c L) nofun h ⟨hinv, Held.refl⟩
      fun dir name _ => namei_alive _ h hinv
  last := by
    intro path c L ext ddp dd _ h hinv hdd _ _
    refine nameiLastNofollow_keeps ((alive_walk fs ext).held c L) (fun _ => le_rfl) h
      ⟨hinv, Held.refl⟩ hdd ?_
    intro mp name node hlast
    obtain ⟨m, hm, rfl⟩ := mem_of_lastComponent hlast
    refine ⟨fun _ _ _ _ => trivial, fun w hlookup hmiss => ⟨?_, ?_⟩⟩
    · -- the root of the mount is in the cache already
      exact hinv.alloc h.ok hdd hlookup fun hroot => hmiss m.mRoot (hroot ▸ h.root m hm)
    · exact fun a i _ hi => ⟨ident_old h.ok hdd hi, fun hhashed => hashed_cons.mpr (.inr hhashed)⟩

theorem vdir_iff {v : Nat} : (ramfsVops fs).vtype v = .vdir ↔ fs.vTypes v = .dir := by
  change vnodeType (fs.vTypes v) = .vdir ↔ _
  cases fs.vTypes v <;> simp [vnodeType]

theorem alive_calls (env : RamfsEnv) :
    CallInv (ramfsSys env) mounts Dangling FullPath (fun _ _ _ _ => True) Alive where
  null := nofun
  assertion := nofun
  resolves := alive_resolves
  create := by
    intro fs c L path ddp dd name type _ hinv hdd hdir _ _
    have hcreate := vopCreate_sat hinv.ok (hinv.live ddp _ (ident_some hdd)) (vdir_iff.mp hdir) env
      name type
    exact hcreate.mono fun r hr _ => hinv.after hr
  truncate := by
    intro fs c L a d n hinv hd
    have htruncate := vopTruncate_sat hinv.ok (hinv.live a _ (ident_some hd)) env n
    exact htruncate.mono fun r hr _ => hinv.after hr
  isEmpty hinv hd := vopIsEmpty_sat hinv.ok (hinv.live _ _ (ident_some hd))

end

/-! ### Sole references -/

/-- The caller has the only reference on a dentry, and no other dentry stands for its node. -/
def soleDentry (c : Dcache) (dp : Nat) : Bool :=
  (c.dentries dp).any fun d => d.dRefcnt = 1 ∧ vRefcnt c d.dVnode = 1

section

variable {c : Dcache} {L : Chain → List Nat} {ext : Nat → Nat} {dp : Nat} {d : Dentry}

theorem soleDentry_spec (hok : DcacheOk c L ext) (h : soleDentry c dp = true)
    (hd : c.dentries dp = some d) :
    d.dRefcnt = 1 ∧ ∀ a i, c.ident a = some i → i.dVnode = d.dVnode → a = dp := by
  rw [soleDentry, hd] at h
  obtain ⟨hcount, hone⟩ := of_decide_eq_true h
  refine ⟨hcount, fun a i hi heq => ?_⟩
  obtain ⟨da, hda, rfl⟩ := dentry_of_ident hi
  obtain ⟨b, hb⟩ := length_eq_one_iff.mp hone
  have hmem : ∀ x dx, c.dentries x = some dx → dx.dVnode = d.dVnode → x = b := by
    intro x dx hdx hx
    have hfilter : x ∈ c.addrs.filter fun a => (c.dentries a).any fun d' => d'.dVnode = d.dVnode :=
      mem_filter.mpr ⟨(hok.addrs x).mpr (by rw [hdx]; rfl), by simp [hdx, hx]⟩
    rw [hb] at hfilter
    exact mem_singleton.mp hfilter
  rw [hmem a da hda heq, hmem dp d hd rfl]

end

/-! ### Unlinks -/

/-- The file of an unlink has no user but the call. -/
def unlinkUnshared (mounts : List Mount) (s : Vfs RamfsState) (path : List Char) : Bool :=
  match lookupLast mounts (ramfsVops s.fs) s.cache path with
  | .ok (.ok (_, _, dp), c) => soleDentry c dp
  | _ => true

section

variable {mounts : List Mount} {s : Vfs RamfsState} {L : Chain → List Nat} {ext : Nat → Nat}
  {path : List Char}

theorem sysUnlink_alive (env : RamfsEnv) (hpath : FullPath path)
    (h : Mounted mounts s.cache L ext) (hinv : Alive s.fs s.cache L)
    (hsole : unlinkUnshared mounts s path = true) :
    (sysUnlink (ramfsSys env) mounts s path).Sat Dangling (CallKept mounts Alive ext) := by
  refine sysUnlink_keeps (alive_calls env) hpath h hinv ?_
  intro ddp name dp c L' dd d hcall hloc hdd hd _ _
  have hcall' : lookupLast mounts (ramfsVops s.fs) s.cache path = .ok (.ok (ddp, name, dp), c) :=
    hcall
  rw [unlinkUnshared, hcall'] at hsole
  have hok := hloc.mounted.ok
  obtain ⟨hcount, honly⟩ := soleDentry_spec hok hsole hd
  obtain ⟨hkids, hone⟩ := hok.sole hd hcount single_ne_zero
  have hext : ext dp = 0 := by
    rw [Pi.add_apply, Pi.add_apply, Pi.single_eq_same] at hone
    omega
  have hremove := vopRemove_sat hloc.inv.ok (hloc.inv.live ddp _ (ident_some hdd)) d.dVnode
  refine hremove.mono fun r hafter _ => ⟨fun m hm heq => h.held m hm (heq ▸ hext), ?_⟩
  intro c' L'' hok' hun
  -- the dentry of the file is gone when its references are
  have hdead : c'.ident dp = none := by
    refine hok'.dead hext fun d' hd' => ?_
    obtain ⟨d₀, hd₀, hsub⟩ := hun.kids dp d' hd'
    rw [hd] at hd₀
    cases hd₀
    exact eq_nil_of_subset_nil (hkids ▸ hsub)
  refine hloc.inv.sub hafter fun a i hi => ⟨hun.ident a i hi, fun heq => ?_⟩
  rw [honly a i (hun.ident a i hi) heq, hdead] at hi
  cases hi

end

/-! ### Renames -/

/-- The two directories of a rename have one vnode. -/
def sameDir (env : RamfsEnv) (s : Vfs RamfsState) (args : Renaming) : Bool :=
  (s.cache.dentries args.ddp1).any fun dd1 => (s.cache.dentries args.ddp2).any fun dd2 =>
    dd1.dVnode = dd2.dVnode ∧ env.oneVnode s.fs.time

/-- A rename that does something renames a file. Its target has no other user, and neither has a
source that is moved to another directory. -/
def renameUnshared (env : RamfsEnv) (mounts : List Mount) (s : Vfs RamfsState)
    (src dest : List Char) : Bool :=
  match renameResolve (ramfsSys env) mounts s src dest with
  | .ok (.ok args, s') =>
    stripped src = stripped dest ||
      (s'.cache.dentries args.dp1).any (fun d1 => s'.fs.vTypes d1.dVnode ≠ .dir) &&
      args.dp2.all (soleDentry s'.cache) &&
      (sameDir env s' args || soleDentry s'.cache args.dp1)
  | _ => true

section

variable {mounts : List Mount} {env : RamfsEnv} {s s' : Vfs RamfsState} {L L' : Chain → List Nat}
  {ext : Nat → Nat} {src dest dname : List Char} {args : Renaming} {d1 dd1 dd2 : Dentry}
  {vp2 : Option Nat}

/-- What is known of the target of a rename. -/
structure TargetSole (c : Dcache) (ext : Nat → Nat) (args : Renaming) (vp2 : Option Nat) :
    Prop where
  ext_zero : ∀ a, args.dp2 = some a → ext a = 0
  childless : ∀ a d, args.dp2 = some a → c.dentries a = some d → d.dChildren = []
  ne : args.dp2 ≠ some args.ddp1 ∧ args.dp2 ≠ some args.dp1 ∧ args.dp2 ≠ some args.ddp2
  only : ∀ t, vp2 = some t → ∀ x i, c.ident x = some i → i.dVnode = t → args.dp2 = some x

theorem targetSole {c : Dcache}
    (hok : DcacheOk c L (holdAll ext (args.dp2.toList ++ [args.ddp2, args.dp1, args.ddp1])))
    (hvp2 : targetVnode c args.dp2 = .ok vp2) (hsole : args.dp2.all (soleDentry c) = true) :
    TargetSole c ext args vp2 := by
  cases hdp2 : args.dp2 with
  | none =>
    rw [hdp2] at hvp2
    cases hvp2
    exact ⟨by simp [hdp2], by simp [hdp2], by simp [hdp2], nofun⟩
  | some b =>
    rw [hdp2] at hvp2 hsole hok
    have hne : holdAll ext ([b] ++ [args.ddp2, args.dp1, args.ddp1]) b ≠ 0 :=
      holdAll_ne_zero (by simp)
    obtain ⟨d2, hd2⟩ := hok.live_of_ext hne
    rw [targetVnode, deref_some hd2] at hvp2
    cases hvp2
    obtain ⟨hcount, honly⟩ := soleDentry_spec hok hsole hd2
    obtain ⟨hkids, hone⟩ := hok.sole hd2 hcount hne
    -- of the references, one is that of the call on the target
    have hrest : ext b = 0 ∧ [args.ddp2, args.dp1, args.ddp1].count b = 0 := by
      rw [toList_some, holdAll_apply, singleton_append, count_cons_self] at hone
      omega
    have hnot := count_eq_zero.mp hrest.2
    refine ⟨?_, ?_, ?_, ?_⟩
    · intro a ha
      rw [hdp2] at ha
      cases ha
      exact hrest.1
    · intro a d ha hd
      rw [hdp2] at ha
      cases ha
      rw [hd2] at hd
      cases hd
      exact hkids
    · rw [hdp2]
      simp only [mem_cons, not_mem_nil, or_false, not_or] at hnot
      exact ⟨fun heq => hnot.2.2 (some.inj heq), fun heq => hnot.2.1 (some.inj heq),
        fun heq => hnot.1 (some.inj heq)⟩
    intro t ht x i hi heq
    cases ht
    rw [hdp2, honly x i hi heq]

theorem rename_moves
    (h : RenameLocated (ramfsSys env) mounts (fun _ _ _ _ => True) Alive ext src dest s L args
      s' L') (hheld : ∀ m ∈ mounts, ext m.mRoot ≠ 0) (hd1 : s'.cache.dentries args.dp1 = some d1)
    (hdd1 : s'.cache.dentries args.ddp1 = some dd1) (hdd2 : s'.cache.dentries args.ddp2 = some dd2)
    (hvp2 : targetVnode s'.cache args.dp2 = .ok vp2) (hname : '/' ∉ dname)
    (hfile : s.fs.vTypes d1.dVnode ≠ .dir) (hsole2 : args.dp2.all (soleDentry s'.cache) = true)
    (hsole1 : ¬ (dd1.dVnode = dd2.dVnode ∧ env.oneVnode s.fs.time = true) →
      soleDentry s'.cache args.dp1 = true) :
    Moves mounts Dangling Alive ext s'.cache L' args dname
      ((ramfsSys env).rename s.fs dd1.dVnode d1.dVnode args.sname dd2.dVnode vp2 dname) := by
  have hinv := h.looked.inv
  have hok := h.looked.mounted.ok
  have ht := targetSole hok hvp2 hsole2
  obtain ⟨dd2', hdd2', hdir⟩ := h.dir
  rw [hdd2] at hdd2'
  cases hdd2'
  have hdir := vdir_iff.mp hdir
  have hne : ∀ t, vp2 = some t → t ≠ dd1.dVnode ∧ t ≠ d1.dVnode ∧ t ≠ dd2.dVnode :=
    fun t hvp => ⟨fun heq => ht.ne.1 (ht.only t hvp _ _ (ident_some hdd1) heq.symm),
      fun heq => ht.ne.2.1 (ht.only t hvp _ _ (ident_some hd1) heq.symm),
      fun heq => ht.ne.2.2 (ht.only t hvp _ _ (ident_some hdd2) heq.symm)⟩
  have hrename := vopRename_sat hinv.ok (hinv.live _ _ (ident_some hdd1))
    (hinv.live _ _ (ident_some hd1)) (hinv.live _ _ (ident_some hdd2)) hdir hne env dname
  refine hrename.mono fun r hafter _ => ?_
  have hdp1 : args.dp1 ≠ args.ddp2 := by
    intro heq
    rw [heq, hdd2] at hd1
    cases hd1
    exact hfile hdir
  have hkids := hinv.childless hok hd1 hfile
  refine ⟨fun m hm => ⟨fun heq => ?_, fun heq => hheld m hm (ht.ext_zero _ heq)⟩, hdp1,
    fun d hd => ?_, fun c₁ L₁ c₂ L₂ hre hok₂ hun => ?_⟩
  · obtain ⟨-, i, hi, -, hpath⟩ := h.looked.mounted.root m hm
    rw [heq, ident_some hd1] at hi
    cases hi
    exact hfile (hinv.top _ _ (ident_some hd1) hpath)
  · rw [hd1] at hd
    cases hd
    exact hkids
  -- a dentry whose references were those of the call is gone
  have hdead : ∀ x, ext x = 0 → x ≠ args.ddp2 →
      (∀ d, s'.cache.dentries x = some d → d.dChildren = []) → c₂.ident x = none := by
    intro x hext hx hnil
    refine hok₂.dead hext fun d₂ hd₂ => eq_nil_iff_forall_not_mem.mpr fun y hy => ?_
    obtain ⟨d₁, hd₁, hsub⟩ := hun.kids x d₂ hd₂
    obtain ⟨d, hd, hold⟩ := hre.kids x d₁ hd₁
    rcases hold y (hsub hy) with hmem | heq
    · rw [hnil d hd] at hmem
      cases hmem
    · exact hx heq
  refine hinv.rehung hafter hre hun.ident (fun x i hi hgone => ?_) ?_ ?_
  · obtain ⟨i₀, hi₀, heq, -⟩ := hre.old_vnode (hun.ident x i hi)
    rcases hgone with hvp | ⟨hmoved, hv⟩
    · have hx := ht.only _ hvp x i₀ hi₀ heq.symm
      rw [hdead x (ht.ext_zero x hx) (fun heq => ht.ne.2.2 (heq ▸ hx))
        fun d hd => ht.childless x d hx hd] at hi
      cases hi
    have hne : holdAll ext (args.dp2.toList ++ [args.ddp2, args.dp1, args.ddp1]) args.dp1 ≠ 0 :=
      holdAll_ne_zero (by simp)
    obtain ⟨hcount, honly⟩ := soleDentry_spec hok (hsole1 hmoved) hd1
    have hone := (hok.sole hd1 hcount hne).2
    rw [honly x i₀ hi₀ (heq.symm.trans hv), hdead args.dp1 ?_ hdp1 ?_] at hi
    · cases hi
    · rw [holdAll_apply, count_append] at hone
      have hmem : 0 < [args.ddp2, args.dp1, args.ddp1].count args.dp1 := count_pos_iff.mpr (by simp)
      omega
    intro d hd
    rw [hd1] at hd
    cases hd
    exact hkids
  · intro j hj
    rw [ident_some hdd2] at hj
    cases hj
    exact hdir
  · exact fun heq => hname (heq ▸ mem_singleton_self '/')

theorem sysRename_alive (hsrc : FullPath src) (hdest : FullPath dest)
    (h : Mounted mounts s.cache L ext) (hinv : Alive s.fs s.cache L)
    (hsole : renameUnshared env mounts s src dest = true) :
    (sysRename (ramfsSys env) mounts s src dest).Sat Dangling (CallKept mounts Alive ext) := by
  refine sysRename_keeps (alive_calls env) hsrc.stripped.1 hdest.stripped.1 h hinv ?_
  intro args s' L' d1 dd1 dd2 vp2 dir dname hcall hloc hd1 hdd1 hdd2 hvp2 hne _ hsplit _
  have hfs : s'.fs = s.fs := hloc.looked.fs
  rw [renameUnshared, hcall] at hsole
  simp only [hne, hd1, hfs, sameDir, hdd1, hdd2, any_some, decide_false, Bool.false_or,
    Bool.and_eq_true, Bool.or_eq_true, decide_eq_true_eq] at hsole
  obtain ⟨⟨hfile, hsole2⟩, hsole1⟩ := hsole
  exact rename_moves hloc h.held hd1 hdd1 hdd2 hvp2 (splitLast_eq hsplit).2 hfile hsole2
    fun hmoved => hsole1.resolve_left hmoved

end

/-! ### Runs -/

inductive FileOp
  | read (offset : Int) (iov : List (List UInt8))
  | write (offset : Int) (append : Bool) (iov : List (List UInt8))
  | truncate (length : Nat)

/-- A call of a process, with those on open files. An open file is named by its dentry. -/
inductive FileCall
  | call (c : Call)
  | io (dp : Nat) (op : FileOp)

/-- The vnode operation of a call on an open file. -/
def vopIo (env : RamfsEnv) (fs : RamfsState) (np : Nat) :
    FileOp → Outcome (Option Errno × RamfsState)
  | .read offset iov => vopRead env fs np ⟨iov, offset, iov.flatten.length, .read⟩
  | .write offset append iov => vopWrite env fs np ⟨iov, offset, iov.flatten.length, .write⟩ append
  | .truncate length => vopTruncate env fs np length

/-- A call on an open file. -/
def fileIo (env : RamfsEnv) (s : Vfs RamfsState) (dp : Nat) (op : FileOp) :
    Outcome (Option Errno × Vfs RamfsState) := do
  let d ← s.cache.deref dp
  let (error, fs) ← vopIo env s.fs d.dVnode op
  .ok (error, { s with fs := fs })

def fileCallStep (env : RamfsEnv) (mounts : List Mount) (s : Sys RamfsState) :
    FileCall → Except Failure (Option Nat × Sys RamfsState)
  | .call c => callStep (ramfsSys env) mounts s c
  | .io dp op =>
    if dp ∈ s.files then returned s.files (fileIo env s.vfs dp op) else .error (.errno .ebadf)

/-- What a call takes away has no user but the call. Directories are not removed. -/
def unshared (env : RamfsEnv) (mounts : List Mount) (s : Sys RamfsState) : FileCall → Bool
  | .call (.rmdir _) => false
  | .call (.unlink path) =>
    match taskConv path with
    | .ok full => unlinkUnshared mounts s.vfs full
    | .error _ => true
  | .call (.rename oldpath newpath) =>
    match taskConv oldpath, taskConv newpath with
    | .ok src, .ok dest => renameUnshared env mounts s.vfs src dest
    | _, _ => true
  | _ => true

/-- The file system is mounted, and nothing is in the cache but its root. -/
def mountedRamfs (calloc : Nat → Bool) (fs : RamfsState) (m : Mount) : Sys RamfsState :=
  ⟨⟨fs, (dentryInit calloc).allocatedRoot m.addr fs.root ['/']⟩, []⟩

section

variable {env : RamfsEnv} {mounts : List Mount} {fs : RamfsState} {s : Sys RamfsState}
  {e : FileCall} {m : Mount} {calloc : Nat → Bool}

theorem vopIo_sat (env : RamfsEnv) {x : Nat} (h : RamfsOk fs) (hx : fs.Live x) (op : FileOp) :
    (vopIo env fs x op).Sat Dangling (OpKept (fun _ => False) fs) := by
  cases op with
  | read offset iov => exact vopRead_sat h hx env _
  | write offset append iov => exact vopWrite_sat h hx env _ append
  | truncate length => exact vopTruncate_sat h hx env length

theorem fileCallStep_alive (h : SysInv mounts Alive s) (hok : unshared env mounts s e = true) :
    StepKept Dangling (SysInv mounts Alive) (fileCallStep env mounts s e) := by
  cases e with
  | call c =>
    obtain ⟨L, hinv, hm⟩ := h
    refine callStep_keeps (alive_calls env) nofun (fun _ hfull => hfull) ⟨L, hinv, hm⟩ ?_ ?_ ?_
    · intro path full hc
      rw [hc] at hok
      cases hok
    · intro path full hc hconv hfull
      rw [hc, unshared, taskConv, hconv] at hok
      exact sysUnlink_alive env hfull hm hinv hok
    intro oldpath newpath src dest hc hsrc hdest hfull hfull'
    rw [hc, unshared, taskConv, taskConv, hsrc, hdest] at hok
    exact sysRename_alive hfull hfull' hm hinv hok
  | io dp op =>
    rw [fileCallStep]
    split
    · obtain ⟨L, hinv, hm⟩ := h
      rename_i hmem
      obtain ⟨d, hd⟩ := hm.ok.live_of_ext (count_pos_iff.mpr (mem_append_left _ hmem)).ne'
      refine returned_keeps ?_
      rw [fileIo, deref_some hd, Outcome.ok_bind]
      refine (vopIo_sat env hinv.ok (hinv.live dp _ (ident_some hd)) op).bind ?_
      exact fun r hafter _ => ⟨L, hinv.after hafter, hm⟩
    · trivial

theorem mountedRamfs_alive (hm : m.mRoot = 0) (hfs : RamfsOk fs) (hlive : fs.Live fs.root)
    (hdir : fs.vTypes fs.root = .dir) : SysInv [m] Alive (mountedRamfs calloc fs m) := by
  obtain ⟨L, hmounted⟩ : ∃ L, Mounted [m] (mountedRamfs calloc fs m).vfs.cache L
      ((mountedRamfs calloc fs m).refs [m]) := Mounted.first hm fs
  have hident : ∀ a i, (mountedRamfs calloc fs m).vfs.cache.ident a = some i →
      i = ⟨['/'], fs.root, m.addr, none⟩ := fun a i hi => (firstDentry hi).2
  refine ⟨L, ⟨hfs, fun a i hi => ?_, fun a p i j hi hp hj => ?_, fun a i hi _ => ?_⟩, hmounted⟩
  · rw [hident a i hi]
    exact hlive
  · rw [hident p j hj]
    exact hdir
  rw [hident a i hi]
  exact hdir

/-- **No use of freed nodes.** In every state of a run in which each call takes away only what has
no other user, no such call uses a node or a buffer that has been freed, or frees it again. -/
theorem no_use_after_free_of_unshared {addr : Nat} {mPath : List Char} (hfs : RamfsOk fs)
    (hlive : fs.Live fs.root) (hdir : fs.vTypes fs.root = .dir)
    (hs : Reachable (fileCallStep env [firstMount addr mPath])
      (fun s e => unshared env [firstMount addr mPath] s e = true)
      (mountedRamfs calloc fs (firstMount addr mPath)) s)
    (hok : unshared env [firstMount addr mPath] s e = true) :
    fileCallStep env [firstMount addr mPath] s e ≠ .error (.fault .useAfterFree) := by
  have hinv : SysInv [firstMount addr mPath] Alive s := by
    refine hs.invariant (mountedRamfs_alive rfl hfs hlive hdir) fun s e r s' h hok hstep => ?_
    have hkept := fileCallStep_alive h hok
    rw [hstep] at hkept
    exact hkept
  intro hfault
  have hkept := fileCallStep_alive hinv hok
  rw [hfault] at hkept
  exact hkept rfl

/-- A file system with nothing in its root. -/
def emptyRamfs : RamfsState where
  heap := ⟨update (fun _ => none) 0 (some (newNode [] .dir)), fun _ => none⟩
  vTypes := fun _ => .dir
  root := 0
  time := 1

/-- There is memory for everything, and three bytes are written at the time 2. -/
def sampleEnv : RamfsEnv where
  nodeMem _ := true
  nameMem _ := true
  oneVnode _ := true
  vSize time := if time ≤ 2 then 0 else 3
  garbage _ _ := 0

def emptyRamfsMount : Sys RamfsState :=
  mountedRamfs (fun _ => true) emptyRamfs (firstMount 64 ['/'])

theorem emptyRamfs_nodes {x : Nat} {n : TreeNode} (h : emptyRamfs.heap.nodes x = some n) :
    x = 0 ∧ n = newNode [] .dir := by
  change update (fun _ => none) 0 (some (newNode [] .dir)) x = some n at h
  exact (update_some h).resolve_right fun hold => by cases hold.2

theorem emptyRamfs_ok : RamfsOk emptyRamfs := by
  have hkids : ∀ x l, emptyRamfs.heap.kids x = some l → l = [] := by
    intro x l hl
    obtain ⟨n, hn, rfl⟩ := map_eq_some_iff.mp hl
    rw [(emptyRamfs_nodes hn).2]
    rfl
  have hheld : ∀ x b, emptyRamfs.heap.held x ≠ some b := by
    intro x b hb
    obtain ⟨n, hn, hbuf⟩ := bind_eq_some_iff.mp hb
    rw [(emptyRamfs_nodes hn).2] at hbuf
    cases hbuf
  refine ⟨⟨⟨?_, ?_, ?_⟩, ?_, ?_, ?_, ?_, fun _ _ => rfl⟩, ?_⟩
  · intro d l c hd hc
    rw [hkids d l hd] at hc
    cases hc
  · intro d l hd
    rw [hkids d l hd]
    exact nodup_nil
  · intro d l d' l' c hd _ hc
    rw [hkids d l hd] at hc
    cases hc
  · intro x n hn _
    rw [(emptyRamfs_nodes hn).2]
    rfl
  · exact fun x b hb => absurd hb (hheld x b)
  · exact fun x y b hb => absurd hb (hheld x b)
  · refine fun x hx => eq_none_iff_forall_ne_some.mpr fun n hn => ?_
    rw [(emptyRamfs_nodes hn).1] at hx
    exact absurd hx (by decide)
  intro x n hn
  rw [(emptyRamfs_nodes hn).2]
  rfl

/-- A file is written, read and closed; then it can be unlinked. -/
theorem no_use_after_free_run :
    ∃ s, Reachable (fileCallStep sampleEnv [firstMount 64 ['/']])
        (fun s e => unshared sampleEnv [firstMount 64 ['/']] s e = true) emptyRamfsMount s ∧
      unshared sampleEnv [firstMount 64 ['/']] s (.call (.unlink "/f".toList)) = true ∧
      fileCallStep sampleEnv [firstMount 64 ['/']] s (.call (.unlink "/f".toList)) ≠
        .error (.fault .useAfterFree) := by
  obtain ⟨s, hreach, hok⟩ : ∃ s, Reachable (fileCallStep sampleEnv [firstMount 64 ['/']])
      (fun s e => unshared sampleEnv [firstMount 64 ['/']] s e = true) emptyRamfsMount s ∧
      unshared sampleEnv [firstMount 64 ['/']] s (.call (.unlink "/f".toList)) = true :=
    Reachable.exists_of_run [.call (.openFile "/f".toList { creat := true, write := true }),
      .io 1 (.write 0 false [[65, 66, 67]]), .io 1 (.read 0 [[0, 0]]), .io 1 (.truncate 2),
      .call (.close 1)] (by decide +kernel)
  exact ⟨s, hreach, hok, no_use_after_free_of_unshared emptyRamfs_ok ⟨_, rfl⟩ rfl hreach hok⟩

/-- A file that is unlinked while it is open is written after its node has been freed. -/
theorem use_after_free_of_open_file :
    ∃ s, Reachable (fileCallStep sampleEnv [firstMount 64 ['/']]) (fun _ _ => True)
        emptyRamfsMount s ∧
      fileCallStep sampleEnv [firstMount 64 ['/']] s (.io 1 (.write 0 false [[65]])) =
        .error (.fault .useAfterFree) := by
  obtain ⟨s, hs, hfault⟩ : ∃ s, Reachable (fileCallStep sampleEnv [firstMount 64 ['/']])
      (fun _ _ => True) emptyRamfsMount s ∧
      failureOf (fileCallStep sampleEnv [firstMount 64 ['/']] s
        (.io 1 (.write 0 false [[65]]))) = some (.fault .useAfterFree) :=
    Reachable.exists_of_run [.call (.openFile "/f".toList { creat := true, write := true }),
      .call (.unlink "/f".toList)] (by decide +kernel)
  exact ⟨s, hs, failureOf_eq_some hfault⟩

end

end Unikraft.Ramfs
