import Unikraft.Lib.Run
import Unikraft.Vfscore.Process
import Unikraft.Vfscore.Tidy

/-!
# The dentry cache of one mounted file system, over whole runs

Every call keeps the cache tidy but `dentry_move`, which takes only the children of a renamed
directory out of the hash table. If the source of each rename has no children in the cache, a dentry
found under a path stands for the object at that path.

Since a rename resolves its target after its source, the resolutions are followed with names that
stay without children (`TidyBar`).
-/

namespace Unikraft.Vfscore

open Lib List Option

/-- A tidy cache in which the dentries of the names `Bar` have no children. -/
structure TidyBar (m : Mount) (Bar : List Name → Prop) (fs : NameSpace) (c : Dcache)
    (L : Chain → List Nat) : Prop extends Tidy m fs c L where
  bar : ∀ ns a i d, Kept ns → Bar ns → Cached c L ns a i → c.dentries a = some d → d.dChildren = []

/-- A full path whose names are all on the `Way`. -/
def OnWay (m : Mount) (Way : List Name → Prop) (path : List Char) : Prop :=
  FullPath path ∧ ∀ ns, mountNames m path = some ns → ∀ q, q <+: ns → Way q

def PlaceAt (m : Mount) (path : List Char) (c : Dcache) (L : Chain → List Nat) (a : Nat) : Prop :=
  ∃ ns, mountNames m path = some ns ∧ At c L m.addr (joinPath ns) a

section

variable {m : Mount} {Bar Way : List Name → Prop} {fs : NameSpace} {c c' : Dcache}
  {L L' : Chain → List Nat} {ext : Nat → Nat} {ns : List Name} {a : Nat} {path dir : List Char}

theorem mountNames_kept (h : mountNames m path = some ns) : Kept ns := by
  obtain ⟨p, -, rfl⟩ := map_eq_some_iff.mp h
  exact names_kept p

theorem TidyBar.shrunk (h : TidyBar m Bar fs c L) (hok : DcacheOk c' L' ext)
    (hshrunk : Shrunk c L c' L') : TidyBar m Bar fs c' L' where
  toTidy := h.toTidy.shrunk hok hshrunk
  bar := by
    intro ns a i d hns hbar ⟨hhashed, hi, hpath⟩ hd
    obtain ⟨d₀, hd₀, hsub⟩ := hshrunk.kids a d hd
    have hc : Cached c L ns a i := ⟨hshrunk.hashed hhashed, hshrunk.ident a i hi, hpath⟩
    rw [h.bar ns a i d₀ hns hbar hc hd₀] at hsub
    exact eq_nil_of_subset_nil hsub

theorem TidyBar.alloc {ddp w : Nat} {dd : Dentry} {k : Name} (h : TidyBar m Bar fs c L)
    (hok : DcacheOk c L ext) (hdd : c.dentries ddp = some dd) (hns : Kept (ns ++ [k]))
    (hat : At c L m.addr (joinPath ns) ddp) (hedge : fs.edge dd.dVnode k = some w)
    (hmiss : ∀ a, ¬ At c L m.addr (joinPath (ns ++ [k])) a) (hbar : ¬ Bar ns) :
    TidyBar m Bar fs (c.allocated m.addr ddp dd w (joinPath (ns ++ [k])))
      (pushed c L m.addr (joinPath (ns ++ [k]))) where
  toTidy := h.toTidy.alloc hok hdd hns (hat.cached hdd) hedge hmiss
  bar := by
    intro q a i d hq hbarq ⟨hhashed, hi, hpath⟩ hd
    by_cases ha : a = c.next
    · rw [ha, allocated_next] at hd
      cases hd
      rfl
    obtain ⟨hhashed', hi'⟩ := hashed_old hok hdd ha hhashed hi
    have hc : Cached c L q a i := ⟨hhashed', hi', hpath⟩
    have hne : a ≠ ddp := by
      rintro rfl
      rw [hc.names_eq (hat.cached hdd) hq hns.left] at hbarq
      exact hbar hbarq
    rw [allocated_of_ne ha hne] at hd
    exact h.bar q a i d hq hbarq hc hd

theorem sat_any {α : Type} (call : Outcome α) : call.Sat (fun _ => False) fun _ => True := by
  cases call with
  | error f => exact id
  | ok v => trivial

theorem tidyBar_walk (hway : ∀ ns k, Bar ns → ¬ Way (ns ++ [k])) (fs : NameSpace)
    (ext : Nat → Nat) : WalkInv (nameSpaceVops fs) (fun _ => False) ext Way (TidyBar m Bar fs) where
  shrunk h hok _ hshrunk := h.shrunk hok hshrunk
  lookup _ _ _ := sat_any _
  link _ _ _ _ _ _ _ := sat_any _
  alloc := by
    intro c L ext' mp ddp dd done name w h hok hdd hat hkept hon hlookup hmiss
    obtain ⟨hhashed, i, hi, hmount, hpath⟩ := hat
    rw [h.mount ddp i hi] at hmount
    cases hmount
    exact h.alloc hok hdd hkept ⟨hhashed, i, hi, h.mount ddp i hi, hpath⟩
      (edge_of_lookup hlookup).2 hmiss fun hbar => hway _ _ hbar hon

theorem TurnPlace.placeAt (h : Tidy m fs c L) (hturn : TurnPlace [m] path c L a) :
    PlaceAt m path c L a := by
  obtain ⟨m', pos, hroot, hat⟩ := hturn
  obtain ⟨rfl, hpart⟩ := mountPart_some hroot
  refine ⟨names (path.drop pos), by rw [mountNames, hpart]; rfl, ?_⟩
  rcases hat with ⟨hhashed, i, hi, hmount, hpath⟩ | hat
  · obtain ⟨ns, hns, heq⟩ := h.rooted a i hhashed hi (by rw [hpath]; rfl)
    have hnames := names_joinPath hns
    rw [← heq, hpath, names_slash] at hnames
    exact ⟨hhashed, i, hi, hmount, by rw [heq, hnames]⟩
  · exact hat

theorem OnWay.parent {name : List Char} (h : OnWay m Way path)
    (hsplit : splitLast path = some (dir, name)) :
    OnWay m Way (if dir = [] then ['/'] else dir) := by
  refine ⟨h.1.parent hsplit, fun ns hns q hq => ?_⟩
  refine h.2 _ (mountNames_child h.1 hsplit hns) q (hq.trans ?_)
  split
  · exact prefix_refl _
  · exact prefix_append _ _

theorem OnWay.take (h : OnWay m Way path) : path.take (pathMax - 1) = path :=
  take_of_length_le (Nat.le_sub_one_of_lt h.1.short)

theorem OnWay.parentPath {name : List Char} (h : OnWay m Way path)
    (hsplit : splitLast path = some (dir, name)) :
    parentPath path = if dir = [] then ['/'] else dir := by
  rw [Vfscore.parentPath, h.take, hsplit]

section

variable (hway : ∀ ns k, Bar ns → ¬ Way (ns ++ [k]))

include hway

theorem namei_tidyBar (hpath : OnWay m Way path)
    (h : Mounted [m] c L ext) (hinv : TidyBar m Bar fs c L) :
    (namei (nameSpaceVops fs) [m] c path).Sat (fun _ => False)
      (NameiKept [m] (fun c' L' => TidyBar m Bar fs c' L' ∧ Held ext c L c' L') ext
        (PlaceAt m path) True) := by
  have hnamei := namei_keeps_place path ((tidyBar_walk hway fs ext).held c L)
    (vtype_ne_vlnk fs) h ⟨hinv, Held.refl⟩ ?_
  · rw [hpath.take] at hnamei
    exact hnamei.mono fun r hr =>
      hr.mono (fun hinv' hturn => hturn.placeAt hinv'.1.toTidy) fun _ => trivial
  rw [hpath.take]
  intro m' pos hroot q hq
  obtain ⟨rfl, hpart⟩ := mountPart_some hroot
  exact hpath.2 _ (by rw [mountNames, hpart]; rfl) q hq

theorem tidyBar_resolves (fs : NameSpace) :
    Resolves (nameSpaceVops fs) [m] (fun _ => False) (OnWay m Way) (PlaceAt m)
      (TidyBar m Bar fs) where
  shrunk h hok hshrunk := h.shrunk hok hshrunk
  place := by
    intro path c L c' L' ext a ⟨ns, hns, hat⟩ hheld ha
    exact ⟨ns, hns, hat.held hheld ha⟩
  namei hpath h hinv := namei_tidyBar hway hpath h hinv
  lookup := by
    intro path c L ext hpath h hinv
    refine lookup_keeps ((tidyBar_walk hway fs ext).held c L) id h ⟨hinv, Held.refl⟩
      fun dir name hsplit => ?_
    rw [hpath.take] at hsplit
    rw [hpath.parentPath hsplit]
    exact namei_tidyBar hway (hpath.parent hsplit) h hinv
  last := by
    intro path c L ext ddp dd hpath h hinv hdd hdir ⟨ns, hns, hat⟩
    refine nameiLastNofollow_keeps ((tidyBar_walk hway fs ext).held c L) (fun _ => le_rfl) h
      ⟨hinv, Held.refl⟩ hdd ?_
    intro mp name node hlast
    obtain ⟨rfl, ⟨dir, hsplit⟩, ns', hns', rfl⟩ := lastComponent_eq hpath.1 hlast
    refine ⟨fun c L a ha => ⟨ns', hns', ha⟩, fun w hlookup hmiss => ?_⟩
    obtain ⟨hne, hedge⟩ := edge_of_lookup hlookup
    rw [hpath.parentPath hsplit] at hns
    have hkept := mountNames_kept hns'
    have hon := hpath.2 ns' hns' ns' (prefix_refl ns')
    rw [mountNames_child hpath.1 hsplit hns, if_neg hne] at hns'
    cases hns'
    refine ⟨hinv.alloc h.ok hdd hkept hat hedge hmiss fun hbar => hway _ _ hbar hon, ?_⟩
    exact fun a i _ hi => ⟨ident_old h.ok hdd hi, fun hhashed => hashed_cons.mpr (.inr hhashed)⟩

theorem tidyBar_calls :
    CallInv nameSpaceSys [m] (fun _ => False) (OnWay m Way) (PlaceAt m) (TidyBar m Bar) where
  null := id
  assertion := id
  resolves := tidyBar_resolves hway
  create := by
    intro fs c L path ddp dd name type _ hinv hdd hdir ⟨ns, hns, hat⟩ _
    have hnode := hinv.node ns ddp _ (mountNames_kept hns) (hat.cached hdd)
    have hedge : fs.edge dd.dVnode name = none →
        TidyBar m Bar (fs.create dd.dVnode name (type = .vdir)) c L := fun hedge =>
      ⟨hinv.toTidy.create hnode (isDir_of_vtype hdir) hedge, hinv.bar⟩
    rw [nameSpaceSys]
    dsimp only
    split_ifs with hempty hfile hexists
    · exact nofun
    · exact nofun
    · exact nofun
    · exact fun _ => hedge (not_isSome_iff_eq_none.mp hexists)
  truncate hinv _ _ := hinv
  isEmpty _ _ := sat_any _

end

end

/-! ### Calls that take names away -/

section

variable {m : Mount} {Bar : List Name → Prop} {fs : NameSpace} {c c₀ : Dcache}
  {L L₀ : Chain → List Nat} {ext : Nat → Nat} {path name : List Char} {ddp dp : Nat} {d dd : Dentry}
  {s : Vfs NameSpace}

theorem Tidy.plain (h : Tidy m fs c L) : TidyBar m (fun _ => False) fs c L := ⟨h, nofun⟩

theorem onWay_true (h : FullPath path) : OnWay m (fun _ => True) path := ⟨h, fun _ _ _ _ => trivial⟩

theorem Tidy.split (h : Tidy m fs c L) (hpath : FullPath path)
    (hsplit : ∃ dir, splitLast path = some (dir, name))
    (hdir : PlaceAt m (parentPath path) c L ddp) (hplace : PlaceAt m path c L dp)
    (hdd : c.dentries ddp = some dd) (hd : c.dentries dp = some d)
    (hedge : fs.edge dd.dVnode name = some d.dVnode) :
    ∃ ns, mountNames m path = some (ns ++ [name]) ∧ Cached c L ns ddp dd.toIdent ∧
      Cached c L (ns ++ [name]) dp d.toIdent := by
  obtain ⟨dir, hsplit⟩ := hsplit
  obtain ⟨ns, hns, hat⟩ := hdir
  obtain ⟨ns', hns', hat'⟩ := hplace
  rw [(onWay_true (m := m) hpath).parentPath hsplit] at hns
  have hnode := h.node ns ddp _ (mountNames_kept hns) (hat.cached hdd)
  have hnode' := h.node ns' dp _ (mountNames_kept hns') (hat'.cached hd)
  have heq := some.inj (hns'.symm.trans (mountNames_child hpath hsplit hns))
  have hname : name ≠ [] := by
    -- a directory is not in itself
    intro hnil
    rw [if_pos hnil] at heq
    have hself : fs.nodeAt (ns ++ [name]) = some d.dVnode := by
      rw [NameSpace.nodeAt_concat, hnode]
      exact hedge
    have hlen := congrArg List.length (h.ok.rooted.path_unique hself hnode')
    rw [heq] at hlen
    simp at hlen
  rw [if_neg hname] at heq
  rw [heq] at hns' hat'
  exact ⟨ns, hns', hat.cached hdd, hat'.cached hd⟩

theorem Mounted.root_ne {ns : List Name} {k : Name} {i : Ident} (h : Mounted [m] c L ext)
    (hns : Kept (ns ++ [k])) (hc : Cached c L (ns ++ [k]) dp i) : m.mRoot ≠ dp := by
  rintro rfl
  obtain ⟨hhashed, j, hj, -, hpath⟩ := h.root m (mem_singleton_self m)
  have hroot : Cached c L [] m.mRoot j := ⟨hhashed, hj, hpath⟩
  have hnil := hroot.names_eq hc (fun _ hk => absurd hk not_mem_nil) hns
  simp at hnil

theorem Located.removes (h : Located (nameSpaceVops fs) [m] (PlaceAt m)
      (TidyBar m (fun _ => False) fs) ext path c₀ L₀ ddp name dp c L)
    (hpath : FullPath path) (hdd : c.dentries ddp = some dd) (hd : c.dentries dp = some d)
    (hedge : fs.edge dd.dVnode name = some d.dVnode) (hempty : fs.isEmpty d.dVnode = true) :
    (∀ m' ∈ [m], m'.mRoot ≠ dp) ∧ ∀ c' L', DcacheOk c' L' ext → Unhashed c L (· = dp) c' L' →
      TidyBar m (fun _ => False) (fs.remove dd.dVnode name) c' L' := by
  have htidy := h.inv.toTidy
  obtain ⟨ns, hns, hdir, hc⟩ := htidy.split hpath h.name h.dirPlace h.place hdd hd hedge
  have hkept := mountNames_kept hns
  have hnode := htidy.node ns ddp _ hkept.left hdir
  refine ⟨fun m' hm => ?_, fun c' L' hok hun => ?_⟩
  · rw [mem_singleton.mp hm]
    exact h.mounted.root_ne hkept hc
  · exact (htidy.remove hok hun hkept hc hnode hedge hempty).plain

theorem sysUnlink_tidy (hpath : FullPath path) (h : Mounted [m] s.cache L ext)
    (hinv : TidyBar m (fun _ => False) s.fs s.cache L) :
    (sysUnlink nameSpaceSys [m] s path).Sat (fun _ => False)
      (CallKept [m] (TidyBar m fun _ => False) ext) := by
  refine sysUnlink_keeps (tidyBar_calls nofun) (onWay_true hpath) h hinv ?_
  intro ddp name dp c L' dd d _ hloc hdd hd _ _
  rw [TakesAway, nameSpaceSys]
  dsimp only
  split
  · rename_i hentry
    exact fun _ => hloc.removes hpath hdd hd hentry.1 (hloc.inv.ok.isEmpty_of_file hentry.2)
  · exact nofun

theorem sysRmdir_tidy (hpath : FullPath path) (h : Mounted [m] s.cache L ext)
    (hinv : TidyBar m (fun _ => False) s.fs s.cache L) :
    (sysRmdir nameSpaceSys [m] s path).Sat (fun _ => False)
      (CallKept [m] (TidyBar m fun _ => False) ext) := by
  refine sysRmdir_keeps (tidyBar_calls nofun) (onWay_true hpath) h hinv ?_
  intro ddp name dp c L' dd d hloc hdd hd _ _ _
  rw [TakesAway, nameSpaceSys]
  dsimp only
  split
  · rename_i hentry
    exact fun _ => hloc.removes hpath hdd hd hentry.1 hentry.2.2
  · exact nofun

end

/-! ### Renaming -/

section

variable {m : Mount} {Bar : List Name → Prop} {ext : Nat → Nat} {src dest dir dname : List Char}
  {s s' : Vfs NameSpace} {L L' : Chain → List Nat} {args : Renaming} {d1 dd1 dd2 : Dentry}
  {vp2 : Option Nat}

/-- What is at or below the target of a rename: at most the target itself, and then there is a
dentry for it. -/
theorem RenameLocated.leaf {q : List Name}
    (h : RenameLocated nameSpaceSys [m] (PlaceAt m) (TidyBar m Bar) ext src dest s L args s' L')
    (hvp2 : targetVnode s'.cache args.dp2 = .ok vp2) (hq : mountNames m dest = some (q ++ [dname]))
    (hnode : s.fs.nodeAt q = some dd2.dVnode) (hedge : s.fs.edge dd2.dVnode dname = vp2) :
    ∀ ns x, q ++ [dname] <+: ns → s.fs.nodeAt ns = some x →
      ns = q ++ [dname] ∧ args.dp2 ≠ none := by
  intro ns x hpre hx
  have htidy := h.looked.inv.toTidy
  have htarget : s.fs.nodeAt (q ++ [dname]) = vp2 := by
    rw [NameSpace.nodeAt_concat, hnode]
    exact hedge
  cases hdp2 : args.dp2 with
  | none =>
    rw [hdp2] at hvp2
    cases hvp2
    obtain ⟨rest, rfl⟩ := hpre
    rw [NameSpace.nodeAt, follow_append] at hx
    rw [NameSpace.nodeAt] at htarget
    rw [htarget] at hx
    cases hx
  | some b =>
    obtain ⟨-, d2, d1, hd2, -, hdir⟩ := h.target b hdp2
    rw [hdp2, targetVnode, deref_some hd2] at hvp2
    cases hvp2
    refine ⟨htidy.ok.nodeAt_below htarget ?_ hpre hx, some_ne_none b⟩
    cases hfile : s.fs.isDir d2.dVnode with
    | false => exact htidy.ok.isEmpty_of_file hfile
    | true =>
      -- the directory has been found to be empty
      have hvdir : (nameSpaceVops s.fs).vtype d2.dVnode = .vdir := by
        rw [nameSpaceVops_vtype, if_pos hfile]
      obtain ⟨-, c₀, L₀, dp₀, d₀, hinv₀, ⟨ns₀, hns₀, hat₀⟩, hd₀, hempty⟩ := hdir hvdir
      rw [hq] at hns₀
      cases hns₀
      have hnode₀ := hinv₀.node _ dp₀ _ (mountNames_kept hq) (hat₀.cached hd₀)
      rw [htarget] at hnode₀
      have hvnode : d2.dVnode = d₀.dVnode := some.inj hnode₀
      rw [hvnode]
      exact Except.ok.inj hempty

/-- The source has no children in the cache, and it gets another name. -/
theorem RenameLocated.moves
    (h : RenameLocated nameSpaceSys [m] (PlaceAt m) (TidyBar m Bar) ext src dest s L args s' L')
    (hsrc : FullPath src) (hdest : FullPath dest) (hend : src = ['/'] ∨ endsSlash src = false)
    (hend' : dest = ['/'] ∨ endsSlash dest = false) (hd1 : s'.cache.dentries args.dp1 = some d1)
    (hdd1 : s'.cache.dentries args.ddp1 = some dd1) (hdd2 : s'.cache.dentries args.ddp2 = some dd2)
    (hvp2 : targetVnode s'.cache args.dp2 = .ok vp2) (hne : src ≠ dest)
    (hparent : ¬ isParent src dest) (hsplit : splitLast dest = some (dir, dname))
    (hbar : ∀ ns, Bar ns ↔ mountNames m src = some ns) :
    Moves [m] (fun _ => False) (TidyBar m Bar) ext s'.cache L' args dname
      (nameSpaceSys.rename s.fs dd1.dVnode d1.dVnode args.sname dd2.dVnode vp2 dname) := by
  have htidy := h.looked.inv.toTidy
  have hm := h.looked.mounted
  rw [Moves, nameSpaceSys]
  dsimp only
  split
  · rename_i hentry
    obtain ⟨hdname, hisdir, hedge, htarget⟩ := hentry
    intro _
    -- the names of the source, and those of the target
    obtain ⟨q₁, hq₁, hdir₁, hc⟩ :=
      htidy.split hsrc h.srcName h.srcDirPlace h.srcPlace hdd1 hd1 hedge
    obtain ⟨q₂, hq₂, hat₂⟩ := h.dirPlace
    rw [(onWay_true (m := m) hdest).parentPath hsplit] at hq₂
    have hdir₂ := hat₂.cached hdd2
    have hns := mountNames_child hdest hsplit hq₂
    rw [if_neg hdname] at hns
    have hkept := mountNames_kept hq₁
    have hkept' := mountNames_kept hns
    have hd₂ := htidy.node q₂ _ _ hkept'.left hdir₂
    have hout : ¬ q₁ ++ [args.sname] <+: q₂ ++ [dname] := fun hpre =>
      (isParent_of_names hsrc hdest hend hend' hq₁ hns hpre).elim hne hparent
    have hdp2 : ∀ b, args.dp2 = some b → ∃ j, Cached s'.cache L' (q₂ ++ [dname]) b j := by
      intro b hb
      obtain ⟨⟨ns, hns₂, hat⟩, d2, -, hd2, -⟩ := h.target b hb
      rw [hns] at hns₂
      cases hns₂
      exact ⟨_, hat.cached hd2⟩
    have hkids := h.looked.inv.bar _ _ _ d1 hkept ((hbar _).mpr hq₁) hc hd1
    refine ⟨fun m' hm' => ?_, ?_, fun d hd => ?_, fun c₁ L₁ c₂ L₂ hre hok hun => ?_⟩
    · rw [mem_singleton.mp hm']
      refine ⟨hm.root_ne hkept hc, fun heq => ?_⟩
      obtain ⟨j, hj⟩ := hdp2 _ heq
      exact hm.root_ne hkept' hj rfl
    · intro heq
      rw [heq] at hc
      rw [hdir₂.names_eq hc hkept'.left hkept] at hout
      exact hout (prefix_append _ _)
    · rw [hd1] at hd
      cases hd
      exact hkids
    refine ⟨htidy.rename hm.ok hok hre hun hkept hkept' hc hd1 hkids
      (htidy.node q₁ _ _ hkept.left hdir₁) hedge hd₂ hisdir hout hdp2
      (h.leaf hvp2 hns hd₂ htarget), ?_⟩
    -- under the names of the source there was its dentry alone
    intro ns x j d hns hx hxc hd
    rw [hbar, hq₁] at hx
    cases hx
    obtain ⟨hxa, -, hxc'⟩ := hre.cached hun (hkept' dname (by simp)).2 hxc
    exact absurd (htidy.unique _ x _ j _ hxc' hc) hxa
  · exact nofun

/-- The children in the cache of the dentry of a path. -/
def cachedKids (m : Mount) (c : Dcache) (path : List Char) : List Nat :=
  match mountPart m path with
  | none => []
  | some p =>
    match dentryFind c m.addr ('/' :: p) with
    | .ok (some dp) => ((c.dentries dp).map (·.dChildren)).getD []
    | _ => []

theorem cachedKids_eq {c : Dcache} {fs : NameSpace} {path : List Char} {ns : List Name} {a : Nat}
    {i : Ident} {d : Dentry} (h : Tidy m fs c L) (hok : DcacheOk c L ext) (hpath : FullPath path)
    (hend : path = ['/'] ∨ endsSlash path = false) (hns : mountNames m path = some ns)
    (hc : Cached c L ns a i) (hd : c.dentries a = some d) : cachedKids m c path = d.dChildren := by
  obtain ⟨p, hp, rfl⟩ := map_eq_some_iff.mp hns
  have hjoin := hpath.part_eq hend hp
  have hfind : dentryFind c m.addr ('/' :: p) = .ok (some a) := by
    rw [hok.dentryFind]
    congr 1
    cases hfind : (L (.bucket (dentryHash m.addr ('/' :: p)))).find?
        (c.matches m.addr ('/' :: p)) with
    | none =>
      have hmiss := (hok.lookup_none hfind).2 a i hc.1 hc.2.1 (h.mount a i hc.2.1)
      exact absurd (hc.2.2.trans hjoin.symm) hmiss
    | some b =>
      obtain ⟨d', hd', hhashed, -, hpath', -⟩ := hok.lookup_some hfind
      rw [h.unique _ b a _ i ⟨hhashed, ident_some hd', hpath'.trans hjoin⟩ hc]
  rw [cachedKids, hp]
  simp only [hfind, hd]
  rfl

/-- Names that are not strictly below those of a path. -/
def NotBelow (m : Mount) (path : List Char) (ns : List Name) : Prop :=
  ∀ ns' k, mountNames m path = some ns' → ¬ ns' ++ [k] <+: ns

theorem sysRename_tidy (hsrc : FullPath src) (hdest : FullPath dest)
    (h : Mounted [m] s.cache L ext) (hinv : TidyBar m (fun _ => False) s.fs s.cache L)
    (hkids : cachedKids m s.cache (stripped src) = []) :
    (sysRename nameSpaceSys [m] s src dest).Sat (fun _ => False)
      (CallKept [m] (TidyBar m fun _ => False) ext) := by
  obtain ⟨hsrc', hend⟩ := hsrc.stripped
  obtain ⟨hdest', hend'⟩ := hdest.stripped
  by_cases hbelow : ∃ ns ns', mountNames m (stripped src) = some ns ∧
      mountNames m (stripped dest) = some ns' ∧ ns <+: ns'
  · -- the call fails before it changes anything
    obtain ⟨ns, ns', hns, hns', hpre⟩ := hbelow
    refine sysRename_keeps (tidyBar_calls nofun) (onWay_true hsrc') (onWay_true hdest') h hinv ?_
    intro args s' L' d1 dd1 dd2 vp2 dir dname _ _ _ _ _ _ hne hparent _ _
    exact ((isParent_of_names hsrc' hdest' hend hend' hns hns' hpre).elim hne hparent).elim
  -- no path leads below the source
  have hway : ∀ ns k, mountNames m (stripped src) = some ns →
      ¬ NotBelow m (stripped src) (ns ++ [k]) :=
    fun ns k hns hnot => hnot ns k hns (prefix_refl _)
  have hgood : OnWay m (NotBelow m (stripped src)) (stripped src) := by
    refine ⟨hsrc', fun ns hns q hq ns' k hns' hpre => ?_⟩
    rw [hns] at hns'
    cases hns'
    have hlen := (hpre.trans hq).length_le
    simp at hlen
  have hgood' : OnWay m (NotBelow m (stripped src)) (stripped dest) :=
    ⟨hdest', fun ns hns q hq ns' k hns' hpre =>
      hbelow ⟨ns', ns, hns', hns, (prefix_append _ _).trans (hpre.trans hq)⟩⟩
  have hinv' : TidyBar m (mountNames m (stripped src) = some ·) s.fs s.cache L :=
    ⟨hinv.toTidy, fun ns a i d _ hns hc hd =>
      (cachedKids_eq hinv.toTidy h.ok hsrc' hend hns hc hd).symm.trans hkids⟩
  have hcall : (sysRename nameSpaceSys [m] s src dest).Sat (fun _ => False)
      (CallKept [m] (TidyBar m (mountNames m (stripped src) = some ·)) ext) := by
    refine sysRename_keeps (tidyBar_calls hway) hgood hgood' h hinv' ?_
    intro args s' L' d1 dd1 dd2 vp2 dir dname _ hloc hd1 hdd1 hdd2 hvp2 hne hparent hsplit _
    exact hloc.moves hsrc' hdest' hend hend' hd1 hdd1 hdd2 hvp2 hne hparent hsplit fun ns => Iff.rfl
  refine hcall.mono fun r hr hnone => ?_
  obtain ⟨L', hinv', hm'⟩ := hr hnone
  exact ⟨L', hinv'.toTidy.plain, hm'⟩

end

/-! ### Runs -/

/-- The file system is mounted, and nothing is in the cache but its root. -/
def mountedSys (calloc : Nat → Bool) (fs : NameSpace) (m : Mount) : Sys NameSpace :=
  ⟨⟨fs, (dentryInit calloc).allocatedRoot m.addr fs.root ['/']⟩, []⟩

/-- The children in the cache of the source of a rename. -/
def renamedKids (m : Mount) (s : Sys NameSpace) : Call → List Nat
  | .rename oldpath _ =>
    match pathConv ['/'] oldpath with
    | .ok (.ok src) => cachedKids m s.vfs.cache (stripped src)
    | _ => []
  | _ => []

section

variable {m : Mount} {fs : NameSpace} {s : Sys NameSpace} {e : Call} {calloc : Nat → Bool}

theorem mountedSys_inv (hm : m.mRoot = 0) (hfs : fs.Ok) :
    SysInv [m] (TidyBar m fun _ => False) (mountedSys calloc fs m) := by
  obtain ⟨L, hmounted⟩ : ∃ L, Mounted [m] (mountedSys calloc fs m).vfs.cache L
      ((mountedSys calloc fs m).refs [m]) := Mounted.first hm fs
  have hident : ∀ a i, (mountedSys calloc fs m).vfs.cache.ident a = some i →
      a = 0 ∧ i = ⟨['/'], fs.root, m.addr, none⟩ := fun a i => firstDentry
  have hroot : Kept [] := fun _ hk => absurd hk not_mem_nil
  refine ⟨L, ⟨⟨hfs, ?_, ?_, ?_, ?_, ?_⟩, nofun⟩, hmounted⟩
  · intro a i hi
    rw [(hident a i hi).2]
  · intro a i _ hi _
    exact ⟨[], hroot, by rw [(hident a i hi).2]; rfl⟩
  · intro ns a i hns ⟨_, hi, hpath⟩
    rw [(hident a i hi).2] at hpath ⊢
    rw [← joinPath_inj hroot hns hpath]
    rfl
  · intro ns a b i j ⟨_, hi, _⟩ ⟨_, hj, _⟩
    rw [(hident a i hi).1, (hident b j hj).1]
  intro ns k a i hns ⟨_, hi, hpath⟩
  rw [(hident a i hi).2] at hpath
  have hnil := joinPath_inj hroot hns hpath
  simp at hnil

/-- **Every call keeps the cache tidy.** -/
theorem callStep_tidy (h : SysInv [m] (TidyBar m fun _ => False) s)
    (hkids : renamedKids m s e = []) :
    StepKept (fun _ => False) (SysInv [m] (TidyBar m fun _ => False))
      (callStep nameSpaceSys [m] s e) := by
  obtain ⟨L, hinv, hm⟩ := h
  refine callStep_keeps (tidyBar_calls nofun) id (fun path hpath => onWay_true hpath) ⟨L, hinv, hm⟩
    ?_ ?_ ?_
  · exact fun path full _ _ hpath => sysRmdir_tidy hpath hm hinv
  · exact fun path full _ _ hpath => sysUnlink_tidy hpath hm hinv
  intro oldpath newpath src dest he hconv _ hsrc hdest
  rw [he, renamedKids, hconv] at hkids
  exact sysRename_tidy hsrc hdest hm hinv hkids

/-- **The dentry cache is coherent.** In every run in which the source of each rename has no
children in the cache, a dentry is on one chain, in the bucket of its mount and path if it is
hashed, and what `dentry_lookup` finds under a path from the root stands for the object at that
path. -/
theorem dcache_coherent_of_leaf_renames {addr : Nat} {mPath : List Char} (hfs : fs.Ok)
    (hs : Reachable (callStep nameSpaceSys [firstMount addr mPath])
      (fun s e => renamedKids (firstMount addr mPath) s e = [])
      (mountedSys calloc fs (firstMount addr mPath)) s) :
    ∃ L, HLists s.vfs.cache.links L ∧ (∀ a h h', a ∈ L h → a ∈ L h' → h = h') ∧
      (∀ a d, Hashed L a → s.vfs.cache.dentries a = some d →
        a ∈ L (.bucket (dentryHash d.dMount d.dPath))) ∧
      ∀ path a c', path.head? = some '/' → dentryLookup s.vfs.cache addr path = .ok (some a, c') →
        ∃ d, s.vfs.cache.dentries a = some d ∧ s.vfs.fs.nodeAt (names path) = some d.dVnode := by
  have hinv : SysInv [firstMount addr mPath]
      (TidyBar (firstMount addr mPath) fun _ => False) s := by
    refine hs.invariant (mountedSys_inv rfl hfs) fun s e r s' h hkids hstep => ?_
    have hkept := callStep_tidy h hkids
    rw [hstep] at hkept
    exact hkept
  obtain ⟨L, hinv, hmounted⟩ := hinv
  have hchains := hmounted.ok.chains
  refine ⟨L, hchains.lists, fun a h h' => hchains.lists.unique h h' a,
    fun a d ha hd => hchains.mem_bucket ha (ident_some hd), fun path a c' hhead hlookup => ?_⟩
  cases hfind : (L (.bucket (dentryHash addr path))).find? (s.vfs.cache.matches addr path) with
  | none =>
    rw [(hmounted.ok.lookup_none hfind).1] at hlookup
    cases hlookup
  | some b =>
    obtain ⟨d, hd, hhashed, -, hpath, hcall, -⟩ := hmounted.ok.lookup_some hfind
    rw [hcall] at hlookup
    cases hlookup
    obtain ⟨ns, hns, heq⟩ := hinv.rooted a _ hhashed (ident_some hd) (by rw [hpath]; exact hhead)
    refine ⟨d, hd, ?_⟩
    rw [← hpath, heq, names_joinPath hns]
    exact hinv.node ns a _ hns ⟨hhashed, ident_some hd, heq⟩

def emptyTree : NameSpace := ⟨[], fun v => v = 0, 0, 1⟩

theorem emptyTree_ok : emptyTree.Ok :=
  ⟨nofun, nofun, nofun, nofun, nofun, nofun, Nat.one_pos⟩

/-- The file system with nothing in it is mounted. -/
def emptyMount : Sys NameSpace := mountedSys (fun _ => true) emptyTree (firstMount 64 ['/'])

/-- A file is moved into a directory and opened under its new name. -/
theorem dcache_coherent_run :
    ∃ s c', Reachable (callStep nameSpaceSys [firstMount 64 ['/']])
        (fun s e => renamedKids (firstMount 64 ['/']) s e = []) emptyMount s ∧
      dentryLookup s.vfs.cache 64 "/d/g".toList = .ok (some 3, c') ∧
      ∃ d, s.vfs.cache.dentries 3 = some d ∧
        s.vfs.fs.nodeAt (names "/d/g".toList) = some d.dVnode := by
  obtain ⟨s, hreach, hfind⟩ : ∃ s, Reachable (callStep nameSpaceSys [firstMount 64 ['/']])
      (fun s e => renamedKids (firstMount 64 ['/']) s e = []) emptyMount s ∧
      (dentryLookup s.vfs.cache 64 "/d/g".toList).toOption.map (fun r => (r.1, ())) =
        some (some 3, ()) :=
    Reachable.exists_of_run
      [.mkdir "/d".toList, .openFile "/f".toList { creat := true, write := true },
        .rename "/f".toList "/d/g".toList, .openFile "/d/g".toList {}] (by decide +kernel)
  obtain ⟨c', hlookup, -⟩ := Outcome.exists_of_eval _ (fun _ => ()) hfind
  obtain ⟨L, -, -, -, hnode⟩ := dcache_coherent_of_leaf_renames emptyTree_ok hreach
  exact ⟨s, c', hreach, hlookup, hnode _ 3 c' rfl hlookup⟩

/-- A file two levels below a renamed directory is still found under its old path, and a renamed
file under its last name. -/
theorem dcache_incoherent_after_rename :
    (∃ s c',
      Reachable (callStep nameSpaceSys [firstMount 64 ['/']]) (fun _ _ => True) emptyMount s ∧
      dentryLookup s.vfs.cache 64 "/a/b/c".toList = .ok (some 9, c') ∧
      s.vfs.fs.nodeAt (names "/a/b/c".toList) = none) ∧
    ∃ s c', Reachable (callStep nameSpaceSys [firstMount 64 ['/']]) (fun _ _ => True) emptyMount s ∧
      dentryLookup s.vfs.cache 64 "g".toList = .ok (some 1, c') ∧
      s.vfs.fs.nodeAt (names "g".toList) = none := by
  constructor
  · obtain ⟨s, hs, hfind, hnode⟩ : ∃ s, Reachable (callStep nameSpaceSys [firstMount 64 ['/']])
        (fun _ _ => True) emptyMount s ∧
        (dentryLookup s.vfs.cache 64 "/a/b/c".toList).toOption.map (fun r => (r.1, ())) =
          some (some 9, ()) ∧ s.vfs.fs.nodeAt (names "/a/b/c".toList) = none :=
      Reachable.exists_of_run [.mkdir "/a".toList, .mkdir "/a/b".toList,
        .openFile "/a/b/c".toList { creat := true, write := true },
        .rename "/a".toList "/z".toList] (by decide +kernel)
    obtain ⟨c', hlookup, -⟩ := Outcome.exists_of_eval _ (fun _ => ()) hfind
    exact ⟨s, c', hs, hlookup, hnode⟩
  obtain ⟨s, hs, hfind, hnode⟩ : ∃ s, Reachable (callStep nameSpaceSys [firstMount 64 ['/']])
      (fun _ _ => True) emptyMount s ∧
      (dentryLookup s.vfs.cache 64 "g".toList).toOption.map (fun r => (r.1, ())) =
        some (some 1, ()) ∧ s.vfs.fs.nodeAt (names "g".toList) = none :=
    Reachable.exists_of_run
      [.mkdir "/d".toList, .openFile "/f".toList { creat := true, write := true },
        .rename "/f".toList "/d/g".toList] (by decide +kernel)
  obtain ⟨c', hlookup, -⟩ := Outcome.exists_of_eval _ (fun _ => ()) hfind
  exact ⟨s, c', hs, hlookup, hnode⟩

end

end Unikraft.Vfscore
