import Unikraft.Lib.Forest
import Unikraft.Ramfs.Vnops

/-!
# What the functions of `ramfs` need of the heap, and keep (`HeapOk`)

The lists of children form a forest, only directories have children, and a buffer belongs to one
node. The lemma of a function says that it follows no pointer to nothing, and which nodes are left
(`NodesKept`).
-/

namespace Unikraft.Ramfs

open Lib Vfscore Function Outcome Heap

/-! ### The invariant -/

def Heap.kids (fs : Heap) (x : Nat) : Option (List Nat) := (fs.nodes x).map (·.rnChild)

def Heap.held (fs : Heap) (x : Nat) : Option Nat := (fs.nodes x).bind (·.rnBuf)

/-- Lists and buffers are where the nodes say, and nothing is at the addresses from `time` on. -/
structure HeapOk (fs : Heap) (time : Nat) : Prop where
  forest : Forest fs.kids
  dir : ∀ x n, fs.nodes x = some n → n.rnChild ≠ [] → n.rnType = .dir
  held_live : ∀ x b, fs.held x = some b → (fs.bufs b).isSome
  held_one : ∀ x y b, fs.held x = some b → fs.held y = some b → x = y
  fresh : ∀ x, time ≤ x → fs.nodes x = none
  fresh_buf : ∀ b, time ≤ b → fs.bufs b = none

/-- The nodes that are not `gone` are still there, with their types. -/
def NodesKept (gone : Nat → Prop) (fs fs' : Heap) : Prop :=
  ∀ x n, fs.nodes x = some n → ¬ gone x → ∃ n', fs'.nodes x = some n' ∧ n'.rnType = n.rnType

section

variable {fs fs' fs₁ : Heap} {time np x b : Nat} {n n' : TreeNode} {gone gone' : Nat → Prop}

theorem Heap.kids_some (h : fs.nodes x = some n) : fs.kids x = some n.rnChild := by
  rw [kids, h]
  rfl

theorem Heap.held_some (h : fs.nodes x = some n) : fs.held x = n.rnBuf := by
  rw [held, h]
  rfl

theorem Heap.kids_set : (fs.set np n).kids = update fs.kids np (some n.rnChild) := by
  funext x
  rw [kids, set_nodes, update_apply]
  split
  · rfl
  · rfl

theorem Heap.held_set : (fs.set np n).held = update fs.held np n.rnBuf := by
  funext x
  rw [held, set_nodes, update_apply]
  split
  · rfl
  · rfl

theorem NodesKept.refl : NodesKept gone fs fs := fun _ n hn _ => ⟨n, hn, rfl⟩

theorem NodesKept.trans (h : NodesKept gone fs fs₁) (h' : NodesKept gone' fs₁ fs') :
    NodesKept (fun x => gone x ∨ gone' x) fs fs' := by
  intro x n hn hgone
  obtain ⟨n₁, hn₁, htype₁⟩ := h x n hn fun hx => hgone (.inl hx)
  obtain ⟨n', hn', htype⟩ := h' x n₁ hn₁ fun hx => hgone (.inr hx)
  exact ⟨n', hn', htype.trans htype₁⟩

theorem NodesKept.mono (h : NodesKept gone fs fs') (himp : ∀ x, gone x → gone' x) :
    NodesKept gone' fs fs' :=
  fun x n hn hgone => h x n hn fun hx => hgone (himp x hx)

theorem NodesKept.set {bufs : Nat → Option (List UInt8)} (hn : fs.nodes np = some n)
    (htype : n'.rnType = n.rnType) :
    NodesKept (fun _ => False) fs (({ fs with bufs := bufs } : Heap).set np n') := by
  intro x m hm _
  rw [set_nodes]
  by_cases hx : x = np
  · rw [hx, hn] at hm
    cases hm
    exact ⟨n', if_pos hx, htype⟩
  · exact ⟨m, (if_neg hx).trans hm, rfl⟩

section

variable (h : HeapOk fs time)

include h

theorem HeapOk.mono {time' : Nat} (hle : time ≤ time') : HeapOk fs time' :=
  ⟨h.forest, h.dir, h.held_live, h.held_one, fun x hx => h.fresh x (hle.trans hx),
    fun b hb => h.fresh_buf b (hle.trans hb)⟩

theorem HeapOk.lt (hn : fs.nodes x = some n) : x < time := by
  by_contra hle
  rw [h.fresh x (Nat.not_lt.mp hle)] at hn
  cases hn

theorem HeapOk.buf_lt (hb : (fs.bufs b).isSome) : b < time := by
  by_contra hle
  rw [h.fresh_buf b (Nat.not_lt.mp hle)] at hb
  cases hb

theorem HeapOk.child {c : Nat} (hn : fs.nodes x = some n)
    (hc : c ∈ n.rnChild) : ∃ m, fs.nodes c = some m := by
  have hlive := h.forest.live x _ c (kids_some hn) hc
  rw [kids, Option.isSome_map] at hlive
  exact Option.isSome_iff_exists.mp hlive

theorem HeapOk.setFile {time' : Nat} {bufs : Nat → Option (List UInt8)}
    (hle : time ≤ time') (hn : fs.nodes np = some n) (hkids : n'.rnChild = n.rnChild)
    (htype : n'.rnType = n.rnType)
    (hheld : ∀ b, n'.rnBuf = some b → (bufs b).isSome ∧ ∀ x, x ≠ np → fs.held x ≠ some b)
    (hbufs : ∀ b, n.rnBuf ≠ some b → (fs.bufs b).isSome → (bufs b).isSome)
    (hfresh : ∀ b, time' ≤ b → bufs b = none) :
    HeapOk (({ fs with bufs := bufs } : Heap).set np n') time' := by
  have hkids' : (({ fs with bufs := bufs } : Heap).set np n').kids = fs.kids := by
    rw [kids_set, hkids, ← kids_some hn]
    exact update_eq_self np fs.kids
  have hheld' : ∀ x, x ≠ np → (({ fs with bufs := bufs } : Heap).set np n').held x = fs.held x := by
    intro x hx
    rw [held_set, update_of_ne hx]
    rfl
  have hself : (({ fs with bufs := bufs } : Heap).set np n').held np = n'.rnBuf := by
    rw [held_set, update_self]
  refine ⟨hkids' ▸ h.forest, ?_, ?_, ?_, ?_, hfresh⟩
  · intro x m hm hne
    rw [set_nodes] at hm
    split at hm
    · cases hm
      rw [htype]
      exact h.dir np n hn (hkids ▸ hne)
    · exact h.dir x m hm hne
  · intro x b hx
    by_cases hxnp : x = np
    · rw [hxnp, hself] at hx
      exact (hheld b hx).1
    rw [hheld' x hxnp] at hx
    refine hbufs b (fun hb => hxnp ?_) (h.held_live x b hx)
    exact h.held_one x np b hx ((held_some hn).trans hb)
  · intro x y b hx hy
    by_cases hxnp : x = np
    · by_cases hynp : y = np
      · rw [hxnp, hynp]
      rw [hxnp, hself] at hx
      rw [hheld' y hynp] at hy
      exact absurd hy ((hheld b hx).2 y hynp)
    rw [hheld' x hxnp] at hx
    by_cases hynp : y = np
    · rw [hynp, hself] at hy
      exact absurd hx ((hheld b hy).2 x hxnp)
    rw [hheld' y hynp] at hy
    exact h.held_one x y b hx hy
  intro x hx
  rw [set_nodes, if_neg (fun heq => by
    have hlt := h.lt hn
    omega)]
  exact h.fresh x (hle.trans hx)

end

end

/-! ### The functions -/

section

variable {fs : Heap} {time d c v np : Nat} {n dn vn : TreeNode} {name : Name}

theorem freeBuf_spec (hlive : ∀ b, n.rnBuf = some b → (fs.bufs b).isSome) :
    ∃ bufs, freeBuf fs n = .ok { fs with bufs := bufs } ∧
      (∀ b, n.rnBuf ≠ some b → bufs b = fs.bufs b) ∧ ∀ b, fs.bufs b = none → bufs b = none := by
  unfold freeBuf
  cases hb : n.rnBuf with
  | none => exact ⟨fs.bufs, rfl, fun _ _ => rfl, fun _ h => h⟩
  | some b =>
    cases hown : n.rnOwnsBuf with
    | false => exact ⟨fs.bufs, rfl, fun _ _ => rfl, fun _ h => h⟩
    | true =>
      obtain ⟨data, hdata⟩ := Option.isSome_iff_exists.mp (hlive b hb)
      refine ⟨update fs.bufs b none, by simp only [if_true, hdata], fun b' hne => ?_,
        fun b' hnone => ?_⟩
      · exact update_of_ne (fun heq => hne (by rw [heq])) ..
      by_cases hbb : b' = b
      · rw [hbb, update_self]
      · rw [update_of_ne hbb, hnone]

theorem HeapOk.buf_isSome {b : Nat} (h : HeapOk fs time) (hn : fs.nodes np = some n)
    (hb : n.rnBuf = some b) : (fs.bufs b).isSome :=
  h.held_live np b ((held_some hn).trans hb)

/-- The heap after the child `c` of `d` has been freed, with what is left of the buffers. -/
def Heap.unlinked (fs : Heap) (d : Nat) (dn : TreeNode) (c : Nat)
    (bufs : Nat → Option (List UInt8)) : Heap where
  nodes := update (update fs.nodes d (some { dn with rnChild := dn.rnChild.erase c })) c none
  bufs := bufs

theorem Heap.unlinked_nodes {bufs : Nat → Option (List UInt8)} {x : Nat} :
    (fs.unlinked d dn c bufs).nodes x = if x = c then none
      else if x = d then some { dn with rnChild := dn.rnChild.erase c } else fs.nodes x := by
  simp only [unlinked, update_apply]

theorem HeapOk.unlinked {bufs : Nat → Option (List UInt8)} {cn : TreeNode} (h : HeapOk fs time)
    (hd : fs.nodes d = some dn) (hmem : c ∈ dn.rnChild) (hcn : fs.nodes c = some cn)
    (hkeep : ∀ b, cn.rnBuf ≠ some b → bufs b = fs.bufs b)
    (hnone : ∀ b, fs.bufs b = none → bufs b = none) : HeapOk (fs.unlinked d dn c bufs) time := by
  have hkids : (fs.unlinked d dn c bufs).kids =
      update (update fs.kids d (some (dn.rnChild.erase c))) c none := by
    funext x
    rw [kids, unlinked_nodes, update_apply, update_apply]
    split
    · rfl
    split
    · rfl
    · rfl
  -- a node that is left was there, with the same buffer and type
  have hnode : ∀ x m, (fs.unlinked d dn c bufs).nodes x = some m → x ≠ c ∧ ∃ m₀,
      fs.nodes x = some m₀ ∧ m.rnType = m₀.rnType ∧ m.rnBuf = m₀.rnBuf ∧
        m.rnChild ⊆ m₀.rnChild := by
    intro x m hm
    rw [unlinked_nodes] at hm
    split at hm
    · cases hm
    rename_i hxc
    refine ⟨hxc, ?_⟩
    split at hm
    · rename_i hxd
      cases hm
      exact ⟨dn, hxd ▸ hd, rfl, rfl, List.erase_subset⟩
    · exact ⟨m, hm, rfl, rfl, fun _ hy => hy⟩
  have hheld : ∀ x b, (fs.unlinked d dn c bufs).held x = some b → x ≠ c ∧ fs.held x = some b := by
    intro x b hx
    obtain ⟨m, hm, hb⟩ := Option.bind_eq_some_iff.mp hx
    obtain ⟨hxc, m₀, hm₀, -, hbuf, -⟩ := hnode x m hm
    exact ⟨hxc, by rw [held_some hm₀, ← hbuf, hb]⟩
  refine ⟨?_, ?_, ?_, ?_, ?_, ?_⟩
  · rw [hkids]
    exact h.forest.remove (kids_some hd) hmem
  · intro x m hm hne
    obtain ⟨-, m₀, hm₀, htype, -, hsub⟩ := hnode x m hm
    rw [htype]
    exact h.dir x m₀ hm₀ fun hnil => hne (List.eq_nil_of_subset_nil (hnil ▸ hsub))
  · intro x b hx
    obtain ⟨hxc, hx⟩ := hheld x b hx
    have hne : cn.rnBuf ≠ some b := fun hb =>
      hxc (h.held_one x c b hx ((held_some hcn).trans hb))
    have hlive := h.held_live x b hx
    rwa [← hkeep b hne] at hlive
  · exact fun x y b hx hy => h.held_one x y b (hheld x b hx).2 (hheld y b hy).2
  · intro x hx
    refine Option.eq_none_iff_forall_ne_some.mpr fun m hm => ?_
    obtain ⟨-, m₀, hm₀, -⟩ := hnode x m hm
    rw [h.fresh x hx] at hm₀
    cases hm₀
  · exact fun b hb => hnone b (h.fresh_buf b hb)

theorem HeapOk.removeNode (h : HeapOk fs time) (hd : fs.nodes d = some dn) (c : Nat) :
    ∃ error fs', ramfsRemoveNode fs d c = .ok (error, fs') ∧ HeapOk fs' time ∧
      NodesKept (· = c) fs fs' := by
  rw [ramfsRemoveNode, deref_ok hd, ok_bind]
  by_cases hnil : dn.rnChild = []
  · exact ⟨_, fs, if_pos hnil, h, NodesKept.refl⟩
  rw [if_neg hnil]
  by_cases hmem : c ∈ dn.rnChild
  · obtain ⟨cn, hcn⟩ := h.child hd hmem
    let fs₁ := fs.set d { dn with rnChild := dn.rnChild.erase c }
    -- the node that is freed; nothing keeps it from being its own parent
    obtain ⟨m, hm, hbuf⟩ : ∃ m, fs₁.nodes c = some m ∧ m.rnBuf = cn.rnBuf := by
      rw [set_nodes]
      by_cases hcd : c = d
      · rw [hcd, hd] at hcn
        cases hcn
        exact ⟨_, if_pos hcd, rfl⟩
      · exact ⟨cn, (if_neg hcd).trans hcn, rfl⟩
    obtain ⟨bufs, hfree, hkeep, hnone⟩ : ∃ bufs, freeBuf fs₁ m = .ok { fs₁ with bufs := bufs } ∧
        (∀ b, m.rnBuf ≠ some b → bufs b = fs.bufs b) ∧ ∀ b, fs.bufs b = none → bufs b = none :=
      freeBuf_spec fun b hb => h.buf_isSome hcn (hbuf ▸ hb)
    refine ⟨none, fs.unlinked d dn c bufs, ?_, ?_, ?_⟩
    · rw [if_neg (not_not.mpr hmem), ramfsFreeNode, deref_ok hm, ok_bind, hfree]
      rfl
    · exact h.unlinked hd hmem hcn (fun b hb => hkeep b (hbuf ▸ hb)) hnone
    intro x m hm hxc
    rw [unlinked_nodes, if_neg hxc]
    by_cases hxd : x = d
    · rw [hxd, hd] at hm
      cases hm
      exact ⟨_, if_pos hxd, rfl⟩
    · exact ⟨m, (if_neg hxd).trans hm, rfl⟩
  · exact ⟨_, fs, if_pos hmem, h, NodesKept.refl⟩

/-- The heap with a new node in the list of the directory `d`. -/
def Heap.linked (fs : Heap) (d : Nat) (dn : TreeNode) (c : Nat) (name : Name) (type : RnType) :
    Heap :=
  (fs.set c (newNode name type)).set d { dn with rnChild := dn.rnChild ++ [c] }

variable {type : RnType}

theorem Heap.linked_nodes {x : Nat} :
    (fs.linked d dn c name type).nodes x =
      if x = d then some { dn with rnChild := dn.rnChild ++ [c] }
      else if x = c then some (newNode name type) else fs.nodes x := by
  rw [linked, set_nodes, set_nodes]

theorem Heap.linked_held (hd : fs.nodes d = some dn) (hc : fs.nodes c = none) :
    (fs.linked d dn c name type).held = fs.held := by
  funext x
  rw [held, linked_nodes]
  split
  · rename_i hx
    rw [hx, held_some hd]
    rfl
  split
  · rename_i hx
    rw [hx, held, hc]
    rfl
  · rfl

theorem HeapOk.linked (h : HeapOk fs time) (hd : fs.nodes d = some dn)
    (hdir : dn.rnType = .dir) : HeapOk (fs.linked d dn time name type) (time + 1) := by
  have hfresh := h.fresh time le_rfl
  have hheld : (fs.linked d dn time name type).held = fs.held := linked_held hd hfresh
  refine ⟨?_, ?_, ?_, ?_, ?_, ?_⟩
  · rw [Heap.linked, Heap.kids_set, Heap.kids_set]
    exact h.forest.add (Heap.kids_some hd) (by rw [Heap.kids, hfresh]; rfl)
  · intro x m hm hne
    rw [linked_nodes] at hm
    split at hm
    · cases hm
      exact hdir
    split at hm
    · cases hm
      exact absurd rfl hne
    · exact h.dir x m hm hne
  · intro x b hx
    exact h.held_live x b (hheld ▸ hx)
  · intro x y b hx hy
    exact h.held_one x y b (hheld ▸ hx) (hheld ▸ hy)
  · intro x hx
    have hlt := h.lt hd
    rw [linked_nodes, if_neg (by omega), if_neg (by omega)]
    exact h.fresh x (by omega)
  · exact fun b hb => h.fresh_buf b (Nat.le_of_succ_le hb)

theorem NodesKept.linked (hd : fs.nodes d = some dn) (hc : fs.nodes c = none) :
    NodesKept (fun _ => False) fs (fs.linked d dn c name type) := by
  intro x m hm _
  rw [linked_nodes]
  by_cases hxd : x = d
  · rw [hxd, hd] at hm
    cases hm
    exact ⟨_, if_pos hxd, rfl⟩
  have hxc : x ≠ c := by
    rintro rfl
    rw [hc] at hm
    cases hm
  exact ⟨m, by rw [if_neg hxd, if_neg hxc, hm], rfl⟩

theorem HeapOk.addNode (h : HeapOk fs time) (hd : fs.nodes d = some dn) (hdir : dn.rnType = .dir)
    (env : RamfsEnv) (nameMem : Bool) (name : Name) (type : RnType) :
    ∃ np fs', ramfsAddNode fs (env.newNode time) nameMem d name type = .ok (np, fs') ∧
      HeapOk fs' (time + 1) ∧ NodesKept (fun _ => False) fs fs' ∧
      ∀ a, np = some a → a = time ∧ fs'.nodes a = some (newNode name type) := by
  have hfail : HeapOk fs (time + 1) := h.mono (Nat.le_succ time)
  have hfresh := h.fresh time le_rfl
  have hne : d ≠ time := (h.lt hd).ne
  have hd₁ : (fs.set time (newNode name type)).nodes d = some dn := by
    rw [set_nodes, if_neg hne, hd]
  rw [ramfsAddNode, RamfsEnv.newNode]
  cases env.nodeMem time with
  | false => exact ⟨none, fs, rfl, hfail, NodesKept.refl, nofun⟩
  | true =>
    cases nameMem with
    | false => exact ⟨none, fs, rfl, hfail, NodesKept.refl, nofun⟩
    | true =>
      simp only [ramfsAllocateNode, if_true, deref_ok hd₁, ok_bind]
      refine ⟨some time, fs.linked d dn time name type, rfl, h.linked hd hdir,
        NodesKept.linked hd hfresh, fun a ha => ?_⟩
      obtain rfl : time = a := Option.some.inj ha
      exact ⟨rfl, by rw [linked_nodes, if_neg hne.symm, if_pos rfl]⟩

theorem HeapOk.renameNode (h : HeapOk fs time) (hn : fs.nodes np = some n) (name : Name)
    (tmp : Bool) : ∃ error fs', ramfsRenameNode fs np name tmp = .ok (error, fs') ∧
      HeapOk fs' time ∧ NodesKept (fun _ => False) fs fs' := by
  have hset : HeapOk (fs.set np { n with rnName := name }) time :=
    h.setFile le_rfl hn rfl rfl (fun b hb => ⟨h.buf_isSome hn hb, fun x hx hx' =>
      hx (h.held_one x np b hx' ((held_some hn).trans hb))⟩) (fun _ _ hb => hb) h.fresh_buf
  have hkept : NodesKept (fun _ => False) fs (fs.set np { n with rnName := name }) :=
    NodesKept.set hn rfl
  rw [ramfsRenameNode]
  split
  · exact ⟨_, fs, rfl, h, NodesKept.refl⟩
  rw [deref_ok hn, ok_bind]
  split
  · exact ⟨_, _, rfl, hset, hkept⟩
  split
  · exact ⟨_, _, rfl, hset, hkept⟩
  · exact ⟨_, fs, rfl, h, NodesKept.refl⟩

theorem Heap.set_comm {x y : Nat} {m m' : TreeNode} (hne : x ≠ y) :
    (fs.set x m).set y m' = (fs.set y m').set x m := by
  simp only [set, update_comm hne]

theorem HeapOk.takeBuf (h : HeapOk fs time) (hnp : fs.nodes np = some n)
    (hv : fs.nodes v = some vn) (hne : np ≠ v) :
    ∃ fs', takeBuf fs np v = .ok fs' ∧ HeapOk fs' time ∧ NodesKept (fun _ => False) fs fs' := by
  rw [Ramfs.takeBuf, deref_ok hv, ok_bind]
  cases hb : vn.rnBuf with
  | none => exact ⟨fs, rfl, h, NodesKept.refl⟩
  | some b =>
    simp only [deref_ok hnp, ok_bind]
    -- the old node gives the buffer away before the new one has it
    have hgiven : HeapOk (fs.set v { vn with rnBuf := none }) time :=
      h.setFile le_rfl hv rfl rfl nofun (fun _ _ hlive => hlive) h.fresh_buf
    have hnp' : (fs.set v { vn with rnBuf := none }).nodes np = some n := by
      rw [set_nodes, if_neg hne, hnp]
    refine ⟨_, rfl, ?_, ?_⟩
    · rw [set_comm hne]
      refine hgiven.setFile le_rfl hnp' rfl rfl ?_ (fun _ _ hlive => hlive) hgiven.fresh_buf
      intro b' hb'
      obtain rfl : b = b' := Option.some.inj hb'
      refine ⟨h.buf_isSome hv hb, fun x _ hx => ?_⟩
      rw [held_set] at hx
      obtain ⟨hxv, hx⟩ := update_none hx
      exact hxv (h.held_one x v b hx ((held_some hv).trans hb))
    rw [set_comm hne]
    have hkept : NodesKept (fun _ => False) fs (fs.set v { vn with rnBuf := none }) :=
      NodesKept.set hv rfl
    refine NodesKept.mono (hkept.trans ?_) fun x hx => hx.elim id id
    exact NodesKept.set hnp' rfl

theorem HeapOk.moveNode (h : HeapOk fs time) {d' : Nat} {dn' : TreeNode} (env : RamfsEnv)
    (nameMem tmp : Bool) (hd : fs.nodes d = some dn) (hv : fs.nodes v = some vn)
    (hd' : fs.nodes d' = some dn') (hdir : dn'.rnType = .dir) (name : Name) :
    ∃ error fs', ramfsMoveNode fs ⟨env.newNode time, nameMem, tmp⟩ d v d' name = .ok (error, fs') ∧
      HeapOk fs' (time + 1) ∧ NodesKept (· = v) fs fs' := by
  obtain ⟨np, fs₁, hadd, h₁, hkept₁, hnew⟩ := h.addNode hd' hdir env nameMem name vn.rnType
  rw [ramfsMoveNode, deref_ok hv]
  simp only [ok_bind, hadd]
  cases np with
  | none => exact ⟨_, fs₁, rfl, h₁, hkept₁.mono fun _ hx => hx.elim⟩
  | some np =>
    obtain ⟨rfl, hnp⟩ := hnew np rfl
    obtain ⟨vn₁, hv₁, -⟩ := hkept₁ v vn hv id
    obtain ⟨fs₂, htake, h₂, hkept₂⟩ := h₁.takeBuf hnp hv₁ (h.lt hv).ne'
    obtain ⟨dn₁, hd₁, -⟩ := (hkept₁.trans hkept₂) d dn hd (fun hx => hx.elim id id)
    obtain ⟨error, fs₃, hremove, h₃, hkept₃⟩ := h₂.removeNode hd₁ v
    simp only [htake, hremove, ok_bind]
    refine ⟨none, fs₃, rfl, h₃, ?_⟩
    exact ((hkept₁.trans hkept₂).trans hkept₃).mono fun x hx => by
      rcases hx with (hx | hx) | hx
      · exact hx.elim
      · exact hx.elim
      · exact hx

/-- **`ramfs_rename` on live nodes.** The target goes away, and the source if it is moved to
another directory. -/
theorem HeapOk.rename (h : HeapOk fs time) {d' : Nat} {dn' : TreeNode} (env : RamfsEnv)
    (nameMem tmp : Bool) (hd : fs.nodes d = some dn) (hv : fs.nodes v = some vn)
    (hd' : fs.nodes d' = some dn') (hdir : dn'.rnType = .dir) (name : Name) (addr₁ addr₂ : Nat)
    (target : Option Nat) (hne : ∀ t, target = some t → t ≠ d ∧ t ≠ v ∧ t ≠ d') :
    ∃ error fs', ramfsRename fs ⟨env.newNode time, nameMem, tmp⟩ ⟨addr₁, d⟩ ⟨2, v⟩ ⟨addr₂, d'⟩
        (target.map (⟨3, ·⟩)) name = .ok (error, fs') ∧ HeapOk fs' (time + 1) ∧
      NodesKept (fun x => target = some x ∨ addr₁ ≠ addr₂ ∧ x = v) fs fs' := by
  obtain ⟨error, fs₁, hremove, h₁, hkept₁⟩ : ∃ error fs₁,
      removeTarget fs d' (target.map (⟨3, ·⟩)) = .ok (error, fs₁) ∧ HeapOk fs₁ time ∧
        NodesKept (fun x => target = some x) fs fs₁ := by
    cases target with
    | none => exact ⟨none, fs, rfl, h, NodesKept.refl⟩
    | some t =>
      obtain ⟨error, fs₁, hcall, h₁, hkept⟩ := h.removeNode hd' t
      exact ⟨error, fs₁, hcall, h₁, hkept.mono fun x hx => congrArg some hx.symm⟩
  simp only [ramfsRename, hremove, ok_bind]
  cases error with
  | some e =>
    exact ⟨some e, fs₁, rfl, h₁.mono (Nat.le_succ time), hkept₁.mono fun _ hx => .inl hx⟩
  | none =>
    obtain ⟨dn₁, hd₁, -⟩ := hkept₁ d dn hd fun ht => (hne d ht).1 rfl
    obtain ⟨vn₁, hv₁, -⟩ := hkept₁ v vn hv fun ht => (hne v ht).2.1 rfl
    obtain ⟨dn₁', hd₁', htype⟩ := hkept₁ d' dn' hd' fun ht => (hne d' ht).2.2 rfl
    dsimp only
    split
    · obtain ⟨error, fs₂, hcall, h₂, hkept₂⟩ := h₁.renameNode hv₁ name tmp
      refine ⟨error, fs₂, hcall, h₂.mono (Nat.le_succ time), ?_⟩
      exact (hkept₁.trans hkept₂).mono fun x hx => hx.elim .inl False.elim
    rename_i haddr
    obtain ⟨error, fs₂, hcall, h₂, hkept₂⟩ :=
      h₁.moveNode env nameMem tmp hd₁ hv₁ hd₁' (htype.trans hdir) name
    refine ⟨error, fs₂, hcall, h₂, ?_⟩
    exact (hkept₁.trans hkept₂).mono fun x hx => hx.elim .inl fun hv => .inr ⟨haddr, hv⟩

end

end Unikraft.Ramfs
