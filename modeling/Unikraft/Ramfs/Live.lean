import Unikraft.Ramfs.HeapOk

/-!
# Unikraft.Ramfs.Live

**The vnode operations on live nodes** follow no pointer to freed memory. They leave a file system
that is well formed (`RamfsOk`), with all nodes but those they are there to free (`After`).
-/

namespace Unikraft.Ramfs

open Lib Vfscore Function Outcome RamfsState

/-! ### The data of a file -/

def Dangling (f : Fault) : Prop := f = .useAfterFree

section

variable {v : RamfsNode}

theorem sat_fault {α : Type} {post : α → Prop} {f : Fault} (h : f ≠ .useAfterFree) :
    Outcome.Sat Dangling (.error f) post := h

theorem uioforeach_sat (rw : UioRw) (iov : List (List UInt8)) (resid : Nat) (cp : List UInt8)
    (n : Nat) : (uioforeach rw iov resid cp n).Sat Dangling fun _ => True := by
  induction iov generalizing resid cp n with
  | nil =>
    rw [uioforeach]
    exact .ite (fun _ => trivial) fun _ => sat_fault (by decide)
  | cons head rest ih =>
    rw [uioforeach]
    refine .ite (fun _ => trivial) fun _ => .ite (fun _ => sat_fault (by decide)) fun _ => ?_
    refine .ite (fun _ => trivial) fun _ => ?_
    exact (ih _ _ _).bind fun _ _ => trivial

theorem vfscoreUiomove_sat (cp : List UInt8) (n : Nat) (uio : Uio) :
    (vfscoreUiomove cp n uio).Sat Dangling fun _ => True := by
  rw [vfscoreUiomove]
  exact (uioforeach_sat _ _ _ _ _).bind fun _ _ => trivial

theorem moveBuffer_sat (v : RamfsNode) (newBuf : List UInt8) :
    (moveBuffer v newBuf).Sat Dangling fun _ => True := by
  have hold : v.oldData.Sat Dangling fun _ => True := by
    rw [RamfsNode.oldData]
    refine .ite (fun _ => ?_) fun _ => trivial
    cases v.rnBuf with
    | none => exact sat_fault (by decide)
    | some old => exact .ite (fun _ => trivial) fun _ => sat_fault (by decide)
  rw [moveBuffer]
  exact hold.bind fun data _ => .ite (fun _ => sat_fault (by decide)) fun _ => trivial

theorem ramfsTruncate_sat (v : RamfsNode) (length : Nat) (garbage : Nat → UInt8) :
    (ramfsTruncate v length garbage).Sat Dangling fun r =>
      ¬ (length ≠ 0 ∧ v.rnBufsize < length) → r.2.rnBuf.isSome → v.rnBuf.isSome := by
  have hbuffer : (truncateBuffer v length garbage).Sat Dangling fun v' =>
      ¬ (length ≠ 0 ∧ v.rnBufsize < length) → v'.rnBuf.isSome → v.rnBuf.isSome := by
    rw [truncateBuffer]
    refine .ite (fun _ => ?_) fun hlen => ?_
    · refine .ite (fun _ _ hsome => ?_) fun _ _ hsome => hsome
      exact absurd hsome Bool.false_ne_true
    refine .ite (fun hlt => ?_) fun _ _ hsome => hsome
    exact (moveBuffer_sat _ _).bind fun _ _ hmoved => absurd ⟨hlen, hlt⟩ hmoved
  rw [ramfsTruncate]
  exact hbuffer.bind fun _ hv' => hv'

theorem ramfsRead_sat (v : RamfsNode) (uio : Uio) :
    (ramfsRead v uio).Sat Dangling fun _ => True := by
  rw [ramfsRead]
  refine .ite (fun _ => trivial) fun _ => .ite (fun _ => trivial) fun _ => ?_
  refine .ite (fun _ => trivial) fun _ => .ite (fun _ => trivial) fun _ => ?_
  refine .ite (fun _ => trivial) fun _ => ?_
  cases v.rnBuf with
  | none => exact sat_fault (by decide)
  | some buf => exact (vfscoreUiomove_sat _ _ _).bind fun _ _ => trivial

theorem ramfsExpand_sat (v : RamfsNode) (endPos : Nat) :
    (ramfsExpand v endPos).Sat Dangling fun v' =>
      ¬ (v.vSize < endPos ∧ toOff v.rnBufsize < endPos) → v'.rnBuf = v.rnBuf := by
  rw [ramfsExpand]
  refine .ite (fun hsize => ?_) fun _ _ => rfl
  refine .ite (fun _ => sat_fault (by decide)) fun _ => ?_
  have hbuffer : (expandBuffer v endPos).Sat Dangling fun v' =>
      ¬ toOff v.rnBufsize < endPos → v'.rnBuf = v.rnBuf := by
    rw [expandBuffer]
    refine .ite (fun hlt => ?_) fun _ _ => rfl
    exact (moveBuffer_sat _ _).mono fun _ _ hmoved => absurd hlt hmoved
  exact hbuffer.bind fun v' hv' hmoved => hv' fun hlt => hmoved ⟨hsize, hlt⟩

theorem ramfsWrite_sat (v : RamfsNode) (uio : Uio) (append : Bool) :
    (ramfsWrite v uio append).Sat Dangling fun r =>
      writeMoves v uio append = false → r.2.rnBuf.isSome → v.rnBuf.isSome := by
  rw [ramfsWrite]
  refine .ite (fun _ _ hsome => hsome) fun _ => .ite (fun _ _ hsome => hsome) fun _ => ?_
  refine .ite (fun _ _ hsome => hsome) fun _ => .ite (fun _ _ hsome => hsome) fun _ => ?_
  refine .ite (fun _ _ hsome => hsome) fun _ => ?_
  refine (ramfsExpand_sat _ _).bind fun v' hv' => ?_
  cases hbuf : v'.rnBuf with
  | none => exact sat_fault (by decide)
  | some buf =>
    refine (vfscoreUiomove_sat _ _ _).bind fun _ _ hmoved _ => ?_
    have hmoved' := of_decide_eq_false hmoved
    rw [← hv' ?_, hbuf]
    · rfl
    cases append with
    | true | false => exact hmoved'

end

/-! ### The state -/

/-- The heap is well formed, and the vnodes have the types of their nodes. -/
structure RamfsOk (fs : RamfsState) : Prop where
  heap : HeapOk fs.heap fs.time
  types : ∀ x n, fs.heap.nodes x = some n → fs.vTypes x = n.rnType

def RamfsState.Live (fs : RamfsState) (x : Nat) : Prop := ∃ n, fs.heap.nodes x = some n

/-- A well-formed file system with the nodes of `fs` that are not `gone`. -/
structure After (gone : Nat → Prop) (fs fs' : RamfsState) : Prop where
  ok : RamfsOk fs'
  kept : NodesKept gone fs.heap fs'.heap

section

variable {fs fs' : RamfsState} {gone : Nat → Prop} {heap : Heap} {d v x : Nat} {n : TreeNode}

theorem RamfsState.node_ok (hn : fs.heap.nodes x = some n) : fs.node x = .ok n := by
  rw [node, Heap.deref_ok hn]
  rfl

theorem RamfsOk.next (hheap : HeapOk heap (fs.time + 1)) : RamfsOk (fs.next heap) where
  heap := hheap
  types := by
    intro x n hn
    change heap.nodes x = some n at hn
    change ((heap.nodes x).map (·.rnType)).getD (fs.vTypes x) = n.rnType
    rw [hn]
    rfl

theorem After.next (hheap : HeapOk heap (fs.time + 1)) (hkept : NodesKept gone fs.heap heap) :
    After gone fs (fs.next heap) := ⟨RamfsOk.next hheap, hkept⟩

theorem After.live (h : After gone fs fs') (hx : fs.Live x) (hgone : ¬ gone x) : fs'.Live x := by
  obtain ⟨n, hn⟩ := hx
  obtain ⟨n', hn', -⟩ := h.kept x n hn hgone
  exact ⟨n', hn'⟩

theorem After.type (h : After gone fs fs') (hfs : RamfsOk fs) (hx : fs.Live x) (hgone : ¬ gone x) :
    fs'.vTypes x = fs.vTypes x := by
  obtain ⟨n, hn⟩ := hx
  obtain ⟨n', hn', htype⟩ := h.kept x n hn hgone
  rw [h.ok.types x n' hn', hfs.types x n hn, htype]

section

variable (h : RamfsOk fs)

include h

theorem RamfsOk.buffer (hn : fs.heap.nodes x = some n) :
    ∃ buf, fs.buffer n = .ok buf ∧ (buf.isSome → n.rnBuf.isSome) := by
  rw [RamfsState.buffer]
  cases hb : n.rnBuf with
  | none => exact ⟨none, rfl, id⟩
  | some b =>
    obtain ⟨data, hdata⟩ := Option.isSome_iff_exists.mp (h.heap.buf_isSome hn hb)
    simp only [hdata]
    exact ⟨some data, rfl, fun _ => rfl⟩

theorem RamfsOk.storeFile (hn : fs.heap.nodes x = some n) (moved : Bool) (file : RamfsNode)
    (hold : moved = false → file.rnBuf.isSome → n.rnBuf.isSome) :
    ∃ heap, storeFile fs x n moved file = .ok heap ∧ HeapOk heap (fs.time + 1) ∧
      NodesKept (fun _ => False) fs.heap heap := by
  have hle : fs.time ≤ fs.time + 1 := Nat.le_succ _
  have hfresh := fun b (hb : fs.time + 1 ≤ b) => h.heap.fresh_buf b (Nat.le_of_succ_le hb)
  rw [Ramfs.storeFile]
  cases hfile : file.rnBuf with
  | none =>
    obtain ⟨bufs, hfree, hkeep, hnone⟩ := freeBuf_spec fun b hb => h.heap.buf_isSome hn hb
    simp only [hfree, ok_bind]
    refine ⟨_, rfl, h.heap.setFile hle hn rfl rfl nofun ?_ fun b hb => hnone b (hfresh b hb),
      NodesKept.set hn rfl⟩
    exact fun b hne hlive => (hkeep b hne).symm ▸ hlive
  | some data =>
    cases moved with
    | true =>
      -- the old block is only freed if there were data in it
      let n₀ := if n.rnSize ≠ 0 then n else { n with rnBuf := none }
      have hbuf : ∀ b, n₀.rnBuf = some b → n.rnBuf = some b := by
        intro b hb
        by_cases hsize : n.rnSize ≠ 0
        · rwa [show n₀ = n from if_pos hsize] at hb
        rw [show n₀ = { n with rnBuf := none } from if_neg hsize] at hb
        cases hb
      obtain ⟨bufs, hfree, hkeep, hnone⟩ : ∃ bufs, freeBuf fs.heap n₀ =
          .ok { fs.heap with bufs := bufs } ∧
          (∀ b, n₀.rnBuf ≠ some b → bufs b = fs.heap.bufs b) ∧
          ∀ b, fs.heap.bufs b = none → bufs b = none :=
        freeBuf_spec fun b hb => h.heap.buf_isSome hn (hbuf b hb)
      simp only [if_true, n₀] at hfree ⊢
      simp only [hfree, ok_bind]
      refine ⟨_, rfl, h.heap.setFile hle hn rfl rfl ?_ ?_ ?_, NodesKept.set hn rfl⟩
      · intro b hb
        obtain rfl : fs.time = b := Option.some.inj hb
        refine ⟨by rw [update_self]; rfl, fun y _ hy => ?_⟩
        exact absurd (h.heap.buf_lt (h.heap.held_live y _ hy)) (lt_irrefl _)
      · intro b hne hlive
        rw [update_of_ne (h.heap.buf_lt hlive).ne, hkeep b fun hb => hne (hbuf b hb)]
        exact hlive
      intro b hb
      rw [update_of_ne (by omega)]
      exact hnone b (hfresh b hb)
    | false =>
      obtain ⟨b₀, hb₀⟩ := Option.isSome_iff_exists.mp (hold rfl (by rw [hfile]; rfl))
      have hlive₀ := h.heap.buf_isSome hn hb₀
      simp only [hb₀, Bool.false_eq_true, if_false]
      refine ⟨_, rfl, h.heap.setFile hle hn rfl rfl ?_ ?_ ?_, NodesKept.set hn rfl⟩
      · intro b hb
        obtain rfl : b₀ = b := Option.some.inj hb
        refine ⟨by rw [update_self]; rfl, fun y hy hheld => hy ?_⟩
        exact h.heap.held_one y x b₀ hheld ((Heap.held_some hn).trans hb₀)
      · intro b hne hlive
        rw [update_of_ne fun heq => hne (by rw [heq, hb₀])]
        exact hlive
      intro b hb
      have hlt := h.heap.buf_lt hlive₀
      rw [update_of_ne (by omega)]
      exact hfresh b hb

/-- What a successful or failed operation leaves. -/
def OpKept (gone : Nat → Prop) (fs : RamfsState) (r : Option Errno × RamfsState) : Prop :=
  After gone fs r.2

theorem vopTruncate_sat (hx : fs.Live x) (env : RamfsEnv) (length : Nat) :
    (vopTruncate env fs x length).Sat Dangling (OpKept (fun _ => False) fs) := by
  obtain ⟨n, hn⟩ := hx
  obtain ⟨buf, hbuf, hsome⟩ := h.buffer hn
  rw [vopTruncate, node_ok hn, ok_bind, hbuf, ok_bind]
  refine (ramfsTruncate_sat _ _ _).bind fun ⟨error, file⟩ hfile => ?_
  obtain ⟨heap, hstore, hheap, hkept⟩ := h.storeFile hn
    (decide (length ≠ 0 ∧ n.rnBufsize < length)) file fun hmoved hsome' =>
      hsome (hfile (of_decide_eq_false hmoved) hsome')
  simp only [hstore]
  exact After.next hheap hkept

theorem After.refl : After (fun _ => False) fs fs := ⟨h, NodesKept.refl⟩

theorem After.idle : After (fun _ => False) fs (fs.next fs.heap) :=
  After.next (h.heap.mono (Nat.le_succ _)) NodesKept.refl

theorem vopRead_sat (hx : fs.Live x) (env : RamfsEnv) (uio : Uio) :
    (vopRead env fs x uio).Sat Dangling (OpKept (fun _ => False) fs) := by
  obtain ⟨n, hn⟩ := hx
  obtain ⟨buf, hbuf, -⟩ := h.buffer hn
  rw [vopRead]
  refine .ite (fun _ => ?_) fun _ => ?_
  · rw [node_ok hn, ok_bind, hbuf, ok_bind]
    exact (ramfsRead_sat _ _).bind fun _ _ => After.idle h
  · exact (ramfsRead_sat _ _).bind fun _ _ => After.idle h

theorem vopWrite_sat (hx : fs.Live x) (env : RamfsEnv) (uio : Uio) (append : Bool) :
    (vopWrite env fs x uio append).Sat Dangling (OpKept (fun _ => False) fs) := by
  obtain ⟨n, hn⟩ := hx
  obtain ⟨buf, hbuf, hsome⟩ := h.buffer hn
  rw [vopWrite]
  refine .ite (fun _ => ?_) fun _ => ?_
  · rw [node_ok hn, ok_bind, hbuf, ok_bind]
    refine (ramfsWrite_sat _ _ _).bind fun ⟨error, file⟩ hfile => ?_
    obtain ⟨heap, hstore, hheap, hkept⟩ := h.storeFile hn _ file fun hmoved hsome' =>
      hsome (hfile hmoved hsome')
    simp only [hstore]
    exact After.next hheap hkept
  · exact (ramfsWrite_sat _ _ _).bind fun _ _ => After.idle h

/-! ### Names -/

theorem vopLookup_sat (hd : fs.Live d) (name : Name) :
    (vopLookup fs d name).Sat Dangling fun r =>
      ∀ v, r = .ok v → fs.Live v ∧ fs.vTypes d = .dir := by
  obtain ⟨dn, hdn⟩ := hd
  have hfind : ∀ l, l ⊆ dn.rnChild → (findChild fs name l).Sat Dangling fun r =>
      ∀ v, r = .ok v → v ∈ dn.rnChild := by
    intro l
    induction l with
    | nil => exact fun _ _ => nofun
    | cons c rest ih =>
      intro hsub
      obtain ⟨hc, hrest⟩ := List.cons_subset.mp hsub
      obtain ⟨cn, hcn⟩ := h.heap.child hdn hc
      rw [findChild, node_ok hcn, ok_bind]
      refine .ite (fun _ v hv => ?_) fun _ => ih hrest
      cases hv
      exact hc
  rw [vopLookup]
  refine .ite (fun _ => nofun) fun _ => ?_
  rw [node_ok hdn, ok_bind]
  refine (hfind dn.rnChild fun _ hc => hc).mono fun r hr v hv => ⟨h.heap.child hdn (hr v hv), ?_⟩
  rw [h.types d dn hdn]
  exact h.heap.dir d dn hdn (List.ne_nil_of_mem (hr v hv))

theorem vopReadlink_sat (hx : fs.Live x) : (vopReadlink fs x).Sat Dangling fun _ => True := by
  obtain ⟨n, hn⟩ := hx
  obtain ⟨buf, hbuf, -⟩ := h.buffer hn
  rw [vopReadlink]
  refine .ite (fun _ => trivial) fun _ => ?_
  rw [node_ok hn, ok_bind, hbuf, ok_bind]
  refine .ite (fun _ => trivial) fun _ => ?_
  cases buf with
  | none => exact sat_fault (by decide)
  | some data => trivial

theorem vopIsEmpty_sat (hx : fs.Live x) : (vopIsEmpty fs x).Sat Dangling fun _ => True := by
  obtain ⟨n, hn⟩ := hx
  rw [vopIsEmpty, node_ok hn, ok_bind]
  cases hchild : n.rnChild with
  | nil => trivial
  | cons c rest =>
    obtain ⟨cn, hcn⟩ := h.heap.child hn (hchild ▸ List.mem_cons_self)
    simp only [node_ok hcn, ok_bind]
    trivial

theorem RamfsOk.dir (hn : fs.heap.nodes d = some n) (htype : fs.vTypes d = .dir) :
    n.rnType = .dir := (h.types d n hn).symm.trans htype

theorem vopCreate_sat (hd : fs.Live d) (hdir : fs.vTypes d = .dir) (env : RamfsEnv) (name : Name)
    (type : Vfscore.VType) :
    (vopCreate env fs d name type).Sat Dangling (OpKept (fun _ => False) fs) := by
  obtain ⟨dn, hdn⟩ := hd
  rw [vopCreate]
  refine .ite (fun _ => After.refl h) fun _ => ?_
  obtain ⟨np, heap, hadd, hheap, hkept, -⟩ :=
    h.heap.addNode hdn (h.dir hdn hdir) env (env.nameMem fs.time) name (rnTypeOf type)
  simp only [hadd]
  exact After.next hheap hkept

theorem vopRemove_sat (hd : fs.Live d) (v : Nat) :
    (vopRemove fs d v).Sat Dangling (OpKept (· = v) fs) := by
  obtain ⟨dn, hdn⟩ := hd
  obtain ⟨error, heap, hremove, hheap, hkept⟩ := h.heap.removeNode hdn v
  rw [vopRemove, hremove]
  exact After.next (hheap.mono (Nat.le_succ _)) hkept

def RenameFrees (env : RamfsEnv) (fs : RamfsState) (d v d' : Nat) (target : Option Nat) (x : Nat) :
    Prop :=
  target = some x ∨ ¬ (d = d' ∧ env.oneVnode fs.time = true) ∧ x = v

theorem vopRename_sat {d' : Nat} {target : Option Nat} (hd : fs.Live d) (hv : fs.Live v)
    (hd' : fs.Live d') (hdir : fs.vTypes d' = .dir)
    (hne : ∀ t, target = some t → t ≠ d ∧ t ≠ v ∧ t ≠ d') (env : RamfsEnv) (name : Name) :
    (vopRename env fs d v d' target name).Sat Dangling
      (OpKept (RenameFrees env fs d v d' target) fs) := by
  obtain ⟨dn, hdn⟩ := hd
  obtain ⟨vn, hvn⟩ := hv
  obtain ⟨dn', hdn'⟩ := hd'
  obtain ⟨error, heap, hrename, hheap, hkept⟩ := h.heap.rename env (env.nameMem fs.time)
    (env.nameMem fs.time) hdn hvn hdn' (h.dir hdn' hdir) name 0
    (if d = d' ∧ env.oneVnode fs.time then 0 else 1) target hne
  rw [vopRename, hrename]
  refine After.next hheap (hkept.mono fun x hx => hx.imp_right fun hmoved => ⟨?_, hmoved.2⟩)
  exact fun hone => hmoved.1 (if_pos hone).symm

end

end

end Unikraft.Ramfs
