import Mathlib.Algebra.BigOperators.Group.List.Basic
import Unikraft.Virtio.Virtqueue

/-!
# Descriptor accounting

The descriptors of a virtqueue are partitioned into the free chain and the chains of the buffers in
flight. The driver's calls keep this, however often the 16-bit indices wrap, and so every dequeue
returns the cookie of the buffer the device posted.
-/

namespace Unikraft.Virtio

open Lib Function Outcome

variable {n : RingSize} {vrq : VirtqueueVring n} {t h k : Nat}

/-! ### Chains of descriptors -/

/-- The `k` descriptors from `h` on are one buffer: each but the last one has
`VRING_DESC_F_NEXT` set. -/
def Linked (desc : Nat → VringDesc) : Nat → Nat → Prop
  | _, 0 => False
  | h, 1 => (desc h).flags &&& vringDescFNext = 0
  | h, k + 2 => (desc h).flags &&& vringDescFNext ≠ 0 ∧ Linked desc (desc h).next (k + 1)

def freeChain (vrq : VirtqueueVring n) : List Nat :=
  walk vrq.next vrq.headFreeDesc vrq.descAvail

/-- The descriptors of the buffer with head `h`. -/
def chainOf (vrq : VirtqueueVring n) (h : Nat) : List Nat :=
  walk vrq.next h (vrq.vqInfo h).descCount

theorem freeChain_cut (ht : t ≤ vrq.descAvail) :
    freeChain vrq = walk vrq.next vrq.headFreeDesc t ++
      walk vrq.next (vrq.next^[t] vrq.headFreeDesc) (vrq.descAvail - t) := by
  rw [freeChain, ← walk_add, Nat.add_sub_cancel' ht]

/-- The tables after the first `t` free descriptors have become a buffer, which is not
published yet. -/
def VirtqueueVring.withBuffer (vrq : VirtqueueVring n) (desc : Nat → VringDesc) (cookie t : Nat) :
    VirtqueueVring n :=
  virtqueueRingUpdateAvail { vrq with
      vqInfo := update vrq.vqInfo vrq.headFreeDesc ⟨cookie, t⟩
      desc := desc
      headFreeDesc := vrq.next^[t] vrq.headFreeDesc
      descAvail := vrq.descAvail - t } vrq.headFreeDesc

theorem Linked.congr {desc desc' : Nat → VringDesc} (hl : Linked desc h k)
    (heq : ∀ i ∈ walk (fun i => (desc i).next) h k, desc' i = desc i) : Linked desc' h k := by
  induction k generalizing h with
  | zero => exact hl
  | succ k ih =>
    have hh : desc' h = desc h := heq h List.mem_cons_self
    cases k with
    | zero => simpa only [Linked, hh] using hl
    | succ k =>
      refine ⟨by rw [hh]; exact hl.1, ?_⟩
      rw [hh]
      exact ih hl.2 fun i hi => heq i (List.mem_cons_of_mem _ hi)

variable {desc : Nat → VringDesc} {sg : List SglistSeg} {cookie i r : Nat}

theorem Linked.count_pos (hl : Linked desc h k) : 0 < k := by
  cases k with
  | zero => exact hl.elim
  | succ k => exact k.succ_pos

theorem segmentFlags_next : segmentFlags r t i &&& vringDescFNext = 0 ↔ ¬ i + 1 < t := by
  unfold segmentFlags vringDescFNext vringDescFWrite
  split <;> split <;> simp_all

/-- **What the segment loop writes.** It changes no successor and only
descriptors of the chain it follows, which it turns into one buffer. -/
theorem segmentsLoop_spec {off rem : Nat} {idx : Nat} (hrem : rem ≤ t)
    (hsg : off + t ≤ sg.length) (hnd : (walk (fun i => (desc i).next) idx rem).Nodup)
    (hlt : ∀ i ∈ walk (fun i => (desc i).next) idx rem, i < n.num) :
    ∃ desc', segmentsLoop n sg off r t rem desc idx =
        .ok (desc', (fun i => (desc i).next)^[rem] idx) ∧
      (∀ i, (desc' i).next = (desc i).next) ∧
      (∀ i, i ∉ walk (fun i => (desc i).next) idx rem → desc' i = desc i) ∧
      (0 < rem → Linked desc' idx rem) := by
  induction rem generalizing desc idx with
  | zero => exact ⟨desc, rfl, fun _ => rfl, fun _ _ => rfl, nofun⟩
  | succ rem ih =>
    obtain ⟨seg, hseg⟩ : ∃ seg, sg[off + (t - (rem + 1))]? = some seg :=
      ⟨_, List.getElem?_eq_getElem (by omega)⟩
    rw [walk_succ, List.nodup_cons] at hnd
    have hidx : idx < n.num := hlt idx List.mem_cons_self
    simp only [segmentsLoop, hseg, if_pos hidx]
    generalize hd : (⟨seg.paddr, seg.len % 2 ^ 32, segmentFlags r t (t - (rem + 1)),
      (desc idx).next⟩ : VringDesc) = d
    -- the write keeps every successor, so the rest of the chain is the same
    have hnext : (fun i => (update desc idx d i).next) = fun i => (desc i).next := by
      funext i
      by_cases hi : i = idx
      · rw [hi, update_self, ← hd]
      · rw [update_of_ne hi]
    obtain ⟨desc', hloop, hnext', hframe, hlinked⟩ :=
      @ih (update desc idx d) (desc idx).next (by omega) (by rw [hnext]; exact hnd.2)
        (by rw [hnext]; exact fun i hi => hlt i (List.mem_cons_of_mem _ hi))
    have hidx' : desc' idx = d := by
      rw [hframe idx (by rw [hnext]; exact hnd.1), update_self]
    refine ⟨desc', ?_, ?_, ?_, ?_⟩
    · rw [hloop, hnext]
      rfl
    · intro i
      rw [hnext' i]
      exact congrFun hnext i
    · intro i hi
      rw [walk_succ, List.mem_cons, not_or] at hi
      rw [hframe i (by rw [hnext]; exact hi.2), update_of_ne hi.1]
    intro _
    have hflags : (desc' idx).flags &&& vringDescFNext = 0 ↔ rem = 0 := by
      rw [hidx', ← hd, segmentFlags_next]
      omega
    cases rem with
    | zero => exact hflags.mpr rfl
    | succ rem =>
      refine ⟨fun h => absurd (hflags.mp h) (Nat.succ_ne_zero _), ?_⟩
      rw [hidx', ← hd]
      exact hlinked rem.succ_pos

theorem detachLoop_spec {fuel : Nat} (hl : Linked desc h (k + 1)) (hfuel : k < fuel)
    (hk : k < 2 ^ 16) (hlt : ∀ i ∈ walk (fun i => (desc i).next) h (k + 1), i < n.num) :
    detachLoop n desc fuel h k = .ok ((fun i => (desc i).next)^[k] h, 0) := by
  induction k generalizing fuel h with
  | zero =>
    obtain ⟨fuel, rfl⟩ : ∃ f, fuel = f + 1 := ⟨fuel - 1, by omega⟩
    have hlast : (desc h).flags &&& vringDescFNext = 0 := hl
    rw [detachLoop, if_neg (not_not.mpr hlast)]
    rfl
  | succ k ih =>
    obtain ⟨fuel, rfl⟩ : ∃ f, fuel = f + 1 := ⟨fuel - 1, by omega⟩
    have hnext : (desc h).next < n.num := hlt _ (List.mem_cons_of_mem _ List.mem_cons_self)
    have hcount : subU16 (k + 1) 1 = k := by
      unfold subU16
      omega
    rw [detachLoop, if_pos hl.1, if_pos hnext, hcount,
      ih hl.2 (by omega) (by omega) fun i hi => hlt i (List.mem_cons_of_mem _ hi)]
    rfl

/-! ### The partition of the descriptors -/

/-- A buffer in flight: its head and the cookie it was enqueued with. -/
structure Buf where
  head : Nat
  cookie : Nat
  deriving DecidableEq

/-- The free chain, of exactly `descAvail` descriptors, and the chains of the buffers `bufs` in
flight partition the descriptors. -/
structure DescAccounting (vrq : VirtqueueVring n) (bufs : List Buf) : Prop where
  partition : (freeChain vrq ++ bufs.flatMap fun b => chainOf vrq b.head).Perm (List.range n.num)
  freeEnd : vrq.next^[vrq.descAvail] vrq.headFreeDesc = virtqueueMaxSize
  linked : ∀ b ∈ bufs, Linked vrq.desc b.head (vrq.vqInfo b.head).descCount
  cookie : ∀ b ∈ bufs, (vrq.vqInfo b.head).cookie = b.cookie

namespace DescAccounting

variable {bufs bufs' : List Buf} {b : Buf}

theorem perm (ha : DescAccounting vrq bufs) (hp : bufs.Perm bufs') : DescAccounting vrq bufs' where
  partition := ((hp.flatMap_right _).append_left _).symm.trans ha.partition
  freeEnd := ha.freeEnd
  linked b hb := ha.linked b (hp.mem_iff.mpr hb)
  cookie b hb := ha.cookie b (hp.mem_iff.mpr hb)

variable {vrq' : VirtqueueVring n}

section

variable (ha : DescAccounting vrq bufs)

include ha

theorem congr (hdesc : vrq'.desc = vrq.desc) (hinfo : vrq'.vqInfo = vrq.vqInfo)
    (hhead : vrq'.headFreeDesc = vrq.headFreeDesc) (havail : vrq'.descAvail = vrq.descAvail) :
    DescAccounting vrq' bufs := by
  have hnext : vrq'.next = vrq.next := by
    funext i
    rw [VirtqueueVring.next, hdesc, VirtqueueVring.next]
  refine ⟨?_, ?_, ?_, ?_⟩
  · simpa only [freeChain, chainOf, hnext, hinfo, hhead, havail] using ha.partition
  · simpa only [hnext, hhead, havail] using ha.freeEnd
  · simpa only [hdesc, hinfo] using ha.linked
  · simpa only [hinfo] using ha.cookie

theorem nodup : (freeChain vrq ++ bufs.flatMap fun b => chainOf vrq b.head).Nodup :=
  ha.partition.nodup_iff.mpr List.nodup_range

theorem lt_of_mem (hi : i ∈ freeChain vrq ++ bufs.flatMap fun b => chainOf vrq b.head) :
    i < n.num :=
  List.mem_range.mp (ha.partition.mem_iff.mp hi)

theorem total : vrq.descAvail + (bufs.map fun b => (vrq.vqInfo b.head).descCount).sum = n.num := by
  have hlen := ha.partition.length_eq
  rw [List.length_append, List.length_flatMap, List.length_range] at hlen
  simpa only [freeChain, chainOf, length_walk] using hlen

theorem head_mem (hb : b ∈ bufs) : b.head ∈ chainOf vrq b.head := by
  obtain ⟨k, hk⟩ := Nat.exists_eq_add_of_lt (ha.linked b hb).count_pos
  rw [chainOf, hk, Nat.zero_add]
  exact List.mem_cons_self

theorem length_le_sum : bufs.length ≤ (bufs.map fun b => (vrq.vqInfo b.head).descCount).sum := by
  have hone : ∀ k ∈ bufs.map fun b => (vrq.vqInfo b.head).descCount, 1 ≤ k := by
    intro k hk
    obtain ⟨b, hb, rfl⟩ := List.mem_map.mp hk
    exact (ha.linked b hb).count_pos
  simpa only [List.length_map] using List.length_le_sum_of_one_le _ hone

end

theorem chains_apart (ha : DescAccounting vrq (b :: bufs)) {c : Buf} (hc : c ∈ bufs)
    (hi : i ∈ chainOf vrq b.head) : i ∉ chainOf vrq c.head := by
  have hnd := (List.nodup_append.mp ha.nodup).2.1
  rw [List.flatMap_cons] at hnd
  exact fun hi' =>
    (List.nodup_append.mp hnd).2.2 i hi i (List.mem_flatMap.mpr ⟨c, hc, hi'⟩) rfl

theorem head_ne (ha : DescAccounting vrq (b :: bufs)) {c : Buf} (hc : c ∈ bufs) : c.head ≠ b.head :=
  ne_of_mem_of_not_mem (ha.head_mem (List.mem_cons_of_mem _ hc))
    (ha.chains_apart hc (ha.head_mem List.mem_cons_self))

theorem enqueue (ha : DescAccounting vrq bufs) (ht : t ≤ vrq.descAvail)
    (hb : b.head = vrq.headFreeDesc) (hlinked : Linked vrq'.desc b.head t)
    (hnext : ∀ i, vrq'.next i = vrq.next i)
    (hframe : ∀ i, i ∉ walk vrq.next vrq.headFreeDesc t → vrq'.desc i = vrq.desc i)
    (hinfo : vrq'.vqInfo = update vrq.vqInfo b.head ⟨b.cookie, t⟩)
    (hhead : vrq'.headFreeDesc = vrq.next^[t] vrq.headFreeDesc)
    (havail : vrq'.descAvail = vrq.descAvail - t) : DescAccounting vrq' (b :: bufs) := by
  have hnext' : vrq'.next = vrq.next := funext hnext
  -- the free chain is cut behind the new buffer
  have hcut : freeChain vrq = walk vrq.next vrq.headFreeDesc t ++ freeChain vrq' := by
    rw [freeChain, freeChain, hnext', hhead, havail, ← walk_add, Nat.add_sub_cancel' ht]
  have hmem : b.head ∈ walk vrq.next vrq.headFreeDesc t := by
    obtain ⟨k, hk⟩ := Nat.exists_eq_add_of_lt hlinked.count_pos
    rw [hk, Nat.zero_add, hb]
    exact List.mem_cons_self
  have hnd := ha.nodup
  rw [hcut, List.append_assoc] at hnd
  have hdisj := (List.nodup_append.mp hnd).2.2
  -- a descriptor of a buffer in flight is none of the new buffer's
  have hold : ∀ c ∈ bufs, ∀ i ∈ chainOf vrq c.head, i ∉ walk vrq.next vrq.headFreeDesc t :=
    fun c hc i hi hi' => hdisj i hi' i
      (List.mem_append_right _ (List.mem_flatMap.mpr ⟨c, hc, hi⟩)) rfl
  have hinfo' : ∀ c ∈ bufs, vrq'.vqInfo c.head = vrq.vqInfo c.head := fun c hc => by
    rw [hinfo, update_of_ne (ne_of_mem_of_not_mem hmem (hold c hc _ (ha.head_mem hc))).symm]
  have hchain : ∀ c ∈ bufs, chainOf vrq' c.head = chainOf vrq c.head := fun c hc => by
    rw [chainOf, chainOf, hnext', hinfo' c hc]
  have hchainb : chainOf vrq' b.head = walk vrq.next vrq.headFreeDesc t := by
    rw [chainOf, hnext', hinfo, update_self, hb]
  refine ⟨?_, ?_, ?_, ?_⟩
  · rw [List.flatMap_cons, List.flatMap_congr hchain, hchainb]
    refine List.Perm.trans ?_ ha.partition
    rw [hcut, ← List.append_assoc]
    exact List.perm_append_comm.append_right _
  · rw [hnext', hhead, havail, ← Function.iterate_add_apply, Nat.sub_add_cancel ht, ha.freeEnd]
  · intro c hc
    rcases List.mem_cons.mp hc with rfl | hc
    · rw [hinfo, update_self]
      exact hlinked
    rw [hinfo' c hc]
    exact (ha.linked c hc).congr fun i hi => hframe i (hold c hc i hi)
  intro c hc
  rcases List.mem_cons.mp hc with rfl | hc
  · rw [hinfo, update_self]
  · rw [hinfo' c hc, ha.cookie c hc]

theorem dequeue (ha : DescAccounting vrq (b :: bufs)) (hk : (vrq.vqInfo b.head).descCount = k + 1)
    (hdesc : vrq'.desc = update vrq.desc (vrq.next^[k] b.head)
      { vrq.desc (vrq.next^[k] b.head) with next := vrq.headFreeDesc })
    (hinfo : ∀ h, h ≠ b.head → vrq'.vqInfo h = vrq.vqInfo h) (hhead : vrq'.headFreeDesc = b.head)
    (havail : vrq'.descAvail = k + 1 + vrq.descAvail) : DescAccounting vrq' bufs := by
  have hnext : vrq'.next = update vrq.next (vrq.next^[k] b.head) vrq.headFreeDesc := by
    funext i
    rw [VirtqueueVring.next, hdesc]
    by_cases hi : i = vrq.next^[k] b.head
    · rw [hi, update_self, update_self]
    · rw [update_of_ne hi, update_of_ne hi, VirtqueueVring.next]
  have hchainb : chainOf vrq b.head = walk vrq.next b.head (k + 1) := by rw [chainOf, hk]
  have hlast : vrq.next^[k] b.head ∈ chainOf vrq b.head := hchainb ▸ iterate_mem_walk
  have hnd := ha.nodup
  rw [List.flatMap_cons] at hnd
  obtain ⟨-, hnd', hfree⟩ := List.nodup_append.mp hnd
  have hndb := (List.nodup_append.mp hnd').1
  have hfresh : vrq.next^[k] b.head ∉ freeChain vrq := fun hmem =>
    hfree _ hmem _ (List.mem_append_left _ hlast) rfl
  -- a descriptor of another buffer in flight is none of the freed ones
  have hold : ∀ c ∈ bufs, ∀ i ∈ chainOf vrq b.head, i ∉ chainOf vrq c.head :=
    fun c hc i hi => ha.chains_apart hc hi
  have hinfo' : ∀ c ∈ bufs, vrq'.vqInfo c.head = vrq.vqInfo c.head := fun c hc =>
    hinfo _ (ha.head_ne hc)
  have hchain : ∀ c ∈ bufs, chainOf vrq' c.head = chainOf vrq c.head := fun c hc => by
    rw [chainOf, chainOf, hnext, hinfo' c hc]
    exact (walk_update (hold c hc _ hlast)).1
  obtain ⟨hjoin, hend⟩ := walk_relink (hchainb ▸ hndb) hfresh
  refine ⟨?_, ?_, ?_, ?_⟩
  · rw [List.flatMap_congr hchain, freeChain, hnext, hhead, havail, hjoin, ← hchainb]
    refine List.Perm.trans ?_ ha.partition
    rw [List.flatMap_cons, ← List.append_assoc]
    exact List.perm_append_comm.append_right _
  · rw [hnext, hhead, havail, hend, ha.freeEnd]
  · intro c hc
    rw [hinfo' c hc, hdesc]
    exact (ha.linked c (List.mem_cons_of_mem _ hc)).congr fun i hi =>
      update_of_ne (ne_of_mem_of_not_mem hi (hold c hc _ hlast)) _ _
  intro c hc
  rw [hinfo' c hc, ha.cookie c (List.mem_cons_of_mem _ hc)]

theorem detach_eq (ha : DescAccounting vrq (b :: bufs)) (cur : VirtqueueVring n)
    (hdesc : cur.desc = vrq.desc) (hinfo : cur.vqInfo = vrq.vqInfo)
    (havail : cur.descAvail = vrq.descAvail) :
    ∃ k, (vrq.vqInfo b.head).descCount = k + 1 ∧ virtqueueDetachDesc cur b.head = .ok { cur with
          descAvail := k + 1 + vrq.descAvail
          vqInfo := update vrq.vqInfo b.head { vrq.vqInfo b.head with descCount := 0 }
          desc := update vrq.desc (vrq.next^[k] b.head)
            { vrq.desc (vrq.next^[k] b.head) with next := cur.headFreeDesc }
          headFreeDesc := b.head } := by
  have hmem : b ∈ b :: bufs := List.mem_cons_self
  have hlink := ha.linked b hmem
  obtain ⟨k, hk⟩ : ∃ k, (vrq.vqInfo b.head).descCount = k + 1 :=
    ⟨_, (Nat.succ_pred_eq_of_pos hlink.count_pos).symm⟩
  refine ⟨k, hk, ?_⟩
  have hlt : ∀ i ∈ walk vrq.next b.head (k + 1), i < n.num := fun i hi =>
    ha.lt_of_mem (List.mem_append_right _ (List.mem_flatMap.mpr ⟨b, hmem, by rwa [chainOf, hk]⟩))
  have htotal := ha.total
  rw [List.map_cons, List.sum_cons, hk] at htotal
  have hmax : n.num ≤ 32768 := n.num_le
  have hcount : subU16 (k + 1) 1 = k := by
    unfold subU16
    omega
  have hsum : addU16 vrq.descAvail (k + 1) = k + 1 + vrq.descAvail := by
    unfold addU16
    omega
  rw [hk] at hlink
  have hloop : detachLoop n vrq.desc n.num b.head k = .ok (vrq.next^[k] b.head, 0) :=
    detachLoop_spec hlink (by omega) (by omega) hlt
  simp only [virtqueueDetachDesc, hdesc, hinfo, havail, hk, hcount, hloop, ok_bind,
    ukAssert_pos, hsum]
  rfl

/-- **The core of an enqueue.** With room for its segments the descriptors in front of the
free chain become the buffer. -/
theorem bufferEnqueue (ha : DescAccounting vrq bufs) {off w : Nat}
    (hcookie : cookie ≠ 0) (hsg : off + (r + w) ≤ sg.length) (hpos : 1 ≤ r + w)
    (hroom : r + w ≤ vrq.descAvail) :
    ∃ desc' idx, virtqueueBufferEnqueueSegments vrq vrq.headFreeDesc sg off r w = .ok (desc', idx) ∧
      Virtio.bufferEnqueue vrq cookie sg off r w =
        .ok (.ok (vrq.descAvail - (r + w)), vrq.withBuffer desc' cookie (r + w)) ∧
      DescAccounting (vrq.withBuffer desc' cookie (r + w))
        (⟨vrq.headFreeDesc, cookie⟩ :: bufs) := by
  have hmax : n.num ≤ 32768 := n.num_le
  have htotal := ha.total
  have hfree := freeChain_cut hroom
  have hnd := (List.nodup_append.mp ha.nodup).1
  rw [hfree] at hnd
  have hlt : ∀ i ∈ walk vrq.next vrq.headFreeDesc (r + w), i < n.num := fun i hi =>
    ha.lt_of_mem (List.mem_append_left _ (hfree ▸ List.mem_append_left _ hi))
  have hhead : vrq.headFreeDesc < n.num := hlt _ (by
    rw [← Nat.sub_add_cancel hpos]
    exact List.mem_cons_self)
  obtain ⟨desc', hloop, hnext, hframe, hlinked⟩ := segmentsLoop_spec (n := n) (r := r) le_rfl
    hsg (List.nodup_append.mp hnd).1 hlt
  have hmod : (r + w) % 2 ^ 16 = r + w := Nat.mod_eq_of_lt (by omega)
  have hsub : subU16 vrq.descAvail (r + w) = vrq.descAvail - (r + w) := by
    unfold subU16
    omega
  refine ⟨desc', _, hloop, ?_, ?_⟩
  · rw [Virtio.bufferEnqueue, if_neg (by omega), ukAssert_pos hcookie, ok_bind,
      if_pos hhead, virtqueueBufferEnqueueSegments, hloop, hmod]
    simp only [ok_bind, hsub]
    rfl
  · exact ha.enqueue hroom rfl (hlinked hpos) hnext hframe rfl rfl rfl

end DescAccounting

/-! ### The two rings -/

/-- Between the 16-bit positions `pos` and `idx` the ring holds `q`. -/
structure RingView {α : Type} (ring : Vector α n.num) (pos idx : Nat) (q : List α) : Prop where
  holds : Holds ring.toList pos q
  pos_lt : pos < 2 ^ 16
  idx_eq : idx = addU16 pos q.length

namespace RingView

variable {α : Type} {ring : Vector α n.num} {pos idx : Nat} {q : List α} {x : α}

theorem empty (ring : Vector α n.num) : RingView ring 0 0 [] := ⟨Holds.nil, by norm_num, rfl⟩

theorem length_eq (hv : RingView ring pos idx q) (hlen : q.length ≤ n.num) :
    subU16 idx pos = q.length := by
  have := n.num_le
  rw [virtqueueMaxSize] at *
  rw [hv.idx_eq]
  unfold subU16 addU16
  omega

theorem pos_eq_idx_iff (hv : RingView ring pos idx q) (hlen : q.length ≤ n.num) :
    pos = idx ↔ q = [] := by
  have hsub := hv.length_eq hlen
  have := hv.pos_lt
  rw [← List.length_eq_zero_iff, ← hsub]
  have := hv.idx_eq
  unfold addU16 at this
  unfold subU16
  omega

theorem head (hv : RingView ring pos idx (x :: q)) : ring[n.slot pos] = x := by
  have hx := hv.holds.head
  rw [Vector.length_toList, ← n.slot_val, Vector.getElem?_toList] at hx
  simpa using hx

theorem pop (hv : RingView ring pos idx (x :: q)) : RingView ring (addU16 pos 1) idx q where
  holds := hv.holds.tail.congr_mod (by
    rw [Vector.length_toList, addU16, Nat.mod_mod_of_dvd _ n.num_dvd])
  pos_lt := Nat.mod_lt _ (by norm_num)
  idx_eq := by
    rw [hv.idx_eq, addU16, addU16, addU16, List.length_cons, Nat.mod_add_mod]
    congr 1
    omega

theorem push (hv : RingView ring pos idx q) (hlen : q.length < n.num) (x : α) :
    RingView (ring.set (n.slot idx) x) pos (addU16 idx 1) (q ++ [x]) where
  holds := by
    have hslot : (n.slot idx : Nat) = (pos + q.length) % n.num := by
      rw [n.slot_val, hv.idx_eq, addU16, Nat.mod_mod_of_dvd _ n.num_dvd]
    have hpush := hv.holds.push (x := x) (by rwa [Vector.length_toList])
    rwa [Vector.length_toList, ← hslot, ← Vector.toList_set] at hpush
  pos_lt := hv.pos_lt
  idx_eq := by
    rw [hv.idx_eq, addU16, addU16, addU16, List.length_append, List.length_singleton,
      Nat.mod_add_mod, Nat.add_assoc]

end RingView

/-! ### The abstract queue and the device -/

/-- What a virtqueue is for: buffers made available to the device, held by it,
and used, the latter with the length the device reported. -/
structure BufQueue where
  avail : List Buf
  held : List Buf
  used : List (Buf × Nat)

namespace BufQueue

/-- The buffers in flight: enqueued and not dequeued. -/
def inflight (q : BufQueue) : List Buf := q.avail ++ q.held ++ q.used.map Prod.fst

def enqueue (q : BufQueue) (b : Buf) : BufQueue := { q with avail := q.avail ++ [b] }

def fetch (q : BufQueue) : BufQueue :=
  { q with avail := q.avail.tail, held := q.held ++ q.avail.take 1 }

/-- The device is done with the `i`-th of the buffers it holds. -/
def post (q : BufQueue) (i len : Nat) : BufQueue :=
  { q with
    held := q.held.eraseIdx i
    used := q.used ++ q.held[i]?.toList.map fun b => (b, len) }

def dequeue (q : BufQueue) (count : Nat) : BufQueue := { q with used := q.used.drop count }

theorem inflight_enqueue (q : BufQueue) (b : Buf) :
    (q.enqueue b).inflight.Perm (b :: q.inflight) := by
  simp only [inflight, enqueue, List.append_assoc, List.singleton_append]
  exact List.perm_middle

theorem inflight_fetch (q : BufQueue) : q.fetch.inflight.Perm q.inflight := by
  unfold inflight fetch
  cases hq : q.avail with
  | nil => simp
  | cons b avail =>
    simp only [List.tail_cons, List.take_succ_cons, List.take_zero, List.append_assoc,
      List.nil_append, List.cons_append]
    rw [← List.append_assoc]
    exact List.perm_middle.trans (by rw [List.append_assoc])

theorem inflight_post (q : BufQueue) (len : Nat) (hi : i < q.held.length) :
    (q.post i len).inflight.Perm q.inflight := by
  have hheld : (q.held[i] :: q.held.eraseIdx i).Perm q.held := List.getElem_cons_eraseIdx_perm hi
  simp only [inflight, post, List.getElem?_eq_getElem hi, Option.toList_some, List.map_cons,
    List.map_nil, List.map_append, List.append_assoc]
  refine List.Perm.append_left _ ?_
  refine List.Perm.trans ?_ (hheld.append_right _)
  rw [← List.append_assoc]
  exact List.perm_append_comm

theorem inflight_dequeue_subset (q : BufQueue) (count : Nat) :
    (q.dequeue count).inflight ⊆ q.inflight := by
  refine List.append_subset.mpr ⟨List.subset_append_left _ _, ?_⟩
  exact List.subset_append_of_subset_right _ (List.map_subset _ (List.drop_subset _ _))

end BufQueue

/-- The device: how far it has read the available ring, and the heads it holds. -/
structure Device where
  lastAvail : Nat
  held : List Nat

/-- The tables and the device represent the abstract queue `q`. -/
structure QueueRep (vrq : VirtqueueVring n) (dev : Device) (q : BufQueue) : Prop where
  desc : DescAccounting vrq q.inflight
  avail : RingView vrq.availRing dev.lastAvail vrq.availIdx (q.avail.map Buf.head)
  published : vrq.vqAvailIdx = vrq.availIdx
  held : dev.held = q.held.map Buf.head
  used : RingView vrq.usedRing vrq.lastUsedDescIdx vrq.usedIdx (q.used.map fun u => ⟨u.1.head, u.2⟩)

namespace QueueRep

variable {dev : Device} {q : BufQueue}

theorem inflight_length (hr : QueueRep vrq dev q) :
    vrq.descAvail + (q.avail.length + q.held.length + q.used.length) ≤ n.num := by
  have htotal := hr.desc.total
  have hsum := hr.desc.length_le_sum
  simp only [BufQueue.inflight, List.length_append, List.length_map] at hsum
  rw [BufQueue.inflight] at htotal
  omega

theorem hasdata_iff (hr : QueueRep vrq dev q) : virtqueueHasdata vrq ↔ q.used ≠ [] := by
  have hlen := hr.inflight_length
  rw [virtqueueHasdata, ne_eq, hr.used.pos_eq_idx_iff (by rw [List.length_map]; omega),
    List.map_eq_nil_iff]

theorem init (n : RingSize) (info : Nat → VirtqueueDescInfo) :
    QueueRep (virtqueueVringInit n info) ⟨0, []⟩ ⟨[], [], []⟩ := by
  have hnum := n.num_pos
  -- from descriptor `i` on, the last `k` descriptors are linked in order
  have hwalk : ∀ k i, i + (k + 1) = n.num →
      walk (virtqueueVringInit n info).next i (k + 1) = List.range' i (k + 1) ∧
        (virtqueueVringInit n info).next^[k + 1] i = virtqueueMaxSize := by
    intro k
    induction k with
    | zero =>
      intro i hi
      exact ⟨rfl, if_neg (by omega)⟩
    | succ k ih =>
      intro i hi
      have hnext : (virtqueueVringInit n info).next i = i + 1 := if_pos (by omega)
      obtain ⟨hrange, hend⟩ := ih (i + 1) (by omega)
      rw [walk_succ, List.range'_succ, Function.iterate_succ_apply, hnext]
      exact ⟨congrArg _ hrange, hend⟩
  obtain ⟨hrange, hend⟩ := hwalk (n.num - 1) 0 (by omega)
  rw [Nat.sub_add_cancel hnum] at hrange hend
  refine ⟨⟨?_, hend, nofun, nofun⟩, RingView.empty _, rfl, rfl, RingView.empty _⟩
  rw [freeChain, show (virtqueueVringInit n info).descAvail = n.num from rfl,
    show (virtqueueVringInit n info).headFreeDesc = 0 from rfl, hrange, ← List.range_eq_range']
  simp [BufQueue.inflight]

section

variable (hr : QueueRep vrq dev q)

include hr

/-- **Dequeue.** The call returns the cookie and the length of the first used buffer and takes it
out of flight. -/
theorem bufferDequeue {b : Buf} {len : Nat} {rest : List (Buf × Nat)}
    (hq : q.used = (b, len) :: rest) :
    ∃ vrq', Virtio.bufferDequeue vrq = .ok ((b.cookie, len), vrq') ∧
      QueueRep vrq' dev (q.dequeue 1) ∧
      ∀ c ∈ (q.dequeue 1).inflight, vrq'.vqInfo c.head = vrq.vqInfo c.head := by
  have hused := hr.used
  rw [hq, List.map_cons] at hused
  have hperm : q.inflight.Perm (b :: (q.dequeue 1).inflight) := by
    simp only [BufQueue.inflight, BufQueue.dequeue, hq, List.map_cons, List.drop_succ_cons,
      List.drop_zero]
    exact List.perm_middle
  have hacc := hr.desc.perm hperm
  have hmem : b ∈ b :: (q.dequeue 1).inflight := List.mem_cons_self
  have hhead : b.head < n.num := hacc.lt_of_mem (List.mem_append_right _
    (List.mem_flatMap.mpr ⟨b, hmem, hacc.head_mem hmem⟩))
  have hhead16 : b.head % 2 ^ 16 = b.head :=
    Nat.mod_eq_of_lt (hhead.trans_le (n.num_le.trans (by decide)))
  obtain ⟨k, hk, hdetach⟩ := hacc.detach_eq
    { vrq with lastUsedDescIdx := addU16 vrq.lastUsedDescIdx 1 } rfl rfl rfl
  have heq : Virtio.bufferDequeue vrq = .ok ((b.cookie, len), { vrq with
        lastUsedDescIdx := addU16 vrq.lastUsedDescIdx 1
        descAvail := k + 1 + vrq.descAvail
        vqInfo := update (update vrq.vqInfo b.head
          { vrq.vqInfo b.head with descCount := 0 }) b.head ⟨0, 0⟩
        desc := update vrq.desc (vrq.next^[k] b.head)
          { vrq.desc (vrq.next^[k] b.head) with next := vrq.headFreeDesc }
        headFreeDesc := b.head }) := by
    simp only [Virtio.bufferDequeue, hused.head, hhead16, if_pos hhead, hdetach, ok_bind,
      hacc.cookie b hmem, update_self]
    rfl
  have hinfo : ∀ h, h ≠ b.head → update (update vrq.vqInfo b.head
      { vrq.vqInfo b.head with descCount := 0 }) b.head ⟨0, 0⟩ h = vrq.vqInfo h := fun h hh =>
    (update_of_ne hh _ _).trans (update_of_ne hh _ _)
  refine ⟨_, heq, ⟨?_, hr.avail, hr.published, hr.held, ?_⟩, fun c hc => hinfo _ (hacc.head_ne hc)⟩
  · exact hacc.dequeue hk rfl hinfo rfl rfl
  · simpa only [BufQueue.dequeue, hq, List.drop_succ_cons, List.drop_zero] using hused.pop

theorem dequeueLoop {count : Nat} (hcount : count ≤ q.used.length) :
    ∃ vrq', Virtio.dequeueLoop count vrq =
        .ok ((q.used.take count).map fun u => (u.1.cookie, u.2), vrq') ∧
      QueueRep vrq' dev (q.dequeue count) ∧
      ∀ c ∈ (q.dequeue count).inflight, vrq'.vqInfo c.head = vrq.vqInfo c.head := by
  induction count generalizing vrq q with
  | zero => exact ⟨vrq, rfl, hr, fun _ _ => rfl⟩
  | succ count ih =>
    obtain ⟨⟨b, len⟩, rest, hq⟩ : ∃ u rest, q.used = u :: rest :=
      List.exists_cons_of_length_pos (by omega)
    obtain ⟨vrq₁, heq₁, hr₁, hinfo₁⟩ := hr.bufferDequeue hq
    have hdrop : (q.dequeue 1).used = rest := by simp [BufQueue.dequeue, hq]
    obtain ⟨vrq₂, heq₂, hr₂, hinfo₂⟩ := ih hr₁ (by rw [hdrop]; simpa [hq] using hcount)
    have htwice : (q.dequeue 1).dequeue count = q.dequeue (count + 1) := by
      simp only [BufQueue.dequeue, List.drop_drop, Nat.add_comm 1]
    rw [htwice] at hr₂ hinfo₂
    refine ⟨vrq₂, ?_, hr₂, fun c hc => ?_⟩
    · simp only [Virtio.dequeueLoop, heq₁, ok_bind, heq₂, hdrop, hq]
      rfl
    have hmem : c ∈ (q.dequeue 1).inflight := by
      rw [← htwice] at hc
      exact (q.dequeue 1).inflight_dequeue_subset count hc
    rw [hinfo₂ c hc, hinfo₁ c hmem]

/-- **A burst of dequeues** returns the first used buffers, at most `cnt` of them. -/
theorem dequeueBurst (cnt : Nat) :
    ∃ vrq', virtqueueBufferDequeueBurst vrq cnt =
        .ok (((q.used.take cnt).map fun u => (u.1.cookie, u.2), n.num - vrq'.descAvail), vrq') ∧
      QueueRep vrq' dev (q.dequeue cnt) ∧
      ∀ c ∈ (q.dequeue cnt).inflight, vrq'.vqInfo c.head = vrq.vqInfo c.head := by
  have hlen := hr.inflight_length
  have hmax : n.num ≤ 32768 := n.num_le
  have hcount : burstCount vrq cnt = min cnt q.used.length := by
    rw [burstCount, hr.used.length_eq (by rw [List.length_map]; omega), List.length_map]
    omega
  obtain ⟨vrq', heq, hr', hinfo⟩ := hr.dequeueLoop (min_le_right cnt q.used.length)
  have hsame : q.dequeue (min cnt q.used.length) = q.dequeue cnt := by
    rw [BufQueue.dequeue, BufQueue.dequeue, ← List.drop_eq_drop_min]
  rw [hsame] at hr' hinfo
  refine ⟨vrq', ?_, hr', hinfo⟩
  rw [virtqueueBufferDequeueBurst, hcount, heq, ok_bind, ← List.take_eq_take_min]
  rfl

theorem publish_eq : virtqueueRingUpdateAvailIdx vrq = vrq := by
  have h := hr.published
  clear hr
  cases vrq
  cases h
  rfl

theorem withBuffer {desc : Nat → VringDesc} (hpos : 1 ≤ vrq.descAvail)
    (hacc : DescAccounting (vrq.withBuffer desc cookie t)
      (⟨vrq.headFreeDesc, cookie⟩ :: q.inflight)) :
    QueueRep (virtqueueRingUpdateAvailIdx (vrq.withBuffer desc cookie t)) dev
      (q.enqueue ⟨vrq.headFreeDesc, cookie⟩) := by
  have hlen := hr.inflight_length
  have hpush := hr.avail.push (x := vrq.headFreeDesc) (by rw [List.length_map]; omega)
  rw [← hr.published] at hpush
  have hacc' := hacc.perm (q.inflight_enqueue _).symm
  refine ⟨hacc'.congr rfl rfl rfl rfl, ?_, rfl, hr.held, hr.used⟩
  rw [BufQueue.enqueue, List.map_append]
  exact hpush

/-- **Enqueue.** With room for its segments the buffer is in flight afterwards,
under the head the call took from the free chain. -/
theorem enqueue {w : Nat} (hcookie : cookie ≠ 0)
    (hsg : r + w ≤ sg.length) (hpos : 1 ≤ r + w) (hroom : r + w ≤ vrq.descAvail) :
    ∃ vrq', virtqueueBufferEnqueue vrq cookie sg r w = .ok (.ok (vrq.descAvail - (r + w)), vrq') ∧
      QueueRep vrq' dev (q.enqueue ⟨vrq.headFreeDesc, cookie⟩) := by
  have hmax : n.num ≤ 32768 := n.num_le
  have htotal := hr.desc.total
  have hadd : addU16 r w = r + w := Nat.mod_eq_of_lt (by omega)
  obtain ⟨desc', -, -, hcore, hacc⟩ := hr.desc.bufferEnqueue hcookie
    (by omega : 0 + (r + w) ≤ sg.length) hpos hroom
  have heq : virtqueueBufferEnqueue vrq cookie sg r w = .ok (.ok (vrq.descAvail - (r + w)),
        virtqueueRingUpdateAvailIdx (vrq.withBuffer desc' cookie (r + w))) := by
    rw [virtqueueBufferEnqueue, ukAssert_pos hcookie, ok_bind, hadd, if_neg (by omega), hcore]
    rfl
  exact ⟨_, heq, hr.withBuffer (by omega) hacc⟩

theorem enqueue_refused {w : Nat} (sg : List SglistSeg) (hcookie : cookie ≠ 0)
    (hbad : ¬ (1 ≤ r + w ∧ r + w ≤ vrq.descAvail)) :
    ∃ e, virtqueueBufferEnqueue vrq cookie sg r w = .ok (.error e, vrq) := by
  have htotal := hr.desc.total
  rw [virtqueueBufferEnqueue, ukAssert_pos hcookie, ok_bind]
  split
  · exact ⟨.einval, rfl⟩
  rename_i hcheck
  refine ⟨.enospc, ?_⟩
  have hpos : addU16 r w ≤ r + w := Nat.mod_le _ _
  rw [bufferEnqueue, if_pos (by omega)]
  rfl

end

end QueueRep

/-! ### Runs of the driver and the device -/

/-- The driver's tables, the device, and the abstract queue beside them. -/
structure QueueState (n : RingSize) where
  vrq : VirtqueueVring n
  dev : Device
  queue : BufQueue

/-- A call of the driver, or a move of the device. -/
inductive QueueEvent
  | enqueue (cookie : Nat) (sg : List SglistSeg) (readBufs writeBufs : Nat)
  | dequeue
  | dequeueBurst (cnt : Int)
  /-- The device reads the next head of the available ring. -/
  | fetch
  /-- The device posts the `i`-th of the heads it holds to the used ring. -/
  | post (i len : Nat)

/-- What a call returns. -/
inductive QueueReply
  | enqueued (rc : Except Errno Nat)
  | dequeued (rc : Except Errno ((Nat × Nat) × Int))
  | burst (bufs : List (Nat × Nat)) (rc : Int)
  | device

/-- The device reads the head in its next slot of the available ring. -/
def deviceFetch (s : QueueState n) : QueueState n :=
  { s with
    dev := ⟨addU16 s.dev.lastAvail 1, s.dev.held ++ [s.vrq.availRing[n.slot s.dev.lastAvail]]⟩
    queue := s.queue.fetch }

/-- The device posts the head `h`, the `i`-th it holds, and publishes it. -/
def devicePost (s : QueueState n) (i h len : Nat) : QueueState n :=
  { s with
    vrq := { s.vrq with
      usedRing := s.vrq.usedRing.set (n.slot s.vrq.usedIdx) ⟨h, len⟩
      usedIdx := addU16 s.vrq.usedIdx 1 }
    dev := { s.dev with held := s.dev.held.eraseIdx i }
    queue := s.queue.post i len }

/-- One event. The abstract queue takes the head of a new buffer from the call
that enqueued it, and otherwise moves on its own. -/
def queueStep (s : QueueState n) : QueueEvent → Outcome (QueueReply × QueueState n)
  | .enqueue cookie sg r w => do
      match ← virtqueueBufferEnqueue s.vrq cookie sg r w with
      | (.ok rc, vrq) => return (.enqueued (.ok rc),
          { s with vrq := vrq, queue := s.queue.enqueue ⟨s.vrq.headFreeDesc, cookie⟩ })
      | (.error e, vrq) => return (.enqueued (.error e), { s with vrq := vrq })
  | .dequeue => do
      let (rc, vrq) ← virtqueueBufferDequeue s.vrq
      return (.dequeued rc, { s with vrq := vrq, queue := s.queue.dequeue 1 })
  | .dequeueBurst cnt => do
      let ((bufs, rc), vrq) ← virtqueueBufferDequeueBurst s.vrq cnt
      return (.burst bufs rc, { s with vrq := vrq, queue := s.queue.dequeue cnt.toNat })
  | .fetch => return (.device, deviceFetch s)
  | .post i len =>
    match s.dev.held[i]? with
    | some h => return (.device, devicePost s i h len)
    | none => .error .badPointer

/-- A cookie is not `NULL`, a buffer has the segments it is enqueued with, `*cnt` is not negative,
the device reads only published heads and posts only heads it holds. -/
def queueOk (s : QueueState n) : QueueEvent → Prop
  | .enqueue cookie sg r w => cookie ≠ 0 ∧ r < 2 ^ 16 ∧ w < 2 ^ 16 ∧ r + w ≤ sg.length
  | .dequeue => True
  | .dequeueBurst cnt => 0 ≤ cnt
  | .fetch => s.dev.lastAvail ≠ s.vrq.availIdx
  | .post i len => i < s.dev.held.length ∧ len < 2 ^ 32

instance (s : QueueState n) (e : QueueEvent) : Decidable (queueOk s e) := by
  cases e <;> dsimp only [queueOk] <;> infer_instance

/-- The state after `virtqueue_create`. -/
def queueInit (n : RingSize) (info : Nat → VirtqueueDescInfo) : QueueState n :=
  ⟨virtqueueVringInit n info, ⟨0, []⟩, ⟨[], [], []⟩⟩

/-- The reply the abstract queue gives to an event. -/
def QueueReply.Meets (s : QueueState n) : QueueEvent → QueueReply → Prop
  | .enqueue _ _ r w, .enqueued rc =>
    if 1 ≤ r + w ∧ r + w ≤ s.vrq.descAvail then rc = .ok (s.vrq.descAvail - (r + w))
    else ∃ e, rc = .error e
  | .dequeue, .dequeued rc =>
    match s.queue.used with
    | [] => rc = .error .enomsg
    | (b, len) :: _ => ∃ inUse, rc = .ok ((b.cookie, len), inUse)
  | .dequeueBurst cnt, .burst bufs _ =>
    bufs = (s.queue.used.take cnt.toNat).map fun u => (u.1.cookie, u.2)
  | .fetch, .device => True
  | .post _ _, .device => True
  | _, _ => False

/-- The tables and the device represent the abstract queue. -/
def QueueState.Rep (s : QueueState n) : Prop := QueueRep s.vrq s.dev s.queue

variable {s : QueueState n}

theorem QueueState.Rep.fetch (hr : s.Rep) (hok : s.dev.lastAvail ≠ s.vrq.availIdx) :
    (deviceFetch s).Rep := by
  have hlen := hr.inflight_length
  obtain ⟨b, rest, hq⟩ : ∃ b rest, s.queue.avail = b :: rest := by
    refine List.exists_cons_of_ne_nil fun hnil => hok ?_
    exact (hr.avail.pos_eq_idx_iff (by rw [List.length_map]; omega)).mpr (by rw [hnil]; rfl)
  have havail := hr.avail
  rw [hq, List.map_cons] at havail
  refine ⟨hr.desc.perm s.queue.inflight_fetch.symm, ?_, hr.published, ?_, hr.used⟩
  · simpa only [deviceFetch, BufQueue.fetch, hq, List.tail_cons] using havail.pop
  simp only [deviceFetch, BufQueue.fetch, hq, havail.head, hr.held, List.take_succ_cons,
    List.take_zero, List.map_append, List.map_cons, List.map_nil]

theorem QueueState.Rep.post (hr : s.Rep) (len : Nat) (hh : s.dev.held[i]? = some h) :
    (devicePost s i h len).Rep := by
  have hlen := hr.inflight_length
  have hheld := hr.held
  rw [hheld, List.getElem?_map, Option.map_eq_some_iff] at hh
  obtain ⟨b, hb, rfl⟩ := hh
  obtain ⟨hi, -⟩ := List.getElem?_eq_some_iff.mp hb
  have hdesc : DescAccounting (devicePost s i b.head len).vrq s.queue.inflight :=
    hr.desc.congr rfl rfl rfl rfl
  refine ⟨hdesc.perm (s.queue.inflight_post len hi).symm, hr.avail, hr.published, ?_, ?_⟩
  · simp only [devicePost, BufQueue.post, hheld, List.eraseIdx_map]
  have hpush := hr.used.push (by rw [List.length_map]; omega) ⟨b.head, len⟩
  simpa only [devicePost, BufQueue.post, hb, Option.toList_some, List.map_append, List.map_cons,
    List.map_nil] using hpush

theorem queueStep_rep (hr : s.Rep) {e : QueueEvent} (hok : queueOk s e) :
    ∃ r s', queueStep s e = .ok (r, s') ∧ r.Meets s e ∧ s'.Rep := by
  cases e with
  | enqueue cookie sg r w =>
    obtain ⟨hcookie, -, -, hsg⟩ := hok
    by_cases hroom : 1 ≤ r + w ∧ r + w ≤ s.vrq.descAvail
    · obtain ⟨vrq', heq, hr'⟩ := hr.enqueue hcookie hsg hroom.1 hroom.2
      refine ⟨_, ⟨vrq', s.dev, _⟩, by simp only [queueStep, heq, ok_bind]; rfl, ?_, hr'⟩
      exact (if_pos hroom).mpr rfl
    obtain ⟨e, heq⟩ := hr.enqueue_refused sg hcookie hroom
    refine ⟨_, s, by simp only [queueStep, heq, ok_bind]; rfl, ?_, hr⟩
    exact (if_neg hroom).mpr ⟨e, rfl⟩
  | dequeue =>
    cases hq : s.queue.used with
    | nil =>
      have hempty : ¬ virtqueueHasdata s.vrq := fun h => hr.hasdata_iff.mp h hq
      have hsame : s.queue.dequeue 1 = s.queue := by
        rw [BufQueue.dequeue, hq, List.drop_nil, ← hq]
      refine ⟨.dequeued (.error .enomsg), s, ?_, ?_, hr⟩
      · simp only [queueStep, virtqueueBufferDequeue, if_neg hempty, hsame]
        rfl
      · simp only [QueueReply.Meets, hq]
    | cons u rest =>
      have hdata : virtqueueHasdata s.vrq := hr.hasdata_iff.mpr (by simp [hq])
      obtain ⟨vrq', heq, hr', -⟩ := hr.bufferDequeue hq
      refine ⟨.dequeued (.ok ((u.1.cookie, u.2), n.num - vrq'.descAvail)),
        ⟨vrq', s.dev, s.queue.dequeue 1⟩, ?_, ?_, hr'⟩
      · simp only [queueStep, virtqueueBufferDequeue, if_pos hdata, heq, ok_bind]
        rfl
      simp only [QueueReply.Meets, hq]
      exact ⟨_, rfl⟩
  | dequeueBurst cnt =>
    obtain ⟨cnt, rfl⟩ := Int.eq_ofNat_of_zero_le hok
    obtain ⟨vrq', heq, hr', -⟩ := hr.dequeueBurst cnt
    refine ⟨.burst ((s.queue.used.take cnt).map fun u => (u.1.cookie, u.2))
      (n.num - vrq'.descAvail), ⟨vrq', s.dev, s.queue.dequeue cnt⟩, ?_, rfl, hr'⟩
    simp only [queueStep, heq, ok_bind]
    rfl
  | fetch => exact ⟨_, _, rfl, trivial, hr.fetch hok⟩
  | post i len =>
    obtain ⟨h, hh⟩ : ∃ h, s.dev.held[i]? = some h := ⟨_, List.getElem?_eq_getElem hok.1⟩
    exact ⟨.device, _, by rw [queueStep, hh]; rfl, trivial, hr.post len hh⟩

theorem queueRun_rep {info : Nat → VirtqueueDescInfo}
    (hs : Reachable queueStep queueOk (queueInit n info) s) : s.Rep := by
  refine hs.invariant_of_returns (QueueRep.init n info) fun s e hr hok => ?_
  obtain ⟨r, s', hstep, -, hr'⟩ := queueStep_rep hr hok
  exact ⟨r, s', hstep, hr'⟩

/-- **Descriptor accounting.** In every run the free chain, of exactly `desc_avail` descriptors, and
the chains of the buffers in flight partition the descriptors, and every allowed event returns with
the reply of the abstract queue: a dequeue gives back the cookie that was enqueued with the head the
device posted, once. -/
theorem virtqueue_accounting (n : RingSize) (info : Nat → VirtqueueDescInfo) (s : QueueState n)
    (hs : Reachable queueStep queueOk (queueInit n info) s) :
    (freeChain s.vrq ++ s.queue.inflight.flatMap fun b => chainOf s.vrq b.head).Perm
        (List.range n.num) ∧
      s.vrq.next^[s.vrq.descAvail] s.vrq.headFreeDesc = virtqueueMaxSize ∧
      (∀ b ∈ s.queue.inflight, Linked s.vrq.desc b.head (s.vrq.vqInfo b.head).descCount) ∧
      s.vrq.descAvail +
        (s.queue.inflight.map fun b => (s.vrq.vqInfo b.head).descCount).sum = n.num ∧
      s.dev.held = s.queue.held.map Buf.head ∧
      ∀ e, queueOk s e → ∃ r s', queueStep s e = .ok (r, s') ∧ r.Meets s e := by
  have hr := queueRun_rep hs
  refine ⟨hr.desc.partition, hr.desc.freeEnd, hr.desc.linked, hr.desc.total, hr.held, ?_⟩
  intro e hok
  obtain ⟨r, s', hstep, hmeets, -⟩ := queueStep_rep hr hok
  exact ⟨r, s', hstep, hmeets⟩

/-- Two buffers on a ring of four descriptors, posted in the reverse order. -/
theorem virtqueue_accounting_reversed :
    ∃ s : QueueState ⟨2, by decide⟩,
      Reachable queueStep queueOk (queueInit ⟨2, by decide⟩ fun _ => ⟨0, 0⟩) s ∧
        s.queue.used = [(⟨2, 9⟩, 0), (⟨0, 7⟩, 64)] ∧ s.vrq.descAvail = 1 ∧
        s.vrq.descAvail +
          (s.queue.inflight.map fun b => (s.vrq.vqInfo b.head).descCount).sum = 4 := by
  obtain ⟨s, hreach, hused, havail⟩ : ∃ s : QueueState ⟨2, by decide⟩,
      Reachable queueStep queueOk (queueInit _ fun _ => ⟨0, 0⟩) s ∧
      s.queue.used = [(⟨2, 9⟩, 0), (⟨0, 7⟩, 64)] ∧ s.vrq.descAvail = 1 :=
    Reachable.exists_of_run [.enqueue 7 [⟨4096, 16⟩, ⟨8192, 64⟩] 1 1, .enqueue 9 [⟨12288, 8⟩] 1 0,
      .fetch, .fetch, .post 1 0, .post 0 64] (by decide +kernel)
  exact ⟨s, hreach, hused, havail, (virtqueue_accounting _ _ s hreach).2.2.2.1⟩

end Unikraft.Virtio
