import Unikraft.Virtio.Accounting

/-!
# Unikraft.Virtio.DeviceView

**What the device finds in the descriptors** from a head of the available ring on (`readChain`):
one descriptor for each segment of an accepted buffer (`virtqueueBufferEnqueue_chain`), not touched
by later ones.
-/

namespace Unikraft.Virtio

open Lib Outcome List

/-- A descriptor as the device sees it. -/
structure DescPart where
  addr : Nat
  len : Nat
  writable : Bool
  deriving DecidableEq

def VringDesc.part (d : VringDesc) : DescPart :=
  ⟨d.addr, d.len, d.flags &&& vringDescFWrite ≠ 0⟩

/-- The chain of descriptors the device follows from the head `i` on. -/
def readChain (desc : Nat → VringDesc) : Nat → Nat → List DescPart
  | 0, _ => []
  | fuel + 1, i =>
    (desc i).part ::
      if (desc i).flags &&& vringDescFNext ≠ 0 then readChain desc fuel (desc i).next else []

/-- The addresses of the bytes that descriptors cover, in order. -/
def partBytes (parts : List DescPart) : List Nat := parts.flatMap fun d => List.range' d.addr d.len

/-- The descriptor made of segment `i` of a list. -/
def segPart (sg : List SglistSeg) (off readBufs i : Nat) : Option DescPart :=
  sg[off + i]?.map fun seg => ⟨seg.paddr, seg.len % 2 ^ 32, readBufs ≤ i⟩

variable {n : RingSize} {vrq vrq' : VirtqueueVring n} {sg : List SglistSeg} {off r t w : Nat}
  {desc : Nat → VringDesc} {bufs : List Buf}

theorem segmentFlags_write {i : Nat} : segmentFlags r t i &&& vringDescFWrite ≠ 0 ↔ r ≤ i := by
  unfold segmentFlags vringDescFNext vringDescFWrite
  split <;> split <;> simp_all

theorem segmentsLoop_chain {rem idx idx' : Nat} {desc' : Nat → VringDesc} (hrem : rem ≤ t)
    (hnd : (walk (fun i => (desc i).next) idx rem).Nodup)
    (h : segmentsLoop n sg off r t rem desc idx = .ok (desc', idx')) :
    (∀ i, i ∉ walk (fun i => (desc i).next) idx rem → desc' i = desc i) ∧
      (0 < rem → ∀ fuel, rem ≤ fuel →
        readChain desc' fuel idx = (List.range' (t - rem) rem).filterMap (segPart sg off r)) := by
  induction rem generalizing desc idx with
  | zero =>
    cases h
    exact ⟨fun _ _ => rfl, nofun⟩
  | succ rem ih =>
    rw [segmentsLoop] at h
    split at h
    · cases h
    rename_i seg hseg
    split at h
    · generalize hd : (⟨seg.paddr, seg.len % 2 ^ 32, segmentFlags r t (t - (rem + 1)),
        (desc idx).next⟩ : VringDesc) = d at h
      have hnext : (fun i => (Function.update desc idx d i).next) = fun i => (desc i).next := by
        funext i
        by_cases hi : i = idx
        · rw [hi, Function.update_self, ← hd]
        · rw [Function.update_of_ne hi]
      rw [walk_succ, nodup_cons] at hnd
      obtain ⟨hframe, hchain⟩ := ih (by omega) (by rw [hnext]; exact hnd.2) h
      rw [hnext] at hframe
      have hidx : desc' idx = d := by rw [hframe idx hnd.1, Function.update_self]
      refine ⟨fun i hi => ?_, fun _ fuel hfuel => ?_⟩
      · rw [walk_succ, mem_cons, not_or] at hi
        rw [hframe i hi.2, Function.update_of_ne hi.1]
      obtain ⟨fuel, rfl⟩ : ∃ f, fuel = f + 1 := ⟨fuel - 1, by omega⟩
      have hpart : segPart sg off r (t - (rem + 1)) = some d.part := by
        rw [segPart, hseg, ← hd]
        simp only [Option.map_some, VringDesc.part, segmentFlags_write]
      rw [readChain, hidx, range'_succ, filterMap_cons_some hpart]
      congr 1
      have hflag : d.flags &&& vringDescFNext ≠ 0 ↔ 0 < rem := by
        rw [← hd, Ne, segmentFlags_next]
        omega
      cases rem with
      | zero => rw [if_neg (by simp [hflag])]; rfl
      | succ rem =>
        rw [if_pos (hflag.mpr rem.succ_pos), ← hd, hchain rem.succ_pos fuel (by omega)]
        congr 2
        omega
    · cases h

theorem virtqueueBufferEnqueue_inv {cookie rc : Nat} (hsmall : r + w < 2 ^ 16)
    (h : virtqueueBufferEnqueue vrq cookie sg r w = .ok (.ok rc, vrq')) :
    ∃ idx, segmentsLoop n sg 0 r (r + w) (r + w) vrq.desc vrq.headFreeDesc = .ok (vrq'.desc, idx) ∧
      vrq'.availRing.get (n.slot vrq.vqAvailIdx) = vrq.headFreeDesc ∧
      0 < r + w ∧ r + w ≤ vrq.descAvail := by
  have hadd : addU16 r w = r + w := Nat.mod_eq_of_lt hsmall
  rw [virtqueueBufferEnqueue] at h
  obtain ⟨-, -, h⟩ := bind_ok.mp h
  rw [hadd] at h
  split at h
  · cases h
  rename_i hcheck
  rw [not_or] at hcheck
  obtain ⟨rc', vrq₁, hcore, h⟩ := bind_except h fun _ _ h => by cases h
  cases h
  rw [bufferEnqueue] at hcore
  split at hcore
  · cases hcore
  rename_i hroom
  obtain ⟨-, -, hcore⟩ := bind_ok.mp hcore
  split at hcore
  · obtain ⟨⟨desc', idx⟩, hloop, hcore⟩ := bind_ok.mp hcore
    cases hcore
    exact ⟨idx, hloop, Vector.getElem_set_self _, by omega, by omega⟩
  · cases hcore

theorem DescAccounting.segments {desc' : Nat → VringDesc} {idx : Nat}
    (hacc : DescAccounting vrq bufs) (hroom : r + w ≤ vrq.descAvail)
    (h : virtqueueBufferEnqueueSegments vrq vrq.headFreeDesc sg off r w = .ok (desc', idx)) :
    (∀ i, i ∉ freeChain vrq → desc' i = vrq.desc i) ∧
      (0 < r + w → readChain desc' n.num vrq.headFreeDesc =
        (List.range' 0 (r + w)).filterMap (segPart sg off r)) := by
  have hnd := (nodup_append.mp hacc.nodup).1
  have htotal := hacc.total
  rw [freeChain_cut hroom] at hnd
  obtain ⟨hframe, hchain⟩ := segmentsLoop_chain le_rfl (nodup_append.mp hnd).1 h
  refine ⟨fun i hi => hframe i fun hmem => hi ?_, fun hpos => ?_⟩
  · rw [freeChain_cut hroom]
    exact mem_append_left _ hmem
  · rw [hchain hpos _ (by omega), Nat.sub_self]

/-- **The chain of an accepted buffer**, read from the head the driver has published. -/
theorem virtqueueBufferEnqueue_chain {cookie rc : Nat}
    (hacc : DescAccounting vrq bufs) (hsmall : r + w < 2 ^ 16)
    (h : virtqueueBufferEnqueue vrq cookie sg r w = .ok (.ok rc, vrq')) :
    readChain vrq'.desc n.num (vrq'.availRing.get (n.slot vrq.vqAvailIdx)) =
      (List.range' 0 (r + w)).filterMap (segPart sg 0 r) := by
  obtain ⟨idx, hloop, hget, hpos, hroom⟩ := virtqueueBufferEnqueue_inv hsmall h
  rw [hget, (hacc.segments hroom hloop).2 hpos]

/-! ### Buffers in flight -/

theorem Linked.readChain {h k : Nat} (hl : Linked desc h k) {fuel : Nat} (hfuel : k ≤ fuel) :
    readChain desc fuel h = (walk (fun i => (desc i).next) h k).map fun i => (desc i).part := by
  induction k generalizing h fuel with
  | zero => exact hl.elim
  | succ k ih =>
    obtain ⟨fuel, rfl⟩ : ∃ f, fuel = f + 1 := ⟨fuel - 1, by omega⟩
    rw [Virtio.readChain, walk_succ, map_cons]
    congr 1
    cases k with
    | zero => rw [if_neg (not_not.mpr (show (desc h).flags &&& vringDescFNext = 0 from hl))]; rfl
    | succ k => rw [if_pos hl.1, ih hl.2 (by omega)]

theorem DescAccounting.count_le {b : Buf} (hacc : DescAccounting vrq bufs) (hb : b ∈ bufs) :
    (vrq.vqInfo b.head).descCount ≤ n.num := by
  have hnd : (chainOf vrq b.head).Nodup :=
    (nodup_flatMap.mp (nodup_append.mp hacc.nodup).2.1).1 b hb
  have hsub : chainOf vrq b.head ⊆ List.range n.num := fun i hi =>
    mem_range.mpr (hacc.lt_of_mem (mem_append_right _ (mem_flatMap.mpr ⟨b, hb, hi⟩)))
  simpa [chainOf] using (subperm_of_subset hnd hsub).length_le

/-- The descriptors of a buffer cover as many bytes as their lengths say. -/
theorem DescAccounting.length_partBytes {b : Buf} (hacc : DescAccounting vrq bufs) (hb : b ∈ bufs) :
    (partBytes (readChain vrq.desc n.num b.head)).length =
      ((chainOf vrq b.head).map fun i => (vrq.desc i).len).sum := by
  rw [(hacc.linked b hb).readChain (hacc.count_le hb), partBytes, length_flatMap, map_map]
  simp only [Function.comp_def, length_range', VringDesc.part]
  rfl

theorem DescAccounting.readChain_congr {b : Buf} (hacc : DescAccounting vrq bufs) (hb : b ∈ bufs)
    (hdesc : ∀ i, i ∉ freeChain vrq → desc i = vrq.desc i) :
    readChain desc n.num b.head = readChain vrq.desc n.num b.head := by
  have hlink := hacc.linked b hb
  have hmem : ∀ i ∈ chainOf vrq b.head, i ∈ bufs.flatMap fun b => chainOf vrq b.head :=
    fun i hi => mem_flatMap.mpr ⟨b, hb, hi⟩
  have heq : ∀ i ∈ chainOf vrq b.head, desc i = vrq.desc i := fun i hi =>
    hdesc i fun hfree => (nodup_append.mp hacc.nodup).2.2 i hfree i (hmem i hi) rfl
  have hle := hacc.count_le hb
  have hwalk : walk (fun i => (desc i).next) b.head (vrq.vqInfo b.head).descCount =
      chainOf vrq b.head := (walk_congr fun i hi => congrArg VringDesc.next (heq i hi)).1
  rw [(hlink.congr heq).readChain hle, hwalk, hlink.readChain hle]
  exact map_congr_left fun i hi => congrArg VringDesc.part (heq i hi)

end Unikraft.Virtio
