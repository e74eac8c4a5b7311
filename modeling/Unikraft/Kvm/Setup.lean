import Unikraft.Essentials

/-!
# The memory layout at boot on KVM/x86 (`plat/kvm/x86/setup.c`)

`_mb_init_mem` takes the memory behind the image as heap and reserves the boot stack at its end;
`_mb_init_initrd` cuts the first boot module out of the heap.

`Layout` is what the two are for. The end of the initrd is looked for by testing its start once
more, and a range that ends where the heap starts counts as overlapping; `Placed` excludes what
goes wrong with that.
-/

namespace Unikraft.Kvm

open Outcome

/-! ### The functions -/

/-- `struct kvmplat_config_memregion`; `stop` is its field `end`. -/
structure MemRegion where
  start : Nat
  stop : Nat
  len : Nat
  deriving DecidableEq

/-- `struct kvmplat_config`. -/
structure Config where
  heap : MemRegion
  bstack : MemRegion
  initrd : MemRegion
  heap2 : MemRegion
  deriving DecidableEq

/-- `{ 0 }`. -/
def noRegion : MemRegion := ⟨0, 0, 0⟩

/-- An entry of the memory map; `available` is the type `MULTIBOOT_MEMORY_AVAILABLE`. -/
structure MmapEntry where
  addr : Nat
  len : Nat
  available : Bool
  addr_lt : addr < 2 ^ 64
  len_lt : len < 2 ^ 64

/-- A boot module; its addresses have 32 bits. -/
structure BootModule where
  modStart : Nat
  modEnd : Nat
  start_lt : modStart < 2 ^ 32
  end_lt : modEnd < 2 ^ 32

/-- `struct multiboot_info`: the memory map, and the boot modules with their address. -/
structure MultibootInfo where
  mmap : List MmapEntry
  mods : List BootModule
  modsAddr : Nat

def platformMemStart : Nat := 0x100000

def platformMaxMemAddr : Nat := 0x40000000

/-- `__STACK_SIZE`; the order is the one of the configuration. -/
def stackSize (order : Fin 31) : Nat := pageSize * 2 ^ order.val

/-- `_mb_init_mem`; `imageEnd` is `__END`. -/
def mbInitMem (order : Fin 31) (mi : MultibootInfo) (imageEnd : Nat) : Outcome Config :=
  match mi.mmap.find? fun m => m.addr = platformMemStart && m.available with
  | none => .error .assertion
  | some m => do
      let maxAddr := addU64 m.addr m.len
      let maxAddr := if platformMaxMemAddr < maxAddr then platformMaxMemAddr else maxAddr
      ukAssert (imageEnd ≤ maxAddr)
      ukAssert (¬ subU64 maxAddr m.addr < stackSize order)
      let heapStart := roundPgup imageEnd
      let heapEnd := subU64 maxAddr (stackSize order)
      .ok
        { heap := ⟨heapStart, heapEnd, subU64 heapEnd heapStart⟩
          bstack := ⟨heapEnd, maxAddr, stackSize order⟩
          initrd := noRegion
          heap2 := noRegion }

/-- The pieces of the heap that are left: their starts and ends. -/
def heapPieces (heap initrd : MemRegion) : (Nat × Nat) × (Nat × Nat) :=
  if RangeOverlap heap.start heap.len initrd.start initrd.len then
    (if InRange initrd.start heap.start heap.len then (heap.start, roundPgdown initrd.start)
      else (0, 0),
     -- The source tests the start of the initrd here again.
     if InRange initrd.start heap.start heap.len then (roundPgup initrd.stop, heap.stop)
      else (0, 0))
  else ((heap.start, heap.stop), (0, 0))

def region (bounds : Nat × Nat) : MemRegion :=
  ⟨bounds.1, bounds.2, subU64 bounds.2 bounds.1⟩

/-- The two pieces become `heap` and `heap2`; the first one may be empty. -/
def updateHeap (cfg : Config) (piece0 piece1 : MemRegion) : Config :=
  if piece0.len = 0 then
    if piece1.len ≠ 0 then { cfg with heap := piece1, heap2 := noRegion }
    else { cfg with heap := noRegion, heap2 := noRegion }
  else if piece1.len ≠ 0 then { cfg with heap := piece0, heap2 := piece1 }
  else { cfg with heap := piece0, heap2 := noRegion }

def mbInitInitrd (mi : MultibootInfo) (cfg : Config) : Outcome Config :=
  match mi.mods with
  | [] => .ok { cfg with initrd := noRegion, heap2 := noRegion }
  | mod1 :: _ => do
      ukAssert (mi.modsAddr ≠ 0)
      ukAssert (mod1.modStart ≤ mod1.modEnd)
      if mod1.modEnd = mod1.modStart then .ok { cfg with initrd := noRegion, heap2 := noRegion }
      else
        let cfg := { cfg with initrd := ⟨mod1.modStart, mod1.modEnd, mod1.modEnd - mod1.modStart⟩ }
        if cfg.heap.len = 0 then .ok cfg
        else do
          let pieces := heapPieces cfg.heap cfg.initrd
          let cfg := updateHeap cfg (region pieces.1) (region pieces.2)
          ukAssert (¬ RangeOverlap cfg.heap.start cfg.heap.len cfg.initrd.start cfg.initrd.len)
          .ok cfg

/-! ### What they are for -/

def MemRegion.Has (r : MemRegion) (x : Nat) : Prop := r.start ≤ x ∧ x < r.stop

/-- The length of a region is the distance of its bounds. -/
def MemRegion.Ok (r : MemRegion) : Prop := r.start ≤ r.stop ∧ r.len = r.stop - r.start

def MemRegion.Disjoint (r s : MemRegion) : Prop := ∀ x, ¬ (r.Has x ∧ s.Has x)

def MemRegion.HasPage (r : MemRegion) (p : Nat) : Prop := r.start ≤ p ∧ p + pageSize ≤ r.stop

/-- **The layout of the memory.** The regions are well formed and disjoint, and the heaps have every
whole page that the initrd leaves. -/
structure Layout (heap : MemRegion) (cfg : Config) : Prop where
  ok : ∀ r ∈ [cfg.heap, cfg.heap2, cfg.initrd, cfg.bstack], r.Ok
  disjoint : [cfg.heap, cfg.heap2, cfg.initrd, cfg.bstack].Pairwise MemRegion.Disjoint
  inside : ∀ x, cfg.heap.Has x ∨ cfg.heap2.Has x → heap.Has x
  pages : ∀ p, pageSize ∣ p → heap.HasPage p →
    (∀ x, p ≤ x → x < p + pageSize → ¬ cfg.initrd.Has x) →
    cfg.heap.HasPage p ∨ cfg.heap2.HasPage p

/-- Where the initrd may be. It is apart from the boot stack. If it starts in the heap, its last
page ends there too, and if it reaches into the heap from below, it leaves no whole page of it. If
the image leaves no room for the heap, the initrd covers what is between them. -/
structure Placed (cfg : Config) (mod1 : BootModule) : Prop where
  stack : cfg.bstack.start ≤ cfg.bstack.stop
  apart : mod1.modEnd ≤ cfg.bstack.start ∨ cfg.bstack.stop ≤ mod1.modStart
  inside : cfg.heap.start ≤ mod1.modStart → mod1.modStart < cfg.heap.stop →
    roundPgup mod1.modEnd ≤ cfg.heap.stop
  left : cfg.heap.start < cfg.heap.stop → mod1.modStart < cfg.heap.start →
    cfg.heap.start ≤ mod1.modEnd → cfg.heap.stop < roundPgup mod1.modEnd + pageSize
  crossed : cfg.heap.stop < cfg.heap.start →
    mod1.modStart ≤ cfg.heap.start ∧ cfg.heap.stop ≤ mod1.modEnd

/-! ### Regions -/

variable {cfg cfg' : Config} {r t : MemRegion} {x p : Nat}

theorem not_has_of_empty (h : r.stop ≤ r.start) : ¬ r.Has x := fun hx =>
  absurd (hx.1.trans_lt hx.2) (Nat.not_lt.mpr h)

theorem not_hasPage_of_empty (h : r.stop ≤ r.start) : ¬ r.HasPage p := by
  intro hp
  have hlt : p < p + pageSize := Nat.lt_add_of_pos_right (by decide)
  exact absurd (hp.1.trans_lt (hlt.trans_le hp.2)) (Nat.not_lt.mpr h)

theorem disjoint_of_le (h : r.stop ≤ t.start) : r.Disjoint t := fun _ hx =>
  absurd (hx.2.1.trans_lt hx.1.2) (Nat.not_lt.mpr h)

theorem MemRegion.Disjoint.symm (h : r.Disjoint t) : t.Disjoint r := fun x hx => h x hx.symm

theorem disjoint_of_empty (h : r.stop ≤ r.start) : r.Disjoint t := fun _ hx =>
  not_has_of_empty h hx.1

theorem MemRegion.Ok.empty (h : r.Ok) (hlen : r.len = 0) : r.stop ≤ r.start :=
  Nat.le_of_sub_eq_zero (h.2 ▸ hlen)

theorem region_ok {bounds : Nat × Nat} (h : bounds.1 ≤ bounds.2) (hlt : bounds.2 < 2 ^ 64) :
    (region bounds).Ok := ⟨h, subU64_eq h hlt⟩

theorem updateHeap_pieces (cfg : Config) {piece0 piece1 : MemRegion} (h0 : piece0.Ok)
    (h1 : piece1.Ok) :
    (updateHeap cfg piece0 piece1).heap.Ok ∧ (updateHeap cfg piece0 piece1).heap2.Ok ∧
    (∀ x, (updateHeap cfg piece0 piece1).heap.Has x ∨ (updateHeap cfg piece0 piece1).heap2.Has x ↔
      piece0.Has x ∨ piece1.Has x) ∧
    (∀ p, (updateHeap cfg piece0 piece1).heap.HasPage p ∨
        (updateHeap cfg piece0 piece1).heap2.HasPage p ↔
      piece0.HasPage p ∨ piece1.HasPage p) ∧
    (piece0.Disjoint piece1 →
      (updateHeap cfg piece0 piece1).heap.Disjoint (updateHeap cfg piece0 piece1).heap2) := by
  have hno : noRegion.Ok := ⟨Nat.le_refl 0, rfl⟩
  have hx : ∀ x, ¬ noRegion.Has x := fun x => not_has_of_empty (Nat.le_refl 0)
  have hp : ∀ p, ¬ noRegion.HasPage p := fun p => not_hasPage_of_empty (Nat.le_refl 0)
  have hd : ∀ r : MemRegion, r.Disjoint noRegion := fun r x hx' => hx x hx'.2
  unfold updateHeap
  by_cases hlen0 : piece0.len = 0
  · have he0 := h0.empty hlen0
    by_cases hlen1 : piece1.len = 0
    · have he1 := h1.empty hlen1
      simp only [hlen0, hlen1, if_true, ne_eq, not_true_eq_false, if_false]
      refine ⟨hno, hno, fun x => ?_, fun p => ?_, fun _ => hd _⟩
      · simp only [hx, not_has_of_empty he0, not_has_of_empty he1, or_self]
      · simp only [hp, not_hasPage_of_empty he0, not_hasPage_of_empty he1, or_self]
    · simp only [hlen0, hlen1, if_true, ne_eq, not_false_eq_true]
      refine ⟨h1, hno, fun x => ?_, fun p => ?_, fun _ => hd _⟩
      · simp only [hx, not_has_of_empty he0, or_false, false_or]
      · simp only [hp, not_hasPage_of_empty he0, or_false, false_or]
  · by_cases hlen1 : piece1.len = 0
    · have he1 := h1.empty hlen1
      simp only [hlen0, hlen1, if_false, ne_eq, not_true_eq_false]
      refine ⟨h0, hno, fun x => ?_, fun p => ?_, fun _ => hd _⟩
      · simp only [hx, not_has_of_empty he1]
      · simp only [hp, not_hasPage_of_empty he1]
    · simp only [hlen0, hlen1, if_false, ne_eq, not_false_eq_true, if_true]
      exact ⟨h0, h1, fun _ => trivial, fun _ => trivial, id⟩

theorem updateHeap_other (cfg : Config) (piece0 piece1 : MemRegion) :
    (updateHeap cfg piece0 piece1).initrd = cfg.initrd ∧
      (updateHeap cfg piece0 piece1).bstack = cfg.bstack := by
  unfold updateHeap
  split <;> split <;> exact ⟨rfl, rfl⟩

theorem updateHeap_piece0 (cfg : Config) {piece0 piece1 : MemRegion} (h : piece0.len ≠ 0) :
    (updateHeap cfg piece0 piece1).heap = piece0 := by
  unfold updateHeap
  rw [if_neg h]
  split <;> rfl

theorem updateHeap_piece1 (cfg : Config) {piece0 piece1 : MemRegion} (h : piece1.len ≠ 0) :
    (updateHeap cfg piece0 piece1).heap = piece1 ∨
      (updateHeap cfg piece0 piece1).heap2 = piece1 := by
  unfold updateHeap
  rw [if_pos h, if_pos h]
  split
  · exact .inl rfl
  · exact .inr rfl

/-! ### The heap in two pieces -/

/-- Two pieces of the heap that the initrd leaves. -/
structure Pieces (heap initrd piece0 piece1 : MemRegion) : Prop where
  ok0 : piece0.Ok
  ok1 : piece1.Ok
  disjoint : piece0.Disjoint piece1
  inside : ∀ x, piece0.Has x ∨ piece1.Has x → heap.Has x ∧ ¬ initrd.Has x
  pages : ∀ p, pageSize ∣ p → heap.HasPage p →
    (∀ x, p ≤ x → x < p + pageSize → ¬ initrd.Has x) → piece0.HasPage p ∨ piece1.HasPage p

variable (cfg) in
theorem Pieces.layout {heap piece0 piece1 : MemRegion}
    (h : Pieces heap cfg.initrd piece0 piece1) (hi : cfg.initrd.Ok) (hb : cfg.bstack.Ok)
    (hib : cfg.initrd.Disjoint cfg.bstack) (hhb : heap.Disjoint cfg.bstack) :
    Layout heap (updateHeap cfg piece0 piece1) := by
  obtain ⟨hok, hok2, hhas, hpage, hdis⟩ := updateHeap_pieces cfg h.ok0 h.ok1
  obtain ⟨hei, heb⟩ := updateHeap_other cfg piece0 piece1
  refine ⟨?_, ?_, fun x hx => (h.inside x ((hhas x).mp hx)).1, ?_⟩
  · simp only [List.forall_mem_cons, hei, heb]
    exact ⟨hok, hok2, hi, hb, by simp⟩
  · simp only [List.pairwise_cons, List.forall_mem_cons, hei, heb]
    have hin : ∀ x, piece0.Has x ∨ piece1.Has x → ¬ cfg.initrd.Has x := fun x hx =>
      (h.inside x hx).2
    have hout : ∀ x, piece0.Has x ∨ piece1.Has x → ¬ cfg.bstack.Has x := fun x hx hbx =>
      hhb x ⟨(h.inside x hx).1, hbx⟩
    refine ⟨⟨hdis h.disjoint, ?_, ?_, by simp⟩, ⟨?_, ?_, by simp⟩, ⟨hib, by simp⟩, by simp⟩
    · exact fun x hx => hin x ((hhas x).mp (.inl hx.1)) hx.2
    · exact fun x hx => hout x ((hhas x).mp (.inl hx.1)) hx.2
    · exact fun x hx => hin x ((hhas x).mp (.inr hx.1)) hx.2
    · exact fun x hx => hout x ((hhas x).mp (.inr hx.1)) hx.2
  · intro p hdvd hp hfree
    rw [hei] at hfree
    exact (hpage p).mpr (h.pages p hdvd hp hfree)

theorem region_zero_empty : (region (0, 0)).stop ≤ (region (0, 0)).start := Nat.le_refl 0

variable {heap initrd : MemRegion}

theorem pieces_of_disjoint (hok : heap.Ok) (hlt : heap.stop < 2 ^ 64) (h : heap.Disjoint initrd) :
    Pieces heap initrd (region (heap.start, heap.stop)) (region (0, 0)) where
  ok0 := region_ok hok.1 hlt
  ok1 := region_ok (Nat.le_refl 0) (by norm_num)
  disjoint := (disjoint_of_empty region_zero_empty).symm
  inside := by
    intro x hx
    rcases hx with hx | hx
    · exact ⟨hx, fun hi => h x ⟨hx, hi⟩⟩
    · exact absurd hx (not_has_of_empty region_zero_empty)
  pages := fun p _ hp _ => .inl hp

theorem pieces_of_inside (hdvd : pageSize ∣ heap.start) (hlt : heap.stop < 2 ^ 64)
    (hi : initrd.start < initrd.stop) (hi32 : initrd.stop < 2 ^ 32) (hs : heap.start ≤ initrd.start)
    (he : roundPgup initrd.stop ≤ heap.stop) :
    Pieces heap initrd (region (heap.start, roundPgdown initrd.start))
      (region (roundPgup initrd.stop, heap.stop)) := by
  have hdown : roundPgdown initrd.start = initrd.start / 4096 * 4096 :=
    roundPgdown_eq (by omega)
  have hup : roundPgup initrd.stop = (initrd.stop + 4095) / 4096 * 4096 :=
    roundPgup_eq (by omega)
  obtain ⟨k, hk⟩ : 4096 ∣ heap.start := hdvd
  refine ⟨region_ok ?_ ?_, region_ok he hlt, disjoint_of_le ?_, ?_, ?_⟩
  · show heap.start ≤ roundPgdown initrd.start
    omega
  · show roundPgdown initrd.start < 2 ^ 64
    omega
  · show roundPgdown initrd.start ≤ roundPgup initrd.stop
    omega
  · intro x hx
    simp only [MemRegion.Has, region] at hx ⊢
    omega
  · intro p hp hpage hfree
    -- The first or the last byte of the initrd shows on which side of it the page is.
    obtain ⟨j, hj⟩ : 4096 ∣ p := hp
    have hfirst := hfree initrd.start
    have hpfirst := hfree p (Nat.le_refl p) (Nat.lt_add_of_pos_right (by decide))
    simp only [MemRegion.Has, MemRegion.HasPage, region, pageSize] at hpage hfirst hpfirst ⊢
    omega

/-- No piece is left where the initrd is in every whole page. -/
theorem pieces_of_none (h : ∀ p, pageSize ∣ p → heap.HasPage p → initrd.Has p) :
    Pieces heap initrd (region (0, 0)) (region (0, 0)) where
  ok0 := region_ok (Nat.le_refl 0) (by norm_num)
  ok1 := region_ok (Nat.le_refl 0) (by norm_num)
  disjoint := disjoint_of_empty region_zero_empty
  inside := by simp only [not_has_of_empty region_zero_empty, or_self, false_imp_iff, implies_true]
  pages := fun p hdvd hp hfree =>
    absurd (h p hdvd hp) (hfree p (Nat.le_refl p) (Nat.lt_add_of_pos_right (by decide)))

/-! ### The two functions -/

/-- What `_mb_init_mem` leaves. The heap and the boot stack may have their ends in front of their
starts. -/
structure Ready (cfg : Config) : Prop where
  aligned : pageSize ∣ cfg.heap.start
  start_lt : cfg.heap.start < 2 ^ 64
  stop_lt : cfg.heap.stop < 2 ^ 64
  len : cfg.heap.len = subU64 cfg.heap.stop cfg.heap.start
  next : cfg.bstack.start = cfg.heap.stop
  pos : 0 < cfg.bstack.len
  bstack : cfg.bstack.start ≤ cfg.bstack.stop → cfg.bstack.Ok
  heap2 : cfg.heap2 = noRegion

theorem mbInitMem_ready {order : Fin 31} {mi : MultibootInfo} {imageEnd : Nat}
    (h : mbInitMem order mi imageEnd = .ok cfg) : Ready cfg := by
  unfold mbInitMem at h
  cases hm : mi.mmap.find? fun m => m.addr = platformMemStart && m.available with
  | none => rw [hm] at h; cases h
  | some m =>
    have hmax : (if platformMaxMemAddr < addU64 m.addr m.len then platformMaxMemAddr
        else addU64 m.addr m.len) < 2 ^ 31 := by
      unfold platformMaxMemAddr
      split <;> omega
    have hsize : stackSize order < 2 ^ 43 := by
      unfold stackSize pageSize
      have := Nat.pow_lt_pow_right (show 1 < 2 by decide) order.isLt
      omega
    have hpos : 0 < stackSize order := Nat.mul_pos (by decide) (Nat.pow_pos (by decide))
    rw [hm] at h
    simp only at h
    generalize (if platformMaxMemAddr < addU64 m.addr m.len then platformMaxMemAddr
      else addU64 m.addr m.len) = maxAddr at h hmax
    obtain ⟨_, hend, h⟩ := bind_ok.mp h
    obtain ⟨-, -, h⟩ := bind_ok.mp h
    cases h
    have hup := roundPgup_eq (show imageEnd + 4095 < 2 ^ 64 by have := of_ukAssert hend; omega)
    refine ⟨roundPgup_dvd imageEnd, ?_, subU64_lt .., rfl, rfl, hpos, fun hstack => ⟨hstack, ?_⟩,
      rfl⟩
    · have := of_ukAssert hend
      show roundPgup imageEnd < 2 ^ 64
      omega
    simp only at hstack ⊢
    unfold subU64 at hstack ⊢
    omega

variable {mod1 : BootModule}

theorem Ready.range (h : Ready cfg) : addU64 cfg.heap.start cfg.heap.len = cfg.heap.stop := by
  have hstart := h.start_lt
  have hstop := h.stop_lt
  rw [h.len]
  unfold addU64 subU64
  omega

theorem Ready.heap_ok (h : Ready cfg) (hle : cfg.heap.start ≤ cfg.heap.stop) : cfg.heap.Ok :=
  ⟨hle, h.len.trans (subU64_eq hle h.stop_lt)⟩

theorem Ready.len_eq_zero_iff (h : Ready cfg) :
    cfg.heap.len = 0 ↔ cfg.heap.start = cfg.heap.stop := by
  have hstart := h.start_lt
  have hstop := h.stop_lt
  rw [h.len]
  unfold subU64
  omega

theorem heapPieces_of_inside (hrange : addU64 heap.start heap.len = heap.stop)
    (hs : heap.start ≤ initrd.start) (he : initrd.start < heap.stop) :
    heapPieces heap initrd =
      ((heap.start, roundPgdown initrd.start), (roundPgup initrd.stop, heap.stop)) := by
  have hin : InRange initrd.start heap.start heap.len := ⟨hs, hrange ▸ he⟩
  unfold heapPieces
  rw [if_pos (.inl hin), if_pos hin, if_pos hin]

/-- What the tests of the code come to. -/
theorem rangeOverlap_iff (hrange : addU64 heap.start heap.len = heap.stop)
    (hend : addU64 initrd.start initrd.len = initrd.stop) :
    RangeOverlap heap.start heap.len initrd.start initrd.len ↔
      heap.start ≤ initrd.start ∧ initrd.start < heap.stop ∨
      heap.start ≤ initrd.stop ∧ initrd.stop < heap.stop ∨
      initrd.start ≤ heap.start ∧ heap.stop ≤ initrd.stop := by
  rw [RangeOverlap, InRange, InRange, hrange, hend]

theorem heapPieces_of_outside
    (hno : ¬ RangeOverlap heap.start heap.len initrd.start initrd.len) :
    heapPieces heap initrd = ((heap.start, heap.stop), (0, 0)) := if_neg hno

/-- The initrd reaches into the heap and does not start there: nothing is left. -/
theorem heapPieces_of_left (hrange : addU64 heap.start heap.len = heap.stop)
    (hover : RangeOverlap heap.start heap.len initrd.start initrd.len)
    (hnot : ¬ (heap.start ≤ initrd.start ∧ initrd.start < heap.stop)) :
    heapPieces heap initrd = ((0, 0), (0, 0)) := by
  have hin : ¬ InRange initrd.start heap.start heap.len := by rwa [InRange, hrange]
  unfold heapPieces
  rw [if_pos hover, if_neg hin, if_neg hin]

def BootModule.region (mod1 : BootModule) : MemRegion :=
  ⟨mod1.modStart, mod1.modEnd, mod1.modEnd - mod1.modStart⟩

theorem BootModule.range (hlt : mod1.modStart < mod1.modEnd) :
    addU64 mod1.region.start mod1.region.len = mod1.region.stop := by
  have := mod1.end_lt
  show addU64 mod1.modStart (mod1.modEnd - mod1.modStart) = mod1.modEnd
  rw [addU64_eq (by omega)]
  omega

/-- The configuration after the initrd has been taken out of the heap. -/
def Config.without (cfg : Config) (mod1 : BootModule) : Config :=
  updateHeap { cfg with initrd := mod1.region } (region (heapPieces cfg.heap mod1.region).1)
    (region (heapPieces cfg.heap mod1.region).2)

section

variable (h : Ready cfg) (hlt : mod1.modStart < mod1.modEnd)

include h hlt

theorem Ready.pieces_layout {piece0 piece1 : MemRegion} (hplaced : Placed cfg mod1)
    (hpieces : Pieces cfg.heap mod1.region piece0 piece1) :
    Layout cfg.heap (updateHeap { cfg with initrd := mod1.region } piece0 piece1) := by
  refine hpieces.layout { cfg with initrd := mod1.region } ⟨hlt.le, rfl⟩
    (h.bstack hplaced.stack) ?_ (disjoint_of_le h.next.ge)
  rcases hplaced.apart with hle | hle
  · exact disjoint_of_le hle
  · exact (disjoint_of_le hle).symm

theorem Ready.layout (hplaced : Placed cfg mod1) (hlen : cfg.heap.start ≠ cfg.heap.stop) :
    Layout cfg.heap (cfg.without mod1) := by
  have hover := rangeOverlap_iff h.range (mod1.range hlt)
  have hup := roundPgup_eq (show mod1.modEnd + 4095 < 2 ^ 64 by have := mod1.end_lt; omega)
  unfold Config.without
  by_cases hin : cfg.heap.start ≤ mod1.modStart ∧ mod1.modStart < cfg.heap.stop
  · rw [heapPieces_of_inside h.range hin.1 hin.2]
    exact h.pieces_layout hlt hplaced (pieces_of_inside h.aligned h.stop_lt hlt mod1.end_lt hin.1
      (hplaced.inside hin.1 hin.2))
  by_cases hmeets : RangeOverlap cfg.heap.start cfg.heap.len mod1.region.start mod1.region.len
  · rw [heapPieces_of_left h.range hmeets hin]
    refine h.pieces_layout hlt hplaced (pieces_of_none fun p hdvd hpage => ?_)
    obtain ⟨j, hj⟩ : 4096 ∣ p := hdvd
    have hleft := hplaced.left
    rw [hover] at hmeets
    simp only [MemRegion.Has, MemRegion.HasPage, BootModule.region, pageSize] at *
    omega
  · have hle : cfg.heap.start < cfg.heap.stop := by
      have hcovers := hplaced.crossed
      rw [hover] at hmeets
      simp only [BootModule.region] at hmeets
      omega
    rw [heapPieces_of_outside hmeets]
    refine h.pieces_layout hlt hplaced (pieces_of_disjoint (h.heap_ok hle.le) h.stop_lt ?_)
    rw [hover] at hmeets
    intro x hx
    simp only [MemRegion.Has, BootModule.region] at *
    omega

theorem Ready.layout_of_empty (hplaced : Placed cfg mod1)
    (hempty : cfg.heap.start = cfg.heap.stop) :
    Layout cfg.heap { cfg with initrd := mod1.region } := by
  have hib : mod1.region.Disjoint cfg.bstack := by
    rcases hplaced.apart with hle | hle
    · exact disjoint_of_le hle
    · exact (disjoint_of_le hle).symm
  have hno : cfg.heap2.stop ≤ cfg.heap2.start := h.heap2 ▸ Nat.le_refl 0
  refine ⟨?_, ?_, ?_, fun p _ hp => absurd hp (not_hasPage_of_empty hempty.ge)⟩
  · simp only [List.forall_mem_cons]
    exact ⟨h.heap_ok hempty.le, h.heap2 ▸ ⟨Nat.le_refl 0, rfl⟩, ⟨hlt.le, rfl⟩,
      h.bstack hplaced.stack, by simp⟩
  · simp only [List.pairwise_cons, List.forall_mem_cons]
    exact ⟨⟨disjoint_of_empty hempty.ge, disjoint_of_empty hempty.ge, disjoint_of_empty hempty.ge,
      by simp⟩, ⟨disjoint_of_empty hno, disjoint_of_empty hno, by simp⟩, ⟨hib, by simp⟩, by simp⟩
  · exact fun x hx => hx.elim id fun hx => absurd hx (not_has_of_empty hno)

/-- A layout has the initrd apart from the boot stack. -/
theorem Ready.apart_of_layout (hinitrd : cfg'.initrd = mod1.region)
    (hbstack : cfg'.bstack = cfg.bstack) (hlayout : Layout heap cfg') :
    cfg.bstack.start ≤ cfg.bstack.stop ∧
      (mod1.modEnd ≤ cfg.bstack.start ∨ cfg.bstack.stop ≤ mod1.modStart) := by
  have hok : cfg.bstack.Ok := hbstack ▸ hlayout.ok cfg'.bstack (by simp)
  have hdis : mod1.region.Disjoint cfg.bstack := by
    have hpair := hlayout.disjoint
    simp only [List.pairwise_cons, List.forall_mem_cons] at hpair
    rw [← hbstack, ← hinitrd]
    exact hpair.2.2.1.1
  refine ⟨hok.1, ?_⟩
  have hpos := h.pos
  have hlen := hok.2
  have hx := hdis (max mod1.modStart cfg.bstack.start)
  simp only [MemRegion.Has, BootModule.region] at hx
  omega

/-- What is lost if the initrd is somewhere else. -/
theorem Ready.placed_of_layout (hlayout : Layout cfg.heap (cfg.without mod1)) :
    Placed cfg mod1 := by
  have hover := rangeOverlap_iff h.range (mod1.range hlt)
  have hup := roundPgup_eq (show mod1.modEnd + 4095 < 2 ^ 64 by have := mod1.end_lt; omega)
  have hend := mod1.end_lt
  have hstart := h.start_lt
  have hstop := h.stop_lt
  obtain ⟨hinitrd, hbstack⟩ := updateHeap_other { cfg with initrd := mod1.region }
    (region (heapPieces cfg.heap mod1.region).1) (region (heapPieces cfg.heap mod1.region).2)
  obtain ⟨hstack, hapart⟩ := h.apart_of_layout hlt hinitrd hbstack hlayout
  have hheap := hlayout.ok (cfg.without mod1).heap (by simp)
  have hheap2 := hlayout.ok (cfg.without mod1).heap2 (by simp)
  refine ⟨hstack, hapart, fun hs he => ?_, fun hlt' hs he => ?_, fun hgt => ?_⟩
  · -- a second piece that ends in front of its start
    by_contra hnot
    have hlen : (region (roundPgup mod1.modEnd, cfg.heap.stop)).len ≠ 0 := by
      show subU64 cfg.heap.stop (roundPgup mod1.modEnd) ≠ 0
      unfold subU64
      omega
    unfold Config.without at hheap hheap2
    rw [heapPieces_of_inside h.range hs he] at hheap hheap2
    rcases updateHeap_piece1 { cfg with initrd := mod1.region } hlen with heq | heq
    · exact hnot (heq ▸ hheap).1
    · exact hnot (heq ▸ hheap2).1
  · -- the page behind the initrd is in no piece
    by_contra hnot
    have hmeets : RangeOverlap cfg.heap.start cfg.heap.len mod1.region.start mod1.region.len := by
      rw [hover]
      simp only [BootModule.region]
      omega
    have hpages := hlayout.pages (roundPgup mod1.modEnd) (roundPgup_dvd _)
      ⟨by omega, Nat.not_lt.mp hnot⟩ fun x hx _ hhas => by
        have hregion : mod1.region.Has x := by
          rw [Config.without, hinitrd] at hhas
          exact hhas
        have hlast : x < mod1.modEnd := hregion.2
        omega
    unfold Config.without at hpages
    rw [heapPieces_of_left h.range hmeets (fun hin => absurd hin.1 (Nat.not_le.mpr hs))] at hpages
    have hno : (region (0, 0)).Ok := region_ok (Nat.le_refl 0) (by norm_num)
    have hnone := (updateHeap_pieces { cfg with initrd := mod1.region } hno hno).2.2.2.1
      (roundPgup mod1.modEnd)
    simp only [hnone.mp hpages |>.elim (not_hasPage_of_empty region_zero_empty)
      (not_hasPage_of_empty region_zero_empty)]
  · -- the heap is kept although it ends in front of its start
    by_contra hnot
    have hmeets : ¬ RangeOverlap cfg.heap.start cfg.heap.len mod1.region.start mod1.region.len := by
      rw [hover]
      simp only [BootModule.region]
      omega
    have hlen : (region (cfg.heap.start, cfg.heap.stop)).len ≠ 0 := by
      show subU64 cfg.heap.stop cfg.heap.start ≠ 0
      unfold subU64
      omega
    unfold Config.without at hheap
    rw [heapPieces_of_outside hmeets, updateHeap_piece0 _ hlen] at hheap
    exact absurd hheap.1 (Nat.not_le.mpr hgt)

end

/-- **Boot memory layout.** The heaps, the initrd and the boot stack are disjoint and well formed
afterwards, and no page of the heap outside of the initrd is lost, exactly if the initrd is placed
where the code expects it. -/
theorem mb_init_initrd_layout {order : Fin 31} {mi : MultibootInfo} {imageEnd : Nat}
    {mod1 : BootModule} (hmem : mbInitMem order mi imageEnd = .ok cfg)
    (hinitrd : mbInitInitrd mi cfg = .ok cfg') (hmod : mi.mods.head? = some mod1)
    (hne : mod1.modStart ≠ mod1.modEnd) :
    Layout cfg.heap cfg' ↔ Placed cfg mod1 := by
  have hready := mbInitMem_ready hmem
  obtain ⟨mods, hmods⟩ := List.head?_eq_some_iff.mp hmod
  unfold mbInitInitrd at hinitrd
  rw [hmods] at hinitrd
  obtain ⟨-, -, h⟩ := bind_ok.mp hinitrd
  obtain ⟨_, hle, h⟩ := bind_ok.mp h
  have hlt : mod1.modStart < mod1.modEnd := lt_of_le_of_ne (of_ukAssert hle) hne
  rw [if_neg hne.symm] at h
  by_cases hlen : cfg.heap.len = 0
  · rw [if_pos hlen] at h
    cases h
    have hempty := hready.len_eq_zero_iff.mp hlen
    refine ⟨fun hlayout => ?_, fun hplaced => hready.layout_of_empty hlt hplaced hempty⟩
    obtain ⟨hstack, hapart⟩ := hready.apart_of_layout hlt
      (show ({ cfg with initrd := mod1.region } : Config).initrd = mod1.region from rfl) rfl hlayout
    exact ⟨hstack, hapart, by omega, by omega, by omega⟩
  · rw [if_neg hlen] at h
    obtain ⟨-, -, h⟩ := bind_ok.mp h
    cases h
    have hempty := mt hready.len_eq_zero_iff.mpr hlen
    exact ⟨hready.placed_of_layout hlt, fun hplaced => hready.layout hlt hplaced hempty⟩

/-- A machine with one gigabyte of memory and one boot module. -/
def sampleInfo (modStart modEnd : Fin (2 ^ 32)) : MultibootInfo where
  mmap := [⟨0x100000, 0x3ff00000, true, by decide, by decide⟩]
  mods := [⟨modStart, modEnd, modStart.isLt, modEnd.isLt⟩]
  modsAddr := 0x9000

/-- The configuration of that machine before and after the initrd. -/
def sampleInit (modStart modEnd : Fin (2 ^ 32)) : Option (Config × Config) := do
  let cfg ← (mbInitMem 4 (sampleInfo modStart modEnd) 0x200000).toOption
  let cfg' ← (mbInitInitrd (sampleInfo modStart modEnd) cfg).toOption
  return (cfg, cfg')

theorem sampleInit_eq {modStart modEnd : Fin (2 ^ 32)}
    (h : sampleInit modStart modEnd = some (cfg, cfg')) :
    mbInitMem 4 (sampleInfo modStart modEnd) 0x200000 = .ok cfg ∧
      mbInitInitrd (sampleInfo modStart modEnd) cfg = .ok cfg' := by
  unfold sampleInit at h
  cases hm : mbInitMem 4 (sampleInfo modStart modEnd) 0x200000 with
  | error fault => rw [hm] at h; cases h
  | ok cfg₀ =>
    rw [hm] at h
    cases hi : mbInitInitrd (sampleInfo modStart modEnd) cfg₀ with
    | error fault => simp [Except.toOption, hi] at h
    | ok cfg₁ =>
      simp only [Except.toOption, hi, Option.bind_eq_bind, Option.bind_some, Option.pure_def,
        Option.some.injEq, Prod.mk.injEq] at h
      exact ⟨h.1 ▸ rfl, h.1 ▸ h.2 ▸ hi⟩

/-- The boot stack of that machine and the heap before it. -/
def sampleConfig : Config :=
  ⟨⟨0x200000, 0x3fff0000, 0x3fdf0000⟩, ⟨0x3fff0000, 0x40000000, 0x10000⟩, noRegion, noRegion⟩

/-- An initrd in the heap, at no page boundary. -/
theorem mb_init_initrd_layout_sample :
    ∃ cfg', mbInitMem 4 (sampleInfo 0x200800 0x203800) 0x200000 = .ok sampleConfig ∧
      mbInitInitrd (sampleInfo 0x200800 0x203800) sampleConfig = .ok cfg' ∧
      Layout sampleConfig.heap cfg' := by
  obtain ⟨hmem, hinitrd⟩ := sampleInit_eq (show sampleInit 0x200800 0x203800 =
    some (sampleConfig, { sampleConfig with
      heap := ⟨0x204000, 0x3fff0000, 0x3fdec000⟩
      initrd := ⟨0x200800, 0x203800, 0x3000⟩ }) by decide +kernel)
  refine ⟨_, hmem, hinitrd, (mb_init_initrd_layout hmem hinitrd rfl (by decide)).mpr ?_⟩
  exact ⟨by decide, by decide, fun _ _ => by decide, fun _ h => absurd h (by decide),
    fun h => absurd h (by decide)⟩

/-- An initrd that starts in the last page of the image: no heap is left at all, and the
page behind the initrd is lost. -/
theorem mb_init_initrd_loses_heap :
    ∃ cfg', mbInitMem 4 (sampleInfo 0x1ff000 0x201000) 0x200000 = .ok sampleConfig ∧
      mbInitInitrd (sampleInfo 0x1ff000 0x201000) sampleConfig = .ok cfg' ∧
      sampleConfig.heap.HasPage 0x201000 ∧ cfg'.heap = noRegion ∧ cfg'.heap2 = noRegion ∧
      ¬ Layout sampleConfig.heap cfg' := by
  obtain ⟨hmem, hinitrd⟩ := sampleInit_eq (show sampleInit 0x1ff000 0x201000 =
    some (sampleConfig, { sampleConfig with
      heap := noRegion
      initrd := ⟨0x1ff000, 0x201000, 0x2000⟩ }) by decide +kernel)
  refine ⟨_, hmem, hinitrd, ⟨by decide, by decide⟩, rfl, rfl, fun h => ?_⟩
  have hfree : ∀ x, 0x201000 ≤ x → x < 0x201000 + pageSize →
      ¬ MemRegion.Has ⟨0x1ff000, 0x201000, 0x2000⟩ x := fun x hx _ hin =>
    absurd hin.2 (Nat.not_lt.mpr hx)
  have hempty : ¬ noRegion.HasPage 0x201000 := not_hasPage_of_empty (Nat.le_refl 0)
  rcases h.pages 0x201000 (by decide) ⟨by decide, by decide⟩ hfree with hp | hp
  · exact hempty hp
  · exact hempty hp

end Unikraft.Kvm
