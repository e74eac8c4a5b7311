import Mathlib
import Unikraft.Lib.Run
import Unikraft.Ukallocbbuddy.Bitmap
import Unikraft.Ukallocbbuddy.FreeList

/-!
# The invariant of the buddy allocator

The free lists, the bitmaps and the counter of free pages describe one set of free chunks, apart
from every live allocation. `PagesOk`, the part about that set, only depends on the addresses it
covers, so splitting and merging keep it. In the loops one chunk is on no list.
-/

namespace Unikraft.Ukallocbbuddy

open Lib Outcome List Nat Block Set

/-! ### Orders -/

variable {n : Nat}

theorem numPagesToOrder_eq (hn : 1 ≤ n) : numPagesToOrder n = .ok (clog 2 n) := by
  rw [numPagesToOrder, ukAssert_pos (pos_iff_ne_zero.mp hn), ok_bind]
  congr 1
  split
  · rename_i h
    rw [h, clog_one_right]
  rename_i h
  -- both sides are the least exponent of a power of two that is not below `n`
  refine le_antisymm ?_ ?_
  · refine succ_le_of_lt ((lt_clog_iff_pow_lt (by decide)).mpr ?_)
    have := log2_self_le (n := n - 1) (by omega)
    omega
  refine (clog_le_iff_le_pow (by decide)).mpr ?_
  have := lt_log2_self (n := n - 1)
  omega

theorem clog_le_52 (hn : n ≤ 2 ^ 52) : clog 2 n ≤ freelistSize :=
  (clog_le_iff_le_pow (by decide)).mpr hn

/-! ### The invariant -/

/-- The pages of an allocation: `bbuddy_palloc` hands out a whole power of two. -/
def allocBlock (l : Nat × Nat) : Block := ⟨l.1, clog 2 l.2 + 12⟩

/-- The regions and the counter `nrFree` describe the free chunks `G` and the live
allocations. -/
structure PagesOk (memrs : List Memr) (nrFree : Nat) (G : Set Block) (live : List (Nat × Nat)) :
    Prop where
  regions : RegionsOk memrs
  tiling : Tiling G
  page : ∀ c ∈ G, 12 ≤ c.exp
  inside : ∀ c ∈ G, Inside memrs c
  bits : ∀ m ∈ memrs, ∀ p < m.nrPages,
    (bitAt m.bitmap p = false ↔ Covers G (m.firstPage + p * pageSize))
  count : nrFree = clearCount memrs
  liveOk : ∀ l ∈ live, 1 ≤ l.2 ∧ (allocBlock l).Aligned ∧ Inside memrs (allocBlock l)
  liveFree : ∀ l ∈ live, ∀ c ∈ G, c.Apart (allocBlock l)
  liveApart : (live.map allocBlock).Pairwise Block.Apart

/-- **The allocator invariant.** -/
def BuddyInv (b : Bbpalloc) (live : List (Nat × Nat)) : Prop :=
  ∃ fl, FreeLists b fl ∧ PagesOk b.memrs b.nrFreePages (freeSet fl) live

variable {memrs memrs' : List Memr} {nrFree : Nat} {F G G' : Set Block} {live : List (Nat × Nat)}
  {b : Bbpalloc} {fl : Nat → List Nat} {c : Block} {va order d k x y z : Nat} {l : Nat × Nat}

theorem bbuddyInit_inv : BuddyInv bbuddyInit [] := by
  have hempty : freeSet (fun _ => []) = ∅ :=
    eq_empty_iff_forall_notMem.mpr fun _ ⟨_, _, _, hmem⟩ => nomatch hmem
  refine ⟨fun _ => [], ⟨fun i _ => ⟨rfl, rfl, trivial⟩, fun _ _ => rfl, fun _ _ => nodup_nil,
    nofun⟩, ?_⟩
  rw [hempty]
  exact ⟨⟨nofun, List.Pairwise.nil⟩, tiling_empty, nofun, nofun, nofun, rfl, nofun, nofun,
    List.Pairwise.nil⟩

theorem Inside.exp_le (hr : RegionsOk memrs) (hin : Inside memrs c) (halign : c.Aligned) :
    c.exp ≤ 62 := by
  obtain ⟨m, hm, hstart, hstop⟩ := hin
  have hfits := (hr.wf m hm).fits
  have hheader := (hr.wf m hm).header
  have hle : 2 ^ c.exp ≤ c.start := le_of_dvd (by omega) halign
  have hlt : 2 ^ (c.exp + 1) < 2 ^ 64 := by
    rw [stop] at hstop
    omega
  have := (Nat.pow_lt_pow_iff_right (by decide)).mp hlt
  omega

theorem Inside.stop_lt (hr : RegionsOk memrs) (hin : Inside memrs c) : c.stop < 2 ^ 64 := by
  obtain ⟨m, hm, -, hstop⟩ := hin
  exact hstop.trans_lt (hr.wf m hm).fits

/-- Two halves in registered regions are in the same one: between the pages of two
regions lies the header of one of them. -/
theorem Inside.join (hr : RegionsOk memrs) (hlo : Inside memrs ⟨x, k⟩)
    (hhi : Inside memrs ⟨x + 2 ^ k, k⟩) : Inside memrs ⟨x, k + 1⟩ := by
  have hpos := Nat.two_pow_pos k
  obtain ⟨m, hm, hmstart, hmstop⟩ := hlo
  obtain ⟨r, hr', hrstart, hrstop⟩ := hhi
  simp only [stop] at hmstart hmstop hrstart hrstop
  have hmh := (hr.wf m hm).header
  have hrh := (hr.wf r hr').header
  obtain rfl : m = r := by
    by_contra hne
    rcases hr.apart.forall hm hr' hne with h | h <;> omega
  refine ⟨m, hm, hmstart, ?_⟩
  simp only [stop]
  omega

theorem Inside.merge (hr : RegionsOk memrs) (hyz : y = x ∧ z = x + 2 ^ k ∨ z = x ∧ y = x + 2 ^ k)
    (hy : Inside memrs ⟨y, k⟩) (hz : Inside memrs ⟨z, k⟩) : Inside memrs ⟨x, k + 1⟩ := by
  rcases hyz with ⟨rfl, rfl⟩ | ⟨rfl, rfl⟩
  · exact hy.join hr hz
  · exact hz.join hr hy

namespace PagesOk

theorem congr (h : PagesOk memrs nrFree G live) (htiling : Tiling G')
    (hcovers : ∀ a, Covers G' a ↔ Covers G a) (hpage : ∀ c ∈ G', 12 ≤ c.exp)
    (hinside : ∀ c ∈ G', Inside memrs c) : PagesOk memrs nrFree G' live where
  regions := h.regions
  tiling := htiling
  page := hpage
  inside := hinside
  bits m hm p hp := by rw [h.bits m hm p hp, hcovers]
  count := h.count
  liveOk := h.liveOk
  liveFree l hl c hc := apart_iff_forall.mpr fun a ha => by
    obtain ⟨c', hc', ha'⟩ := (hcovers a).mp ⟨c, hc, ha⟩
    exact (h.liveFree l hl c' hc').not_mem ha'
  liveApart := h.liveApart

theorem allocatedInMap_iff (h : PagesOk b.memrs nrFree G live) {a : Nat} (ha : pageSize ∣ a) :
    allocatedInMap b a = false ↔ Covers G a := by
  by_cases hex : ∃ m ∈ b.memrs, m.firstPage ≤ a ∧ a < m.stop
  · obtain ⟨m, hm, hfirst, hstop⟩ := hex
    obtain ⟨p, hp⟩ := dvd_sub ha (h.regions.wf m hm).aligned
    obtain rfl : a = m.firstPage + p * pageSize := by
      rw [mul_comm] at hp
      omega
    have hlt : p < m.nrPages := by
      rw [Memr.stop, add_lt_add_iff_left] at hstop
      exact Nat.lt_of_mul_lt_mul_right hstop
    rw [h.regions.allocatedInMap_eq hm hlt, h.bits m hm p hlt]
  have hnone := h.regions.mapGetMemr_none (a := a) fun m hm hma => hex ⟨m, hm, hma⟩
  constructor
  · intro heq
    rw [allocatedInMap, hnone] at heq
    exact absurd (show true = false from heq) (by decide)
  rintro ⟨c, hc, hac⟩
  obtain ⟨m, hm, hstart, hstop⟩ := h.inside c hc
  exact absurd ⟨m, hm, hstart.trans hac.1, hac.2.trans_le hstop⟩ hex

theorem not_covers (hl : Loose F c) {a : Nat} (ha : a ∈ c) : ¬ Covers F a := by
  rintro ⟨d, hd, had⟩
  exact (hl.apart d hd).not_mem had ha

theorem mapAlloc (h : PagesOk b.memrs b.nrFreePages (insert c F) live) (hl : Loose F c)
    (hl1 : 1 ≤ l.2) (hlc : allocBlock l = c) :
    ∃ b', Ukallocbbuddy.mapAlloc b l.1 (2 ^ clog 2 l.2) = .ok b' ∧ b'.links = b.links ∧
      b'.level = b.level ∧ PagesOk b'.memrs b'.nrFreePages F (l :: live) := by
  have hstart : l.1 = c.start := by rw [← hlc]; rfl
  have hexp : c.exp = clog 2 l.2 + 12 := by rw [← hlc]; rfl
  have hin : Inside b.memrs c := h.inside c (mem_insert _ _)
  obtain ⟨memrs', heq, hset, hcount⟩ := h.regions.mapUpdate_ok (v := true)
    (fun _ _ _ _ => bitAt_bitmapAlloc) hl.aligned hexp hin
    (fun m hm p hp hmem => (h.bits m hm p hp).mpr ⟨c, mem_insert _ _, hmem⟩)
  simp only [Bool.toNat_true, Bool.not_true, Bool.toNat_false, one_mul, zero_mul,
    add_zero] at hcount
  have hmap : Ukallocbbuddy.mapAlloc b l.1 (2 ^ clog 2 l.2) = .ok
      { b with memrs := memrs', nrFreePages := subU64 b.nrFreePages (2 ^ clog 2 l.2) } := by
    rw [Ukallocbbuddy.mapAlloc, hstart, heq, ok_bind]
    rfl
  refine ⟨_, hmap, rfl, rfl, hset.regions, hl.tiling, ?_, ?_, ?_, ?_, ?_, ?_, ?_⟩
  · exact fun d hd => h.page d (mem_insert_of_mem _ hd)
  · exact fun d hd => hset.inside d (h.inside d (mem_insert_of_mem _ hd))
  · intro m' hm' p hp
    obtain ⟨m, hm, hfirst, hnr, hbit⟩ := hset.bits m' hm'
    rw [hnr] at hp
    rw [hbit p hp, hfirst]
    by_cases hmem : m.firstPage + p * pageSize ∈ c
    · rw [if_pos hmem]
      exact iff_of_false (by decide) (not_covers hl hmem)
    · rw [if_neg hmem, h.bits m hm p hp, covers_insert, or_iff_right hmem]
  · have hlt := h.regions.clearCount_lt
    have hnr := h.count
    show subU64 b.nrFreePages _ = clearCount memrs'
    rw [subU64_eq (by omega) (by omega)]
    omega
  · intro l' hl'
    rcases mem_cons.mp hl' with rfl | hl'
    · rw [hlc]
      exact ⟨hl1, hl.aligned, hset.inside c hin⟩
    obtain ⟨h1, halign, hin'⟩ := h.liveOk l' hl'
    exact ⟨h1, halign, hset.inside _ hin'⟩
  · intro l' hl' d hd
    rcases mem_cons.mp hl' with rfl | hl'
    · rw [hlc]
      exact hl.apart d hd
    · exact h.liveFree l' hl' d (mem_insert_of_mem _ hd)
  rw [map_cons, pairwise_cons]
  refine ⟨?_, h.liveApart⟩
  intro d hd
  obtain ⟨l', hl', rfl⟩ := mem_map.mp hd
  rw [hlc]
  exact h.liveFree l' hl' c (mem_insert _ _)

theorem mapFree (h : PagesOk b.memrs b.nrFreePages F (l :: live)) :
    Loose F (allocBlock l) ∧
    ∃ b', Ukallocbbuddy.mapFree b l.1 (2 ^ clog 2 l.2) = .ok b' ∧ b'.links = b.links ∧
      b'.level = b.level ∧ PagesOk b'.memrs b'.nrFreePages (insert (allocBlock l) F) live := by
  obtain ⟨-, halign, hin⟩ := h.liveOk l mem_cons_self
  have hl : Loose F (allocBlock l) := ⟨h.tiling, halign, h.liveFree l mem_cons_self⟩
  refine ⟨hl, ?_⟩
  obtain ⟨memrs', heq, hset, hcount⟩ := h.regions.mapUpdate_ok (v := false)
    (fun _ _ _ _ => bitAt_bitmapFree) halign rfl hin (fun m hm p hp hmem => by
      rw [Bool.not_false, ← Bool.not_eq_false, h.bits m hm p hp]
      exact not_covers hl hmem)
  simp only [Bool.toNat_true, Bool.not_false, Bool.toNat_false, one_mul, zero_mul,
    add_zero] at hcount
  have hmap : Ukallocbbuddy.mapFree b l.1 (2 ^ clog 2 l.2) = .ok
      { b with memrs := memrs', nrFreePages := addU64 b.nrFreePages (2 ^ clog 2 l.2) } := by
    rw [Ukallocbbuddy.mapFree]
    exact congrArg (· >>= _) heq
  have hapart := pairwise_cons.mp h.liveApart
  refine ⟨_, hmap, rfl, rfl, hset.regions, hl.insert, ?_, ?_, ?_, ?_, ?_, ?_, hapart.2⟩
  · rintro d (rfl | hd)
    · exact le_add_left _ _
    · exact h.page d hd
  · rintro d (rfl | hd)
    · exact hset.inside _ hin
    · exact hset.inside d (h.inside d hd)
  · intro m' hm' p hp
    obtain ⟨m, hm, hfirst, hnr, hbit⟩ := hset.bits m' hm'
    rw [hnr] at hp
    rw [hbit p hp, hfirst, covers_insert]
    by_cases hmem : m.firstPage + p * pageSize ∈ allocBlock l
    · rw [if_pos hmem]
      exact ⟨fun _ => .inl hmem, fun _ => rfl⟩
    · rw [if_neg hmem, h.bits m hm p hp, or_iff_right hmem]
  · have hlt := hset.regions.clearCount_lt
    have hnr := h.count
    show addU64 b.nrFreePages _ = clearCount memrs'
    rw [addU64_eq (by omega)]
    omega
  · intro l' hl'
    obtain ⟨h1, halign', hin'⟩ := h.liveOk l' (mem_cons_of_mem _ hl')
    exact ⟨h1, halign', hset.inside _ hin'⟩
  rintro l' hl' d (rfl | hd)
  · exact hapart.1 _ (mem_map_of_mem hl')
  · exact h.liveFree l' (mem_cons_of_mem _ hl') d hd

end PagesOk

/-! ### One chunk on no list -/

/-- The allocator while it works on the chunk `c`: the chunk is free and on no list. -/
structure Working (b : Bbpalloc) (fl : Nat → List Nat) (c : Block) (live : List (Nat × Nat)) :
    Prop where
  lists : FreeLists b fl
  loose : Loose (freeSet fl) c
  pages : PagesOk b.memrs b.nrFreePages (insert c (freeSet fl)) live

namespace Working

theorem inside (h : Working b fl c live) : Inside b.memrs c :=
  h.pages.inside c (mem_insert _ _)

theorem order_lt (h : Working b fl ⟨va, k + 12⟩ live) : k < freelistSize := by
  have hle : k + 12 ≤ 62 := h.inside.exp_le h.pages.regions h.loose.aligned
  rw [freelistSize]
  omega

theorem notMem_list (h : Working b fl c live) {a : Nat} (ha : a ∈ c) {j : Nat}
    (hj : j < freelistSize) : a ∉ fl j := fun hmem =>
  (h.loose.apart ⟨a, j + 12⟩ ((mem_freeSet hj).mpr hmem)).not_mem (start_mem _) ha

theorem link (h : Working b fl ⟨va, k + 12⟩ live) :
    ∃ b' fl', linkChunk b k va = .ok b' ∧ FreeLists b' fl' ∧
      PagesOk b'.memrs b'.nrFreePages (freeSet fl') live ∧
      freeSet fl' = insert ⟨va, k + 12⟩ (freeSet fl) := by
  have hk := h.order_lt
  obtain ⟨b', heq, hlists, hmemrs, hnr⟩ := h.lists.linkChunk_ok hk fun j hj =>
    h.notMem_list (start_mem _) hj
  have hset := freeSet_push fl va hk
  refine ⟨b', _, heq, hlists, ?_, hset⟩
  rw [hset, hmemrs, hnr]
  exact h.pages

theorem split (h : Working b fl ⟨va, k + 1 + 12⟩ live) :
    ∃ b' fl', linkChunk b k (addU64 va (2 ^ (k + 12))) = .ok b' ∧ Working b' fl' ⟨va, k + 12⟩ live ∧
      Regroup (freeSet fl) ⟨va, k + 1 + 12⟩ (freeSet fl') ⟨va, k + 12⟩ := by
  rw [add_right_comm] at h ⊢
  have hstop := h.inside.stop_lt h.pages.regions
  have hsum : addU64 va (2 ^ (k + 12)) = va + 2 ^ (k + 12) := by
    refine addU64_eq (lt_of_le_of_lt ?_ hstop)
    exact Nat.add_le_add_left (Nat.pow_le_pow_right (by decide) (Nat.le_succ _)) _
  have hk : k < freelistSize := by
    have hle : k + 12 + 1 ≤ 62 := h.inside.exp_le h.pages.regions h.loose.aligned
    rw [freelistSize]
    omega
  have hupper : va + 2 ^ (k + 12) ∈ (⟨va, k + 12 + 1⟩ : Block) :=
    mem_halves.mpr (.inr (start_mem _))
  obtain ⟨b', heq, hlists, hmemrs, hnr⟩ := h.lists.linkChunk_ok hk fun j hj =>
    h.notMem_list hupper hj
  have hloose := h.loose.split
  have hset := freeSet_push fl (va + 2 ^ (k + 12)) hk
  refine ⟨b', _, by rw [hsum]; exact heq, ⟨hlists, hset ▸ hloose, ?_⟩, hset ▸ h.loose.regroup_split⟩
  rw [hset, hmemrs, hnr]
  obtain ⟨m, hm, hstart, hmstop⟩ := h.inside
  have hpos := Nat.two_pow_pos (k + 12)
  simp only [stop] at hstart hmstop
  refine h.pages.congr hloose.insert (fun a => ?_) ?_ ?_
  · rw [covers_insert, covers_split, ← covers_insert]
  · rintro d (rfl | rfl | hd)
    · exact le_add_left _ _
    · exact le_add_left _ _
    · exact h.pages.page d (mem_insert_of_mem _ hd)
  rintro d (rfl | rfl | hd)
  · exact ⟨m, hm, hstart, by simp only [stop]; omega⟩
  · exact ⟨m, hm, by simp only; omega, by simp only [stop]; omega⟩
  · exact h.pages.inside d (mem_insert_of_mem _ hd)

theorem splitLoop (h : Working b fl ⟨va, order + d + 12⟩ live) :
    ∃ b' fl', Ukallocbbuddy.splitLoop va order d b = .ok b' ∧ Working b' fl' ⟨va, order + 12⟩ live ∧
      Regroup (freeSet fl) ⟨va, order + d + 12⟩ (freeSet fl') ⟨va, order + 12⟩ := by
  induction d generalizing b fl with
  | zero => exact ⟨b, fl, rfl, h, .refl⟩
  | succ d ih =>
    obtain ⟨b₁, fl₁, heq₁, h₁, hg₁⟩ := split (k := order + d) h
    obtain ⟨b₂, fl₂, heq₂, h₂, hg₂⟩ := ih h₁
    refine ⟨b₂, fl₂, ?_, h₂, hg₁.trans hg₂⟩
    rw [Ukallocbbuddy.splitLoop, heq₁, ok_bind, heq₂]

theorem merge (h : Working b fl ⟨y, k + 12⟩ live) (hx : (⟨x, k + 12 + 1⟩ : Block).Aligned)
    (hyz : y = x ∧ z = x + 2 ^ (k + 12) ∨ z = x ∧ y = x + 2 ^ (k + 12))
    (hfree : allocatedInMap b z = false) (hlevel : b.level z = k) :
    ∃ second fl', b.links.cell (.next (.chunk z)) = some second ∧
      Working { b with links := b.links.unlink (.chunk z) second } fl' ⟨x, k + 1 + 12⟩ live ∧
      Regroup (freeSet fl) ⟨y, k + 12⟩ (freeSet fl') ⟨x, k + 1 + 12⟩ := by
  have hk := h.order_lt
  have hdvd : pageSize ∣ z := (pow_dvd_pow 2 (le_add_left 12 k)).trans (aligned_buddy hyz hx)
  have hcov := (h.pages.allocatedInMap_iff hdvd).mp hfree
  rw [covers_insert, or_iff_right (notMem_buddy hyz)] at hcov
  -- the header at `z` is one of a listed chunk, so its level is the order of that chunk
  obtain ⟨l, -, j, hj, hjl, hmem⟩ := h.loose.buddy hx hyz hcov
  obtain rfl : j = k := (h.lists.level j hj z hmem).symm.trans hlevel
  have hzF : (⟨z, j + 12⟩ : Block) ∈ freeSet fl := (mem_freeSet hk).mpr hmem
  obtain ⟨second, hsecond, hlists⟩ := h.lists.unlink_ok hk hmem
  have hset := freeSet_erase z (h.lists.nodup j hk)
  have hloose := h.loose.merge hzF hx hyz
  have hin : Inside b.memrs ⟨x, j + 12 + 1⟩ :=
    h.inside.merge h.pages.regions hyz (h.pages.inside _ (mem_insert_of_mem _ hzF))
  rw [add_right_comm j 1 12]
  refine ⟨second, _, hsecond, ⟨hlists, hset ▸ hloose, ?_⟩, hset ▸ regroup_merge hzF hyz⟩
  rw [hset]
  refine h.pages.congr hloose.insert (fun a => ?_) ?_ ?_
  · rw [covers_insert, covers_insert, covers_merge hzF hyz]
  · rintro d (rfl | hd)
    · exact le_add_left 12 (j + 1)
    · exact h.pages.page d (mem_insert_of_mem _ hd.1)
  rintro d (rfl | hd)
  · exact hin
  · exact h.pages.inside d (mem_insert_of_mem _ hd.1)

theorem free_of_mem (h : Working b fl c live) (hz : (⟨z, k + 12⟩ : Block) ∈ freeSet fl) :
    allocatedInMap b z = false ∧ b.level z = k := by
  obtain ⟨j, hj, hexp, hmem⟩ := id hz
  obtain rfl : j = k := by
    simp only at hexp
    omega
  have hdvd : pageSize ∣ z := (pow_dvd_pow 2 (le_add_left 12 j)).trans (h.loose.tiling.aligned _ hz)
  refine ⟨(h.pages.allocatedInMap_iff hdvd).mpr ?_, h.lists.level j hj z hmem⟩
  exact ⟨_, mem_insert_of_mem _ hz, start_mem _⟩

theorem mergeLoop {fuel : Nat} (h : Working b fl ⟨va, order + 12⟩ live)
    (hfuel : freelistSize ≤ order + fuel) :
    ∃ b' fl' va' order', Ukallocbbuddy.mergeLoop fuel b va order = .ok (b', va', order') ∧
      Working b' fl' ⟨va', order' + 12⟩ live ∧
      Regroup (freeSet fl) ⟨va, order + 12⟩ (freeSet fl') ⟨va', order' + 12⟩ ∧
      (Canonical (freeSet fl') → Canonical (insert ⟨va', order' + 12⟩ (freeSet fl'))) := by
  induction fuel generalizing b fl va order with
  | zero => exact absurd h.order_lt (not_lt.mpr hfuel)
  | succ fuel ih =>
    -- the pair the chunk belongs to starts at `x`, its buddy at `z`
    obtain ⟨x, z, hz, hx', hx, hyz⟩ : ∃ x z,
        (if va &&& 2 ^ (order + 12) ≠ 0 then va - 2 ^ (order + 12)
          else addU64 va (2 ^ (order + 12))) = z ∧
        (if va &&& 2 ^ (order + 12) ≠ 0 then z else va) = x ∧
        (⟨x, order + 12 + 1⟩ : Block).Aligned ∧
        (va = x ∧ z = x + 2 ^ (order + 12) ∨ z = x ∧ va = x + 2 ^ (order + 12)) := by
      have hlt := h.inside.stop_lt h.pages.regions
      rw [stop] at hlt
      by_cases hbit : va &&& 2 ^ (order + 12) = 0
      · have hsum : addU64 va (2 ^ (order + 12)) = va + 2 ^ (order + 12) :=
          addU64_eq hlt
        refine ⟨va, va + 2 ^ (order + 12), ?_, ?_, ?_, .inl ⟨rfl, rfl⟩⟩
        · rw [if_neg (not_not.mpr hbit), hsum]
        · rw [if_neg (not_not.mpr hbit)]
        · exact aligned_of_even h.loose.aligned hbit
      obtain ⟨hle, halign⟩ := aligned_of_odd h.loose.aligned hbit
      refine ⟨va - 2 ^ (order + 12), va - 2 ^ (order + 12), if_pos hbit, if_pos hbit, halign,
        .inr ⟨rfl, ?_⟩⟩
      rw [Nat.sub_add_cancel hle]
    simp only [Ukallocbbuddy.mergeLoop, hz, hx']
    by_cases hstop : allocatedInMap b z = true ∨ b.level z ≠ order
    · rw [if_pos hstop]
      refine ⟨b, fl, va, order, rfl, h, .refl, fun hcan => hcan.insert hx hyz fun hz => ?_⟩
      obtain ⟨hmap, hlevel⟩ := h.free_of_mem hz
      exact hstop.elim (Bool.eq_false_iff.mp hmap) (fun hne => hne hlevel)
    rw [if_neg hstop]
    rw [not_or, Bool.not_eq_true, not_not] at hstop
    obtain ⟨second, fl₁, hsecond, h₁, hg₁⟩ := h.merge hx hyz hstop.1 hstop.2
    rw [hsecond]
    obtain ⟨b', fl', va', order', heq, h', hg, hlast⟩ := ih h₁ (by omega)
    exact ⟨b', fl', va', order', heq, h', hg₁.trans hg, hlast⟩

theorem take (hlists : FreeLists b fl) (hpages : PagesOk b.memrs b.nrFreePages (freeSet fl) live)
    (hk : k < freelistSize) (hva : va ∈ fl k) :
    ∃ second fl', b.links.cell (.next (.chunk va)) = some second ∧
      Working { b with links := b.links.unlink (.chunk va) second } fl' ⟨va, k + 12⟩ live ∧
      freeSet fl' = freeSet fl \ {⟨va, k + 12⟩} := by
  have hmem : (⟨va, k + 12⟩ : Block) ∈ freeSet fl := (mem_freeSet hk).mpr hva
  obtain ⟨second, hsecond, hlists'⟩ := hlists.unlink_ok hk hva
  have hset := freeSet_erase va (hlists.nodup k hk)
  refine ⟨second, _, hsecond, ⟨hlists', hset ▸ hpages.tiling.take hmem, ?_⟩, hset⟩
  rw [hset, insert_sdiff_singleton, insert_eq_of_mem hmem]
  exact hpages

end Working

/-! ### The calls -/

theorem PagesOk.perm {live' : List (Nat × Nat)} (h : PagesOk memrs nrFree G live)
    (hp : live.Perm live') : PagesOk memrs nrFree G live' where
  regions := h.regions
  tiling := h.tiling
  page := h.page
  inside := h.inside
  bits := h.bits
  count := h.count
  liveOk l hl := h.liveOk l (hp.mem_iff.mpr hl)
  liveFree l hl := h.liveFree l (hp.mem_iff.mpr hl)
  liveApart := (hp.map _).pairwise h.liveApart fun hab => hab.symm

/-- What a call leaves of the free chunks `F`: `F'` cover what they covered without the
block `c` of a new allocation, and no buddies are made. -/
structure Carved (F F' : Set Block) (c : Block) : Prop where
  covers : ∀ a, a ∈ c ∨ Covers F' a ↔ Covers F a
  canonical : Canonical F → Canonical F'

theorem PagesOk.palloc (hlists : FreeLists b fl)
    (hpages : PagesOk b.memrs b.nrFreePages (freeSet fl) live) (hn : 1 ≤ n) (hmax : n ≤ 2 ^ 52) :
    bbuddyPalloc b n = .ok (none, b) ∧ (∀ k, clog 2 n ≤ k → k < freelistSize → fl k = []) ∨
      ∃ va b' fl', bbuddyPalloc b n = .ok (some va, b') ∧ FreeLists b' fl' ∧
        PagesOk b'.memrs b'.nrFreePages (freeSet fl') ((va, n) :: live) ∧
        Carved (freeSet fl) (freeSet fl') (allocBlock (va, n)) := by
  have horder := clog_le_52 hmax
  obtain ⟨k, hfind, hle, hk, hempty, hfull⟩ := hlists.findOrder_spec (Nat.add_sub_cancel' horder)
  rw [bbuddyPalloc, numPagesToOrder_eq hn]
  simp only [ok_bind, hfind]
  by_cases hkmax : k = freelistSize
  · rw [if_pos hkmax]
    exact .inl ⟨rfl, fun j hj hlt => hempty j hj (hkmax ▸ hlt)⟩
  have hk' : k < freelistSize := lt_of_le_of_ne hk hkmax
  obtain ⟨va, rest, hfl⟩ := exists_cons_of_ne_nil (hfull hk')
  have hseg := hlists.seg k hk'
  rw [hfl] at hseg
  have hva : va ∈ fl k := by rw [hfl]; exact mem_cons_self
  obtain ⟨second, fl₁, hsecond, hwork, hset⟩ := Working.take hlists hpages hk' hva
  -- the first chunk of a list points back to the head of the list
  have hunlink : (b.links.setCell (.head k) (some second)).setPrev second
      (b.links.prev (.chunk va)) = b.links.unlink (.chunk va) second := by
    rw [Links.unlink, hseg.2.1]
  obtain ⟨d, rfl⟩ := Nat.exists_eq_add_of_le hle
  obtain ⟨b₂, fl₂, hsplit, hwork₂, hgroup⟩ := hwork.splitLoop
  obtain ⟨b₃, hmap, hlinks, hlevel, hpages₃⟩ :=
    hwork₂.pages.mapAlloc hwork₂.loose (l := (va, n)) hn rfl
  refine .inr ⟨va, b₃, fl₂, ?_, ?_, hpages₃, fun a => ?_, fun hcan => ?_⟩
  · rw [if_neg hkmax, if_pos hk', hseg.1]
    simp only [hsecond, hunlink, Nat.add_sub_cancel_left, hsplit, ok_bind, hmap]
    rfl
  · have hl := hwork₂.lists
    exact ⟨hlinks ▸ hl.seg, hlinks ▸ hl.tail, hl.nodup, hlevel ▸ hl.level⟩
  · refine (hgroup.covers a).trans ?_
    rw [hset]
    exact covers_take ((mem_freeSet hk').mpr hva)
  refine hgroup.canonical ?_
  rw [hset]
  exact hcan.mono sdiff_subset

theorem PagesOk.pfree (hlists : FreeLists b fl)
    (hpages : PagesOk b.memrs b.nrFreePages (freeSet fl) live) (hl : l ∈ live) :
    ∃ b' fl', bbuddyPfree b l.1 l.2 = .ok b' ∧ FreeLists b' fl' ∧
      PagesOk b'.memrs b'.nrFreePages (freeSet fl') (live.erase l) ∧
      (∀ a, Covers (freeSet fl') a ↔ a ∈ allocBlock l ∨ Covers (freeSet fl) a) ∧
      (Canonical (freeSet fl) → Canonical (freeSet fl')) := by
  obtain ⟨hn, halign, hin⟩ := hpages.liveOk l hl
  have horder : clog 2 l.2 + 12 ≤ 62 := hin.exp_le hpages.regions halign
  obtain ⟨hloose, b₁, hmap, hlinks, hlevel, hpages₁⟩ := (hpages.perm (perm_cons_erase hl)).mapFree
  have hwork : Working b₁ fl (allocBlock l) (live.erase l) :=
    ⟨⟨hlinks ▸ hlists.seg, hlinks ▸ hlists.tail, hlists.nodup, hlevel ▸ hlists.level⟩, hloose,
      hpages₁⟩
  have hfuel : freelistSize ≤ clog 2 l.2 + (freelistSize - clog 2 l.2) := by omega
  obtain ⟨b₂, fl₂, va, order, hmerge, hwork₂, hgroup, hlast⟩ := Working.mergeLoop hwork hfuel
  obtain ⟨b₃, fl₃, hlink, hlists₃, hpages₃, hset⟩ := hwork₂.link
  have hpage : l.1 &&& (pageSize - 1) = 0 := by
    have hdvd : pageSize ∣ l.1 := (pow_dvd_pow 2 (le_add_left 12 _)).trans halign
    exact (and_two_pow_sub_one_eq_mod l.1 12).trans (mod_eq_zero_of_dvd hdvd)
  refine ⟨b₃, fl₃, ?_, hlists₃, hpages₃, fun a => ?_, fun hcan => ?_⟩
  · rw [bbuddyPfree, numPagesToOrder_eq hn, ok_bind, ukAssert_pos hpage, ok_bind,
      if_pos (by omega), hmap, ok_bind, hmerge]
    exact hlink
  · rw [hset, covers_insert]
    exact hgroup.covers a
  rw [hset]
  exact hlast (hgroup.canonical hcan)

theorem BuddyInv.palloc (h : BuddyInv b live) (hn : 1 ≤ n) (hmax : n ≤ 2 ^ 52) :
    bbuddyPalloc b n = .ok (none, b) ∨
      ∃ va b', bbuddyPalloc b n = .ok (some va, b') ∧ BuddyInv b' ((va, n) :: live) := by
  obtain ⟨fl, hlists, hpages⟩ := h
  refine (hpages.palloc hlists hn hmax).imp And.left ?_
  rintro ⟨va, b', fl', heq, hlists', hpages', -⟩
  exact ⟨va, b', heq, fl', hlists', hpages'⟩

theorem BuddyInv.pfree (h : BuddyInv b live) (hl : l ∈ live) :
    ∃ b', bbuddyPfree b l.1 l.2 = .ok b' ∧ BuddyInv b' (live.erase l) := by
  obtain ⟨fl, hlists, hpages⟩ := h
  obtain ⟨b', fl', heq, hlists', hpages', -⟩ := hpages.pfree hlists hl
  exact ⟨b', heq, fl', hlists', hpages'⟩

end Unikraft.Ukallocbbuddy
