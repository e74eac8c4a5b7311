import Mathlib.Algebra.Order.BigOperators.Group.List
import Unikraft.Lib.Dyadic
import Unikraft.Ukallocbbuddy.Bbuddy

/-!
# The allocation bitmap

The word-wise updates of `map_alloc` and `map_free` set and clear exactly the bits of the pages they
are given.
-/

namespace Unikraft.Ukallocbbuddy

open Lib Function List

variable {bm : Nat → BitVec 64} {first nr p : Nat}

theorem and_63 (x : Nat) : x &&& 63 = x % 64 := Nat.and_two_pow_sub_one_eq_mod x 6

theorem or_decide_eq {v : Bool} {P : Prop} [Decidable P] :
    (v || decide P) = if P then true else v := by
  by_cases h : P <;> simp [h]

theorem bitAt_bitmapAlloc :
    bitAt (bitmapAlloc bm first nr) p =
      if first ≤ p ∧ p < first + nr then true else bitAt bm p := by
  have hp : p % 64 < 64 := Nat.mod_lt _ (by decide)
  have hs : first % 64 < 64 := Nat.mod_lt _ (by decide)
  have he : (first + nr) % 64 < 64 := Nat.mod_lt _ (by decide)
  unfold bitmapAlloc bitAt
  simp only [and_63]
  split
  · rename_i hword
    by_cases hw : p / 64 = first / 64
    · rw [hw, update_self, BitVec.getLsbD_or, BitVec.getLsbD_and, getLsbD_lowMask he,
        getLsbD_highMask hs hp, ← Bool.decide_and, or_decide_eq]
      congr 1
      exact propext (by omega)
    · rw [update_of_ne hw, if_neg (by omega)]
  rename_i hword
  by_cases hlast : p / 64 = (first + nr) / 64
  · rw [hlast, update_self, BitVec.getLsbD_or, getLsbD_lowMask he, fillWords_apply,
      if_neg (by omega), update_of_ne (Ne.symm hword), or_decide_eq]
    congr 1
    exact propext (by omega)
  rw [update_of_ne hlast, fillWords_apply]
  split
  · rw [if_pos (by omega), BitVec.getLsbD_not, decide_eq_true hp, BitVec.getLsbD_zero]
    rfl
  by_cases hw : p / 64 = first / 64
  · rw [hw, update_self, BitVec.getLsbD_or, getLsbD_highMask hs hp, or_decide_eq]
    congr 1
    exact propext (by omega)
  · rw [update_of_ne hw, if_neg (by omega)]

/-- `map_free` does to the clear bits what `map_alloc` does to the set bits. -/
theorem bitmapFree_eq : bitmapFree bm first nr =
    fun i => ~~~bitmapAlloc (fun i => ~~~bm i) first nr i := by
  have hlow (k : Nat) : ~~~((1#64 <<< k) - 1#64) = -(1#64 <<< k) := by
    rw [← BitVec.not_neg, BitVec.not_not]
  funext i
  unfold bitmapFree bitmapAlloc
  split
  · simp only [update_apply]
    split <;> simp only [BitVec.not_or, BitVec.not_and, BitVec.not_not, BitVec.not_neg, hlow]
  · simp only [update_apply, fillWords_apply]
    split_ifs <;> simp only [BitVec.not_or, BitVec.not_not, BitVec.not_neg, hlow]

theorem bitAt_bitmapFree :
    bitAt (bitmapFree bm first nr) p =
      if first ≤ p ∧ p < first + nr then false else bitAt bm p := by
  have hnot (bm : Nat → BitVec 64) : bitAt (fun i => ~~~bm i) p = !bitAt bm p := by
    have hp : p % 64 < 64 := Nat.mod_lt _ (by decide)
    rw [bitAt, BitVec.getLsbD_not, decide_eq_true hp]
    rfl
  rw [bitmapFree_eq, hnot, bitAt_bitmapAlloc, hnot]
  split <;> simp

/-! ### Memory regions -/

namespace Memr

/-- The first address behind the pages of a region. -/
def stop (m : Memr) : Nat := m.firstPage + m.nrPages * pageSize

/-- A region as `bbuddy_addmem` lays it out: record and bitmap come before its pages, and it ends
below the end of the address space. -/
structure WF (m : Memr) : Prop where
  header : m.va < m.firstPage
  aligned : pageSize ∣ m.firstPage
  fits : m.stop < 2 ^ 64

/-- The footprints of two regions, headers included, have no address in common. -/
def Apart (m r : Memr) : Prop := m.stop ≤ r.va ∨ r.stop ≤ m.va

instance : Std.Symm Memr.Apart := ⟨fun _ _ h => Or.symm h⟩

def clearPages (m : Memr) : Finset Nat :=
  (Finset.range m.nrPages).filter fun p => bitAt m.bitmap p = false

variable {m r : Memr}

theorem mem_clearPages : p ∈ m.clearPages ↔ p < m.nrPages ∧ bitAt m.bitmap p = false := by
  rw [clearPages, Finset.mem_filter, Finset.mem_range]

theorem firstPage_le_stop : m.firstPage ≤ m.stop := Nat.le_add_right _ _

theorem WF.endPage_eq (hm : m.WF) : m.endPage = m.stop := by
  have hfits := hm.fits
  unfold stop at hfits ⊢
  rw [Memr.endPage, Nat.mod_eq_of_lt (by omega), addU64_eq hfits]

end Memr

/-- The registered regions are well formed and pairwise apart. -/
structure RegionsOk (memrs : List Memr) : Prop where
  wf : ∀ m ∈ memrs, m.WF
  apart : memrs.Pairwise Memr.Apart

def clearCount (memrs : List Memr) : Nat := (memrs.map fun m => m.clearPages.card).sum

namespace RegionsOk

variable {memrs : List Memr} {m r : Memr} {b : Bbpalloc} {a : Nat}

theorem unique (hr : RegionsOk memrs) (hm : m ∈ memrs) (hr' : r ∈ memrs)
    (hma : m.va ≤ a ∧ a < m.stop) (hra : r.va ≤ a ∧ a < r.stop) : m = r := by
  by_contra hne
  rcases hr.apart.forall hm hr' hne with h | h
  · omega
  · omega

theorem va_ne (hr : RegionsOk memrs) (hm : m ∈ memrs) (hr' : r ∈ memrs) (hne : m ≠ r) :
    m.va ≠ r.va := by
  intro heq
  have hm' := (hr.wf m hm).header.trans_le Memr.firstPage_le_stop
  have hrw := (hr.wf r hr').header.trans_le Memr.firstPage_le_stop
  exact hne (hr.unique hm hr' ⟨le_rfl, hm'⟩ ⟨heq.ge, heq ▸ hrw⟩)

section

variable (hr : RegionsOk b.memrs)

include hr

theorem mapGetMemr_eq (hm : m ∈ b.memrs)
    (ha : m.firstPage ≤ a ∧ a < m.stop) : mapGetMemr b a = some m := by
  have hend := (hr.wf m hm).endPage_eq
  have hsome : (mapGetMemr b a).isSome := by
    rw [mapGetMemr, find?_isSome]
    exact ⟨m, hm, by simpa only [hend, decide_eq_true_eq] using ha⟩
  obtain ⟨r, hfind⟩ := Option.isSome_iff_exists.mp hsome
  have hrmem : r ∈ b.memrs := mem_of_find?_eq_some hfind
  have hra := find?_some hfind
  rw [decide_eq_true_eq, (hr.wf r hrmem).endPage_eq] at hra
  have hheader := (hr.wf m hm).header
  have hheader' := (hr.wf r hrmem).header
  rw [hfind, hr.unique hm hrmem ⟨by omega, ha.2⟩ ⟨by omega, hra.2⟩]

theorem mapGetMemr_none
    (ha : ∀ m ∈ b.memrs, ¬ (m.firstPage ≤ a ∧ a < m.stop)) : mapGetMemr b a = none := by
  rw [mapGetMemr, find?_eq_none]
  intro m hm
  rw [decide_eq_true_eq, (hr.wf m hm).endPage_eq]
  exact ha m hm

theorem allocatedInMap_eq (hm : m ∈ b.memrs) (hp : p < m.nrPages) :
    allocatedInMap b (m.firstPage + p * pageSize) = bitAt m.bitmap p := by
  have hstop : m.firstPage + p * pageSize < m.stop := by
    simp only [Memr.stop, pageSize]
    omega
  have hidx : (m.firstPage + p * pageSize - m.firstPage) / pageSize = p := by
    rw [Nat.add_sub_cancel_left, Nat.mul_div_cancel _ (by decide)]
  rw [allocatedInMap, hr.mapGetMemr_eq hm ⟨Nat.le_add_right _ _, hstop⟩]
  simp only [hidx, and_63, ← BitVec.twoPow_eq, BitVec.and_twoPow, bitAt]
  cases (m.bitmap (p / 64)).getLsbD (p % 64) with
  | false => simp
  | true =>
    have hne : BitVec.twoPow 64 (p % 64) ≠ 0#64 := by
      intro heq
      have := congrArg BitVec.toNat heq
      rw [BitVec.toNat_twoPow_of_lt (Nat.mod_lt _ (by decide)), BitVec.toNat_ofNat] at this
      exact absurd this (Nat.two_pow_pos _).ne'
    simpa using hne

theorem mapUpdate_eq (hm : m ∈ b.memrs)
    (upd : (Nat → BitVec 64) → Nat → Nat → Nat → BitVec 64) {f n : Nat} (hn : 0 < n)
    (hfit : f + n ≤ m.nrPages) :
    mapUpdate upd b (m.firstPage + f * pageSize) n =
      .ok (setBitmap m.va (upd m.bitmap f n) b.memrs) := by
  have hfits := (hr.wf m hm).fits
  have hstop : m.firstPage + f * pageSize + n * pageSize ≤ m.stop := by
    simp only [Memr.stop, pageSize]
    omega
  have hpos : 0 < n * pageSize := Nat.mul_pos hn (by decide)
  have hidx : (m.firstPage + f * pageSize - m.firstPage) / pageSize = f := by
    rw [Nat.add_sub_cancel_left, Nat.mul_div_cancel _ (by decide)]
  have hcheck : addU64 (m.firstPage + f * pageSize) (n * pageSize % 2 ^ 64) ≤ m.endPage := by
    rw [Nat.mod_eq_of_lt (by omega), addU64_eq (by omega), (hr.wf m hm).endPage_eq]
    exact hstop
  rw [mapUpdate, hr.mapGetMemr_eq hm ⟨Nat.le_add_right _ _, by omega⟩]
  simp only [ukAssert_pos hcheck, Outcome.ok_bind, hidx]
  rfl

end

theorem mem_setBitmap (hr : RegionsOk memrs) (hm : m ∈ memrs) {bm : Nat → BitVec 64} :
    r ∈ setBitmap m.va bm memrs ↔ r = { m with bitmap := bm } ∨ r ∈ memrs ∧ r ≠ m := by
  rw [setBitmap, mem_map]
  constructor
  · rintro ⟨r', hr', rfl⟩
    by_cases heq : r' = m
    · exact .inl (by rw [heq, if_pos rfl])
    rw [if_neg (hr.va_ne hr' hm heq)]
    exact .inr ⟨hr', heq⟩
  rintro (rfl | ⟨hr', hne⟩)
  · exact ⟨m, hm, if_pos rfl⟩
  · exact ⟨r, hr', if_neg (hr.va_ne hr' hm hne)⟩

theorem setBitmap (hr : RegionsOk memrs) (va : Nat) (bm : Nat → BitVec 64) :
    RegionsOk (setBitmap va bm memrs) where
  wf r hmem := by
    obtain ⟨m, hm, rfl⟩ := mem_map.mp hmem
    have hwf := hr.wf m hm
    split
    · exact ⟨hwf.header, hwf.aligned, hwf.fits⟩
    · exact hwf
  apart := by
    refine pairwise_map.mpr (hr.apart.imp ?_)
    intro m r h
    split <;> split <;> exact h

theorem setBitmap_eq {pre post : List Memr} (hr : RegionsOk (pre ++ m :: post))
    (bm : Nat → BitVec 64) : Ukallocbbuddy.setBitmap m.va bm (pre ++ m :: post) =
      pre ++ { m with bitmap := bm } :: post := by
  have hwf := hr.wf
  obtain ⟨-, hpost, hpre⟩ := pairwise_append.mp hr.apart
  -- the other regions are at other addresses
  have hkeep : ∀ l : List Memr, (∀ r ∈ l, r.WF ∧ r.Apart m) →
      Ukallocbbuddy.setBitmap m.va bm l = l := by
    intro l hl
    refine (map_congr_left fun r hmem => if_neg ?_).trans (map_id l)
    obtain ⟨hwf', hapart⟩ := hl r hmem
    intro heq
    have hlt := hwf'.header.trans_le Memr.firstPage_le_stop
    have hlt' := (hwf m (by simp)).header.trans_le Memr.firstPage_le_stop
    rcases hapart with h | h <;> omega
  rw [Ukallocbbuddy.setBitmap, map_append, map_cons, if_pos rfl]
  congr 1
  · exact hkeep pre fun r hmem => ⟨hwf r (by simp [hmem]), hpre r hmem m (by simp)⟩
  congr 1
  exact hkeep post fun r hmem =>
    ⟨hwf r (by simp [hmem]), (rel_of_pairwise_cons hpost hmem).symm⟩

theorem clearCount_setBitmap (hr : RegionsOk memrs) (hm : m ∈ memrs) (bm : Nat → BitVec 64) :
    clearCount (Ukallocbbuddy.setBitmap m.va bm memrs) + m.clearPages.card =
      clearCount memrs + ({ m with bitmap := bm } : Memr).clearPages.card := by
  obtain ⟨pre, post, rfl⟩ := append_of_mem hm
  rw [hr.setBitmap_eq]
  simp only [clearCount, map_append, map_cons, sum_append, sum_cons]
  omega

theorem clearCount_lt (hr : RegionsOk memrs) : clearCount memrs < 2 ^ 64 := by
  have hsum : (memrs.map fun m => m.stop - m.va).sum ≤ 2 ^ 64 - 1 :=
    sum_lengths_le _ _ (fun m hm => Nat.le_pred_of_lt (hr.wf m hm).fits) hr.apart
  have hle : clearCount memrs ≤ (memrs.map fun m => m.stop - m.va).sum := by
    refine sum_le_sum fun m hm => ?_
    have hheader := (hr.wf m hm).header
    have hcard : m.clearPages.card ≤ m.nrPages :=
      (Finset.card_filter_le _ _).trans_eq (Finset.card_range _)
    simp only [Memr.stop, pageSize]
    omega
  omega

end RegionsOk

/-! ### Ranges of pages -/

variable {memrs memrs' : List Memr} {m r : Memr} {b : Bbpalloc} {c : Block} {o : Nat}

/-- The `n` bits from page `f` of the region `m` on are `v`, and nothing else changes. -/
def RangeSet (m : Memr) (f n : Nat) (v : Bool) : List Memr → List Memr → Prop :=
  Forall₂ fun r r' => r' = { r with bitmap := r'.bitmap } ∧ ∀ p, bitAt r'.bitmap p =
    if r.va = m.va ∧ f ≤ p ∧ p < f + n then v else bitAt r.bitmap p

theorem RegionsOk.rangeSet (hr : RegionsOk memrs) (hm : m ∈ memrs) {bm : Nat → BitVec 64}
    {f n : Nat} {v : Bool}
    (hbits : ∀ p, bitAt bm p = if f ≤ p ∧ p < f + n then v else bitAt m.bitmap p) :
    RangeSet m f n v memrs (Ukallocbbuddy.setBitmap m.va bm memrs) := by
  refine forall₂_map_right_iff.mpr (forall₂_same.mpr fun r hmem => ?_)
  by_cases hva : r.va = m.va
  · obtain rfl : r = m := by_contra fun hne => hr.va_ne hmem hm hne hva
    simp only [if_true, true_and]
    exact hbits
  · simp only [hva, if_false, false_and, true_and, implies_true]

/-- **`map_alloc` sets and `map_free` clears the bits of their pages**, and no other bit of any
region, whatever words the range begins and ends in. -/
theorem map_alloc_map_free_range (b : Bbpalloc) (m : Memr) (f n : Nat) (hr : RegionsOk b.memrs)
    (hm : m ∈ b.memrs) (hn : 0 < n) (hfit : f + n ≤ m.nrPages) :
    (∃ memrs, mapAlloc b (m.firstPage + f * pageSize) n =
        .ok { b with memrs := memrs, nrFreePages := subU64 b.nrFreePages n } ∧
      RangeSet m f n true b.memrs memrs) ∧
    ∃ memrs, mapFree b (m.firstPage + f * pageSize) n =
        .ok { b with memrs := memrs, nrFreePages := addU64 b.nrFreePages n } ∧
      RangeSet m f n false b.memrs memrs := by
  rw [mapAlloc, mapFree, hr.mapUpdate_eq hm _ hn hfit, hr.mapUpdate_eq hm _ hn hfit]
  constructor
  · exact ⟨_, rfl, hr.rangeSet hm fun _ => bitAt_bitmapAlloc⟩
  · exact ⟨_, rfl, hr.rangeSet hm fun _ => bitAt_bitmapFree⟩

/-- Pages 60 to 129: the end of a word, a whole word and the start of a third one. -/
theorem map_alloc_map_free_range_words :
    let m : Memr := ⟨4096, 8192, 200, fun _ => 0#64⟩
    let b : Bbpalloc := { bbuddyInit with memrs := [m] }
    (∃ b', mapAlloc b (8192 + 60 * 4096) 70 = .ok b' ∧ RangeSet m 60 70 true [m] b'.memrs) ∧
      ∃ b', mapFree b (8192 + 60 * 4096) 70 = .ok b' ∧ RangeSet m 60 70 false [m] b'.memrs := by
  intro m b
  have hwf : m.WF := ⟨by decide, by decide, by decide⟩
  obtain ⟨⟨_, halloc, hset⟩, _, hfree, hclear⟩ := map_alloc_map_free_range b m 60 70
    ⟨forall_mem_singleton.mpr hwf, pairwise_singleton _ _⟩ (mem_singleton_self m)
    (by decide) (by decide)
  exact ⟨⟨_, halloc, hset⟩, _, hfree, hclear⟩

/-! ### Blocks of pages in a region -/

/-- The block lies in the pages of one registered region. -/
def Inside (memrs : List Memr) (c : Block) : Prop :=
  ∃ m ∈ memrs, m.firstPage ≤ c.start ∧ c.stop ≤ m.stop

theorem Memr.WF.pages_of_block (hm : m.WF) (halign : c.Aligned) (hexp : c.exp = o + 12)
    (hin : m.firstPage ≤ c.start ∧ c.stop ≤ m.stop) :
    ∃ f, c.start = m.firstPage + f * pageSize ∧ f + 2 ^ o ≤ m.nrPages ∧
      ∀ p, m.firstPage + p * pageSize ∈ c ↔ f ≤ p ∧ p < f + 2 ^ o := by
  have hsize : 2 ^ c.exp = 2 ^ o * pageSize := by rw [hexp, Nat.pow_add]
  have hdvd : pageSize ∣ c.start := by
    refine Dvd.dvd.trans ?_ halign
    rw [hsize]
    exact Dvd.intro_left _ rfl
  obtain ⟨f, hf⟩ := (Nat.dvd_sub hdvd hm.aligned)
  have hstart : c.start = m.firstPage + f * pageSize := by
    rw [Nat.mul_comm] at hf
    omega
  have hstop : c.stop = m.firstPage + (f + 2 ^ o) * pageSize := by
    rw [Block.stop, hsize, hstart, Nat.add_mul, Nat.add_assoc]
  refine ⟨f, hstart, ?_, fun p => ?_⟩
  · have hle := hin.2
    rw [hstop, Memr.stop] at hle
    exact Nat.le_of_mul_le_mul_right (Nat.le_of_add_le_add_left hle) (by decide)
  rw [Block.mem_iff, hstop, hstart, Nat.add_le_add_iff_left, Nat.add_lt_add_iff_left,
    Nat.mul_le_mul_right_iff (by decide), Nat.mul_lt_mul_right (by decide)]

theorem RegionsOk.notMem_block (hr : RegionsOk memrs) (hm : m ∈ memrs) (hr' : r ∈ memrs)
    (hne : r ≠ m) (hin : m.firstPage ≤ c.start ∧ c.stop ≤ m.stop) (hp : p < r.nrPages) :
    r.firstPage + p * pageSize ∉ c := by
  intro hmem
  have hmw := (hr.wf m hm).header
  have hrw := (hr.wf r hr').header
  have hstart := hmem.1
  have hstop := hmem.2
  refine hne (hr.unique (a := r.firstPage + p * pageSize) hr' hm ⟨by omega, ?_⟩
    ⟨by omega, by omega⟩)
  simp only [Memr.stop, pageSize]
  omega

/-- **What a bitmap update does**: the bits of the pages in the block become `v`, all else stays. -/
structure BitsSet (memrs memrs' : List Memr) (c : Block) (v : Bool) : Prop where
  regions : RegionsOk memrs'
  inside : ∀ d, Inside memrs d → Inside memrs' d
  bits : ∀ r' ∈ memrs', ∃ r ∈ memrs, r'.firstPage = r.firstPage ∧ r'.nrPages = r.nrPages ∧
    ∀ p < r.nrPages, bitAt r'.bitmap p =
      if r.firstPage + p * pageSize ∈ c then v else bitAt r.bitmap p

theorem card_clearPages {f n : Nat} (hnr : r.nrPages = m.nrPages) (hfit : f + n ≤ m.nrPages)
    (hclear : ∀ p, f ≤ p ∧ p < f + n → bitAt m.bitmap p = false)
    (hset : ∀ p, f ≤ p ∧ p < f + n → bitAt r.bitmap p = true)
    (hsame : ∀ p, ¬ (f ≤ p ∧ p < f + n) → bitAt r.bitmap p = bitAt m.bitmap p) :
    m.clearPages.card = r.clearPages.card + n := by
  have hunion : m.clearPages = r.clearPages ∪ Finset.Ico f (f + n) := by
    ext p
    rw [Finset.mem_union, Finset.mem_Ico, Memr.mem_clearPages, Memr.mem_clearPages, hnr]
    by_cases hp : f ≤ p ∧ p < f + n
    · simp only [hclear p hp, hp, and_self, or_true, and_true, iff_true]
      omega
    · rw [hsame p hp, or_iff_left hp]
  have hdisj : Disjoint r.clearPages (Finset.Ico f (f + n)) := by
    refine Finset.disjoint_left.mpr fun p hp hp' => ?_
    rw [Finset.mem_Ico] at hp'
    rw [Memr.mem_clearPages, hset p hp'] at hp
    exact absurd hp.2 (by decide)
  rw [hunion, Finset.card_union_of_disjoint hdisj, Nat.card_Ico, Nat.add_sub_cancel_left]

theorem RegionsOk.mapUpdate_ok (hr : RegionsOk b.memrs) {v : Bool}
    {upd : (Nat → BitVec 64) → Nat → Nat → Nat → BitVec 64}
    (hupd : ∀ bm f n p, bitAt (upd bm f n) p = if f ≤ p ∧ p < f + n then v else bitAt bm p)
    (halign : c.Aligned) (hexp : c.exp = o + 12) (hin : Inside b.memrs c)
    (hold : ∀ m ∈ b.memrs, ∀ p < m.nrPages,
      m.firstPage + p * pageSize ∈ c → bitAt m.bitmap p = !v) :
    ∃ memrs', mapUpdate upd b c.start (2 ^ o) = .ok memrs' ∧ BitsSet b.memrs memrs' c v ∧
      clearCount memrs' + v.toNat * 2 ^ o = clearCount b.memrs + (!v).toNat * 2 ^ o := by
  obtain ⟨m, hm, hin⟩ := hin
  obtain ⟨f, hstart, hfit, hpages⟩ := (hr.wf m hm).pages_of_block halign hexp hin
  refine ⟨_, by rw [hstart, hr.mapUpdate_eq hm _ (Nat.two_pow_pos o) hfit], ⟨?_, ?_, ?_⟩, ?_⟩
  · exact hr.setBitmap _ _
  · rintro d ⟨r, hr', hd⟩
    by_cases hrm : r = m
    · exact ⟨_, (hr.mem_setBitmap hm).mpr (.inl rfl), hrm ▸ hd⟩
    · exact ⟨r, (hr.mem_setBitmap hm).mpr (.inr ⟨hr', hrm⟩), hd⟩
  · intro r' hr'
    rcases (hr.mem_setBitmap hm).mp hr' with rfl | ⟨hr', hrm⟩
    · refine ⟨m, hm, rfl, rfl, fun p _ => ?_⟩
      rw [hupd]
      simp only [hpages]
    refine ⟨r', hr', rfl, rfl, fun p hp => ?_⟩
    rw [if_neg (hr.notMem_block hm hr' hrm hin hp)]
  have hcount := hr.clearCount_setBitmap hm (upd m.bitmap f (2 ^ o))
  have holdm : ∀ p, f ≤ p ∧ p < f + 2 ^ o → bitAt m.bitmap p = !v := fun p hp =>
    hold m hm p (by omega) ((hpages p).mpr hp)
  have hnew : ∀ p, f ≤ p ∧ p < f + 2 ^ o → bitAt (upd m.bitmap f (2 ^ o)) p = v := fun p hp => by
    rw [hupd, if_pos hp]
  have hsame : ∀ p, ¬ (f ≤ p ∧ p < f + 2 ^ o) →
      bitAt (upd m.bitmap f (2 ^ o)) p = bitAt m.bitmap p := fun p hp => by rw [hupd, if_neg hp]
  cases v with
  | true =>
    have hcard : m.clearPages.card =
        ({ m with bitmap := upd m.bitmap f (2 ^ o) } : Memr).clearPages.card + 2 ^ o :=
      card_clearPages rfl hfit holdm hnew hsame
    simp only [Bool.toNat_true, Bool.not_true, Bool.toNat_false, Nat.one_mul, Nat.zero_mul]
    omega
  | false =>
    have hcard : ({ m with bitmap := upd m.bitmap f (2 ^ o) } : Memr).clearPages.card =
        m.clearPages.card + 2 ^ o :=
      card_clearPages rfl hfit hnew holdm fun p hp => (hsame p hp).symm
    simp only [Bool.toNat_true, Bool.not_false, Bool.toNat_false, Nat.one_mul, Nat.zero_mul]
    omega

end Unikraft.Ukallocbbuddy
