import Unikraft.Essentials
import Unikraft.Ukallocbbuddy.Invariant

/-!
# Registration of a memory region (`bbuddy_addmem`)

The first pages take its record and its bitmap; the number of the remaining pages is computed twice,
for the bitmap and for the free lists. The two agree unless the number of pages is one more than a
multiple of `32769` minus `320`.
-/

namespace Unikraft.Ukallocbbuddy

open Lib List

/-! ### The source -/

/-- `sizeof(struct uk_bbpalloc_memr)`. -/
def sizeofMemr : Nat := 40

/-- `memr->nr_pages` for a range of `range` bytes. -/
def memrNrPages (range : Nat) : Nat := 8 * subU64 range sizeofMemr % 2 ^ 64 / (8 * pageSize + 1)

/-- `memr_size`: the bytes in front of the first page, for `nrPages` pages. -/
def memrSize (nrPages : Nat) : Nat := roundPgup (addU64 sizeofMemr (divRoundUp nrPages 8))

/-- The `struct uk_bbpalloc_memr` of the range from `min` on, with all bits of its bitmap
set by `memset`; `dirty` is what lies behind the bitmap. -/
def newMemr (min range : Nat) (dirty : Nat → BitVec 64) : Memr where
  va := min
  firstPage := addU64 min (memrSize (memrNrPages range))
  nrPages := memrNrPages range
  bitmap w := if w < subU64 (memrSize (memrNrPages range)) sizeofMemr / 8 then ~~~0#64 else dirty w

/-- The loop that looks for the size of the next chunk. With no fuel left the shift by 64 is
undefined. -/
def chunkExp (min range : Nat) : Nat → Nat → Outcome Nat
  | 0, _ => .error .undefinedArith
  | fuel + 1, i =>
    if 2 ^ (i + 1) ≤ range then
      if min &&& 2 ^ i ≠ 0 then .ok i else chunkExp min range fuel (i + 1)
    else .ok i

/-- The loop that puts the range on the free lists. -/
def chunkLoop : Nat → Bbpalloc → Nat → Nat → Outcome Bbpalloc
  | fuel, b, min, range =>
    if range = 0 then .ok b
    else
      match fuel with
      | 0 => .error .divergence
      | fuel + 1 => do
          let i ← chunkExp min range 51 12
          let b ← linkChunk b (i - 12) min
          chunkLoop fuel b (addU64 min (2 ^ i)) (subU64 range (2 ^ i))

def bbuddyAddmem (b : Bbpalloc) (base len : Nat) (dirty : Nat → BitVec 64) :
    Outcome (Except Errno Unit × Bbpalloc) := do
  ukAssert (base ≠ 0)
  let min := roundPgup base
  let max := roundPgdown (addU64 base len)
  if max < min then return (.error .einval, b)
  else if max - min < roundPgup (sizeofMemr + 8) + pageSize then return (.error .einval, b)
  else
    let memr := newMemr min (max - min) dirty
    let b ← mapFree { b with memrs := memr :: b.memrs } memr.firstPage memr.nrPages
    let range := subU64 (max - min) (memrSize memr.nrPages)
    let b ← chunkLoop (range / pageSize) b memr.firstPage range
    return (.ok (), b)

/-! ### The number of pages -/

/-- The size computation is exact: it does not overflow, and the bitmap does not fill its last page
to the bit. -/
def AddmemFits (r : Nat) : Prop := 8 * (r * pageSize - sizeofMemr) < 2 ^ 64 ∧ (r + 319) % 32769 ≠ 0
  deriving Decidable

variable {r : Nat}

theorem addmem_min_range : roundPgup (sizeofMemr + 8) + pageSize = 2 * pageSize := by
  rw [sizeofMemr, roundPgup_eq (by omega)]
  rfl

theorem memrNrPages_eq (hr : 2 ≤ r) (hfit : 8 * (r * pageSize - sizeofMemr) < 2 ^ 64) :
    memrNrPages (r * pageSize) = (32768 * r - 320) / 32769 := by
  simp only [pageSize, sizeofMemr] at hfit
  have hbits : 8 * (r * 4096 - 40) = 32768 * r - 320 := by omega
  rw [memrNrPages, sizeofMemr, pageSize, subU64_eq (by omega) (by omega), Nat.mod_eq_of_lt hfit,
    hbits]

theorem memrSize_eq {nr : Nat} (hnr : nr < 2 ^ 60) :
    memrSize nr = (nr + 320 + 32767) / 32768 * 4096 := by
  have hround : addU64 nr (8 - 1) = nr + 7 := addU64_eq (by omega)
  rw [memrSize, divRoundUp, sizeofMemr, hround, addU64_eq (by omega), roundPgup_eq (by omega)]
  omega

/-- The header, the bitmap and the pages do not exceed the range, and **the two page counts agree**
exactly when the bitmap does not fill its last page to the bit. -/
theorem memr_pages (hr : 2 ≤ r) (hfit : 8 * (r * pageSize - sizeofMemr) < 2 ^ 64) :
    memrNrPages (r * pageSize) * pageSize + memrSize (memrNrPages (r * pageSize)) ≤ r * pageSize ∧
      (memrNrPages (r * pageSize) * pageSize + memrSize (memrNrPages (r * pageSize)) =
        r * pageSize ↔ (r + 319) % 32769 ≠ 0) := by
  have hnr := memrNrPages_eq hr hfit
  simp only [pageSize, sizeofMemr] at hfit
  obtain ⟨nr, hq⟩ : ∃ nr, (32768 * r - 320) / 32769 = nr := ⟨_, rfl⟩
  rw [hnr, hq, memrSize_eq (by omega)]
  simp only [pageSize]
  -- `k` pages are left for the header, and `k - 1` are filled by header and bitmap at most
  obtain ⟨k, rfl⟩ : ∃ k, r = nr + k := ⟨r - nr, by omega⟩
  have hupper : nr + 320 ≤ 32768 * k := by omega
  have hlower : 32768 * k ≤ nr + 320 + 32768 := by omega
  by_cases hfull : nr + 320 + 32768 = 32768 * k
  · omega
  have hsize : (nr + 320 + 32767) / 32768 = k := by omega
  rw [hsize]
  omega

/-! ### The free lists of the new region -/

variable {b : Bbpalloc} {fl : Nat → List Nat} {live : List (Nat × Nat)} {min range : Nat}

theorem chunkExp_spec {fuel i : Nat} (hfuel : fuel + i = 63) (hmin : 2 ^ i ∣ min)
    (hi : 2 ^ i ≤ range) (hrange : range < 2 ^ 63) :
    ∃ k, chunkExp min range fuel i = .ok k ∧ i ≤ k ∧ k < 63 ∧ 2 ^ k ∣ min ∧ 2 ^ k ≤ range ∧
      (2 ^ (k + 1) ∣ min → range < 2 ^ (k + 1)) := by
  induction fuel generalizing i with
  | zero =>
    obtain rfl : i = 63 := by omega
    omega
  | succ fuel ih =>
    rw [chunkExp]
    split
    · rename_i hnext
      split
      · rename_i hbit
        refine ⟨i, rfl, le_rfl, by omega, hmin, hi, fun ⟨q, hq⟩ => absurd ?_ hbit⟩
        have hodd := (Block.and_two_pow_eq_zero_iff (q := 2 * q) (k := i)).mpr (by omega)
        rwa [← Nat.mul_assoc, ← Nat.pow_succ, ← hq] at hodd
      rename_i hbit
      have halign : 2 ^ (i + 1) ∣ min :=
        Block.aligned_of_even (x := min) (k := i) hmin (not_not.mp hbit)
      obtain ⟨k, heq, hle, hk⟩ := ih (i := i + 1) (by omega) halign hnext
      exact ⟨k, heq, by omega, hk⟩
    rename_i hnext
    exact ⟨i, rfl, le_rfl, by omega, hmin, hi, fun _ => Nat.not_le.mp hnext⟩

theorem chunkLoop_step (fuel : Nat) (hlists : FreeLists b fl) (htiling : Tiling (freeSet fl))
    (hmin : pageSize ∣ min) (hpage : pageSize ≤ range) (hfit : min + range < 2 ^ 64)
    (hsmall : range < 2 ^ 63) (hfresh : ∀ a, min ≤ a → a < min + range → ¬ Covers (freeSet fl) a) :
    ∃ b' fl' k, chunkLoop (fuel + 1) b min range = chunkLoop fuel b' (min + 2 ^ k) (range - 2 ^ k) ∧
      12 ≤ k ∧ 2 ^ k ≤ range ∧ (2 ^ (k + 1) ∣ min → range < 2 ^ (k + 1)) ∧ FreeLists b' fl' ∧
      Tiling (freeSet fl') ∧ freeSet fl' = insert ⟨min, k⟩ (freeSet fl) ∧
      b'.memrs = b.memrs ∧ b'.nrFreePages = b.nrFreePages := by
  obtain ⟨k, hexp, hk12, hk63, hdvd, hle, hmax⟩ :=
    chunkExp_spec (rfl : 51 + 12 = 63) hmin hpage hsmall
  obtain ⟨j, rfl⟩ : ∃ j, k = j + 12 := ⟨k - 12, by omega⟩
  have hj : j < freelistSize := by
    rw [freelistSize]
    omega
  have hchunk : ∀ a, a ∈ (⟨min, j + 12⟩ : Block) → ¬ Covers (freeSet fl) a := fun a ha =>
    hfresh a ha.1 (ha.2.trans_le (Nat.add_le_add_left hle _))
  have hloose : Loose (freeSet fl) ⟨min, j + 12⟩ :=
    ⟨htiling, hdvd, fun c hc => Block.apart_iff_forall.mpr fun a ha hmem =>
      hchunk a hmem ⟨c, hc, ha⟩⟩
  obtain ⟨b', hlink, hlists', hmemrs, hnr⟩ := hlists.linkChunk_ok hj
    fun i hi (hmem : min ∈ fl i) => hchunk min (Block.start_mem _)
      ⟨⟨min, i + 12⟩, (mem_freeSet hi).mpr hmem, Block.start_mem _⟩
  have hset := freeSet_push fl min hj
  refine ⟨b', _, j + 12, ?_, hk12, hle, hmax, hlists', hset ▸ hloose.insert, hset, hmemrs, hnr⟩
  have hsum : addU64 min (2 ^ (j + 12)) = min + 2 ^ (j + 12) := addU64_eq (by omega)
  have hsub : subU64 range (2 ^ (j + 12)) = range - 2 ^ (j + 12) := subU64_eq hle (by omega)
  have hzero : range ≠ 0 := by
    simp only [pageSize] at hpage
    omega
  rw [chunkLoop, if_neg hzero]
  simp only [hexp, Outcome.ok_bind, Nat.add_sub_cancel, hlink, hsum, hsub]

/-- **The chunk loop** tiles the range: it ends, and the free chunks cover what they
covered before and the range. -/
theorem chunkLoop_ok {fuel : Nat} (hlists : FreeLists b fl) (htiling : Tiling (freeSet fl))
    (hmin : pageSize ∣ min) (hrange : pageSize ∣ range) (hfit : min + range < 2 ^ 64)
    (hsmall : range < 2 ^ 63) (hfuel : range ≤ fuel * pageSize)
    (hfresh : ∀ a, min ≤ a → a < min + range → ¬ Covers (freeSet fl) a) :
    ∃ b' fl', chunkLoop fuel b min range = .ok b' ∧ FreeLists b' fl' ∧
      Extends (freeSet fl) (freeSet fl') min (min + range) ∧
      b'.memrs = b.memrs ∧ b'.nrFreePages = b.nrFreePages := by
  induction fuel generalizing b fl min range with
  | zero =>
    obtain rfl : range = 0 := by simpa using hfuel
    exact ⟨b, fl, rfl, hlists, .refl htiling, rfl, rfl⟩
  | succ fuel ih =>
    by_cases hzero : range = 0
    · subst hzero
      exact ⟨b, fl, rfl, hlists, .refl htiling, rfl, rfl⟩
    have hpage : pageSize ≤ range := Nat.le_of_dvd (Nat.pos_of_ne_zero hzero) hrange
    obtain ⟨b₁, fl₁, k, heq, hk12, hle, hmax, hlists₁, htiling₁, hset, hmemrs₁, hnr₁⟩ :=
      chunkLoop_step fuel hlists htiling hmin hpage hfit hsmall hfresh
    have hpow : pageSize ∣ 2 ^ k := pow_dvd_pow 2 hk12
    have hpage' : pageSize ≤ 2 ^ k := Nat.le_of_dvd (Nat.two_pow_pos k) hpow
    have hrest : min + 2 ^ k + (range - 2 ^ k) = min + range := by omega
    obtain ⟨b₂, fl₂, hloop, hlists₂, hext, hmemrs₂, hnr₂⟩ :=
      ih hlists₁ htiling₁ (Nat.dvd_add hmin hpow) (Nat.dvd_sub hrange hpow) (by omega) (by omega)
        (by
          rw [Nat.add_mul, Nat.one_mul] at hfuel
          omega)
        (fun a hlo hhi => by
          rw [hset, covers_insert, not_or]
          exact ⟨fun h => Nat.not_lt.mpr hlo h.2, hfresh a (by omega) (by omega)⟩)
    rw [hset, hrest] at hext
    refine ⟨b₂, fl₂, heq.trans hloop, hlists₂, hext.cons (by omega) fun hdvd => ?_,
      hmemrs₂.trans hmemrs₁, hnr₂.trans hnr₁⟩
    exact Nat.add_lt_add_left (hmax hdvd) min

/-! ### The new region -/

theorem newMemr_wf {dirty : Nat → BitVec 64} (hmin : pageSize ∣ min) (hr : 2 ≤ r)
    (hfit : 8 * (r * pageSize - sizeofMemr) < 2 ^ 64) (hmax : min + r * pageSize < 2 ^ 64)
    {m : Memr} (hm : newMemr min (r * pageSize) dirty = m) :
    m.WF ∧ m.va = min ∧ 0 < m.nrPages ∧ m.stop ≤ min + r * pageSize ∧
      (m.stop = min + r * pageSize ↔ (r + 319) % 32769 ≠ 0) ∧
      m.firstPage + subU64 (r * pageSize) (memrSize m.nrPages) = min + r * pageSize := by
  obtain ⟨hle, hiff⟩ := memr_pages hr hfit
  have hnr := memrNrPages_eq hr hfit
  have hsize : memrSize (memrNrPages (r * pageSize)) =
      (memrNrPages (r * pageSize) + 320 + 32767) / 32768 * 4096 :=
    memrSize_eq (by simp only [pageSize, sizeofMemr] at *; omega)
  have hnrm : m.nrPages = memrNrPages (r * pageSize) := by rw [← hm]; rfl
  have hva : m.va = min := by rw [← hm]; rfl
  have hfirst : m.firstPage = min + memrSize m.nrPages := by
    rw [hnrm, ← hm]
    exact addU64_eq (by omega)
  rw [← hnrm] at hle hiff hsize hnr
  have hstop : m.stop = min + (m.nrPages * pageSize + memrSize m.nrPages) := by
    rw [Memr.stop, hfirst]
    omega
  refine ⟨⟨?_, ?_, ?_⟩, hva, ?_, ?_, ?_, ?_⟩
  · omega
  · rw [hfirst, hsize]
    exact Nat.dvd_add hmin (Dvd.intro_left _ rfl)
  · omega
  · rw [hnr]
    omega
  · omega
  · rw [hstop, Nat.add_left_cancel_iff, hiff]
  rw [hfirst, subU64_eq (by omega) (by omega)]
  omega

variable {memrs : List Memr} {nrFree base : Nat} {F G : Set Block} {m : Memr}

theorem PagesOk.addRegion (h : PagesOk memrs nrFree F live) (hregions : RegionsOk (m :: memrs))
    (htiling : Tiling G) (hpage : ∀ c ∈ G, 12 ≤ c.exp)
    (hclear : ∀ p < m.nrPages, bitAt m.bitmap p = false)
    (hcovers : ∀ a, Covers G a ↔ Covers F a ∨ m.firstPage ≤ a ∧ a < m.stop)
    (hchunk : ∀ c ∈ G, c ∈ F ∨ m.firstPage ≤ c.start ∧ c.stop ≤ m.stop) :
    PagesOk (m :: memrs) (nrFree + m.nrPages) G live := by
  obtain ⟨hapart, -⟩ := pairwise_cons.mp hregions.apart
  have hheader := (hregions.wf m mem_cons_self).header
  have hmono : ∀ c, Inside memrs c → Inside (m :: memrs) c := fun c ⟨m', hm', hc⟩ =>
    ⟨m', mem_cons_of_mem _ hm', hc⟩
  refine ⟨hregions, htiling, hpage, ?_, ?_, ?_, ?_, ?_, h.liveApart⟩
  · intro c hc
    rcases hchunk c hc with hF | hnew
    · exact hmono c (h.inside c hF)
    · exact ⟨m, mem_cons_self, hnew⟩
  · intro m' hm' p hp
    rcases mem_cons.mp hm' with rfl | hm'
    · refine ⟨fun _ => (hcovers _).mpr (.inr ⟨Nat.le_add_right _ _, ?_⟩), fun _ => hclear p hp⟩
      simp only [Memr.stop, pageSize]
      omega
    have hwf := h.regions.wf m' hm'
    have hout : ¬ (m.firstPage ≤ m'.firstPage + p * pageSize ∧
        m'.firstPage + p * pageSize < m.stop) := by
      have hm'stop : m'.firstPage + p * pageSize < m'.stop := by
        simp only [Memr.stop, pageSize]
        omega
      have hm'header := hwf.header
      rcases hapart m' hm' with h | h <;> omega
    rw [h.bits m' hm' p hp, hcovers, or_iff_left hout]
  · have hcard : m.clearPages.card = m.nrPages := by
      rw [Memr.clearPages, Finset.filter_true_of_mem fun p hp => hclear p (Finset.mem_range.mp hp),
        Finset.card_range]
    rw [h.count, clearCount, clearCount, map_cons, sum_cons, hcard, Nat.add_comm]
  · intro l hl
    obtain ⟨h1, halign, hin⟩ := h.liveOk l hl
    exact ⟨h1, halign, hmono _ hin⟩
  intro l hl c hc
  rcases hchunk c hc with hF | hnew
  · exact h.liveFree l hl c hF
  obtain ⟨-, -, m', hm', hstart, hstop⟩ := h.liveOk l hl
  have hheader' := (h.regions.wf m' hm').header
  rcases hapart m' hm' with h | h
  · exact .inl (by omega)
  · exact .inr (by omega)

theorem mapFree_newRegion (hregions : RegionsOk (m :: b.memrs)) (hnr : 0 < m.nrPages)
    (hcount : b.nrFreePages = clearCount b.memrs) :
    mapFree { b with memrs := m :: b.memrs } m.firstPage m.nrPages = .ok { b with
        memrs := { m with bitmap := bitmapFree m.bitmap 0 m.nrPages } :: b.memrs
        nrFreePages := b.nrFreePages + m.nrPages } ∧
      RegionsOk ({ m with bitmap := bitmapFree m.bitmap 0 m.nrPages } :: b.memrs) := by
  have hset : setBitmap m.va (bitmapFree m.bitmap 0 m.nrPages) (m :: b.memrs) =
      { m with bitmap := bitmapFree m.bitmap 0 m.nrPages } :: b.memrs :=
    RegionsOk.setBitmap_eq (show RegionsOk ([] ++ m :: b.memrs) from hregions) _
  have hregions' := hset ▸ hregions.setBitmap m.va (bitmapFree m.bitmap 0 m.nrPages)
  refine ⟨?_, hregions'⟩
  have hupdate := RegionsOk.mapUpdate_eq (b := { b with memrs := m :: b.memrs }) hregions
    mem_cons_self bitmapFree (f := 0) hnr (Nat.zero_add _).le
  rw [Nat.zero_mul, Nat.add_zero, hset] at hupdate
  have hsum : addU64 b.nrFreePages m.nrPages = b.nrFreePages + m.nrPages := by
    refine addU64_eq ?_
    have hlt := hregions'.clearCount_lt
    have hcard : ({ m with bitmap := bitmapFree m.bitmap 0 m.nrPages } : Memr).clearPages.card =
        m.nrPages := by
      rw [Memr.clearPages, Finset.filter_true_of_mem, Finset.card_range]
      exact fun p hp => by rw [bitAt_bitmapFree, if_pos (by simpa using hp)]
    rw [clearCount, map_cons, sum_cons, hcard] at hlt
    rw [hcount, clearCount]
    omega
  rw [mapFree, hupdate, Outcome.ok_bind, hsum]
  rfl

theorem addRange_ok (hlists : FreeLists b fl)
    (hpages : PagesOk b.memrs b.nrFreePages (freeSet fl) live) {max : Nat}
    (hwf : m.WF) (hnr : 0 < m.nrPages) (hva : m.va = min) (hstop : m.stop ≤ max)
    (hend : m.firstPage + range = max) (hmaxlt : max < 2 ^ 64) (hsmall : range < 2 ^ 63)
    (hrange : pageSize ∣ range) (hapart : ∀ m' ∈ b.memrs, m'.stop ≤ min ∨ max ≤ m'.va) :
    RegionsOk ({ m with bitmap := bitmapFree m.bitmap 0 m.nrPages } :: b.memrs) ∧
    ∃ b₁ b' fl', mapFree { b with memrs := m :: b.memrs } m.firstPage m.nrPages = .ok b₁ ∧
      chunkLoop (range / pageSize) b₁ m.firstPage range = .ok b' ∧ FreeLists b' fl' ∧
      Extends (freeSet fl) (freeSet fl') m.firstPage max ∧
      b'.memrs = { m with bitmap := bitmapFree m.bitmap 0 m.nrPages } :: b.memrs ∧
      b'.nrFreePages = b.nrFreePages + m.nrPages := by
  have hheader := hwf.header
  have hregions : RegionsOk (m :: b.memrs) := by
    refine ⟨?_, pairwise_cons.mpr ⟨fun m' hm' => ?_, hpages.regions.apart⟩⟩
    · rintro m' (_ | ⟨_, hm'⟩)
      · exact hwf
      · exact hpages.regions.wf m' hm'
    rw [Memr.Apart, hva]
    exact (hapart m' hm').symm.imp_left hstop.trans
  obtain ⟨hfree, hregions'⟩ := mapFree_newRegion hregions hnr hpages.count
  -- no registered chunk lies in the range
  have hfresh : ∀ a, m.firstPage ≤ a → a < m.firstPage + range → ¬ Covers (freeSet fl) a := by
    rintro a hlo hhi ⟨c, hc, hac⟩
    obtain ⟨m', hm', hstart, hcstop⟩ := hpages.inside c hc
    have hheader' := (hpages.regions.wf m' hm').header
    have hlo' := hac.1
    have hhi' := hac.2
    rcases hapart m' hm' with h | h <;> omega
  obtain ⟨b', fl', hloop, hlists', hext, hmemrs, hnr'⟩ := chunkLoop_ok (b := { b with
        memrs := { m with bitmap := bitmapFree m.bitmap 0 m.nrPages } :: b.memrs
        nrFreePages := b.nrFreePages + m.nrPages })
      ⟨hlists.seg, hlists.tail, hlists.nodup, hlists.level⟩
      hpages.tiling hwf.aligned hrange (by omega) hsmall
      (Nat.div_mul_cancel hrange).ge hfresh
  rw [hend] at hext
  exact ⟨hregions', _, b', fl', hfree, hloop, hlists', hext, hmemrs, hnr'⟩

/-- A range that passes the checks of `bbuddy_addmem` and is apart from the registered
regions. -/
structure AddmemAccepts (b : Bbpalloc) (base len : Nat) : Prop where
  nonnull : base ≠ 0
  valid : roundPgup base ≤ roundPgdown (addU64 base len)
  space : roundPgup (sizeofMemr + 8) + pageSize ≤ roundPgdown (addU64 base len) - roundPgup base
  apart : ∀ m ∈ b.memrs, m.stop ≤ roundPgup base ∨ roundPgdown (addU64 base len) ≤ m.va

def addmemPages (base len : Nat) : Nat :=
  (roundPgdown (addU64 base len) - roundPgup base) / pageSize

/-- **What `bbuddy_addmem` does** without an overflow: the chunks cover the range behind the header,
whether or not the bitmap does. -/
theorem bbuddyAddmem_ok {len : Nat} (dirty : Nat → BitVec 64) (hlists : FreeLists b fl)
    (hpages : PagesOk b.memrs b.nrFreePages (freeSet fl) live) (hacc : AddmemAccepts b base len)
    (hfit : 8 * (addmemPages base len * pageSize - sizeofMemr) < 2 ^ 64) :
    ∃ b' m fl', bbuddyAddmem b base len dirty = .ok (.ok (), b') ∧ FreeLists b' fl' ∧
      RegionsOk (m :: b.memrs) ∧ b'.memrs = m :: b.memrs ∧
      m.va = roundPgup base ∧
      (m.stop = roundPgdown (addU64 base len) ↔ (addmemPages base len + 319) % 32769 ≠ 0) ∧
      m.stop ≤ roundPgdown (addU64 base len) ∧
      (∀ p < m.nrPages, bitAt m.bitmap p = false) ∧
      Extends (freeSet fl) (freeSet fl') m.firstPage (roundPgdown (addU64 base len)) ∧
      b'.nrFreePages = b.nrFreePages + m.nrPages := by
  obtain ⟨hbase, hvalid, hspace, hapart⟩ := hacc
  unfold addmemPages at *
  generalize hmin : roundPgup base = min at *
  generalize hmax : roundPgdown (addU64 base len) = max at *
  have hmindvd : pageSize ∣ min := hmin ▸ roundPgup_dvd base
  have hmaxdvd : pageSize ∣ max := hmax ▸ roundPgdown_dvd (addU64_lt base len)
  have hmaxlt : max < 2 ^ 64 := hmax ▸ roundPgdown_lt (addU64_lt base len)
  obtain ⟨r, hr⟩ := Nat.dvd_sub hmaxdvd hmindvd
  rw [Nat.mul_comm] at hr
  rw [hr] at hspace
  have hr2 : 2 ≤ r := by
    have htwo := hspace
    rw [addmem_min_range] at htwo
    exact Nat.le_of_mul_le_mul_right htwo (by decide)
  have hmax' : min + r * pageSize = max := by omega
  rw [hr, Nat.mul_div_cancel _ (by decide)] at hfit ⊢
  obtain ⟨m, hm⟩ : ∃ m, newMemr min (r * pageSize) dirty = m := ⟨_, rfl⟩
  obtain ⟨hwf, hva, hnr, hstop, hiff, hend⟩ := newMemr_wf hmindvd hr2 hfit (hmax' ▸ hmaxlt) hm
  rw [hmax'] at hstop hiff hend
  have hfirst := hwf.header
  obtain ⟨hregions, b₁, b', fl', hfree, hloop, hlists', hext, hmemrs, hnr'⟩ :=
    addRange_ok hlists hpages hwf hnr hva hstop hend hmaxlt
      (by simp only [pageSize, sizeofMemr] at hfit hmax'; omega)
      ((Nat.dvd_add_right hwf.aligned).mp (hend ▸ hmaxdvd)) hapart
  refine ⟨b', _, fl', ?_, hlists', hregions, hmemrs, hva, hiff, hstop, ?_, hext, hnr'⟩
  · rw [bbuddyAddmem, ukAssert_pos hbase]
    simp only [Outcome.ok_bind, hmin, hmax, if_neg (Nat.not_lt.mpr hvalid), hr,
      if_neg (Nat.not_lt.mpr hspace), hm, hfree, hloop]
    rfl
  · exact fun p hp => by rw [bitAt_bitmapFree, if_pos (by simpa using hp)]

theorem addmem_pagesOk {len : Nat} (dirty : Nat → BitVec 64) (hlists : FreeLists b fl)
    (hpages : PagesOk b.memrs b.nrFreePages (freeSet fl) live) (hacc : AddmemAccepts b base len)
    (hfits : AddmemFits (addmemPages base len)) :
    ∃ b' m fl', bbuddyAddmem b base len dirty = .ok (.ok (), b') ∧ FreeLists b' fl' ∧
      PagesOk b'.memrs b'.nrFreePages (freeSet fl') live ∧
      b'.memrs = m :: b.memrs ∧ m.va = roundPgup base ∧ m.stop = roundPgdown (addU64 base len) ∧
      Extends (freeSet fl) (freeSet fl') m.firstPage m.stop ∧
      b'.nrFreePages = b.nrFreePages + m.nrPages := by
  obtain ⟨b', m, fl', heq, hlists', hregions, hmemrs, hva, hiff, -, hclear, hext, hnr⟩ :=
    bbuddyAddmem_ok dirty hlists hpages hacc hfits.1
  have hstop := hiff.mpr hfits.2
  rw [← hstop] at hext
  refine ⟨b', m, fl', heq, hlists', ?_, hmemrs, hva, hstop, hext, hnr⟩
  rw [hmemrs, hnr]
  refine hpages.addRegion hregions hext.tiling ?_ hclear hext.covers hext.chunk
  rintro c ⟨i, -, hexp, -⟩
  omega

/-- **Region registration.** A range that `bbuddy_addmem` accepts, of a size the page computation is
exact for, becomes a region: its chunks cover exactly its pages, the counter grows by their number,
and the invariant holds again. -/
theorem bbuddy_addmem_inv (b : Bbpalloc) (live : List (Nat × Nat)) (base len : Nat)
    (dirty : Nat → BitVec 64) (hinv : BuddyInv b live) (hacc : AddmemAccepts b base len)
    (hfits : AddmemFits (addmemPages base len)) :
    ∃ b' m fl fl', bbuddyAddmem b base len dirty = .ok (.ok (), b') ∧ BuddyInv b' live ∧
      b'.memrs = m :: b.memrs ∧ m.va = roundPgup base ∧
      m.stop = roundPgdown (addU64 base len) ∧ FreeLists b fl ∧ FreeLists b' fl' ∧
      (∀ a, Covers (freeSet fl') a ↔ Covers (freeSet fl) a ∨
        m.firstPage ≤ a ∧ a < m.firstPage + m.nrPages * pageSize) ∧
      b'.nrFreePages = b.nrFreePages + m.nrPages := by
  obtain ⟨fl, hlists, hpages⟩ := hinv
  obtain ⟨b', m, fl', heq, hlists', hpages', hmemrs, hva, hstop, hext, hnr⟩ :=
    addmem_pagesOk dirty hlists hpages hacc hfits
  exact ⟨b', m, fl, fl', heq, ⟨fl', hlists', hpages'⟩, hmemrs, hva, hstop, hlists, hlists',
    hext.covers, hnr⟩

theorem bbuddy_addmem_three_pages :
    ∃ b' m, bbuddyAddmem bbuddyInit 4096 (3 * 4096) (fun _ => 0#64) = .ok (.ok (), b') ∧
      BuddyInv b' [] ∧ b'.memrs = [m] ∧ b'.nrFreePages = m.nrPages := by
  have hpages : addmemPages 4096 (3 * 4096) = 3 := by decide +kernel
  obtain ⟨b', m, -, -, heq, hinv, hmemrs, -, -, -, -, -, hnr⟩ :=
    bbuddy_addmem_inv bbuddyInit [] 4096 (3 * 4096) (fun _ => 0#64) bbuddyInit_inv
      ⟨by decide, by decide +kernel, by decide +kernel, nofun⟩ (hpages ▸ by decide +kernel)
  exact ⟨b', m, heq, hinv, hmemrs, hnr.trans (Nat.zero_add _)⟩

/-- When the bitmap fills its last page to the bit, the last chunk reaches beyond the
pages of the region. -/
theorem addmem_not_inv {len : Nat} {dirty : Nat → BitVec 64} (hinv : BuddyInv b live)
    (hacc : AddmemAccepts b base len)
    (hfit : 8 * (addmemPages base len * pageSize - sizeofMemr) < 2 ^ 64)
    (hmod : (addmemPages base len + 319) % 32769 = 0) :
    ∃ b', bbuddyAddmem b base len dirty = .ok (.ok (), b') ∧ ¬ BuddyInv b' live := by
  obtain ⟨fl, hlists, hpages⟩ := hinv
  obtain ⟨b', m, fl', heq, hlists', hregions, hmemrs, hva, hiff, hstop, -, hext, -⟩ :=
    bbuddyAddmem_ok dirty hlists hpages hacc hfit
  refine ⟨b', heq, ?_⟩
  rintro ⟨fl₂, hlists₂, hpages₂⟩
  have hlt : m.stop < roundPgdown (addU64 base len) :=
    Nat.lt_of_le_of_ne hstop fun h => hiff.mp h hmod
  -- the first address behind the bitmap's pages is in a chunk of the free lists
  obtain ⟨c, hc, hmem⟩ := (hext.covers m.stop).mpr (.inr ⟨Memr.firstPage_le_stop, hlt⟩)
  rw [hlists'.freeSet_eq hlists₂] at hc
  obtain ⟨m', hm', hstart', hstop'⟩ := hpages₂.inside c hc
  rw [hmemrs] at hm'
  have hheader' := (hregions.wf m' hm').header
  have hlo := hmem.1
  have hhi := hmem.2
  rcases mem_cons.mp hm' with rfl | hm'
  · omega
  rcases hacc.apart m' hm' with h | h
  · have := (hregions.wf m mem_cons_self).header
    have := Memr.firstPage_le_stop (m := m)
    omega
  · omega

/-- A range of 32450 pages: one page for header and bitmap, 32448 pages in the bitmap, and
32449 pages on the free lists. -/
theorem bbuddy_addmem_beyond_bitmap :
    BuddyInv bbuddyInit [] ∧ AddmemAccepts bbuddyInit 4096 (32450 * 4096) ∧
      ∃ b', bbuddyAddmem bbuddyInit 4096 (32450 * 4096) (fun _ => 0#64) = .ok (.ok (), b') ∧
        ¬ BuddyInv b' [] := by
  have hpages : addmemPages 4096 (32450 * 4096) = 32450 := by decide +kernel
  have hacc : AddmemAccepts bbuddyInit 4096 (32450 * 4096) :=
    ⟨by decide, by decide +kernel, by decide +kernel, nofun⟩
  exact ⟨bbuddyInit_inv, hacc,
    addmem_not_inv bbuddyInit_inv hacc (hpages ▸ by decide +kernel) (hpages ▸ by decide +kernel)⟩

end Unikraft.Ukallocbbuddy
