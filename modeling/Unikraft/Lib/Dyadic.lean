import Mathlib.Order.Interval.Finset.Nat
import Mathlib.Data.Nat.Bitwise
import Mathlib.Tactic.Ring

/-!
# Unikraft.Lib.Dyadic

**Dyadic blocks**: intervals of `2 ^ exp` numbers that start at a multiple of their length. Two of
them are apart or nested (`Block.nested`), which is what a buddy system rests on. A `Tiling` is a
set of blocks that are pairwise apart; `Loose F c` is a block beside a tiling, the state while a
buddy system splits or merges.
-/

namespace Unikraft.Lib

/-- The numbers from `start` to `start + 2 ^ exp`. -/
@[ext] structure Block where
  start : Nat
  exp : Nat
  deriving DecidableEq

namespace Block

variable {a : Nat} {b c : Block}

def stop (b : Block) : Nat := b.start + 2 ^ b.exp

instance : Membership Nat Block := ⟨fun b a => b.start ≤ a ∧ a < b.stop⟩

instance (a : Nat) (b : Block) : Decidable (a ∈ b) := instDecidableAnd

theorem mem_iff : a ∈ b ↔ b.start ≤ a ∧ a < b.stop := Iff.rfl

theorem start_lt_stop (b : Block) : b.start < b.stop := Nat.lt_add_of_pos_right (Nat.two_pow_pos _)

theorem start_mem (b : Block) : b.start ∈ b := ⟨le_rfl, b.start_lt_stop⟩

/-- The block starts at a multiple of its length. -/
def Aligned (b : Block) : Prop := 2 ^ b.exp ∣ b.start

def Apart (b c : Block) : Prop := b.stop ≤ c.start ∨ c.stop ≤ b.start

theorem Apart.symm (h : Apart b c) : Apart c b := Or.symm h

theorem Apart.not_mem (h : Apart b c) (hb : a ∈ b) : a ∉ c := by
  intro hc
  rcases h with h | h
  · exact absurd (hb.2.trans_le h) (Nat.not_lt.mpr hc.1)
  · exact absurd (hc.2.trans_le h) (Nat.not_lt.mpr hb.1)

theorem apart_iff_forall : Apart b c ↔ ∀ a ∈ b, a ∉ c := by
  refine ⟨fun h a ha => h.not_mem ha, fun h => ?_⟩
  by_contra hnot
  rw [Apart, not_or, Nat.not_le, Nat.not_le] at hnot
  -- the later of the two starts lies in both
  rcases Nat.le_total b.start c.start with hle | hle
  · exact h c.start ⟨hle, hnot.1⟩ c.start_mem
  · exact h b.start b.start_mem ⟨hle, hnot.2⟩

/-- **Dyadic blocks are nested or apart.** -/
theorem nested (hb : b.Aligned) (hc : c.Aligned) (hle : b.exp ≤ c.exp) :
    Apart b c ∨ (c.start ≤ b.start ∧ b.stop ≤ c.stop) := by
  obtain ⟨d, hd⟩ := Nat.exists_eq_add_of_le hle
  obtain ⟨p, hp⟩ := hb
  obtain ⟨q, hq⟩ := hc
  -- in units of the smaller block
  have hcstart : c.start = 2 ^ b.exp * (2 ^ d * q) := by rw [hq, hd, Nat.pow_add, Nat.mul_assoc]
  have hcstop : c.stop = 2 ^ b.exp * (2 ^ d * q + 2 ^ d) := by
    rw [stop, hcstart, hd, Nat.pow_add, Nat.mul_add]
  have hbstop : b.stop = 2 ^ b.exp * (p + 1) := by rw [stop, hp, Nat.mul_add, Nat.mul_one]
  rw [Apart, hcstop, hbstop, hcstart, hp]
  by_cases h₁ : p + 1 ≤ 2 ^ d * q
  · exact .inl (.inl (Nat.mul_le_mul_left _ h₁))
  by_cases h₂ : 2 ^ d * q + 2 ^ d ≤ p
  · exact .inl (.inr (Nat.mul_le_mul_left _ h₂))
  · exact .inr ⟨Nat.mul_le_mul_left _ (by omega), Nat.mul_le_mul_left _ (by omega)⟩

theorem eq_start_of_dvd (hb : b.Aligned) (ha : a ∈ b) (hdvd : 2 ^ b.exp ∣ a) : a = b.start := by
  obtain ⟨k, hk⟩ := Nat.exists_eq_add_of_le ha.1
  have hlt : k < 2 ^ b.exp := by
    have := ha.2
    rw [stop] at this
    omega
  have hdvd' : 2 ^ b.exp ∣ k := (Nat.dvd_add_right hb).mp (hk ▸ hdvd)
  rw [hk, Nat.eq_zero_of_dvd_of_lt hdvd' hlt, Nat.add_zero]

/-! ### Halves and buddies -/

variable {x k : Nat}

theorem mem_halves :
    a ∈ (⟨x, k + 1⟩ : Block) ↔ a ∈ (⟨x, k⟩ : Block) ∨ a ∈ (⟨x + 2 ^ k, k⟩ : Block) := by
  simp only [mem_iff, stop]
  omega

theorem aligned_halves (h : (⟨x, k + 1⟩ : Block).Aligned) :
    (⟨x, k⟩ : Block).Aligned ∧ (⟨x + 2 ^ k, k⟩ : Block).Aligned := by
  have hx : 2 ^ k ∣ x := (pow_dvd_pow 2 (Nat.le_succ k)).trans h
  exact ⟨hx, (Nat.dvd_add_right hx).mpr dvd_rfl⟩

theorem not_aligned_upper (h : (⟨x, k + 1⟩ : Block).Aligned) :
    ¬ (⟨x + 2 ^ k, k + 1⟩ : Block).Aligned := by
  intro hupper
  have hdvd : 2 ^ (k + 1) ∣ 2 ^ k := (Nat.dvd_add_right h).mp hupper
  exact absurd (Nat.le_of_dvd (Nat.two_pow_pos k) hdvd)
    (Nat.not_le.mpr (Nat.pow_lt_pow_right (by decide) (Nat.lt_succ_self k)))

theorem apart_halves : Apart (⟨x, k⟩ : Block) ⟨x + 2 ^ k, k⟩ := .inl le_rfl

section

variable {y z : Nat} (hyz : y = x ∧ z = x + 2 ^ k ∨ z = x ∧ y = x + 2 ^ k)

include hyz

theorem aligned_buddy (hx : (⟨x, k + 1⟩ : Block).Aligned) : (⟨z, k⟩ : Block).Aligned := by
  obtain ⟨hlo, hhi⟩ := aligned_halves hx
  rcases hyz with ⟨-, rfl⟩ | ⟨rfl, -⟩
  · exact hhi
  · exact hlo

theorem notMem_buddy : z ∉ (⟨y, k⟩ : Block) := by
  rcases hyz with ⟨rfl, rfl⟩ | ⟨rfl, rfl⟩
  · exact fun hmem => apart_halves.not_mem hmem (start_mem _)
  · exact apart_halves.not_mem (start_mem _)

end

theorem and_two_pow_eq_zero_iff {q k : Nat} : 2 ^ k * q &&& 2 ^ k = 0 ↔ q % 2 = 0 := by
  rw [Nat.and_two_pow, Nat.testBit_eq_decide_div_mod_eq,
    Nat.mul_div_cancel_left _ (Nat.two_pow_pos k), Nat.mul_eq_zero,
    or_iff_left (Nat.two_pow_pos k).ne',
    Bool.toNat_eq_zero, decide_eq_false_iff_not]
  omega

theorem aligned_of_even (h : (⟨x, k⟩ : Block).Aligned) (hbit : x &&& 2 ^ k = 0) :
    (⟨x, k + 1⟩ : Block).Aligned := by
  obtain ⟨q, rfl⟩ : 2 ^ k ∣ x := h
  obtain ⟨r, rfl⟩ := Nat.dvd_of_mod_eq_zero (and_two_pow_eq_zero_iff.mp hbit)
  exact ⟨r, by ring⟩

theorem aligned_of_odd (h : (⟨x, k⟩ : Block).Aligned) (hbit : x &&& 2 ^ k ≠ 0) :
    2 ^ k ≤ x ∧ (⟨x - 2 ^ k, k + 1⟩ : Block).Aligned := by
  obtain ⟨q, rfl⟩ : 2 ^ k ∣ x := h
  have hq : q % 2 = 1 := Nat.mod_two_ne_zero.mp fun heq => hbit (and_two_pow_eq_zero_iff.mpr heq)
  obtain ⟨r, rfl⟩ : ∃ r, q = 2 * r + 1 := ⟨q / 2, by omega⟩
  have hx : 2 ^ k * (2 * r + 1) = 2 ^ (k + 1) * r + 2 ^ k := by ring
  rw [hx, Nat.add_sub_cancel]
  exact ⟨Nat.le_add_left _ _, r, rfl⟩

end Block

/-! ### Tilings -/

/-- Aligned blocks that are pairwise apart. -/
structure Tiling (F : Set Block) : Prop where
  aligned : ∀ b ∈ F, b.Aligned
  apart : F.Pairwise Block.Apart

/-- The numbers in some block of `F`. -/
def Covers (F : Set Block) (a : Nat) : Prop := ∃ b ∈ F, a ∈ b

variable {F F' G : Set Block} {b c : Block} {a x k : Nat}

theorem covers_insert : Covers (insert b F) a ↔ a ∈ b ∨ Covers F a := by
  simp only [Covers, Set.mem_insert_iff, or_and_right, exists_or, exists_eq_left]

theorem tiling_empty : Tiling ∅ := ⟨nofun, Set.pairwise_empty _⟩

theorem Tiling.mono (h : Tiling G) (hFG : F ⊆ G) : Tiling F :=
  ⟨fun b hb => h.aligned b (hFG hb), h.apart.mono hFG⟩

theorem Tiling.eq_of_mem (h : Tiling F) (hb : b ∈ F) (hc : c ∈ F) (hab : a ∈ b) (hac : a ∈ c) :
    b = c :=
  by_contra fun hne => (h.apart hb hc hne).not_mem hab hac

/-- A block `c` beside the tiling `F`. -/
structure Loose (F : Set Block) (c : Block) : Prop where
  tiling : Tiling F
  aligned : c.Aligned
  apart : ∀ b ∈ F, b.Apart c

theorem Loose.insert (h : Loose F c) : Tiling (insert c F) where
  aligned b hb := by
    rcases hb with rfl | hb
    · exact h.aligned
    · exact h.tiling.aligned b hb
  apart := h.tiling.apart.insert fun b hb _ => ⟨(h.apart b hb).symm, h.apart b hb⟩

theorem loose_of_insert (h : Tiling (insert c F)) (hc : c ∉ F) : Loose F c where
  tiling := h.mono (Set.subset_insert _ _)
  aligned := h.aligned c (Set.mem_insert _ _)
  apart _ hb := h.apart (Set.mem_insert_of_mem _ hb) (Set.mem_insert _ _) fun heq => hc (heq ▸ hb)

theorem Tiling.take (h : Tiling F) (hc : c ∈ F) : Loose (F \ {c}) c := by
  refine loose_of_insert ?_ fun hmem => hmem.2 rfl
  rwa [Set.insert_sdiff_singleton, Set.insert_eq_of_mem hc]

theorem covers_take (hc : c ∈ F) : a ∈ c ∨ Covers (F \ {c}) a ↔ Covers F a := by
  rw [← covers_insert, Set.insert_sdiff_singleton, Set.insert_eq_of_mem hc]

theorem Loose.split (h : Loose F ⟨x, k + 1⟩) : Loose (Insert.insert ⟨x + 2 ^ k, k⟩ F) ⟨x, k⟩ := by
  obtain ⟨hlo, hhi⟩ := Block.aligned_halves h.aligned
  have hapart : ∀ b ∈ F, ∀ c : Block, (∀ a ∈ c, a ∈ (⟨x, k + 1⟩ : Block)) → b.Apart c :=
    fun b hb c hc => Block.apart_iff_forall.mpr fun a ha hac =>
      (h.apart b hb).not_mem ha (hc a hac)
  refine ⟨Loose.insert ⟨h.tiling, hhi, fun b hb => hapart b hb _ fun a ha => ?_⟩, hlo, ?_⟩
  · exact Block.mem_halves.mpr (.inr ha)
  rintro b (rfl | hb)
  · exact Block.apart_halves.symm
  · exact hapart b hb _ fun a ha => Block.mem_halves.mpr (.inl ha)

theorem covers_split :
    a ∈ (⟨x, k⟩ : Block) ∨ Covers (insert ⟨x + 2 ^ k, k⟩ F) a ↔
      a ∈ (⟨x, k + 1⟩ : Block) ∨ Covers F a := by
  rw [covers_insert, ← or_assoc, ← Block.mem_halves]

variable {y z : Nat}

theorem Loose.merge (h : Loose F ⟨y, k⟩) (hz : ⟨z, k⟩ ∈ F) (hx : (⟨x, k + 1⟩ : Block).Aligned)
    (hyz : y = x ∧ z = x + 2 ^ k ∨ z = x ∧ y = x + 2 ^ k) : Loose (F \ {⟨z, k⟩}) ⟨x, k + 1⟩ := by
  refine ⟨h.tiling.mono Set.sdiff_subset, hx, fun b hb => ?_⟩
  refine Block.apart_iff_forall.mpr fun a ha hax => ?_
  have hz' : a ∉ (⟨z, k⟩ : Block) := (h.tiling.apart hb.1 hz hb.2).not_mem ha
  have hy' : a ∉ (⟨y, k⟩ : Block) := (h.apart b hb.1).not_mem ha
  rcases hyz with ⟨rfl, rfl⟩ | ⟨rfl, rfl⟩
  · exact (Block.mem_halves.mp hax).elim hy' hz'
  · exact (Block.mem_halves.mp hax).elim hz' hy'

theorem covers_merge (hz : ⟨z, k⟩ ∈ F) (hyz : y = x ∧ z = x + 2 ^ k ∨ z = x ∧ y = x + 2 ^ k) :
    a ∈ (⟨x, k + 1⟩ : Block) ∨ Covers (F \ {⟨z, k⟩}) a ↔ a ∈ (⟨y, k⟩ : Block) ∨ Covers F a := by
  rw [← covers_take hz, Block.mem_halves]
  rcases hyz with ⟨rfl, rfl⟩ | ⟨rfl, rfl⟩
  · rw [or_assoc]
  · rw [or_assoc, or_left_comm]

/-- **The buddy of a loose block**, if it is covered, is covered by a block that starts there and is
not larger. -/
theorem Loose.buddy (h : Loose F ⟨y, k⟩) (hx : (⟨x, k + 1⟩ : Block).Aligned)
    (hyz : y = x ∧ z = x + 2 ^ k ∨ z = x ∧ y = x + 2 ^ k) (hz : Covers F z) :
    ∃ l ≤ k, ⟨z, l⟩ ∈ F := by
  obtain ⟨b, hb, hzb⟩ := hz
  have halign : b.Aligned := h.tiling.aligned b hb
  have hle : b.exp ≤ k := by
    by_contra hlt
    -- a larger block around `z` would contain the whole pair
    rcases Block.nested hx halign (Nat.lt_of_not_le hlt) with hapart | ⟨hstart, hstop⟩
    · refine hapart.not_mem (Block.mem_halves.mpr ?_) hzb
      rcases hyz with ⟨-, rfl⟩ | ⟨rfl, -⟩
      · exact .inr (Block.start_mem _)
      · exact .inl (Block.start_mem _)
    have hy : y ∈ (⟨x, k + 1⟩ : Block) := Block.mem_halves.mpr (by
      rcases hyz with ⟨rfl, -⟩ | ⟨-, rfl⟩
      · exact .inl (Block.start_mem _)
      · exact .inr (Block.start_mem _))
    exact (h.apart b hb).not_mem ⟨hstart.trans hy.1, hy.2.trans_le hstop⟩ (Block.start_mem _)
  have hzdvd : 2 ^ k ∣ z := Block.aligned_buddy hyz hx
  have hz : z = b.start := Block.eq_start_of_dvd halign hzb ((pow_dvd_pow 2 hle).trans hzdvd)
  exact ⟨b.exp, hle, hz ▸ hb⟩

/-! ### Canonical tilings -/

/-- No two blocks of the set are the halves of an aligned block. -/
def Canonical (F : Set Block) : Prop :=
  ∀ x k, (⟨x, k + 1⟩ : Block).Aligned → ⟨x, k⟩ ∈ F → (⟨x + 2 ^ k, k⟩ : Block) ∉ F

theorem Canonical.mono (h : Canonical G) (hFG : F ⊆ G) : Canonical F := fun x k halign hlo hhi =>
  h x k halign (hFG hlo) (hFG hhi)

theorem Canonical.insert (h : Canonical F) (hx : (⟨x, k + 1⟩ : Block).Aligned)
    (hyz : y = x ∧ z = x + 2 ^ k ∨ z = x ∧ y = x + 2 ^ k) (hz : (⟨z, k⟩ : Block) ∉ F) :
    Canonical (Insert.insert ⟨y, k⟩ F) := by
  have hpos := Nat.two_pow_pos k
  intro x' k' halign hlo hhi
  rcases hlo with hlo | hlo <;> rcases hhi with hhi | hhi
  · have hstart := congrArg Block.start (hlo.trans hhi.symm)
    have := Nat.two_pow_pos k'
    simp only at hstart
    omega
  · -- the new block is the lower half: its buddy starts behind it
    obtain ⟨rfl, rfl⟩ := Block.mk.inj hlo
    rcases hyz with ⟨rfl, rfl⟩ | ⟨rfl, rfl⟩
    · exact hz hhi
    · exact Block.not_aligned_upper hx halign
  · -- the new block is the upper half
    obtain ⟨hy, rfl⟩ := Block.mk.inj hhi
    rcases hyz with ⟨rfl, rfl⟩ | ⟨rfl, rfl⟩
    · exact Block.not_aligned_upper halign (hy ▸ hx)
    obtain rfl : x' = z := Nat.add_right_cancel hy
    exact hz hlo
  · exact h x' k' halign hlo hhi

/-- From the tiling `F` and the loose block `c` to `F'` and `c'`, covering the same numbers
and making no buddies. -/
structure Regroup (F : Set Block) (c : Block) (F' : Set Block) (c' : Block) : Prop where
  covers : ∀ a, a ∈ c' ∨ Covers F' a ↔ a ∈ c ∨ Covers F a
  canonical : Canonical F → Canonical F'

theorem Regroup.refl : Regroup F c F c := ⟨fun _ => Iff.rfl, id⟩

theorem Regroup.trans {F₁ F₂ F₃ : Set Block} {c₁ c₂ c₃ : Block} (h : Regroup F₁ c₁ F₂ c₂)
    (h' : Regroup F₂ c₂ F₃ c₃) : Regroup F₁ c₁ F₃ c₃ :=
  ⟨fun a => (h'.covers a).trans (h.covers a), fun hcan => h'.canonical (h.canonical hcan)⟩

theorem Loose.regroup_split (h : Loose F ⟨x, k + 1⟩) :
    Regroup F ⟨x, k + 1⟩ (Insert.insert ⟨x + 2 ^ k, k⟩ F) ⟨x, k⟩ := by
  refine ⟨fun a => covers_split, fun hcan => hcan.insert h.aligned (.inr ⟨rfl, rfl⟩) fun hlo => ?_⟩
  exact (h.apart _ hlo).not_mem (Block.start_mem _)
    (Block.mem_halves.mpr (.inl (Block.start_mem _)))

theorem regroup_merge (hz : ⟨z, k⟩ ∈ F) (hyz : y = x ∧ z = x + 2 ^ k ∨ z = x ∧ y = x + 2 ^ k) :
    Regroup F ⟨y, k⟩ (F \ {⟨z, k⟩}) ⟨x, k + 1⟩ :=
  ⟨fun _ => covers_merge hz hyz, fun hcan => hcan.mono Set.sdiff_subset⟩

/-- `F'` has besides the blocks of `F` a tiling of the numbers from `lo` to `hi` without
buddies. -/
structure Extends (F F' : Set Block) (lo hi : Nat) : Prop where
  tiling : Tiling F'
  subset : F ⊆ F'
  covers : ∀ a, Covers F' a ↔ Covers F a ∨ lo ≤ a ∧ a < hi
  chunk : ∀ c ∈ F', c ∈ F ∨ lo ≤ c.start ∧ c.stop ≤ hi
  canonical : ∀ x k, (⟨x, k + 1⟩ : Block).Aligned → lo ≤ x → x + 2 ^ (k + 1) ≤ hi →
    ⟨x, k⟩ ∈ F' → ⟨x + 2 ^ k, k⟩ ∉ F'

theorem Extends.refl {lo : Nat} (h : Tiling F) : Extends F F lo lo where
  tiling := h
  subset := Set.Subset.rfl
  covers a := (or_iff_left (by omega)).symm
  chunk c hc := .inl hc
  canonical x k _ hlo hhi := by
    have := Nat.two_pow_pos (k + 1)
    omega

/-- The first block of the range is the largest that is aligned and fits. -/
theorem Extends.cons {lo hi : Nat} (hle : lo + 2 ^ k ≤ hi)
    (hmax : 2 ^ (k + 1) ∣ lo → hi < lo + 2 ^ (k + 1))
    (h : Extends (insert ⟨lo, k⟩ F) F' (lo + 2 ^ k) hi) : Extends F F' lo hi where
  tiling := h.tiling
  subset := (Set.subset_insert _ _).trans h.subset
  covers a := by
    rw [h.covers, covers_insert, Block.mem_iff, Block.stop]
    simp only
    have hpos := Nat.two_pow_pos k
    by_cases hlt : a < lo + 2 ^ k
    · have hhi : a < hi := hlt.trans_le hle
      simp only [hlt, hhi, Nat.not_le.mpr hlt, and_true, or_false]
      exact Or.comm
    have hlo : lo ≤ a := by omega
    simp only [hlt, hlo, Nat.not_lt.mp hlt, and_false, true_and, false_or]
  chunk c hc := by
    have hpos := Nat.two_pow_pos k
    rcases h.chunk c hc with (rfl | hc) | ⟨hlo, hhi⟩
    · exact .inr ⟨le_rfl, hle⟩
    · exact .inl hc
    · exact .inr ⟨by omega, hhi⟩
  canonical x j halign hlo hhi hx := by
    by_cases hlt : x < lo + 2 ^ k
    · have heq :=
        h.tiling.eq_of_mem hx (h.subset (Set.mem_insert _ _)) (Block.start_mem _) ⟨hlo, hlt⟩
      cases heq
      exact absurd hhi (Nat.not_le.mpr (hmax halign))
    · exact h.canonical x j halign (Nat.not_lt.mp hlt) hhi hx

/-- A block that is covered by strictly smaller ones contains two buddies. -/
theorem Tiling.not_canonical (hF : Tiling F) (hb : b.Aligned) (hcov : ∀ a ∈ b, Covers F a)
    (hc : c ∈ F) (hcb : c.start ∈ b) (hlt : c.exp < b.exp) : ¬ Canonical F := by
  obtain ⟨x, n⟩ := b
  induction n generalizing x c with
  | zero => exact absurd hlt (Nat.not_lt_zero _)
  | succ k ih =>
    intro hcan
    have hhalves := Block.aligned_halves hb
    -- a block of the tiling in one half is this half, or the half contains buddies
    have hhalf : ∀ y, (⟨y, k⟩ : Block).Aligned →
        (∀ a ∈ (⟨y, k⟩ : Block), a ∈ (⟨x, k + 1⟩ : Block)) →
        (⟨y, k⟩ : Block) ∈ F := by
      intro y hy hsub
      obtain ⟨d, hd, hyd⟩ := hcov y (hsub y (Block.start_mem _))
      have hle : d.exp ≤ k := by
        -- a larger block would contain `c`
        by_contra hgt
        rcases Block.nested hb (hF.aligned d hd) (Nat.lt_of_not_le hgt) with hapart | ⟨hlo, hhi⟩
        · exact hapart.not_mem (hsub y (Block.start_mem _)) hyd
        have hcd : c.start ∈ d := ⟨hlo.trans hcb.1, hcb.2.trans_le hhi⟩
        have heq := hF.eq_of_mem hc hd (Block.start_mem c) hcd
        rw [heq] at hlt
        exact hgt (Nat.le_of_lt_succ hlt)
      have hstart : y = d.start := Block.eq_start_of_dvd (hF.aligned d hd) hyd
        ((pow_dvd_pow 2 hle).trans hy)
      rcases Nat.lt_or_eq_of_le hle with hlt' | heq
      · exact absurd hcan (ih hd y hy (fun a ha => hcov a (hsub a ha))
          (hstart ▸ Block.start_mem _) hlt')
      have hdy : d = ⟨y, k⟩ := Block.ext hstart.symm heq
      exact hdy ▸ hd
    exact hcan x k hb (hhalf x hhalves.1 fun a ha => Block.mem_halves.mpr (.inl ha))
      (hhalf _ hhalves.2 fun a ha => Block.mem_halves.mpr (.inr ha))

theorem Tiling.subset_of_canonical (hF : Tiling F) (hG : Tiling G) (hcF : Canonical F)
    (hcG : Canonical G) (hcov : ∀ a, Covers F a ↔ Covers G a) : F ⊆ G := by
  intro c hc
  obtain ⟨d, hd, hcd⟩ := (hcov c.start).mp ⟨c, hc, Block.start_mem c⟩
  have halc := hF.aligned c hc
  have hald := hG.aligned d hd
  rcases Nat.lt_trichotomy c.exp d.exp with hlt | heq | hlt
  · exact absurd hcF (hF.not_canonical hald (fun a ha => (hcov a).mpr ⟨d, hd, ha⟩) hc hcd hlt)
  · have hstart : c.start = d.start := Block.eq_start_of_dvd hald hcd (heq ▸ halc)
    have hcd : c = d := Block.ext hstart heq
    exact hcd ▸ hd
  have hdc : d.start ∈ c := by
    rcases Block.nested hald halc hlt.le with hapart | ⟨hlo, hhi⟩
    · exact absurd (Block.start_mem c) (hapart.not_mem hcd)
    · exact ⟨hlo, (Block.start_lt_stop d).trans_le hhi⟩
  exact absurd hcG (hG.not_canonical halc (fun a ha => (hcov a).mp ⟨c, hc, ha⟩) hd hdc hlt)

/-- **The canonical tiling of a set of numbers is unique.** -/
theorem Tiling.eq_of_canonical (hF : Tiling F) (hG : Tiling G) (hcF : Canonical F)
    (hcG : Canonical G) (hcov : ∀ a, Covers F a ↔ Covers G a) : F = G :=
  Set.Subset.antisymm (hF.subset_of_canonical hG hcF hcG hcov)
    (hG.subset_of_canonical hF hcG hcF fun a => (hcov a).symm)

/-! ### Disjoint intervals -/

/-- Intervals below `n` that are pairwise apart have a total length of at most `n`. -/
theorem sum_lengths_le {α : Type*} {l : List α} {n : Nat} (lo hi : α → Nat)
    (hle : ∀ x ∈ l, hi x ≤ n) (hapart : l.Pairwise fun x y => hi x ≤ lo y ∨ hi y ≤ lo x) :
    (l.map fun x => hi x - lo x).sum ≤ n := by
  -- the numbers in the intervals, one interval after the other
  have hnodup : (l.flatMap fun x => List.range' (lo x) (hi x - lo x)).Nodup := by
    refine List.nodup_flatMap.mpr ⟨fun x _ => List.nodup_range', hapart.imp ?_⟩
    intro x y h a hx hy
    rw [List.mem_range'_1] at hx hy
    omega
  have hsub : (l.flatMap fun x => List.range' (lo x) (hi x - lo x)) ⊆ List.range n := by
    intro a ha
    obtain ⟨x, hx, hax⟩ := List.mem_flatMap.mp ha
    have hlast := hle x hx
    rw [List.mem_range'_1] at hax
    exact List.mem_range.mpr (by omega)
  have hlen := (hnodup.subperm hsub).length_le
  simpa only [List.length_flatMap, List.length_range', List.length_range] using hlen

end Unikraft.Lib
