import Unikraft.Lib.Dyadic
import Unikraft.Ukallocbbuddy.Bbuddy

/-!
# The lists of free chunks

`FreeLists b fl` says that the pointers of `b` link the chunks `fl i` into list `i`, and that their
headers have this level. Each pointer operation of the source is an operation on these lists.
-/

namespace Unikraft.Ukallocbbuddy

open Lib Function List

/-- The nodes of list `i` when it has the chunks `vas`. -/
def nodes (i : Nat) (vas : List Nat) : List ChunkHead := vas.map .chunk ++ [.tail i]

/-- The allocator has the chunks `fl i` on its list `i`. -/
structure FreeLists (b : Bbpalloc) (fl : Nat → List Nat) : Prop where
  seg : ∀ i < freelistSize, Seg b.links (.head i) (nodes i (fl i))
  tail : ∀ i < freelistSize, b.links.cell (.next (.tail i)) = none
  nodup : ∀ i < freelistSize, (fl i).Nodup
  level : ∀ i < freelistSize, ∀ va ∈ fl i, b.level va = i

def freeSet (fl : Nat → List Nat) : Set Block :=
  {c | ∃ i < freelistSize, c.exp = i + 12 ∧ c.start ∈ fl i}

variable {b : Bbpalloc} {fl : Nat → List Nat} {i j va : Nat} {vas : List Nat}

theorem mem_nodes_chunk : ChunkHead.chunk va ∈ nodes i vas ↔ va ∈ vas := by
  simp [nodes]

theorem mem_nodes_tail : ChunkHead.tail j ∈ nodes i vas ↔ j = i := by
  simp [nodes]

theorem nodup_nodes (h : vas.Nodup) : (nodes i vas).Nodup := by
  rw [nodes, nodup_append]
  refine ⟨h.map fun a b hab => ChunkHead.chunk.inj hab, nodup_singleton _, ?_⟩
  rintro x hx y hy rfl
  rw [mem_singleton] at hy
  subst hy
  simp at hx

theorem mem_freeSet (hi : i < freelistSize) : (⟨va, i + 12⟩ : Block) ∈ freeSet fl ↔ va ∈ fl i := by
  constructor
  · rintro ⟨j, -, hj, hmem⟩
    obtain rfl : i = j := Nat.add_right_cancel hj
    exact hmem
  · exact fun h => ⟨i, hi, rfl, h⟩

theorem freeSet_push (fl : Nat → List Nat) (va : Nat) (hi : i < freelistSize) :
    freeSet (Function.update fl i (va :: fl i)) = insert ⟨va, i + 12⟩ (freeSet fl) := by
  ext ⟨start, exp⟩
  simp only [freeSet, Set.mem_insert_iff, Set.mem_ofPred_eq, Block.mk.injEq]
  constructor
  · rintro ⟨j, hj, hexp, hmem⟩
    by_cases hji : j = i
    · subst hji
      rw [update_self, mem_cons] at hmem
      exact hmem.imp (fun h => ⟨h, hexp⟩) fun h => ⟨j, hj, hexp, h⟩
    rw [update_of_ne hji] at hmem
    exact .inr ⟨j, hj, hexp, hmem⟩
  rintro (⟨rfl, rfl⟩ | ⟨j, hj, hexp, hmem⟩)
  · exact ⟨i, hi, rfl, by simp⟩
  refine ⟨j, hj, hexp, ?_⟩
  by_cases hji : j = i
  · subst hji
    rw [update_self]
    exact mem_cons_of_mem _ hmem
  · rwa [update_of_ne hji]

theorem freeSet_erase (va : Nat) (hnd : (fl i).Nodup) :
    freeSet (Function.update fl i ((fl i).erase va)) = freeSet fl \ {⟨va, i + 12⟩} := by
  ext ⟨start, exp⟩
  simp only [freeSet, Set.mem_sdiff, Set.mem_ofPred_eq, Set.mem_singleton_iff, Block.mk.injEq]
  constructor
  · rintro ⟨j, hj, hexp, hmem⟩
    by_cases hji : j = i
    · subst hji
      rw [update_self, hnd.mem_erase_iff] at hmem
      exact ⟨⟨j, hj, hexp, hmem.2⟩, fun h => hmem.1 h.1⟩
    rw [update_of_ne hji] at hmem
    exact ⟨⟨j, hj, hexp, hmem⟩, fun h => hji (by omega)⟩
  rintro ⟨⟨j, hj, hexp, hmem⟩, hne⟩
  refine ⟨j, hj, hexp, ?_⟩
  by_cases hji : j = i
  · subst hji
    rw [update_self, hnd.mem_erase_iff]
    exact ⟨fun h => hne ⟨h, hexp⟩, hmem⟩
  · rwa [update_of_ne hji]

namespace FreeLists

theorem unique (h : FreeLists b fl) (hi : i < freelistSize) (hj : j < freelistSize)
    (hvi : va ∈ fl i) (hvj : va ∈ fl j) : i = j := by
  rw [← h.level i hi va hvi, h.level j hj va hvj]

theorem nodes_disjoint (h : FreeLists b fl) (hj : j < freelistSize) (hi : i < freelistSize)
    (hji : j ≠ i) : ∀ x ∈ nodes j (fl j), x ∉ nodes i (fl i) := by
  intro x hx hx'
  cases x with
  | chunk va => exact hji (h.unique hj hi (mem_nodes_chunk.mp hx) (mem_nodes_chunk.mp hx'))
  | tail k => exact hji ((mem_nodes_tail.mp hx).symm.trans (mem_nodes_tail.mp hx'))

theorem endSlot_nodes (i : Nat) (vas : List Nat) :
    endSlot (.head i) (nodes i vas) = (.next (.tail i) : Slot Nat ChunkHead) := by
  rw [nodes, endSlot_append]
  rfl

theorem endSlot_nodes_cons {first : ChunkHead} {rest : List ChunkHead}
    (hnodes : nodes i vas = first :: rest) :
    endSlot (.next first) rest = (.next (.tail i) : Slot Nat ChunkHead) := by
  have hend := endSlot_nodes i vas
  rwa [hnodes] at hend

section

variable (h : FreeLists b fl)

include h

theorem eq_of_mem {fl' : Nat → List Nat} (h' : FreeLists b fl') (hi : i < freelistSize) :
    fl i = fl' i := by
  have hend : ∀ vas, b.links.cell (endSlot (.head i) (nodes i vas)) = none := fun vas => by
    rw [endSlot_nodes, h.tail i hi]
  have hnodes : nodes i (fl i) = nodes i (fl' i) :=
    (h.seg i hi).unique (h'.seg i hi) (hend _) (hend _)
  exact map_injective_iff.mpr (fun _ _ hab => ChunkHead.chunk.inj hab) (append_cancel_right hnodes)

theorem freeSet_eq {fl' : Nat → List Nat} (h' : FreeLists b fl') : freeSet fl = freeSet fl' := by
  ext c
  exact exists_congr fun i => and_congr_right fun hi => by rw [h.eq_of_mem h' hi]

theorem update {b' : Bbpalloc} (own : List ChunkHead) (hseg : Seg b'.links (.head i) (nodes i vas))
    (hoff : SameOff b.links b'.links i own)
    (hown : ∀ j < freelistSize, j ≠ i → ∀ x ∈ nodes j (fl j), x ∉ own)
    (htail : b'.links.cell (.next (.tail i)) = none) (hnd : vas.Nodup)
    (hlevel : ∀ va ∈ vas, b'.level va = i)
    (hlevel' : ∀ j < freelistSize, j ≠ i → ∀ va ∈ fl j, b'.level va = b.level va) :
    FreeLists b' (Function.update fl i vas) := by
  refine ⟨fun j hj => ?_, fun j hj => ?_, fun j hj => ?_, fun j hj => ?_⟩ <;> by_cases hji : j = i
  · subst hji
    rwa [update_self]
  · rw [update_of_ne hji]
    exact (h.seg j hj).frame hoff hji (hown j hj hji)
  · rwa [hji]
  · rw [hoff.next _ (hown j hj hji _ (mem_nodes_tail.mpr rfl)), h.tail j hj]
  · subst hji
    rwa [update_self]
  · rw [update_of_ne hji]
    exact h.nodup j hj
  · subst hji
    rwa [update_self]
  rw [update_of_ne hji]
  intro va hva
  rw [hlevel' j hj hji va hva, h.level j hj va hva]

theorem freelistEmpty_eq (hi : i < freelistSize) :
    freelistEmpty b i = .ok (decide (fl i = [])) := by
  have hseg := h.seg i hi
  cases hfl : fl i with
  | nil =>
    rw [hfl] at hseg
    rw [freelistEmpty, hseg.1]
    simp only [h.tail i hi]
  | cons va vas =>
    rw [hfl] at hseg
    rw [freelistEmpty, hseg.1]
    have hnext : ∃ y, b.links.cell (.next (.chunk va)) = some y := by
      cases vas with
      | nil | cons va' vas => exact ⟨_, hseg.2.2.1⟩
    obtain ⟨y, hy⟩ := hnext
    simp only [hy, reduceCtorEq, decide_false]

theorem findOrder_spec {fuel : Nat} (hfuel : i + fuel = freelistSize) :
    ∃ k, findOrder b fuel i = .ok k ∧ i ≤ k ∧ k ≤ freelistSize ∧
      (∀ j, i ≤ j → j < k → fl j = []) ∧ (k < freelistSize → fl k ≠ []) := by
  induction fuel generalizing i with
  | zero => exact ⟨i, rfl, le_rfl, hfuel.le, fun j _ _ => by omega, fun hlt => by omega⟩
  | succ fuel ih =>
    rw [findOrder, h.freelistEmpty_eq (by omega), Outcome.ok_bind]
    by_cases hfl : fl i = []
    · obtain ⟨k, hk, hik, hle, hempty, hfull⟩ := ih (i := i + 1) (by omega)
      refine ⟨k, by simpa only [hfl, decide_true, if_true] using hk, by omega, hle, ?_, hfull⟩
      intro j hj hjk
      rcases Nat.eq_or_lt_of_le hj with rfl | hlt
      · exact hfl
      · exact hempty j hlt hjk
    refine ⟨i, ?_, le_rfl, by omega, fun j _ _ => by omega, fun _ => hfl⟩
    simp only [hfl, decide_false, Bool.false_eq_true, if_false]
    rfl

theorem linkChunk_ok (hi : i < freelistSize) (hva : ∀ j < freelistSize, va ∉ fl j) :
    ∃ b', linkChunk b i va = .ok b' ∧ FreeLists b' (Function.update fl i (va :: fl i)) ∧
      b'.memrs = b.memrs ∧ b'.nrFreePages = b.nrFreePages := by
  obtain ⟨first, rest, hnodes⟩ : ∃ first rest, nodes i (fl i) = first :: rest :=
    exists_cons_of_ne_nil (by simp [nodes])
  have hseg := h.seg i hi
  have hnd := nodup_nodes (i := i) (h.nodup i hi)
  have hfresh : ∀ j < freelistSize, ChunkHead.chunk va ∉ nodes j (fl j) := fun j hj hmem =>
    hva j hj (mem_nodes_chunk.mp hmem)
  have hend := endSlot_nodes_cons hnodes
  have hnotin := hfresh i hi
  rw [hnodes] at hseg hnd hnotin
  obtain ⟨hseg', htail, hoff⟩ := hseg.pushFront hnotin hnd
  have heq : linkChunk b i va = .ok { b with
        level := Function.update b.level va i
        links := b.links.pushFront i (.chunk va) first } := by
    rw [linkChunk, if_pos hi, hseg.1]
  refine ⟨_, heq, ?_, rfl, rfl⟩
  refine h.update (.chunk va :: first :: rest) ?_ hoff ?_ ?_ ?_ ?_ ?_
  · have hcons : nodes i (va :: fl i) = .chunk va :: nodes i (fl i) := rfl
    rw [hcons, hnodes]
    exact hseg'
  · intro j hj hji x hx
    rw [← hnodes, mem_cons, not_or]
    exact ⟨fun heq => hfresh j hj (heq ▸ hx), h.nodes_disjoint hj hi hji x hx⟩
  · rw [← hend]
    exact htail.trans (hend ▸ h.tail i hi)
  · exact nodup_cons.mpr ⟨hva i hi, h.nodup i hi⟩
  · intro va' hva'
    rcases mem_cons.mp hva' with rfl | hmem
    · exact update_self _ _ _
    refine (update_of_ne (ne_of_mem_of_not_mem hmem (hva i hi)) _ _).trans ?_
    exact h.level i hi va' hmem
  intro j hj hji va' hva'
  exact update_of_ne (ne_of_mem_of_not_mem hva' (hva j hj)) _ _

theorem unlink_ok (hi : i < freelistSize) (hva : va ∈ fl i) :
    ∃ second, b.links.cell (.next (.chunk va)) = some second ∧
      FreeLists { b with links := b.links.unlink (.chunk va) second }
        (Function.update fl i ((fl i).erase va)) := by
  obtain ⟨pre, post, hfl⟩ := append_of_mem hva
  have hndi := h.nodup i hi
  have herase : (fl i).erase va = pre ++ post := by
    rw [hfl] at hndi ⊢
    have hpre : va ∉ pre := fun hmem =>
      (nodup_append.mp hndi).2.2 va hmem va mem_cons_self rfl
    rw [erase_append_right _ hpre, erase_cons_head]
  obtain ⟨second, rest, hnodes⟩ : ∃ second rest, nodes i post = second :: rest :=
    exists_cons_of_ne_nil (by simp [nodes])
  have hsplit : nodes i (fl i) = pre.map .chunk ++ .chunk va :: second :: rest := by
    rw [← hnodes, hfl]
    simp [nodes]
  have hend := endSlot_nodes_cons hnodes
  have hseg := h.seg i hi
  have hnd := nodup_nodes (i := i) hndi
  rw [hsplit] at hseg hnd
  obtain ⟨hseg', htail, hoff⟩ := hseg.unlink hnd
  refine ⟨second, (seg_append.mp hseg).2.2.2.1, ?_⟩
  rw [herase]
  refine h.update _ ?_ hoff ?_ ?_ ?_ ?_ fun _ _ _ _ _ => rfl
  · have hrest : nodes i (pre ++ post) = pre.map .chunk ++ second :: rest := by
      rw [← hnodes]
      simp [nodes]
    rw [hrest]
    exact hseg'
  · rw [← hsplit]
    exact fun j hj hji => h.nodes_disjoint hj hi hji
  · rw [← hend]
    exact htail.trans (hend ▸ h.tail i hi)
  · exact herase ▸ hndi.erase va
  intro va' hva'
  exact h.level i hi va' (mem_of_mem_erase (herase ▸ hva'))

end

end FreeLists

end Unikraft.Ukallocbbuddy
