import Mathlib.Data.List.Pairwise
import Unikraft.Ukalloc.IfPages

/-!
# Unikraft.Ukalloc.PageRuns

What the page-based layer asks of its backend, and what a reallocation does to the memory.

Both ways to allocate check the sum of size and slack for an overflow and round it up to pages; the
rounding can wrap once more (`RoundsUp`). Without that the page count is never too small, and
`uk_realloc_ifpages` preserves the contents, although it recomputes the old size from the record.
-/

namespace Unikraft.Ukalloc

open Lib

/-! ### Page counts -/

/-- The alignments that `uk_posix_memalign_ifpages` accepts. -/
def AlignAccepted (align : Nat) : Prop := subU64 align 1 &&& align = 0 ∧ align % 8 = 0
  deriving Decidable

/-- The bytes an allocation of `size` bytes at `align` needs: with the padding and the
alignment slack of its class. -/
def memalignNeed (align size : Nat) : Nat :=
  size + (memalignClass align).2 + (memalignClass align).1

/-- A call asks for a number of pages that has room for `need` bytes, if there is such a number. -/
structure AsksFor (call : (Nat → Nat) → Outcome Ret) (need : Nat) : Prop where
  enough : need < 2 ^ 64 → ∃ n, 0 < n ∧ need ≤ n * pageSize ∧
    ∀ palloc r, call palloc = .ok r → r.calls = [.palloc n (palloc n)]
  rejects : 2 ^ 64 ≤ need → ∀ palloc r, call palloc = .ok r → r.calls = []
  returns : ∀ palloc, Backend [] palloc → ∃ r, call palloc = .ok r

variable {mem : ByteMem} {palloc : Nat → Nat} {memptr size align : Nat} {r : Ret}

/-- The backend calls of an allocation of `size` bytes with this `realsize`. -/
def pallocCalls (palloc : Nat → Nat) (size realsize : Nat) : List BackendCall :=
  if realsize < size then []
  else [.palloc (sizeToNumPages realsize) (palloc (sizeToNumPages realsize))]

theorem ukMallocIfpages_calls (hpos : 1 ≤ size) (h : ukMallocIfpages mem palloc size = .ok r) :
    r.calls = pallocCalls palloc size (mallocRealsize size) := by
  unfold ukMallocIfpages at h
  rw [pallocCalls, mallocRealsize]
  simp only [show size ≠ 0 by omega, false_or] at h
  split_ifs at h ⊢ <;> cases h <;> rfl

theorem ukPosixMemalignIfpages_calls (hpos : 1 ≤ size) (hacc : AlignAccepted align)
    (h : ukPosixMemalignIfpages mem palloc memptr align size = .ok r) :
    r.calls = pallocCalls palloc size (memalignRealsize align size) := by
  have hnot : ¬ ((subU64 align 1 &&& align) ≠ 0 ∨ align % 8 ≠ 0) := fun h =>
    h.elim (fun hne => hne hacc.1) fun hne => hne hacc.2
  rw [ukPosixMemalignIfpages, if_neg hnot, if_neg (by omega)] at h
  rw [pallocCalls, memalignRealsize]
  simp only at h
  split_ifs at h ⊢
  · cases h
    rfl
  · cases h
    rfl
  · obtain ⟨metadata, -, h⟩ := Outcome.bind_ok.mp h
    obtain ⟨-, -, h⟩ := Outcome.bind_ok.mp h
    cases h
    rfl

/-- A `realsize` that wraps when it is rounded up is rounded to no page at all. -/
theorem sizeToNumPages_wrapped {realsize : Nat} (hlt : realsize < 2 ^ 64)
    (hwrap : ¬ RoundsUp realsize) : sizeToNumPages realsize = 0 := by
  have hdown : alignUp realsize pageSize = addU64 realsize 4095 / 4096 * 4096 :=
    alignDown_two_pow (k := 12) (by omega) (addU64_lt _ _)
  rw [sizeToNumPages, hdown]
  unfold RoundsUp at hwrap
  unfold addU64 pageSize at *
  omega

theorem asksFor_of_calls {call : (Nat → Nat) → Outcome Ret} {need realsize : Nat}
    (hround : RoundsUp realsize) (hpos : 1 ≤ size) (hle : size ≤ need)
    (hreal : need < 2 ^ 64 ∧ realsize = need ∨ 2 ^ 64 ≤ need ∧ realsize < size)
    (hcalls : ∀ palloc r, call palloc = .ok r → r.calls = pallocCalls palloc size realsize)
    (hret : ∀ palloc, Backend [] palloc → ∃ r, call palloc = .ok r) : AsksFor call need where
  enough hfit := by
    obtain ⟨-, rfl⟩ := hreal.resolve_right (by omega)
    refine ⟨sizeToNumPages realsize, ?_, ?_, fun palloc r hr => ?_⟩
    · rw [sizeToNumPages_eq hround]
      omega
    · rw [sizeToNumPages_eq hround]
      simp only [pageSize]
      omega
    · rw [hcalls palloc r hr, pallocCalls, if_neg (by omega)]
  rejects hover palloc r hr := by
    obtain ⟨-, hlt⟩ := hreal.resolve_left (by omega)
    rw [hcalls palloc r hr, pallocCalls, if_pos hlt]
  returns := hret

/-- A call that asks for enough pages does not wrap its page count: else it asks for none. -/
theorem roundsUp_of_asksFor {call : (Nat → Nat) → Outcome Ret} {need realsize : Nat}
    (hreal : need < 2 ^ 64 ∧ realsize = need ∨ 2 ^ 64 ≤ need ∧ RoundsUp realsize)
    (hle : size ≤ need)
    (hcalls : ∀ palloc r, call palloc = .ok r → r.calls = pallocCalls palloc size realsize)
    (h : AsksFor call need) : RoundsUp realsize := by
  rcases hreal with ⟨hfit, rfl⟩ | ⟨-, hround⟩
  swap
  · exact hround
  by_contra hwrap
  obtain ⟨n, hn, -, hasks⟩ := h.enough hfit
  obtain ⟨r, hr⟩ := h.returns (fun _ => 0) fun _ _ hne => absurd rfl hne
  have heq := (hasks _ r hr).symm.trans (hcalls _ r hr)
  rw [pallocCalls, if_neg (by omega), sizeToNumPages_wrapped hfit hwrap] at heq
  cases heq
  exact Nat.lt_irrefl 0 hn

/-- **Page counts.** An allocation asks for at least one page and for the bytes it needs (the size
with the record, or with the padding and the slack), and does not ask if their sum is no 64-bit
number, exactly if the rounding does not wrap. -/
theorem ifpages_page_counts (mem : ByteMem) (memptr align size : Nat) (hpos : 1 ≤ size)
    (hsize : size < 2 ^ 64) (halign : align < 2 ^ 64) (hacc : AlignAccepted align) :
    (AsksFor (fun palloc => ukMallocIfpages mem palloc size) (metadataSize + size) ↔
      RoundsUp (mallocRealsize size)) ∧
    (AsksFor (fun palloc => ukPosixMemalignIfpages mem palloc memptr align size)
        (memalignNeed align size) ↔
      RoundsUp (memalignRealsize align size)) := by
  constructor
  · have hreal := mallocRealsize_cases hsize
    refine ⟨roundsUp_of_asksFor ?_ (Nat.le_add_left _ _) fun palloc r => ukMallocIfpages_calls hpos,
      fun hround => ?_⟩
    · refine hreal.imp_right fun hover => ⟨hover.1, ?_⟩
      unfold RoundsUp mallocRealsize addU64 metadataSize pageSize
      omega
    refine asksFor_of_calls hround hpos (Nat.le_add_left _ _) hreal
      (fun palloc r => ukMallocIfpages_calls hpos) fun palloc hp => ?_
    rcases ukMallocIfpages_cases hsize hround hp with ⟨calls, -, hr⟩ | ⟨b, -, -, -, -, hr⟩
    · exact ⟨_, hr mem⟩
    · exact ⟨_, hr mem⟩
  · have hnot : ¬ ((subU64 align 1 &&& align) ≠ 0 ∨ align % 8 ≠ 0) := fun h =>
      h.elim (fun hne => hne hacc.1) fun hne => hne hacc.2
    obtain ⟨k, padding, hcl, -, hk, hpad, -⟩ := memalignClass_spec hnot halign
    have hreal := memalignRealsize_cases hcl hk hpad hsize
    have hneed : memalignNeed align size = size + padding + 2 ^ k := by rw [memalignNeed, hcl]
    rw [← hneed] at hreal
    have hle : size ≤ memalignNeed align size := Nat.le_add_right_of_le (Nat.le_add_right _ _)
    refine ⟨roundsUp_of_asksFor ?_ hle fun palloc r => ukPosixMemalignIfpages_calls hpos hacc,
      fun hround => ?_⟩
    · refine hreal.imp_right fun hover => ⟨hover.1, ?_⟩
      have hpow : 2 ^ k ≤ 2 ^ 63 := Nat.pow_le_pow_right (by norm_num) (Nat.le_of_lt_succ hk)
      rw [RoundsUp, memalignRealsize, hcl]
      unfold addU64 pageSize
      omega
    refine asksFor_of_calls hround hpos hle hreal
      (fun palloc r => ukPosixMemalignIfpages_calls hpos hacc) fun palloc hp => ?_
    rcases ukPosixMemalignIfpages_cases mem memptr hsize halign hround hp with
      ⟨err, calls, hr⟩ | ⟨b, -, -, -, -, hr⟩
    · exact ⟨_, hr⟩
    · exact ⟨_, hr⟩

/-- 100 bytes at a multiple of 8192 are asked for with one page of padding. -/
theorem ifpages_page_counts_over_page :
    memalignNeed 8192 100 = 12388 ∧
      AsksFor (fun palloc => ukPosixMemalignIfpages (fun _ => 0) palloc 0 8192 100) 12388 :=
  ⟨by decide, (ifpages_page_counts (fun _ => 0) 0 8192 100 (by decide) (by decide) (by decide)
    (by decide)).2.mpr (by decide)⟩

/-- `malloc(2^64 - 17)` passes the check with a `realsize` of `2 ^ 64 - 1`, which is rounded up to
no page at all, and so does `posix_memalign(16, 2^64 - 33)`. -/
theorem ifpages_asks_no_pages :
    (∃ r, ukMallocIfpages (fun _ => 0) (fun _ => 0) (2 ^ 64 - 17) = .ok r ∧
      r.calls = [.palloc 0 0]) ∧
    AlignAccepted 16 ∧
      ∃ r, ukPosixMemalignIfpages (fun _ => 0) (fun _ => 0) 0 16 (2 ^ 64 - 33) = .ok r ∧
        r.calls = [.palloc 0 0] := by
  refine ⟨⟨⟨0, none, fun _ => 0, [.palloc 0 0]⟩, ?_, rfl⟩, by decide,
    ⟨0, some .enomem, fun _ => 0, [.palloc 0 0]⟩, ?_, rfl⟩
  · have hreal : mallocRealsize (2 ^ 64 - 17) = 2 ^ 64 - 1 := by decide
    have hn : sizeToNumPages (2 ^ 64 - 1) = 0 := by decide +kernel
    rw [mallocRealsize] at hreal
    simp only [ukMallocIfpages, hreal, hn]
    rfl
  · have hreal : memalignRealsize 16 (2 ^ 64 - 33) = 2 ^ 64 - 1 := by decide
    have hn : sizeToNumPages (2 ^ 64 - 1) = 0 := by decide +kernel
    have hacc : ¬ ((subU64 16 1 &&& 16) ≠ 0 ∨ 16 % 8 ≠ 0) := by decide
    rw [memalignRealsize] at hreal
    rw [ukPosixMemalignIfpages, if_neg hacc, if_neg (by decide)]
    simp only [hreal, hn]
    rfl

/-! ### Reallocation -/

variable {b c : Block} {live : List Block}

theorem reallocated_of_outside (hc : c.Placed) {x : Nat}
    (hx : x < c.base ∨ c.base + c.numPages * pageSize ≤ x) : reallocated mem b c x = mem x := by
  have hc' := hc.order
  have hcopy : ¬ (c.ptr ≤ x ∧ x < c.ptr + if c.size < b.room then c.size else b.room) := by
    split <;> omega
  rw [reallocated, copyBytes, if_neg hcopy]
  exact agreeOn_setMetadata (a := x) (k := 1) (by omega) x le_rfl (Nat.lt_succ_self x)

theorem reallocated_contents (hb : b.Placed) (hc : c.Placed)
    (hapart : c.base + c.numPages * pageSize ≤ b.base ∨ b.base + b.numPages * pageSize ≤ c.base)
    {i : Nat} (hi : i < min b.size c.size) : reallocated mem b c (c.ptr + i) = mem (b.ptr + i) := by
  have hb' := hb.order
  have hc' := hc.order
  have hcopy : c.ptr ≤ c.ptr + i ∧
      c.ptr + i < c.ptr + if c.size < b.room then c.size else b.room := by
    unfold Block.room
    split <;> omega
  rw [reallocated, copyBytes, if_pos hcopy, Nat.add_sub_cancel_left]
  exact agreeOn_setMetadata (a := b.ptr + i) (k := 1) (by omega) _ le_rfl (Nat.lt_succ_self _)

theorem setMetadata_cases (mem mem' : ByteMem) (metadata n base x : Nat) :
    setMetadata mem' metadata n base x = setMetadata mem metadata n base x ∨
      setMetadata mem' metadata n base x = mem' x ∧ setMetadata mem metadata n base x = mem x := by
  have hupper : ∀ m : ByteMem, ¬ (metadata + 8 ≤ x ∧ x < metadata + 8 + 8) →
      storeLE m (metadata + 8) base 8 x = m x := fun m hx => storeLE_of_outside (by omega)
  unfold setMetadata
  by_cases hhi : metadata + 8 ≤ x ∧ x < metadata + 8 + 8
  · exact .inl (storeLE_of_inside hhi)
  · rw [hupper _ hhi, hupper _ hhi]
    by_cases hlo : metadata ≤ x ∧ x < metadata + 8
    · exact .inl (storeLE_of_inside hlo)
    · exact .inr ⟨storeLE_of_outside (by omega), storeLE_of_outside (by omega)⟩

theorem reallocated_congr {mem' : ByteMem} (hb : b.Placed)
    (hmem : AgreeOn mem' mem b.base (b.numPages * pageSize)) (x : Nat) :
    reallocated mem' b c x = reallocated mem b c x ∨
      reallocated mem' b c x = mem' x ∧ reallocated mem b c x = mem x := by
  unfold reallocated copyBytes
  generalize hn : (if c.size < b.room then c.size else b.room) = n
  have hle : n ≤ b.room := by
    rw [← hn]
    split <;> omega
  split_ifs with hcopy
  · -- a copied byte comes from the old run
    have hb' := hb.order
    unfold Block.room at hle
    rcases setMetadata_cases mem mem' (recordOf c.ptr) c.numPages c.base (b.ptr + (x - c.ptr))
      with hsame | ⟨hl, hr⟩
    · exact .inl hsame
    · exact .inl ((hl.trans (hmem _ (by omega) (by omega))).trans hr.symm)
  · exact setMetadata_cases mem mem' _ _ _ _

instance : Std.Symm Block.Apart := ⟨fun _ _ => Or.symm⟩

theorem Heap.Inv.filter_ptr {h : Heap} (hinv : h.Inv) (hb : b ∈ h.live) :
    h.live.filter (fun d => some b.ptr ≠ some d.ptr) = h.live.erase b := by
  have hptr : ∀ d ∈ h.live, d.Apart b → d.ptr ≠ b.ptr := by
    intro d hd hapart
    have hd' := (hinv.placed d hd).order
    have hb' := (hinv.placed b hb).order
    unfold Block.Apart at hapart
    omega
  have hnodup : h.live.Nodup := by
    refine hinv.apart.imp_of_mem fun {d e} hd _ hapart heq => ?_
    subst heq
    have h1 := (hinv.placed d hd).numPages_pos
    unfold Block.Apart pageSize at hapart
    omega
  rw [hnodup.erase_eq_filter]
  refine List.filter_congr fun d hd => ?_
  by_cases heq : d = b
  · simp [heq]
  · have hne := hptr d hd (hinv.apart.forall hd hb heq)
    simp [heq, hne.symm]

/-- What `uk_realloc_ifpages` may do to a block `b` when it returns `r`. -/
structure Moved (mem : ByteMem) (palloc : Nat → Nat) (b c : Block) (r : Ret) : Prop where
  ptr : r.ptr = c.ptr ∧ c.ptr ≠ 0
  contents : ∀ i < min b.size c.size, r.mem (c.ptr + i) = mem (b.ptr + i)
  writes : ∀ x, x < c.base ∨ c.base + c.numPages * pageSize ≤ x → r.mem x = mem x
  /-- With any other bytes outside of the old run the call does the same. -/
  reads : ∀ mem', AgreeOn mem' mem b.base (b.numPages * pageSize) →
    ∃ r', ukReallocIfpages mem' palloc b.ptr c.size = .ok r' ∧ r'.ptr = r.ptr ∧
      r'.calls = r.calls ∧ ∀ x, r'.mem x = r.mem x ∨ r'.mem x = mem' x ∧ r.mem x = mem x
  calls : r.calls = [.palloc c.numPages c.base, .pfree b.base b.numPages]

/-- **Reallocation preserves the contents.** In every run of calls that do not wrap their page
counts, `uk_realloc_ifpages` to at least one byte returns `NULL` and changes nothing, or a new
block: the common bytes are the same, nothing is written outside of the new run or depends on a byte
outside of the old one, and the old run is released once. -/
theorem ifpages_realloc_contents (mem₀ : ByteMem) (h : Heap)
    (hreach : Reachable step Op.Rounds ⟨mem₀, []⟩ h) (b : Block) (hb : b ∈ h.live)
    (palloc : Nat → Nat) (size : Nat) (hpos : 1 ≤ size)
    (hop : (Op.realloc palloc b.ptr size).Rounds h) :
    ∃ r h', step h (.realloc palloc b.ptr size) = .ok (r, h') ∧
      ((r.ptr = 0 ∧ r.mem = h.mem ∧ (∀ n base, .pfree base n ∉ r.calls) ∧ h' = h) ∨
        ∃ c, c.size = size ∧ h'.live = c :: h.live.erase b ∧ Moved h.mem palloc b c r) := by
  have hinv := Heap.Inv.of_reachable hreach
  obtain ⟨hround, hsize, hp, -⟩ := hop
  have hbp := hinv.placed b hb
  have hne : size ≠ 0 := by omega
  rcases ukMallocIfpages_cases hsize hround hp with
    ⟨calls, hcalls, hr⟩ | ⟨c, rfl, ha, hc, hrun, hr⟩
  · refine ⟨⟨0, none, h.mem, calls⟩, h, ?_, .inl ⟨rfl, rfl, hcalls, rfl⟩⟩
    have hcall : ukReallocIfpages h.mem palloc b.ptr size = .ok ⟨0, none, h.mem, calls⟩ := by
      rw [ukReallocIfpages, if_neg hbp.ptr_ne, if_neg hne, hr h.mem]
      rfl
    rw [step, Op.call, hcall, Outcome.ok_bind]
    simp [Heap.after, Op.handsOut, Op.granted, Op.releases, hne]
  · obtain ⟨hre, -⟩ := ukReallocIfpages_grant hinv hb hne hc rfl hrun (hr h.mem)
    refine ⟨_, _, by rw [step, Op.call, hre]; rfl, .inr ⟨c, rfl, ?_, ?_⟩⟩
    · have hout : (Op.realloc palloc b.ptr c.size).handsOut ⟨c.ptr, none, reallocated h.mem b c,
          [.palloc c.numPages c.base, .pfree b.base b.numPages]⟩ = some c := by
        simp [Op.handsOut, Op.granted, Ret.block, hc.ptr_ne, ← ha]
      have hrel : (Op.realloc palloc b.ptr c.size).releases ⟨c.ptr, none, reallocated h.mem b c,
          [.palloc c.numPages c.base, .pfree b.base b.numPages]⟩ = some b.ptr :=
        if_pos (.inl hc.ptr_ne)
      simp only [Heap.after, hout, hrel, hinv.filter_ptr hb]
      rfl
    · exact
        { ptr := ⟨rfl, hc.ptr_ne⟩
          contents := fun i hi => reallocated_contents hbp hc (hrun.disjoint b hb) hi
          writes := fun x hx => reallocated_of_outside hc hx
          reads := fun mem' hmem => by
            -- the old block alone, with its record, is a good heap, too
            have hkept : b.Kept mem' := by
              have hb' := hbp.order
              exact (hinv.kept b hb).congr (hmem.mono hb'.1 (by omega))
            have hone : Heap.Inv ⟨mem', [b]⟩ :=
              ⟨by simpa using hbp, by simpa using hkept, List.pairwise_singleton _ _⟩
            have hrun' : GoodRun [b] c.numPages c.base :=
              ⟨hrun.aligned, hrun.run_le, by simpa using hrun.disjoint b hb⟩
            obtain ⟨hre', -⟩ := ukReallocIfpages_grant hone (List.mem_singleton_self b) hne hc rfl
              hrun' (hr mem')
            exact ⟨_, hre', rfl, rfl, reallocated_congr hbp hmem⟩
          calls := rfl }

theorem backend_single {n base : Nat} (haligned : base % pageSize = 0)
    (hfit : base + n * pageSize ≤ 2 ^ 64)
    (hlive : ∀ b ∈ live, base + n * pageSize ≤ b.base ∨ b.base + b.numPages * pageSize ≤ base) :
    Backend live fun m => if m = n then base else 0 := by
  intro m _ hne
  obtain rfl : m = n := by
    by_contra hn
    exact hne (if_neg hn)
  simp only [if_true]
  exact ⟨haligned, hfit, hlive⟩

/-- 100 bytes at a multiple of 8192, one page behind their record. -/
def overPage : Op := .memalign (fun m => if m = 4 then 65536 else 0) 0 8192 100

/-- These bytes become 5000 bytes at the start of another run. -/
theorem ifpages_realloc_contents_over_page :
    ∃ h b c r h', h.live = [b] ∧ b.align = 8192 ∧ c.size = 5000 ∧
      step h (.realloc (fun m => if m = 2 then 131072 else 0) b.ptr 5000) = .ok (r, h') ∧
      h'.live = [c] ∧ Moved h.mem (fun m => if m = 2 then 131072 else 0) b c r := by
  have hop : overPage.Rounds ⟨fun _ => 0, []⟩ :=
    ⟨by decide, by decide, by decide, backend_single rfl (by decide) (by simp)⟩
  obtain ⟨r, hr, -⟩ := step_ok ⟨by simp, by simp, .nil⟩ hop
  have hrun : ((step ⟨fun _ => 0, []⟩ overPage).toOption.map fun x => x.2.live) =
      some [⟨73728, 100, 8192, 65536, 4⟩] := by decide +kernel
  have hrun₂ : ((step ⟨fun _ => 0, []⟩ overPage).toOption.bind fun x =>
      (step x.2 (.realloc (fun m => if m = 2 then 131072 else 0) 73728 5000)).toOption.map
        fun y => y.1.ptr) = some 131088 := by decide +kernel
  have hreach := Reachable.refl.tail hop hr
  rw [hr, Except.toOption] at hrun hrun₂
  simp only [Option.bind_some] at hrun₂
  generalize Heap.after ⟨fun _ => 0, []⟩ overPage r = h at hrun hrun₂ hreach
  have hlive : h.live = [⟨73728, 100, 8192, 65536, 4⟩] := Option.some.inj hrun
  obtain ⟨r₂, h₂, hstep, hres⟩ := ifpages_realloc_contents _ h hreach
    ⟨73728, 100, 8192, 65536, 4⟩ (by simp [hlive]) (fun m => if m = 2 then 131072 else 0) 5000
    (by decide) ⟨by decide, by decide, backend_single rfl (by decide) (by rw [hlive]; decide),
      .inr ⟨_, by simp [hlive], rfl⟩⟩
  have hptr : r₂.ptr = 131088 := by
    rw [hstep, Except.toOption] at hrun₂
    exact Option.some.inj hrun₂
  rcases hres with ⟨h0, -⟩ | ⟨c, hsize, hlive₂, hmoved⟩
  · rw [hptr] at h0
    cases h0
  · refine ⟨h, _, c, r₂, h₂, hlive, rfl, hsize, hstep, ?_, hmoved⟩
    rw [hlive₂, hlive, List.erase_cons_head]

end Unikraft.Ukalloc
