import Mathlib.Algebra.Order.BigOperators.Group.List
import Unikraft.Uksglist.Sglist

/-!
# Unikraft.Uksglist.Append

**Appending to a scatter/gather list** (`lib/uksglist/sglist.c`), where virtual addresses are
mapped page by page. A buffer is cut at the page boundaries, a page that follows the last segment
is joined to it, and an append that runs out of segments is taken back. That rests on `Extends`:
the segments before the last one are as they were, and the last one has kept its address.
-/

namespace Unikraft.Uksglist

open Virtio List Nat Sglist

/-! ### The source -/

/-- `struct uk_netbuf`: the payload. -/
structure UkNetbuf where
  data : Nat
  len : Nat
  data_lt : data < 2 ^ 64
  len_lt : len < 2 ^ 16

/-- The loop of `uk_sglist_append_netbuf` over the chain; `len` is an `int`. -/
def netbufLoop (map : VirtToPhys) (save : Sglist) :
    List UkNetbuf → Sglist → Nat → Outcome (Except Errno Nat × Sglist)
  | [], sg, len => .ok (.ok len, sg)
  | nb :: chain, sg, len =>
    if 0 < nb.len then do
      match ← ukSglistAppendBy map sg nb.data nb.len with
      | (.error e, sg) => return (.error e, sglistRestore sg save)
      | (.ok (), sg) =>
        if len + nb.len < 2 ^ 31 then netbufLoop map save chain sg (len + nb.len)
        else .error .undefinedArith
    else netbufLoop map save chain sg len

def ukSglistAppendNetbuf (map : VirtToPhys) (sg : Sglist) (chain : List UkNetbuf) :
    Outcome (Except Errno Nat × Sglist) :=
  if sg.maxseg = 0 then .ok (.error .einval, sg) else netbufLoop map sg chain sg 0

/-! ### What a list describes -/

def segBytes (s : SglistSeg) : List Nat := (range s.len).map (addU64 s.paddr)

def Sglist.used (sg : Sglist) : List SglistSeg := sg.segs.take sg.nseg

def Sglist.content (sg : Sglist) : List Nat := sg.used.flatMap segBytes

def VirtToPhys.bytes (map : VirtToPhys) (buf len : Nat) : List Nat :=
  (range len).map fun i => map.phys (addU64 buf i)

def VirtToPhys.chainBytes (map : VirtToPhys) (chain : List UkNetbuf) : List Nat :=
  chain.flatMap fun nb => map.bytes nb.data nb.len

def chainLen (chain : List UkNetbuf) : Nat := (chain.map UkNetbuf.len).sum

/-- A list as `uk_sglist_init` sets it up and every append leaves it. -/
structure Sglist.Ok (sg : Sglist) : Prop where
  nseg_le : sg.nseg ≤ sg.maxseg
  maxseg_le : sg.maxseg ≤ sg.segs.length
  maxseg_lt : sg.maxseg < 2 ^ 16

/-- **What an append of `bytes` has to do**: all of it, or nothing. -/
def AppendsOrNot {α : Type} (sg : Sglist) (bytes : List Nat) (ret : α)
    (call : Outcome (Except Errno α × Sglist)) : Prop :=
  (∃ sg', call = .ok (.ok ret, sg') ∧ sg'.content = sg.content ++ bytes ∧ sg'.Ok ∧
      sg'.maxseg = sg.maxseg) ∨
    (∃ e sg', call = .ok (.error e, sg') ∧ sg'.nseg = sg.nseg ∧ sg'.used = sg.used)

/-! ### Bytes -/

variable {sg sg' : Sglist} {map : VirtToPhys} {used used' : List SglistSeg} {bytes : List Nat}
  {paddr len buf vaddr n fuel : Nat}

theorem addU64_assoc (a i j : Nat) : addU64 (addU64 a i) j = addU64 a (i + j) := by
  unfold addU64
  omega

@[simp] theorem segBytes_length (s : SglistSeg) : (segBytes s).length = s.len := by
  simp [segBytes]

@[simp] theorem VirtToPhys.bytes_length (map : VirtToPhys) (buf len : Nat) :
    (map.bytes buf len).length = len := by simp [VirtToPhys.bytes]

theorem segBytes_join (a l len : Nat) :
    segBytes ⟨a, l + len⟩ = segBytes ⟨a, l⟩ ++ segBytes ⟨addU64 a l, len⟩ := by
  simp only [segBytes, range_add, map_append, map_map]
  congr 1
  refine map_congr_left fun i _ => ?_
  exact (addU64_assoc a l i).symm

theorem VirtToPhys.bytes_cut (map : VirtToPhys) (hv : vaddr < 2 ^ 64) (hn : n ≤ len)
    (hpage : vaddr % pageSize + n ≤ pageSize) :
    map.bytes vaddr len = segBytes ⟨map.phys vaddr, n⟩ ++ map.bytes (addU64 vaddr n) (len - n) := by
  have hlen : len = n + (len - n) := by omega
  have hfirst : ∀ i ∈ range n, map.phys (addU64 vaddr i) = addU64 (map.phys vaddr) i := by
    intro i hi
    rw [mem_range] at hi
    rw [addU64_eq (by unfold pageSize at hpage; omega)]
    exact map.linear vaddr i (by omega)
  conv_lhs => rw [hlen]
  simp only [VirtToPhys.bytes, segBytes, range_add, map_append, map_map]
  rw [map_congr_left hfirst]
  congr 1
  refine map_congr_left fun i _ => ?_
  exact congrArg map.phys (addU64_assoc vaddr n i).symm

/-! ### Appending can be taken back -/

/-- `used'` has the segments of `used`, the last one perhaps longer, and more behind them. -/
structure Extends (used used' : List SglistSeg) : Prop where
  length_le : used.length ≤ used'.length
  before : ∀ i, i + 1 < used.length → used'[i]? = used[i]?
  last : ∀ i, i + 1 = used.length → used'[i]?.map SglistSeg.paddr = used[i]?.map SglistSeg.paddr

theorem Extends.refl (used : List SglistSeg) : Extends used used :=
  ⟨le_rfl, fun _ _ => rfl, fun _ _ => rfl⟩

theorem Extends.trans {used'' : List SglistSeg} (h : Extends used used')
    (h' : Extends used' used'') : Extends used used'' := by
  have hle := h.length_le
  refine ⟨hle.trans h'.length_le, ?_, ?_⟩
  · intro i hi
    rw [h'.before i (by omega), h.before i hi]
  intro i hi
  rw [← h.last i hi]
  rcases lt_or_ge (i + 1) used'.length with hlt | hge
  · rw [h'.before i hlt]
  · exact h'.last i (by omega)

theorem Sglist.Ok.used_length (h : sg.Ok) : sg.used.length = sg.nseg := by
  have hle := h.nseg_le.trans h.maxseg_le
  simp [Sglist.used, hle]

theorem Sglist.used_getElem? {i : Nat} (hi : i < sg.nseg) : sg.used[i]? = sg.segs[i]? := by
  rw [Sglist.used, getElem?_take_of_lt hi]

/-- `SGLIST_RESTORE` takes back whatever has been appended. -/
theorem sglistRestore_used (h : Extends sg.used sg'.used) (hok : sg.Ok) (hok' : sg'.Ok) :
    (sglistRestore sg' sg).nseg = sg.nseg ∧ (sglistRestore sg' sg).used = sg.used := by
  refine ⟨rfl, ?_⟩
  have hle : sg.nseg ≤ sg'.nseg := by
    have := h.length_le
    rwa [hok.used_length, hok'.used_length] at this
  apply ext_getElem?
  intro i
  rcases lt_or_ge i sg.nseg with hi | hi
  · obtain ⟨seg, hseg⟩ : ∃ seg, sg.segs[sg.nseg - 1]? = some seg :=
      ⟨_, getElem?_eq_getElem (by have := hok.nseg_le.trans hok.maxseg_le; omega)⟩
    have hsegs : (sglistRestore sg' sg).segs =
        sg'.segs.modify (sg.nseg - 1) ({ · with len := seg.len }) := by
      simp only [sglistRestore, hseg]
      rw [if_pos (by omega)]
    have hused : (sglistRestore sg' sg).used[i]? = (sglistRestore sg' sg).segs[i]? :=
      used_getElem? hi
    have hold : sg'.segs[i]? = sg'.used[i]? := (used_getElem? (by omega)).symm
    rw [hused, hsegs, getElem?_modify, hold]
    by_cases hlast : i + 1 = sg.nseg
    · -- The last segment has kept its address, and its length is restored.
      have haddr := h.last i (hlast.trans hok.used_length.symm)
      have hidx : sg.nseg - 1 = i := by omega
      rw [used_getElem? hi, ← hidx, hseg] at haddr
      rw [used_getElem? hi, ← hidx, hseg]
      obtain ⟨t, ht, htaddr⟩ := Option.map_eq_some_iff.mp haddr
      rw [ht]
      simp [htaddr]
    rw [h.before i (by rw [hok.used_length]; omega)]
    have hne : sg.nseg - 1 ≠ i := by omega
    simp [hne]
  have hnone : ∀ sg₁ : Sglist, sg₁.nseg ≤ i → sg₁.used[i]? = none := fun sg₁ hi₁ =>
    getElem?_eq_none ((length_take_le _ _).trans hi₁)
  rw [hnone sg hi, hnone (sglistRestore sg' sg) hi]

theorem sglistRestore_ok (hok : sg.Ok) (hok' : sg'.Ok) (hmax : sg'.maxseg = sg.maxseg) :
    (sglistRestore sg' sg).Ok := by
  refine ⟨?_, ?_, hok'.maxseg_lt⟩
  · show sg.nseg ≤ sg'.maxseg
    rw [hmax]
    exact hok.nseg_le
  have hlen : (sglistRestore sg' sg).segs.length = sg'.segs.length := by
    unfold sglistRestore
    cases sg.segs[sg.nseg - 1]? with
    | none => rfl
    | some seg =>
      simp only
      split
      · exact length_modify ..
      · rfl
  rw [hlen]
  exact hok'.maxseg_le

/-! ### Ranges of memory

What an append has to describe, with lengths that do not wrap: the ranges of the pages, each joined
to the one before where it follows it. The list has the same ranges with their lengths cut to
64 bits, so that it also takes as many segments. -/

/-- `used` with one more range, joined to the last one where it follows it. -/
def joinRange (used : List SglistSeg) (p : SglistSeg) : List SglistSeg :=
  match used.getLast? with
  | none => [p]
  | some s =>
    if addU64 s.paddr s.len = p.paddr then used.dropLast ++ [⟨s.paddr, s.len + p.len⟩]
    else used ++ [p]

def joined (used ranges : List SglistSeg) : List SglistSeg := ranges.foldl joinRange used

/-- The ranges of a buffer, page by page. -/
def VirtToPhys.ranges (map : VirtToPhys) (vaddr len : Nat) : List SglistSeg :=
  if len = 0 then []
  else
    let seglen := min len (pageSize - vaddr % pageSize)
    ⟨map.phys vaddr, seglen⟩ :: map.ranges (addU64 vaddr seglen) (len - seglen)
termination_by len
decreasing_by
  have hoff : vaddr % pageSize < pageSize := mod_lt _ (by decide)
  omega

def VirtToPhys.chainRanges (map : VirtToPhys) (chain : List UkNetbuf) : List SglistSeg :=
  chain.flatMap fun nb => map.ranges nb.data nb.len

/-- The segments of the list are enough for these ranges. -/
def Sglist.Fits (sg : Sglist) (ranges : List SglistSeg) : Prop :=
  (joined sg.used ranges).length ≤ sg.maxseg

/-- No length of a segment wraps. -/
def LensFit (used : List SglistSeg) : Prop := ∀ s ∈ used, s.len < 2 ^ 64

theorem joinRange_concat (pre : List SglistSeg) (s p : SglistSeg) :
    joinRange (pre ++ [s]) p =
      if addU64 s.paddr s.len = p.paddr then pre ++ [⟨s.paddr, s.len + p.len⟩]
      else pre ++ [s] ++ [p] := by
  simp [joinRange]

theorem joinRange_flatMap (used : List SglistSeg) (p : SglistSeg) :
    (joinRange used p).flatMap segBytes = used.flatMap segBytes ++ segBytes p := by
  rcases eq_nil_or_concat' used with rfl | ⟨pre, s, rfl⟩
  · simp [joinRange]
  rw [joinRange_concat]
  split
  case isTrue hadj => simp [segBytes_join, hadj]
  case isFalse => simp

theorem length_le_joinRange (used : List SglistSeg) (p : SglistSeg) :
    used.length ≤ (joinRange used p).length := by
  rcases eq_nil_or_concat' used with rfl | ⟨pre, s, rfl⟩
  · exact zero_le _
  rw [joinRange_concat]
  split <;> simp

theorem joined_append (used ranges ranges' : List SglistSeg) :
    joined used (ranges ++ ranges') = joined (joined used ranges) ranges' := foldl_append ..

theorem joined_flatMap (used ranges : List SglistSeg) :
    (joined used ranges).flatMap segBytes =
      used.flatMap segBytes ++ ranges.flatMap segBytes := by
  induction ranges generalizing used with
  | nil => simp [joined]
  | cons p ranges ih =>
    have hjoined : joined used (p :: ranges) = joined (joinRange used p) ranges := rfl
    rw [hjoined, ih, joinRange_flatMap, flatMap_cons, append_assoc]

theorem length_le_joined (used ranges : List SglistSeg) :
    used.length ≤ (joined used ranges).length := by
  induction ranges generalizing used with
  | nil => exact le_rfl
  | cons p ranges ih => exact (length_le_joinRange used p).trans (ih _)

theorem VirtToPhys.ranges_zero (map : VirtToPhys) (vaddr : Nat) : map.ranges vaddr 0 = [] := by
  rw [ranges, if_pos rfl]

theorem VirtToPhys.ranges_flatMap (map : VirtToPhys) (hv : vaddr < 2 ^ 64) :
    (map.ranges vaddr len).flatMap segBytes = map.bytes vaddr len := by
  induction len using Nat.strong_induction_on generalizing vaddr with
  | _ len ih =>
    by_cases hlen : len = 0
    · rw [hlen, ranges_zero]
      rfl
    have hoff : vaddr % pageSize < pageSize := mod_lt _ (by decide)
    have hcut := map.bytes_cut (n := min len (pageSize - vaddr % pageSize)) hv
      (min_le_left _ _) (by omega)
    rw [ranges, if_neg hlen, hcut, flatMap_cons, ih _ (by omega) (addU64_lt ..)]

theorem VirtToPhys.chainRanges_flatMap (map : VirtToPhys) (chain : List UkNetbuf) :
    (map.chainRanges chain).flatMap segBytes = map.chainBytes chain := by
  induction chain with
  | nil => rfl
  | cons nb chain ih =>
    have hcons : map.chainRanges (nb :: chain) =
        map.ranges nb.data nb.len ++ map.chainRanges chain := rfl
    rw [hcons, flatMap_append, ih, map.ranges_flatMap nb.data_lt]
    rfl

/-- A segment as the list has it. -/
def cutLen (s : SglistSeg) : SglistSeg := { s with len := s.len % 2 ^ 64 }

theorem LensFit.map_cutLen (h : LensFit used) : used.map cutLen = used := by
  refine (map_congr_left fun s hs => ?_).trans (map_id used)
  have hlen := h s hs
  simp only [cutLen, mod_eq_of_lt hlen, id]

theorem cutLen_flatMap_iff (used : List SglistSeg) :
    (used.map cutLen).flatMap segBytes = used.flatMap segBytes ↔ LensFit used := by
  constructor
  · intro heq s hs
    by_contra hwrap
    have hlen := congrArg length heq
    simp only [length_flatMap, segBytes_length, map_map] at hlen
    exact (List.sum_lt_sum (fun s => s.len % 2 ^ 64) SglistSeg.len (fun s _ => mod_le ..)
      ⟨s, hs, by omega⟩).ne hlen
  · intro h
    rw [h.map_cutLen]

theorem lensFit_of_length (h : (used.flatMap segBytes).length < 2 ^ 64) : LensFit used := by
  intro s hs
  obtain ⟨pre, rest, rfl⟩ := append_of_mem hs
  simp only [flatMap_append, flatMap_cons, length_append, segBytes_length] at h
  omega

theorem VirtToPhys.lensFit_joined (map : VirtToPhys) (hbuf : buf < 2 ^ 64)
    (hsize : sg.content.length + len < 2 ^ 64) :
    LensFit (joined sg.used (map.ranges buf len)) := by
  refine lensFit_of_length ?_
  rw [joined_flatMap, map.ranges_flatMap hbuf, length_append, bytes_length]
  exact hsize

/-! ### One range -/

/-- The list has come to describe `ranges`, in a way that can be taken back. -/
structure Grown (sg : Sglist) (ranges : List SglistSeg) (sg' : Sglist) : Prop where
  ok : sg'.Ok
  maxseg : sg'.maxseg = sg.maxseg
  used : sg'.used = ranges.map cutLen
  ext : Extends sg.used sg'.used

theorem Grown.refl (h : sg.Ok) (hused : sg.used = used.map cutLen) : Grown sg used sg :=
  ⟨h, rfl, hused, .refl _⟩

theorem Grown.trans {sg'' : Sglist} (h : Grown sg used sg') (h' : Grown sg' used' sg'') :
    Grown sg used' sg'' :=
  ⟨h'.ok, h'.maxseg.trans h.maxseg, h'.used, h.ext.trans h'.ext⟩

theorem Sglist.Ok.used_eq (h : sg.Ok) (hpos : 0 < sg.nseg) :
    ∃ pre s, sg.used = pre ++ [s] ∧ pre.length = sg.nseg - 1 ∧ sg.Rep (pre ++ [s]) := by
  have hlen := h.used_length
  rcases eq_nil_or_concat' sg.used with hnil | ⟨pre, s, hused⟩
  · rw [hnil] at hlen
    simp at hlen
    omega
  have hpre : pre.length + 1 = sg.nseg := by simpa [hused] using hlen
  refine ⟨pre, s, hused, by omega, by simpa using hpre.symm, sg.segs.drop sg.nseg, ?_⟩
  rw [← hused]
  exact (take_append_drop _ _).symm

theorem Sglist.Rep.used_eq (h : sg.Rep used) : sg.used = used := by
  rw [Sglist.used, h.1, h.take]

theorem Extends.longer (pre : List SglistSeg) (s : SglistSeg) (l : Nat) :
    Extends (pre ++ [s]) (pre ++ [⟨s.paddr, l⟩]) := by
  refine ⟨by simp, ?_, ?_⟩
  · intro i hi
    simp only [length_append, length_singleton] at hi
    rw [getElem?_append_left (by omega), getElem?_append_left (by omega)]
  intro i hi
  simp only [length_append, length_singleton] at hi
  obtain rfl : i = pre.length := by omega
  simp

theorem Extends.push (used : List SglistSeg) (t : SglistSeg) : Extends used (used ++ [t]) := by
  refine ⟨by simp, ?_, ?_⟩
  · intro i hi
    rw [getElem?_append_left (by omega)]
  intro i hi
  rw [getElem?_append_left (by omega)]

/-- The range is added, to the last segment or behind it, or all segments are in use. -/
theorem sglistAppendRange_grown (paddr : Nat) (h : sg.Ok) (hused : sg.used = used.map cutLen)
    (hpos : 0 < sg.nseg) (hlen : len < 2 ^ 64) :
    (∃ sg', sglistAppendRange sg (sg.nseg - 1) paddr len = .ok (.ok (), sg', sg'.nseg - 1) ∧
        0 < sg'.nseg ∧ Grown sg (joinRange used ⟨paddr, len⟩) sg') ∨
      sglistAppendRange sg (sg.nseg - 1) paddr len = .ok (.error .efbig, sg, sg.nseg - 1) ∧
        sg.maxseg < (joinRange used ⟨paddr, len⟩).length := by
  obtain ⟨pre, s, hsegs, hpre, hrep⟩ := h.used_eq hpos
  obtain ⟨pre', s', rfl, hpre', rfl⟩ : ∃ pre' s', used = pre' ++ [s'] ∧ pre = pre'.map cutLen ∧
      s = cutLen s' := by
    obtain ⟨pre', rest, hex, hleft, hright⟩ := map_eq_append_iff.mp (hused.symm.trans hsegs)
    obtain ⟨s', rfl, hs⟩ := map_eq_singleton_iff.mp hright
    exact ⟨pre', s', hex, hleft.symm, hs.symm⟩
  have hnle := h.nseg_le
  have hmle := h.maxseg_le
  have hmlt := h.maxseg_lt
  have hend : addU64 s'.paddr (s'.len % 2 ^ 64) = addU64 s'.paddr s'.len := by
    unfold addU64
    omega
  unfold sglistAppendRange
  rw [← hpre, hrep.last, joinRange_concat]
  simp only [cutLen, hend]
  by_cases hadj : addU64 s'.paddr s'.len = paddr
  · -- The range follows the last segment.
    left
    have hadd : addU64 (s'.len % 2 ^ 64) len = (s'.len + len) % 2 ^ 64 := by
      unfold addU64
      omega
    have hrep' := hrep.setLast ⟨s'.paddr, (s'.len + len) % 2 ^ 64⟩
    rw [if_pos hadj, if_pos hadj, hadd]
    refine ⟨{ sg with segs := sg.segs.set pre.length ⟨s'.paddr, (s'.len + len) % 2 ^ 64⟩ },
      by simp [hpre], hpos, ⟨hnle, by simpa using hmle, hmlt⟩, rfl, ?_, ?_⟩
    · rw [hrep'.used_eq, hpre']
      simp [cutLen]
    rw [hsegs, hrep'.used_eq]
    exact .longer pre (cutLen s') _
  rw [if_neg hadj, if_neg hadj]
  by_cases hfull : sg.nseg = sg.maxseg
  · right
    rw [if_pos hfull]
    refine ⟨rfl, ?_⟩
    rw [hpre', length_map] at hpre
    simp only [length_append, length_singleton]
    omega
  left
  have hroom : pre.length + 1 < sg.segs.length := by omega
  have hnseg : addU16 sg.nseg 1 = sg.nseg + 1 := mod_eq_of_lt (by omega)
  have hlength : (pre ++ [cutLen s']).length = pre.length + 1 := by simp
  have hrep' := hrep.push (by omega) (by omega) ⟨paddr, len⟩
  rw [hlength, hnseg] at hrep'
  rw [if_neg hfull, if_pos hroom, hnseg]
  have hidx : pre.length + 1 = sg.nseg := by omega
  refine ⟨{ sg with segs := sg.segs.set (pre.length + 1) ⟨paddr, len⟩, nseg := sg.nseg + 1 },
    by simp [hidx], succ_pos _, ⟨?_, by simpa using hmle, hmlt⟩, rfl, ?_, ?_⟩
  · show sg.nseg + 1 ≤ sg.maxseg
    omega
  · rw [hrep'.used_eq, hpre']
    simpa [cutLen] using (mod_eq_of_lt hlen).symm
  rw [hsegs, hrep'.used_eq]
  exact .push _ _

/-! ### A buffer -/

/-- A call that has appended all of `ranges` to `used`, or a part of them and run out of
segments. -/
def GrownOrFull (sg : Sglist) (used ranges : List SglistSeg)
    (call : Outcome (Except Errno Unit × Sglist)) : Prop :=
  (∃ sg', call = .ok (.ok (), sg') ∧ Grown sg (joined used ranges) sg') ∨
    (∃ part sg', call = .ok (.error .efbig, sg') ∧ Grown sg part sg' ∧
      sg.maxseg < (joined used ranges).length)

theorem Grown.andThen {ranges : List SglistSeg} {call : Outcome (Except Errno Unit × Sglist)}
    (h : Grown sg used sg') (h' : GrownOrFull sg' used ranges call) :
    GrownOrFull sg used ranges call := by
  rcases h' with ⟨sg'', hcall, hgrown⟩ | ⟨part, sg'', hcall, hgrown, hfull⟩
  · exact .inl ⟨sg'', hcall, h.trans hgrown⟩
  · exact .inr ⟨part, sg'', hcall, h.trans hgrown, h.maxseg ▸ hfull⟩

theorem appendPagesBy_grown (h : sg.Ok) (hused : sg.used = used.map cutLen) (hpos : 0 < sg.nseg)
    (hpage : len ≠ 0 → vaddr % pageSize = 0) (hfuel : len ≤ fuel) :
    GrownOrFull sg used (map.ranges vaddr len)
      (appendPagesBy map fuel sg (sg.nseg - 1) vaddr len) := by
  induction fuel generalizing sg used vaddr len with
  | zero =>
    obtain rfl : len = 0 := by omega
    rw [VirtToPhys.ranges_zero]
    exact .inl ⟨sg, rfl, .refl h hused⟩
  | succ fuel ih =>
    rw [appendPagesBy]
    by_cases hlen : len = 0
    · subst hlen
      rw [VirtToPhys.ranges_zero]
      exact .inl ⟨sg, if_pos rfl, .refl h hused⟩
    rw [if_neg hlen, VirtToPhys.ranges, if_neg hlen, hpage hlen, Nat.sub_zero]
    dsimp only
    have haligned := hpage hlen
    have hpos' : 0 < min len pageSize := Nat.lt_min.mpr ⟨by omega, by decide⟩
    have hlt : min len pageSize < 2 ^ 64 := (min_le_right _ _).trans_lt (by decide)
    rcases sglistAppendRange_grown (map.phys vaddr) h hused hpos hlt with
      ⟨sg₁, hrange, hpos₁, hgrown⟩ | ⟨hrange, hfull⟩
    · rw [hrange]
      refine hgrown.andThen (ih hgrown.ok hgrown.used hpos₁ ?_ (by omega))
      intro hmore
      have hpage₁ : min len pageSize = pageSize := by
        unfold pageSize at *
        omega
      rw [hpage₁]
      unfold addU64 pageSize at *
      omega
    rw [hrange]
    exact .inr ⟨used, sg, rfl, .refl h hused, hfull.trans_le (length_le_joined ..)⟩

theorem pageOff_eq (v : Nat) : pageOff v = v % pageSize := and_two_pow_sub_one_eq_mod v 12

theorem sglistAppendBufBy_grown (map : VirtToPhys) (buf len : Nat) (h : sg.Ok)
    (hused : sg.used = used.map cutLen) (hmax : sg.maxseg ≠ 0) :
    GrownOrFull sg used (map.ranges buf len) (sglistAppendBufBy map sg buf len) := by
  unfold sglistAppendBufBy
  by_cases hlen : len = 0
  · subst hlen
    rw [VirtToPhys.ranges_zero]
    exact .inl ⟨sg, if_pos rfl, .refl h hused⟩
  rw [if_neg hlen, VirtToPhys.ranges, if_neg hlen, pageOff_eq]
  have hoff : buf % pageSize < pageSize := mod_lt _ (by decide)
  have hnext : len - min len (pageSize - buf % pageSize) ≠ 0 →
      addU64 buf (min len (pageSize - buf % pageSize)) % pageSize = 0 := by
    intro hmore
    unfold addU64 pageSize at *
    omega
  have hlt : min len (pageSize - buf % pageSize) < 2 ^ 64 :=
    ((min_le_right _ _).trans (Nat.sub_le _ _)).trans_lt (by decide)
  generalize min len (pageSize - buf % pageSize) = seglen at hnext hlt ⊢
  dsimp only
  by_cases hnseg : sg.nseg = 0
  · -- The first segment of the list.
    have hne : sg.segs.length ≠ 0 := by have := h.maxseg_le; omega
    rw [if_pos hnseg, if_neg hne]
    obtain ⟨x, rest, hsegs⟩ := exists_cons_of_length_pos (pos_of_ne_zero hne)
    have hnil : sg.used = [] := by simp [Sglist.used, hnseg]
    obtain rfl : used = [] := map_eq_nil_iff.mp (hused.symm.trans hnil)
    have hgrown : Grown sg (joinRange [] ⟨map.phys buf, seglen⟩)
        { sg with segs := sg.segs.set 0 ⟨map.phys buf, seglen⟩, nseg := 1 } := by
      refine ⟨⟨pos_of_ne_zero hmax, by simpa using h.maxseg_le, h.maxseg_lt⟩, rfl, ?_, ?_⟩
      · simpa [Sglist.used, hsegs, joinRange, cutLen] using (mod_eq_of_lt hlt).symm
      rw [hnil]
      exact ⟨zero_le _, nofun, nofun⟩
    exact hgrown.andThen (appendPagesBy_grown hgrown.ok hgrown.used one_pos hnext (sub_le _ _))
  rw [if_neg hnseg]
  rcases sglistAppendRange_grown (map.phys buf) h hused (pos_of_ne_zero hnseg) hlt with
    ⟨sg₁, hrange, hpos₁, hgrown⟩ | ⟨hrange, hfull⟩
  · rw [hrange]
    exact hgrown.andThen (appendPagesBy_grown hgrown.ok hgrown.used hpos₁ hnext (sub_le _ _))
  rw [hrange]
  exact .inr ⟨used, sg, rfl, .refl h hused, hfull.trans_le (length_le_joined ..)⟩

theorem ukSglistAppendBy_grown (map : VirtToPhys) (buf len : Nat) (h : sg.Ok)
    (hused : sg.used = used.map cutLen) (hmax : sg.maxseg ≠ 0) :
    (∃ sg', ukSglistAppendBy map sg buf len = .ok (.ok (), sg') ∧
        Grown sg (joined used (map.ranges buf len)) sg') ∨
      (∃ e sg', ukSglistAppendBy map sg buf len = .ok (.error e, sg') ∧ sg'.Ok ∧
        sg'.nseg = sg.nseg ∧ sg'.used = sg.used ∧
        sg.maxseg < (joined used (map.ranges buf len)).length) := by
  unfold ukSglistAppendBy
  rw [if_neg hmax]
  rcases sglistAppendBufBy_grown map buf len h hused hmax with
    ⟨sg', hcall, hgrown⟩ | ⟨part, sg', hcall, hgrown, hfull⟩
  · rw [hcall]
    exact .inl ⟨sg', rfl, hgrown⟩
  rw [hcall]
  obtain ⟨hnseg, hback⟩ := sglistRestore_used hgrown.ext h hgrown.ok
  exact .inr ⟨_, sglistRestore sg' sg, rfl, sglistRestore_ok h hgrown.ok hgrown.maxseg, hnseg,
    hback, hfull⟩

/-- The segments in use are among the list's, so what has been appended fits. -/
theorem Grown.length_le (h : Grown sg used sg') : used.length ≤ sg.maxseg := by
  have hlen := congrArg length h.used
  rw [h.ok.used_length, length_map] at hlen
  rw [← hlen, ← h.maxseg]
  exact h.ok.nseg_le

/-- The list describes what has been appended just if no length has wrapped. -/
theorem Grown.content_iff {ranges : List SglistSeg} (h : Grown sg (joined sg.used ranges) sg') :
    sg'.content = sg.content ++ ranges.flatMap segBytes ↔ LensFit (joined sg.used ranges) := by
  rw [content, content, h.used, ← joined_flatMap, cutLen_flatMap_iff]

theorem Grown.appends_iff {α : Type} {ranges : List SglistSeg} {ret : α}
    {call : Outcome (Except Errno α × Sglist)} (h : Grown sg (joined sg.used ranges) sg')
    (hcall : call = .ok (.ok ret, sg')) :
    AppendsOrNot sg (ranges.flatMap segBytes) ret call ↔ LensFit (joined sg.used ranges) := by
  rw [← h.content_iff]
  constructor
  · rintro (⟨sg₁, hcall₁, hcontent, -⟩ | ⟨e, sg₁, hcall₁, -⟩)
    · cases hcall₁.symm.trans hcall
      exact hcontent
    · cases hcall₁.symm.trans hcall
  · exact fun hcontent => .inl ⟨sg', hcall, hcontent, h.ok, h.maxseg⟩

theorem Sglist.Fits.joined_eq_nil {ranges : List SglistSeg} (h : sg.Fits ranges)
    (hmax : sg.maxseg = 0) : joined sg.used ranges = [] :=
  length_eq_zero_iff.mp (Nat.le_zero.mp (hmax ▸ h))

theorem lensFit_nil : LensFit [] := fun _ hs => absurd hs not_mem_nil

theorem ukSglistAppendBy_appends (map : VirtToPhys) (h : sg.Ok) (hlens : LensFit sg.used)
    (hbuf : buf < 2 ^ 64) :
    AppendsOrNot sg (map.bytes buf len) () (ukSglistAppendBy map sg buf len) ↔
      (sg.Fits (map.ranges buf len) → LensFit (joined sg.used (map.ranges buf len))) := by
  by_cases hmax : sg.maxseg = 0
  · exact iff_of_true (.inr ⟨_, sg, if_pos hmax, rfl, rfl⟩) fun hfits =>
      hfits.joined_eq_nil hmax ▸ lensFit_nil
  rcases ukSglistAppendBy_grown map buf len h hlens.map_cutLen.symm hmax with
    ⟨sg', hcall, hgrown⟩ | ⟨e, sg', hcall, -, hnseg, hused, hfull⟩
  · rw [← map.ranges_flatMap hbuf, hgrown.appends_iff hcall]
    exact ⟨fun hlens' _ => hlens', fun hlens' => hlens' hgrown.length_le⟩
  · exact iff_of_true (.inr ⟨e, sg', hcall, hnseg, hused⟩)
      fun hfits => absurd hfits (not_le_of_gt hfull)

/-! ### A chain of buffers -/

/-- How the loop over a chain ends: with all of it described, out of segments and with the list as
it was saved, or, behind a part of the chain that the segments are enough for, with a length that
is no `int`. -/
def ChainEnds (map : VirtToPhys) (save : Sglist) (used : List SglistSeg) (chain : List UkNetbuf)
    (len : Nat) (call : Outcome (Except Errno Nat × Sglist)) : Prop :=
  (∃ sg', call = .ok (.ok (len + chainLen chain), sg') ∧ len + chainLen chain < 2 ^ 31 ∧
      Grown save (joined used (map.chainRanges chain)) sg') ∨
    (∃ e sg', call = .ok (.error e, sg') ∧ (sg'.nseg = save.nseg ∧ sg'.used = save.used) ∧
      save.maxseg < (joined used (map.chainRanges chain)).length ∧
      ∀ part, part <+: chain → (joined used (map.chainRanges part)).length ≤ save.maxseg →
        len + chainLen part < 2 ^ 31) ∨
    (call = .error .undefinedArith ∧
      ∃ part, part <+: chain ∧ (joined used (map.chainRanges part)).length ≤ save.maxseg ∧
        2 ^ 31 ≤ len + chainLen part)

theorem chainLen_cons (nb : UkNetbuf) (chain : List UkNetbuf) :
    chainLen (nb :: chain) = nb.len + chainLen chain := sum_cons

theorem joined_chainRanges_cons (nb : UkNetbuf) (chain : List UkNetbuf) :
    joined used (map.chainRanges (nb :: chain)) =
      joined (joined used (map.ranges nb.data nb.len)) (map.chainRanges chain) :=
  joined_append ..

theorem ChainEnds.cons {save : Sglist} {nb : UkNetbuf} {chain : List UkNetbuf}
    {call : Outcome (Except Errno Nat × Sglist)} (hlen : len < 2 ^ 31)
    (h : ChainEnds map save (joined used (map.ranges nb.data nb.len)) chain (len + nb.len) call) :
    ChainEnds map save used (nb :: chain) len call := by
  unfold ChainEnds at h ⊢
  rw [joined_chainRanges_cons, chainLen_cons, ← add_assoc]
  rcases h with hend | ⟨e, sg', hcall, hback, hfull, hparts⟩ | ⟨hcall, part, hpart, hfits, hover⟩
  · exact .inl hend
  · refine .inr (.inl ⟨e, sg', hcall, hback, hfull, fun part hpart hfits => ?_⟩)
    rcases prefix_cons_iff.mp hpart with rfl | ⟨part', rfl, hpart'⟩
    · exact hlen
    rw [joined_chainRanges_cons] at hfits
    rw [chainLen_cons, ← add_assoc]
    exact hparts part' hpart' hfits
  · refine .inr (.inr ⟨hcall, nb :: part, (prefix_cons_inj nb).mpr hpart, ?_, ?_⟩)
    · rwa [joined_chainRanges_cons]
    · rwa [chainLen_cons, ← add_assoc]

theorem netbufLoop_ends (map : VirtToPhys) {save : Sglist} (chain : List UkNetbuf)
    (hsave : save.Ok) (hmax : save.maxseg ≠ 0) (h : Grown save used sg) (hlen : len < 2 ^ 31) :
    ChainEnds map save used chain len (netbufLoop map save chain sg len) := by
  induction chain generalizing sg used len with
  | nil => exact .inl ⟨sg, rfl, hlen, h⟩
  | cons nb chain ih =>
    rw [netbufLoop]
    by_cases hpos : 0 < nb.len
    · rw [if_pos hpos]
      rcases ukSglistAppendBy_grown map nb.data nb.len h.ok h.used (h.maxseg ▸ hmax) with
        ⟨sg₁, hcall, hgrown⟩ | ⟨e, sg₁, hcall, hok, -, hused, hfull⟩
      · rw [hcall, Outcome.ok_bind]
        have hgrown₁ := h.trans hgrown
        dsimp only
        split
        case isTrue hint => exact (ih hgrown₁ hint).cons hlen
        case isFalse hint =>
          refine .inr (.inr ⟨rfl, [nb], prefix_append [nb] chain, ?_, ?_⟩)
          · rw [joined_chainRanges_cons]
            exact hgrown₁.length_le
          · rw [chainLen_cons]
            exact le_of_not_gt hint
      rw [hcall]
      rw [h.maxseg] at hfull
      -- No part of the chain with this buffer fits.
      have hparts : ∀ part,
          save.maxseg < (joined used (map.chainRanges (nb :: part))).length := fun part => by
        rw [joined_chainRanges_cons]
        exact hfull.trans_le (length_le_joined ..)
      refine .inr (.inl ⟨e, sglistRestore sg₁ save, rfl,
        sglistRestore_used (hused ▸ h.ext) hsave hok, hparts chain, fun part hpart hfits => ?_⟩)
      rcases prefix_cons_iff.mp hpart with rfl | ⟨part', rfl, -⟩
      · exact hlen
      · exact absurd hfits (not_le_of_gt (hparts part'))
    rw [if_neg hpos]
    have hzero : nb.len = 0 := by omega
    refine ChainEnds.cons hlen ?_
    rw [hzero, VirtToPhys.ranges_zero]
    exact ih h hlen

theorem chainLen_le {part chain : List UkNetbuf} (h : part <+: chain) :
    chainLen part ≤ chainLen chain := by
  obtain ⟨rest, rfl⟩ := h
  simp [chainLen]

theorem VirtToPhys.chainBytes_length (map : VirtToPhys) (chain : List UkNetbuf) :
    (map.chainBytes chain).length = chainLen chain := by
  simp [chainBytes, chainLen, length_flatMap]

/-- A list without segments takes empty buffers only. -/
theorem Sglist.Fits.chainLen_eq_zero {chain : List UkNetbuf} (h : sg.Fits (map.chainRanges chain))
    (hmax : sg.maxseg = 0) : chainLen chain = 0 := by
  have hbytes := joined_flatMap sg.used (map.chainRanges chain)
  rw [h.joined_eq_nil hmax, map.chainRanges_flatMap] at hbytes
  rw [← map.chainBytes_length, (append_eq_nil_iff.mp hbytes.symm).2]
  rfl

/-- **Scatter/gather append.** `uk_sglist_append` adds the translations of the bytes of the buffer
to the content or leaves the list as it was, just if none of the ranges of memory the list would
then describe, where its segments are enough for them, has `2 ^ 64` bytes.
`uk_sglist_append_netbuf` does the same for a chain and returns its length, just if moreover every
part of the chain that the segments are enough for has less than `2 ^ 31` bytes. -/
theorem uk_sglist_append_content (map : VirtToPhys) (h : sg.Ok) (hlens : LensFit sg.used) :
    (∀ buf len, buf < 2 ^ 64 →
      (AppendsOrNot sg (map.bytes buf len) () (ukSglistAppendBy map sg buf len) ↔
        (sg.Fits (map.ranges buf len) → LensFit (joined sg.used (map.ranges buf len))))) ∧
    (∀ chain,
      AppendsOrNot sg (map.chainBytes chain) (chainLen chain)
          (ukSglistAppendNetbuf map sg chain) ↔
        (∀ part, part <+: chain → sg.Fits (map.chainRanges part) → chainLen part < 2 ^ 31) ∧
        (sg.Fits (map.chainRanges chain) →
          LensFit (joined sg.used (map.chainRanges chain)))) := by
  refine ⟨fun buf len hbuf => ukSglistAppendBy_appends map h hlens hbuf, fun chain => ?_⟩
  unfold ukSglistAppendNetbuf
  by_cases hmax : sg.maxseg = 0
  · refine iff_of_true (.inr ⟨_, sg, if_pos hmax, rfl, rfl⟩) ⟨fun part _ hfits => ?_, fun hfits =>
      hfits.joined_eq_nil hmax ▸ lensFit_nil⟩
    rw [hfits.chainLen_eq_zero hmax]
    decide
  rw [if_neg hmax]
  rcases netbufLoop_ends map chain h hmax (.refl h hlens.map_cutLen.symm) (by decide : 0 < 2 ^ 31)
    with ⟨sg', hcall, hint, hgrown⟩ | ⟨e, sg', hcall, ⟨hnseg, hused⟩, hfull, hparts⟩ |
      ⟨hcall, part, hpart, hfits, hover⟩
  · rw [zero_add] at hcall hint
    rw [← map.chainRanges_flatMap, hgrown.appends_iff hcall]
    have hparts : ∀ part, part <+: chain → sg.Fits (map.chainRanges part) →
        chainLen part < 2 ^ 31 := fun part hpart _ =>
      (chainLen_le hpart).trans_lt hint
    exact ⟨fun hlens' => ⟨hparts, fun _ => hlens'⟩, fun hlens' => hlens'.2 hgrown.length_le⟩
  · simp only [zero_add] at hparts
    exact iff_of_true (.inr ⟨e, sg', hcall, hnseg, hused⟩)
      ⟨hparts, fun hfits => absurd hfits (not_le_of_gt hfull)⟩
  · rw [zero_add] at hover
    refine iff_of_false ?_ fun hall => absurd (hall.1 part hpart hfits) (not_lt_of_ge hover)
    rw [hcall]
    rintro (⟨sg', hret, -⟩ | ⟨e, sg', hret, -⟩) <;> cases hret

/-! ### Memory mapped one to one

The pages of a buffer follow each other, so that it needs at most one new segment, and none if it
follows the last one. -/

theorem joined_following (pre : List SglistSeg) {a l : Nat} (hv : vaddr < 2 ^ 64)
    (hend : addU64 a l = vaddr) :
    joined (pre ++ [⟨a, l⟩]) (oneToOne.ranges vaddr len) = pre ++ [⟨a, l + len⟩] := by
  induction len using Nat.strong_induction_on generalizing vaddr l with
  | _ len ih =>
    by_cases hlen : len = 0
    · rw [hlen, VirtToPhys.ranges_zero]
      rfl
    have hoff : vaddr % pageSize < pageSize := mod_lt _ (by decide)
    rw [VirtToPhys.ranges, if_neg hlen, oneToOne_phys hv]
    have hle : min len (pageSize - vaddr % pageSize) ≤ len := min_le_left _ _
    have hpos : 0 < min len (pageSize - vaddr % pageSize) := by omega
    generalize min len (pageSize - vaddr % pageSize) = seglen at hle hpos ⊢
    rw [joined, foldl_cons, joinRange_concat, if_pos hend]
    have hnext : addU64 a (l + seglen) = addU64 vaddr seglen := by rw [← hend, addU64_assoc]
    refine (ih (len - seglen) (by omega) (addU64_lt ..) hnext).trans ?_
    rw [add_assoc, Nat.add_sub_cancel' hle]

theorem joined_oneToOne (used : List SglistSeg) (hbuf : buf < 2 ^ 64) (hpos : 0 < len) :
    joined used (oneToOne.ranges buf len) = joinRange used ⟨buf, len⟩ := by
  rw [VirtToPhys.ranges, if_neg hpos.ne', oneToOne_phys hbuf]
  have hle : min len (pageSize - buf % pageSize) ≤ len := min_le_left _ _
  generalize min len (pageSize - buf % pageSize) = seglen at hle ⊢
  rw [joined, foldl_cons]
  have hsum : seglen + (len - seglen) = len := Nat.add_sub_cancel' hle
  rcases eq_nil_or_concat' used with rfl | ⟨pre, s, rfl⟩
  · exact (joined_following [] (addU64_lt ..) rfl).trans (by rw [hsum]; rfl)
  rw [joinRange_concat, joinRange_concat]
  split
  case isTrue hadj =>
    have hnext : addU64 s.paddr (s.len + seglen) = addU64 buf seglen := by
      rw [← addU64_assoc, hadj]
    exact (joined_following pre (addU64_lt ..) hnext).trans (by rw [add_assoc, hsum])
  case isFalse => exact (joined_following _ (addU64_lt ..) rfl).trans (by rw [hsum])

/-- A list with a segment, and a buffer of 6000 bytes that is cut at two page boundaries. -/
theorem uk_sglist_append_content_sample :
    ∃ sg', ukSglistAppendBy oneToOne ⟨[⟨0x2000, 16⟩, ⟨0, 0⟩], 1, 2⟩ 0x7ff0 6000 =
        .ok (.ok (), sg') ∧
      sg'.content = segBytes ⟨0x2000, 16⟩ ++ oneToOne.bytes 0x7ff0 6000 := by
  have hok : Sglist.Ok ⟨[⟨0x2000, 16⟩, ⟨0, 0⟩], 1, 2⟩ := ⟨by decide, by decide, by decide⟩
  have heval : (ukSglistAppendBy oneToOne ⟨[⟨0x2000, 16⟩, ⟨0, 0⟩], 1, 2⟩ 0x7ff0 6000).toOption.map
      (fun r => r.1.toOption) = some (some ()) := by decide +kernel
  rcases ((uk_sglist_append_content oneToOne hok (lensFit_of_length (by decide))).1 0x7ff0 6000
      (by decide)).mpr fun _ => oneToOne.lensFit_joined (by decide) (by decide) with
    ⟨sg', hcall, hcontent, -⟩ | ⟨e, sg', hcall, -⟩
  · exact ⟨sg', hcall, by simpa [content, Sglist.used] using hcontent⟩
  rw [hcall] at heval
  cases heval

/-! ### Lists that take a buffer -/

/-- The last segment ends at `a`. -/
structure Sglist.EndsAt (sg : Sglist) (a : Nat) : Prop where
  ok : sg.Ok
  lens : LensFit sg.used
  last : ∃ pre s, sg.used = pre ++ [s] ∧ addU64 s.paddr s.len = a

/-- The list takes a buffer at `buf` of any length, and ends with it then. -/
def Sglist.Takes (sg : Sglist) (buf : Nat) : Prop :=
  ∀ len, 0 < len → ∃ sg', ukSglistAppend sg buf len = .ok (.ok (), sg') ∧
    sg'.EndsAt (addU64 buf len)

theorem joinRange_end (used : List SglistSeg) (p : SglistSeg) :
    ∃ pre s, joinRange used p = pre ++ [s] ∧ addU64 s.paddr s.len = addU64 p.paddr p.len := by
  rcases eq_nil_or_concat' used with rfl | ⟨pre, s, rfl⟩
  · exact ⟨[], p, rfl, rfl⟩
  rw [joinRange_concat]
  split
  case isTrue hadj => exact ⟨pre, _, rfl, by rw [← hadj, addU64_assoc]⟩
  case isFalse => exact ⟨_, p, rfl, rfl⟩

theorem lensFit_cutLen (used : List SglistSeg) : LensFit (used.map cutLen) := by
  intro s hs
  obtain ⟨t, -, rfl⟩ := mem_map.mp hs
  exact mod_lt _ (by decide)

theorem Sglist.Ok.append (h : sg.Ok) (hlens : LensFit sg.used) (hbuf : buf < 2 ^ 64)
    (hpos : 0 < len) (hroom : (joinRange sg.used ⟨buf, len⟩).length ≤ sg.maxseg) :
    ∃ sg', ukSglistAppend sg buf len = .ok (.ok (), sg') ∧ sg'.EndsAt (addU64 buf len) := by
  obtain ⟨pre, s, hend, haddr⟩ := joinRange_end sg.used ⟨buf, len⟩
  have hmax : sg.maxseg ≠ 0 := by
    rw [hend, length_append, length_singleton] at hroom
    omega
  have hcall := ukSglistAppendBy_grown oneToOne buf len h hlens.map_cutLen.symm hmax
  rw [joined_oneToOne sg.used hbuf hpos] at hcall
  rcases hcall with ⟨sg', hcall, hgrown⟩ | ⟨e, sg', -, -, -, -, hfull⟩
  · refine ⟨sg', hcall, hgrown.ok, hgrown.used ▸ lensFit_cutLen _, pre.map cutLen, cutLen s, ?_, ?_⟩
    · rw [hgrown.used, hend, map_append, map_singleton]
    · rw [← haddr]
      simp only [cutLen, addU64]
      omega
  · exact absurd hroom (not_le_of_gt hfull)

theorem Sglist.EndsAt.takes (h : sg.EndsAt buf) (hbuf : buf < 2 ^ 64) : sg.Takes buf := by
  intro len hpos
  refine h.ok.append h.lens hbuf hpos ?_
  obtain ⟨pre, s, hused, hadj⟩ := h.last
  have hlen := h.ok.used_length.trans_le h.ok.nseg_le
  rw [hused] at hlen ⊢
  rw [joinRange_concat, if_pos hadj]
  simpa using hlen

theorem Sglist.Ok.takes (h : sg.Ok) (hsize : sg.content.length < 2 ^ 64)
    (hroom : sg.nseg < sg.maxseg) (hbuf : buf < 2 ^ 64) : sg.Takes buf := by
  intro len hpos
  refine h.append (lensFit_of_length hsize) hbuf hpos (le_trans ?_ (succ_le_of_lt hroom))
  rw [← h.used_length]
  rcases eq_nil_or_concat' sg.used with hnil | ⟨pre, s, hused⟩
  · simp [hnil, joinRange]
  rw [hused, joinRange_concat]
  split <;> simp

/-- What a successful append of fewer than `2 ^ 64` bytes leaves. -/
structure Appended (sg : Sglist) (bytes : List Nat) (sg' : Sglist) : Prop where
  ok : sg'.Ok
  maxseg : sg'.maxseg = sg.maxseg
  content : sg'.content = sg.content ++ bytes

theorem ukSglistAppend_grown (h : sg.Ok) (hbuf : buf < 2 ^ 64)
    (hsize : sg.content.length + len < 2 ^ 64)
    (hcall : ukSglistAppend sg buf len = .ok (.ok (), sg')) :
    Appended sg (oneToOne.bytes buf len) sg' := by
  have happends := (ukSglistAppendBy_appends oneToOne h (lensFit_of_length (by
    unfold content at hsize; omega)) hbuf).mpr fun _ => oneToOne.lensFit_joined hbuf hsize
  rcases happends with ⟨sg₁, hcall₁, hcontent, hok, hmax⟩ | ⟨e, sg₁, hcall₁, -⟩
  · cases hcall₁.symm.trans hcall
    exact ⟨hok, hmax, hcontent⟩
  · cases hcall₁.symm.trans hcall

/-! ### A chain that is too long

The number of buffers that follow each other is not bounded by the list. -/

/-- `n` buffers of 65535 bytes that follow each other from `a` on. -/
def contiguous : Nat → Nat → List UkNetbuf
  | 0, _ => []
  | n + 1, a =>
    ⟨a % 2 ^ 64, 65535, mod_lt a (by decide), by decide⟩ :: contiguous n (addU64 a 65535)

theorem chainLen_contiguous (n a : Nat) : chainLen (contiguous n a) = 65535 * n := by
  induction n generalizing a with
  | zero => rfl
  | succ n ih =>
    have hcons : chainLen (contiguous (n + 1) a) =
        65535 + chainLen (contiguous n (addU64 a 65535)) := chainLen_cons ..
    rw [hcons, ih]
    ring

theorem joined_contiguous {n a l v : Nat} (hv : v < 2 ^ 64) (hend : addU64 a l = v) :
    joined [⟨a, l⟩] (oneToOne.chainRanges (contiguous n v)) = [⟨a, l + 65535 * n⟩] := by
  induction n generalizing l v with
  | zero => rfl
  | succ n ih =>
    show joined _ (oneToOne.chainRanges (_ :: contiguous n (addU64 v 65535))) = _
    rw [joined_chainRanges_cons]
    dsimp only
    rw [mod_eq_of_lt hv, ← nil_append [_], joined_following [] hv hend, nil_append,
      ih (addU64_lt ..) (by rw [← addU64_assoc, hend])]
    congr 2
    ring

/-- A chain of two gigabytes, whose length is not an `int`; and a segment that is extended by
a page and describes no byte any more. -/
theorem uk_sglist_append_overflows :
    (∃ sg chain, sg.Ok ∧ chainLen chain = 65535 * 32769 ∧
      sg.content.length + chainLen chain < 2 ^ 64 ∧
      ukSglistAppendNetbuf oneToOne sg chain = .error .undefinedArith) ∧
    (∃ sg sg', sg.Ok ∧ ukSglistAppendBy oneToOne sg 0 4096 = .ok (.ok (), sg') ∧
      sg.used = [⟨4096, 2 ^ 64 - 4096⟩] ∧ sg'.content = []) := by
  constructor
  · refine ⟨⟨[⟨0x100000, 16⟩], 1, 1⟩, contiguous 32769 0x100010, ⟨le_rfl, le_rfl, by decide⟩,
      chainLen_contiguous .., ?_, ?_⟩
    · rw [chainLen_contiguous]
      decide
    have hgrown : Grown ⟨[⟨0x100000, 16⟩], 1, 1⟩ [⟨0x100000, 16⟩] ⟨[⟨0x100000, 16⟩], 1, 1⟩ :=
      .refl ⟨le_rfl, le_rfl, by decide⟩ rfl
    have hjoined := joined_contiguous (n := 32769) (a := 0x100000) (l := 16) (v := 0x100010)
      (by decide) (by decide)
    rw [ukSglistAppendNetbuf, if_neg one_ne_zero]
    rcases netbufLoop_ends oneToOne (contiguous 32769 0x100010) hgrown.ok one_ne_zero hgrown
      (by decide : 0 < 2 ^ 31) with ⟨-, -, hint, -⟩ | ⟨-, -, -, -, hfull, -⟩ | ⟨hcall, -⟩
    · rw [chainLen_contiguous] at hint
      omega
    · rw [hjoined] at hfull
      exact absurd hfull (lt_irrefl 1)
    · exact hcall
  refine ⟨⟨[⟨4096, 2 ^ 64 - 4096⟩], 1, 1⟩, ⟨[⟨4096, 0⟩], 1, 1⟩, ⟨le_rfl, le_rfl, by decide⟩, ?_,
    rfl, rfl⟩
  rfl

end Unikraft.Uksglist
