import Unikraft.Uksglist.Append

/-!
# Joining two scatter/gather lists (`uk_sglist_join` in `lib/uksglist/sglist.c`)

The room is computed with regard to two segments that are merged, but the `memmove` has its
arguments the wrong way round: it copies what stands behind the segments of `first` into `second`.
The join is right if there is nothing to be copied.
-/

namespace Unikraft.Uksglist

open Virtio

/-- `memmove` of `n` entries between distinct arrays, from the index `i` to the index `j`. -/
def moveSegs (dst : List SglistSeg) (j : Nat) (src : List SglistSeg) (i n : Nat) :
    Outcome (List SglistSeg) :=
  if i + n ≤ src.length ∧ j + n ≤ dst.length then
    .ok (dst.take j ++ (src.drop i).take n ++ dst.drop (j + n))
  else .error .outOfBounds

/-- The last segment of `first` and the first one of `second`, if they are to be merged. -/
def merges (first second : Sglist) : Option (SglistSeg × SglistSeg) :=
  if first.nseg = 0 then none
  else
    match first.segs[first.nseg - 1]?, second.segs[0]? with
    | some flast, some sfirst =>
      if addU64 flast.paddr flast.len = sfirst.paddr then some (flast, sfirst) else none
    | _, _ => none

/-- The variable `append`. -/
def joinAppend (first second : Sglist) : Nat := if (merges first second).isSome then 1 else 0

/-- The segments of `first` after `flast->ss_len += sfirst->ss_len`. -/
def mergedSegs (first second : Sglist) : List SglistSeg :=
  match merges first second with
  | none => first.segs
  | some (flast, sfirst) =>
    first.segs.set (first.nseg - 1) { flast with len := addU64 flast.len sfirst.len }

def ukSglistJoin (first second : Sglist) : Outcome (Except Errno Unit × Sglist × Sglist) :=
  if second.nseg = 0 then .ok (.ok (), first, second)
  else
    let append := joinAppend first second
    if first.nseg + second.nseg - append > first.maxseg then .ok (.error .efbig, first, second)
    else do
      let segs := mergedSegs first second
      let moved ← moveSegs second.segs append segs first.nseg (second.nseg - append)
      return (.ok (), { first with segs := segs,
                                   nseg := addU16 first.nseg (second.nseg - append) },
        ukSglistReset { second with segs := moved })

/-- **What a join has to do**: all of it, or nothing. -/
def JoinsOrNot (first second : Sglist) (call : Outcome (Except Errno Unit × Sglist × Sglist)) :
    Prop :=
  (∃ first' second', call = .ok (.ok (), first', second') ∧
      first'.content = first.content ++ second.content ∧ second'.nseg = 0) ∨
    call = .ok (.error .efbig, first, second)

variable {first second : Sglist} {flast sfirst : SglistSeg}

theorem merges_eq_some (h : merges first second = some (flast, sfirst)) :
    0 < first.nseg ∧ first.segs[first.nseg - 1]? = some flast ∧ second.segs[0]? = some sfirst ∧
      addU64 flast.paddr flast.len = sfirst.paddr := by
  unfold merges at h
  split_ifs at h with hnseg
  split at h
  next hf hs =>
    split_ifs at h with hadj
    cases h
    exact ⟨Nat.pos_of_ne_zero hnseg, hf, hs, hadj⟩
  next => cases h

/-- The bytes that are lost where the length of a merged segment overflows. -/
def wrappedBytes (first second : Sglist) : List Nat :=
  match merges first second with
  | none => []
  | some (flast, sfirst) =>
    segBytes ⟨addU64 flast.paddr (addU64 flast.len sfirst.len),
      (flast.len + sfirst.len) / 2 ^ 64 * 2 ^ 64⟩

/-- The segments that are merged describe what they described before, up to an overflow. -/
theorem mergedSegs_content (hfirst : first.Ok) (hpos : 0 < second.nseg) :
    ((mergedSegs first second).take first.nseg).flatMap segBytes ++ wrappedBytes first second =
      first.content ++ (second.used.take (joinAppend first second)).flatMap segBytes := by
  unfold joinAppend mergedSegs wrappedBytes
  cases hm : merges first second with
  | none => simp [Sglist.content, Sglist.used]
  | some p =>
    obtain ⟨flast, sfirst⟩ := p
    obtain ⟨hnseg, hf, hs, hadj⟩ := merges_eq_some hm
    obtain ⟨pre, s, hused, hpre, hrep⟩ := hfirst.used_eq hnseg
    have hlast := hrep.last
    rw [hpre, hf] at hlast
    cases hlast
    have hset := hrep.setLast { flast with len := addU64 flast.len sfirst.len }
    have htaken : second.used.take 1 = [sfirst] := by
      rw [Sglist.used, List.take_take, Nat.min_eq_left hpos, List.take_one, List.head?_eq_getElem?,
        hs]
      rfl
    have hsegs := hset.used_eq
    simp only [Sglist.used, hpre] at hsegs
    have hsum : addU64 flast.len sfirst.len + (flast.len + sfirst.len) / 2 ^ 64 * 2 ^ 64 =
        flast.len + sfirst.len := Nat.mod_add_div' ..
    simp only [Option.isSome_some, if_true, hsegs, htaken, Sglist.content, hused,
      List.flatMap_append, List.flatMap_singleton, List.append_assoc, ← segBytes_join, hsum]
    rw [segBytes_join, hadj]

theorem mergedSegs_drop (first second : Sglist) :
    (mergedSegs first second).drop first.nseg = first.segs.drop first.nseg := by
  unfold mergedSegs
  split
  · rfl
  · rename_i hm
    have := (merges_eq_some hm).1
    rw [List.drop_set_of_lt (by omega)]

/-- The join needs no move: `second` is empty, there is no room, or the entries behind the segments
of `first` hold already what is to be moved there. -/
def NeedsNoMove (first second : Sglist) : Prop :=
  second.nseg = 0 ∨ first.maxseg < first.nseg + second.nseg - joinAppend first second ∨
    ((first.segs.drop first.nseg).take (second.nseg - joinAppend first second)).flatMap segBytes =
      wrappedBytes first second ++
        (second.used.drop (joinAppend first second)).flatMap segBytes

/-- **Joining lists.** `first` describes the bytes of both lists and `second` is empty, or nothing
has changed, exactly if nothing needs to be moved to `first`. -/
theorem uk_sglist_join_content (hfirst : first.Ok) (hsecond : second.Ok) :
    JoinsOrNot first second (ukSglistJoin first second) ↔ NeedsNoMove first second := by
  unfold ukSglistJoin NeedsNoMove
  by_cases hzero : second.nseg = 0
  · rw [if_pos hzero]
    refine iff_of_true ?_ (.inl hzero)
    exact .inl ⟨first, second, rfl, by simp [Sglist.content, Sglist.used, hzero], hzero⟩
  by_cases hfull : first.nseg + second.nseg - joinAppend first second > first.maxseg
  · rw [if_neg hzero]
    exact iff_of_true (.inr (if_pos hfull)) (.inr (.inl hfull))
  have happend : joinAppend first second ≤ 1 := by
    unfold joinAppend
    split <;> omega
  have hsegs : (mergedSegs first second).length = first.segs.length := by
    unfold mergedSegs
    split <;> simp
  have hroom := hfirst.nseg_le.trans hfirst.maxseg_le
  have hsroom := hsecond.nseg_le.trans hsecond.maxseg_le
  have hmaxseg := hfirst.maxseg_lt
  have hfits := hfirst.maxseg_le
  have hnseg : addU16 first.nseg (second.nseg - joinAppend first second) =
      first.nseg + (second.nseg - joinAppend first second) := Nat.mod_eq_of_lt (by omega)
  simp only [hzero, if_false, hfull, moveSegs, hnseg, false_or]
  rw [if_pos (by omega)]
  have hsplit : second.content =
      (second.used.take (joinAppend first second)).flatMap segBytes ++
        (second.used.drop (joinAppend first second)).flatMap segBytes := by
    rw [← List.flatMap_append, List.take_append_drop, Sglist.content]
  -- what `first` describes afterwards: its merged segments, and the entries behind them
  have hjoined : ((mergedSegs first second).take
        (first.nseg + (second.nseg - joinAppend first second))).flatMap segBytes =
      ((mergedSegs first second).take first.nseg).flatMap segBytes ++
        ((first.segs.drop first.nseg).take
          (second.nseg - joinAppend first second)).flatMap segBytes := by
    rw [List.take_add, List.flatMap_append, mergedSegs_drop]
  have hmerged := mergedSegs_content hfirst (Nat.pos_of_ne_zero hzero)
  constructor
  · rintro (⟨first', second', heq, hcontent, -⟩ | heq)
    · cases heq
      change ((mergedSegs first second).take _).flatMap segBytes = _ at hcontent
      rw [hjoined, hsplit, ← List.append_assoc, ← hmerged, List.append_assoc] at hcontent
      exact List.append_cancel_left hcontent
    · cases heq
  · intro h
    refine .inl ⟨_, _, rfl, ?_, rfl⟩
    change ((mergedSegs first second).take _).flatMap segBytes = _
    rw [hjoined, h, ← List.append_assoc, hmerged, List.append_assoc, ← hsplit]

/-- A segment that continues the last one is merged with it. -/
theorem uk_sglist_join_content_merged :
    JoinsOrNot ⟨[⟨16, 2⟩], 1, 1⟩ ⟨[⟨18, 3⟩], 1, 1⟩
      (ukSglistJoin ⟨[⟨16, 2⟩], 1, 1⟩ ⟨[⟨18, 3⟩], 1, 1⟩) := by
  exact (uk_sglist_join_content ⟨le_rfl, le_rfl, by decide⟩ ⟨le_rfl, le_rfl, by decide⟩).mpr
    (.inr (.inr (by decide)))

/-- There is room for the segment of `second`, but `first` gets what its second entry held. -/
theorem uk_sglist_join_loses :
    ∃ first second : Sglist, first.Ok ∧ second.Ok ∧
      ¬ JoinsOrNot first second (ukSglistJoin first second) ∧
      (ukSglistJoin first second).map (fun r => r.2.1.used) = .ok [⟨16, 2⟩, ⟨0, 0⟩] := by
  refine ⟨⟨[⟨16, 2⟩, ⟨0, 0⟩], 1, 2⟩, ⟨[⟨32, 1⟩], 1, 1⟩, ⟨by decide, le_rfl, by decide⟩,
    ⟨le_rfl, le_rfl, by decide⟩, ?_, rfl⟩
  rintro (⟨first', second', ⟨⟩, hcontent, -⟩ | hfull)
  · exact absurd hcontent (by decide)
  · exact absurd (congrArg (Except.map fun r => r.2.2.nseg) hfull) (by decide)

end Unikraft.Uksglist
