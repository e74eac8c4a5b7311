import Unikraft.Virtio.Virtqueue

/-!
# Scatter/gather lists (`lib/uksglist/sglist.c`)

The first `sg_nseg` segments of an array are in use (`Sglist.Rep`). `uk_sglist_append` cuts a buffer
into pages and joins a page to the last segment when the two are adjacent. With physical addresses
equal to virtual ones, an append adds one segment or extends the last one (`ukSglistAppend_ok`).
-/

namespace Unikraft.Uksglist

open Virtio

/-! ### The source -/

/-- `struct uk_sglist`, with the array `sg_segs`. -/
structure Sglist where
  segs : List SglistSeg
  nseg : Nat
  maxseg : Nat

def ukSglistReset (sg : Sglist) : Sglist := { sg with nseg := 0 }

/-- `ukplat_virt_to_phys`: a mapping that is linear within each page. -/
structure VirtToPhys where
  phys : Nat → Nat
  phys_lt : ∀ v, phys v < 2 ^ 64
  linear : ∀ v i, v % pageSize + i < pageSize → phys (v + i) = addU64 (phys v) i

/-- The mapping of a platform whose physical addresses are the virtual ones. -/
def oneToOne : VirtToPhys where
  phys := fun v => v % 2 ^ 64
  phys_lt := fun v => Nat.mod_lt v (by decide)
  linear := fun v i _ => by
    unfold addU64
    omega

def pageOff (x : Nat) : Nat := x &&& (pageSize - 1)

/-- `_sglist_append_range`, where `ss` is the index of the current segment. -/
def sglistAppendRange (sg : Sglist) (ss paddr len : Nat) :
    Outcome (Except Errno Unit × Sglist × Nat) :=
  match sg.segs[ss]? with
  | none => .error .outOfBounds
  | some seg =>
    if addU64 seg.paddr seg.len = paddr then
      .ok (.ok (), { sg with segs := sg.segs.set ss { seg with len := addU64 seg.len len } }, ss)
    else if sg.nseg = sg.maxseg then .ok (.error .efbig, sg, ss)
    else if ss + 1 < sg.segs.length then
      .ok (.ok (), { sg with segs := sg.segs.set (ss + 1) ⟨paddr, len⟩,
                             nseg := addU16 sg.nseg 1 }, ss + 1)
    else .error .outOfBounds

/-- The loop of `_sglist_append_buf` over the pages behind the first one. -/
def appendPagesBy (map : VirtToPhys) :
    Nat → Sglist → Nat → Nat → Nat → Outcome (Except Errno Unit × Sglist)
  | fuel, sg, ss, vaddr, len =>
    if len = 0 then .ok (.ok (), sg)
    else
      match fuel with
      | 0 => .error .divergence
      | fuel + 1 => do
          let seglen := min len pageSize
          match ← sglistAppendRange sg ss (map.phys vaddr) seglen with
          | (.error e, sg, _) => return (.error e, sg)
          | (.ok (), sg, ss) => appendPagesBy map fuel sg ss (addU64 vaddr seglen) (len - seglen)

/-- `_sglist_append_buf`. -/
def sglistAppendBufBy (map : VirtToPhys) (sg : Sglist) (buf len : Nat) :
    Outcome (Except Errno Unit × Sglist) :=
  if len = 0 then .ok (.ok (), sg)
  else
    let seglen := min len (pageSize - pageOff buf)
    let paddr := map.phys buf
    if sg.nseg = 0 then
      if sg.segs.length = 0 then .error .outOfBounds
      else
        appendPagesBy map len { sg with segs := sg.segs.set 0 ⟨paddr, seglen⟩, nseg := 1 } 0
          (addU64 buf seglen) (len - seglen)
    else do
      match ← sglistAppendRange sg (sg.nseg - 1) paddr seglen with
      | (.error e, sg, _) => return (.error e, sg)
      | (.ok (), sg, ss) => appendPagesBy map len sg ss (addU64 buf seglen) (len - seglen)

/-- `SGLIST_RESTORE` of the count and the length of the last segment in `save`. -/
def sglistRestore (sg save : Sglist) : Sglist :=
  { sg with
    nseg := save.nseg
    segs := match save.segs[save.nseg - 1]? with
      | some seg => if 0 < save.nseg then sg.segs.modify (save.nseg - 1) ({ · with len := seg.len })
          else sg.segs
      | none => sg.segs }

/-- `uk_sglist_append`. -/
def ukSglistAppendBy (map : VirtToPhys) (sg : Sglist) (buf len : Nat) :
    Outcome (Except Errno Unit × Sglist) :=
  if sg.maxseg = 0 then .ok (.error .einval, sg)
  else do
    match ← sglistAppendBufBy map sg buf len with
    | (.ok (), sg') => return (.ok (), sg')
    | (.error e, sg') => return (.error e, sglistRestore sg' sg)

/-- `uk_sglist_append` on a platform that maps the memory one to one. -/
def ukSglistAppend (sg : Sglist) (buf len : Nat) : Outcome (Except Errno Unit × Sglist) :=
  ukSglistAppendBy oneToOne sg buf len

theorem oneToOne_phys {vaddr : Nat} (hv : vaddr < 2 ^ 64) : oneToOne.phys vaddr = vaddr :=
  Nat.mod_eq_of_lt hv

/-! ### The segments in use -/

/-- `used` are the segments in use. -/
def Sglist.Rep (sg : Sglist) (used : List SglistSeg) : Prop :=
  sg.nseg = used.length ∧ ∃ rest, sg.segs = used ++ rest

variable {sg sg' : Sglist} {used pre : List SglistSeg} {s : SglistSeg} {ss ss' paddr len buf : Nat}

theorem Sglist.Rep.reset (sg : Sglist) : (ukSglistReset sg).Rep [] := ⟨rfl, sg.segs, rfl⟩

theorem Sglist.Rep.take (h : sg.Rep used) : sg.segs.take used.length = used := by
  obtain ⟨-, rest, hsegs⟩ := h
  rw [hsegs, List.take_left]

theorem Sglist.Rep.last (h : sg.Rep (pre ++ [s])) : sg.segs[pre.length]? = some s := by
  obtain ⟨-, rest, hsegs⟩ := h
  rw [hsegs, List.append_assoc, List.getElem?_append_right le_rfl, Nat.sub_self]
  rfl

theorem Sglist.Rep.setLast (h : sg.Rep (pre ++ [s])) (t : SglistSeg) :
    ({ sg with segs := sg.segs.set pre.length t } : Sglist).Rep (pre ++ [t]) := by
  obtain ⟨hn, rest, hsegs⟩ := h
  refine ⟨by simpa using hn, rest, ?_⟩
  simp [hsegs, List.set_append_right]

theorem Sglist.Rep.push (h : sg.Rep used) (hroom : used.length < sg.segs.length)
    (hlt : used.length + 1 < 2 ^ 16) (t : SglistSeg) :
    ({ sg with segs := sg.segs.set used.length t,
               nseg := addU16 sg.nseg 1 } : Sglist).Rep (used ++ [t]) := by
  obtain ⟨hn, rest, hsegs⟩ := h
  have hadd : addU16 sg.nseg 1 = used.length + 1 := by
    rw [hn, addU16, Nat.mod_eq_of_lt hlt]
  cases rest with
  | nil =>
    rw [hsegs, List.append_nil] at hroom
    exact absurd hroom (Nat.lt_irrefl _)
  | cons r rest =>
    refine ⟨by simpa using hadd, rest, ?_⟩
    simp [hsegs, List.set_append_right]

theorem sglistAppendRange_ok (hrep : sg.Rep (pre ++ [s])) (hlt : pre.length + 2 < 2 ^ 16)
    (h : sglistAppendRange sg pre.length paddr len = .ok (.ok (), sg', ss')) :
    (addU64 s.paddr s.len = paddr ∧ sg'.Rep (pre ++ [⟨s.paddr, addU64 s.len len⟩]) ∧
        ss' = pre.length) ∨
      (addU64 s.paddr s.len ≠ paddr ∧ sg'.Rep (pre ++ [s] ++ [⟨paddr, len⟩]) ∧
        ss' = (pre ++ [s]).length) := by
  simp only [sglistAppendRange, hrep.last] at h
  split at h
  · rename_i hadj
    cases h
    exact .inl ⟨hadj, hrep.setLast _, rfl⟩
  rename_i hadj
  split at h
  · cases h
  split at h
  · rename_i hroom
    cases h
    have hl : (pre ++ [s]).length = pre.length + 1 := by simp
    rw [← hl] at hroom ⊢
    exact .inr ⟨hadj, hrep.push hroom (by omega) _, rfl⟩
  · cases h

@[simp] theorem appendPages_zero (fuel : Nat) (sg : Sglist) (ss vaddr : Nat) :
    appendPagesBy oneToOne fuel sg ss vaddr 0 = .ok (.ok (), sg) := by
  cases fuel <;> rfl

theorem appendPages_ok {fuel vaddr a l : Nat} (hrep : sg.Rep (pre ++ [⟨a, l⟩]))
    (hlt : pre.length + 2 < 2 ^ 16) (hvaddr : a + l = vaddr) (hend : vaddr + len ≤ 2 ^ 64)
    (hlen : l + len < 2 ^ 64)
    (h : appendPagesBy oneToOne fuel sg pre.length vaddr len = .ok (.ok (), sg')) :
    sg'.Rep (pre ++ [⟨a, l + len⟩]) := by
  induction fuel generalizing sg vaddr l len with
  | zero =>
    rw [appendPagesBy] at h
    split at h
    · rename_i hzero
      cases h
      rwa [hzero, Nat.add_zero]
    · cases h
  | succ fuel ih =>
    rw [appendPagesBy] at h
    split at h
    · rename_i hzero
      cases h
      rwa [hzero, Nat.add_zero]
    rename_i hpos
    rw [oneToOne_phys (by omega)] at h
    obtain ⟨u, ⟨sg₁, ss₁⟩, hrange, hrest⟩ := Outcome.bind_except h nofun
    have hmin : 0 < min len pageSize := Nat.lt_min.mpr ⟨by omega, by decide⟩
    have hadj : addU64 a l = vaddr := hvaddr ▸ addU64_eq (by omega)
    rcases sglistAppendRange_ok hrep hlt hrange with ⟨-, hrep₁, rfl⟩ | ⟨hne, -⟩
    · have hle : min len pageSize ≤ len := Nat.min_le_left _ _
      have hadd : addU64 l (min len pageSize) = l + min len pageSize := addU64_eq (by omega)
      simp only [hadd] at hrep₁ hrest
      have hsum : l + min len pageSize + (len - min len pageSize) = l + len := by omega
      rw [← hsum]
      by_cases hdone : len - min len pageSize = 0
      · simp only [hdone, appendPages_zero] at hrest
        cases hrest
        rwa [hdone, Nat.add_zero]
      have hnext : addU64 vaddr (min len pageSize) = vaddr + min len pageSize :=
        addU64_eq (by omega)
      rw [hnext] at hrest
      exact ih hrep₁ (by omega) (by omega) (by omega) hrest
    · exact absurd hadj hne

/-- The segments after an append: a buffer that follows the last segment extends it, any
other buffer becomes a segment of its own. -/
def pushBuf : List SglistSeg → Nat → Nat → List SglistSeg
  | [], buf, len => [⟨buf, len⟩]
  | [s], buf, len =>
    if s.paddr + s.len = buf then [⟨s.paddr, s.len + len⟩] else [s, ⟨buf, len⟩]
  | s :: t :: used, buf, len => s :: pushBuf (t :: used) buf len

theorem pushBuf_append (pre : List SglistSeg) (s : SglistSeg) (buf len : Nat) :
    pushBuf (pre ++ [s]) buf len = pre ++ pushBuf [s] buf len := by
  induction pre with
  | nil => rfl
  | cons t pre ih =>
    cases pre with
    | nil => rfl
    | cons u pre => exact congrArg (t :: ·) ih

def firstPart (buf len : Nat) : Nat := min len (pageSize - pageOff buf)

theorem firstPart_le (buf len : Nat) : firstPart buf len ≤ len := Nat.min_le_left _ _

theorem appendPages_rest {fuel a l : Nat}
    (hrep : sg.Rep (pre ++ [⟨a, l + firstPart buf len⟩])) (hlt : pre.length + 2 < 2 ^ 16)
    (hal : a + l = buf) (ha : 0 < a) (hend : buf + len ≤ 2 ^ 64)
    (h : appendPagesBy oneToOne fuel sg pre.length (addU64 buf (firstPart buf len))
      (len - firstPart buf len) = .ok (.ok (), sg')) : sg'.Rep (pre ++ [⟨a, l + len⟩]) := by
  have hle := firstPart_le buf len
  have hsum : l + len = l + firstPart buf len + (len - firstPart buf len) := by omega
  rw [hsum]
  by_cases hdone : len - firstPart buf len = 0
  · rw [hdone, appendPages_zero] at h
    cases h
    rwa [hdone, Nat.add_zero]
  rw [addU64_eq (by omega)] at h
  exact appendPages_ok hrep hlt (by omega) (by omega) (by omega) h

theorem sglistAppendBuf_nil (hrep : sg.Rep []) (hpos : 0 < len) (hbuf : 0 < buf)
    (hend : buf + len ≤ 2 ^ 64) (h : sglistAppendBufBy oneToOne sg buf len = .ok (.ok (), sg')) :
    sg'.Rep [⟨buf, len⟩] := by
  have hn : sg.nseg = 0 := hrep.1
  rw [sglistAppendBufBy, if_neg (by omega), if_pos hn, oneToOne_phys (by omega)] at h
  split at h
  · cases h
  rename_i hne
  obtain ⟨x, rest, hsegs⟩ := List.exists_cons_of_length_pos (Nat.pos_of_ne_zero hne)
  have hrep₁ : ({ sg with segs := sg.segs.set 0 ⟨buf, firstPart buf len⟩, nseg := 1 } :
      Sglist).Rep ([] ++ [⟨buf, 0 + firstPart buf len⟩]) := by
    rw [Nat.zero_add]
    exact ⟨rfl, rest, by rw [hsegs]; rfl⟩
  simpa using appendPages_rest hrep₁ (by simp) (Nat.add_zero buf) hbuf hend h

theorem sglistAppendBuf_append (hrep : sg.Rep (pre ++ [s]))
    (hlt : pre.length + 3 < 2 ^ 16) (hs : 0 < s.paddr) (hslt : s.paddr + s.len < 2 ^ 64)
    (hpos : 0 < len) (hbuf : 0 < buf) (hend : buf + len ≤ 2 ^ 64)
    (h : sglistAppendBufBy oneToOne sg buf len = .ok (.ok (), sg')) :
    sg'.Rep (pre ++ pushBuf [s] buf len) := by
  have hn : sg.nseg = pre.length + 1 := by simpa using hrep.1
  have hle := firstPart_le buf len
  rw [sglistAppendBufBy, if_neg (by omega), if_neg (by omega), hn, Nat.add_sub_cancel,
    oneToOne_phys (by omega)] at h
  obtain ⟨u, ⟨sg₁, ss₁⟩, hrange, hloop⟩ := Outcome.bind_except h nofun
  rw [pushBuf]
  rcases sglistAppendRange_ok hrep (by omega) hrange with ⟨hadj, hrep₁, rfl⟩ | ⟨hadj, hrep₁, rfl⟩
  · have hadj' : s.paddr + s.len = buf := by rwa [addU64_eq hslt] at hadj
    have hsum : addU64 s.len (firstPart buf len) = s.len + firstPart buf len :=
      addU64_eq (by omega)
    rw [if_pos hadj']
    exact appendPages_rest (hsum ▸ hrep₁) (by omega) hadj' hs hend hloop
  have hadj' : s.paddr + s.len ≠ buf := by rwa [addU64_eq hslt] at hadj
  have hrep₂ : sg₁.Rep (pre ++ [s] ++ [⟨buf, 0 + firstPart buf len⟩]) := by
    rw [Nat.zero_add]
    exact hrep₁
  rw [if_neg hadj']
  simpa using appendPages_rest hrep₂ (by simpa using hlt) (Nat.add_zero buf) hbuf hend hloop

/-- **What an append does**, behind segments that do not reach the end of the address
space. -/
theorem ukSglistAppend_ok (hrep : sg.Rep used) (hlt : used.length + 2 < 2 ^ 16)
    (hused : ∀ s ∈ used, 0 < s.paddr ∧ s.paddr + s.len < 2 ^ 64) (hpos : 0 < len) (hbuf : 0 < buf)
    (hend : buf + len ≤ 2 ^ 64) (h : ukSglistAppend sg buf len = .ok (.ok (), sg')) :
    sg'.Rep (pushBuf used buf len) := by
  rw [ukSglistAppend, ukSglistAppendBy] at h
  split at h
  · cases h
  obtain ⟨u, sg₁, happend, hrest⟩ := Outcome.bind_except h nofun
  cases hrest
  rcases List.eq_nil_or_concat used with rfl | ⟨pre, s, rfl⟩
  · exact sglistAppendBuf_nil hrep hpos hbuf hend happend
  rw [List.concat_eq_append] at *
  obtain ⟨hs, hslt⟩ := hused s (by simp)
  rw [pushBuf_append]
  exact sglistAppendBuf_append hrep (by simpa using hlt) hs hslt hpos hbuf hend happend

end Unikraft.Uksglist
