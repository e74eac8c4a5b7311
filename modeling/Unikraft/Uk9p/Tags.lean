import Mathlib.Data.Finset.Card
import Mathlib.Data.List.Pairwise
import Unikraft.Bitops
import Unikraft.Lib.Run

/-!
# The request management of a 9P device (`lib/uk9p/9pdev.c`)

A request has a tag from its creation to its removal, and is recycled when nobody refers to it any
more.

The tag is the first clear one of 65536 bits, narrowed to 16 bits. So the last tag is
`UK_9P_NOTAG`, a search in a full bitmap gives 0, and a version request takes `UK_9P_NOTAG` without
a search. The tags are right if a call is made only while there is one for it (`TagFree`).
-/

namespace Unikraft.Uk9p

open Lib Function List

/-! ### The source -/

/-- `UK_9P_NOTAG`. -/
def notag : Nat := 65535

/-- `UK_9P_NUMTAGS`. -/
def numtags : Nat := 65536

/-- `UK_9P_TVERSION`. -/
def tversion : UInt8 := 100

/-- A request, without its buffers. -/
structure Req where
  tag : Nat
  type : UInt8
  refcount : Nat
  deriving Repr, DecidableEq

/-- `struct uk_9pdev_req_mgmt`, with the requests that have been allocated. -/
structure ReqMgmt where
  tagBm : Nat → BitVec 64
  reqs : Nat → Option Req
  reqList : List Nat
  reqFreeList : List Nat

def reqMgmtInit : ReqMgmt := ⟨fun _ => 0, fun _ => none, [], []⟩

/-- `_req_mgmt_next_tag_locked`, with the result narrowed to `uint16_t`. -/
def reqMgmtNextTag (m : ReqMgmt) : Nat := ukFindNextZeroBit m.tagBm numtags 0 % 2 ^ 16

/-- The tag that a request of the given type gets. -/
def nextTagFor (m : ReqMgmt) (type : UInt8) : Nat :=
  if type = tversion then notag else reqMgmtNextTag m

/-- The part of `uk_9pdev_req_create` that follows the allocation: `uk_9preq_init`, the tag
and `_req_mgmt_add_req_locked`. -/
def initReq (m : ReqMgmt) (id : Nat) (type : UInt8) : ReqMgmt :=
  let tag := nextTagFor m type
  { m with
    tagBm := ukBitmapSet m.tagBm tag 1
    reqs := update m.reqs id (some { tag, type, refcount := 1 })
    reqList := id :: m.reqList }

/-- `uk_9pdev_req_create`; `mem` is what `uk_calloc` returns if it is called. -/
def uk9pdevReqCreate (m : ReqMgmt) (type : UInt8) (mem : Option Nat) :
    Outcome (Except Errno Nat × ReqMgmt) :=
  match m.reqFreeList with
  | id :: rest => .ok (.ok id, initReq { m with reqFreeList := rest } id type)
  | [] =>
    match mem with
    | none => .ok (.error .enomem, m)
    | some id => .ok (.ok id, initReq m id type)

/-- The loop of `uk_9pdev_req_lookup`. -/
def findReq (m : ReqMgmt) (tag : Nat) : List Nat → Outcome (Option Nat)
  | [] => .ok none
  | id :: ids =>
    match m.reqs id with
    | none => .error .badPointer
    | some r => if r.tag = tag then .ok (some id) else findReq m tag ids

def uk9pdevReqLookup (m : ReqMgmt) (tag : Nat) : Outcome (Except Errno Nat × ReqMgmt) := do
  match ← findReq m tag m.reqList with
  | none => .ok (.error .einval, m)
  | some id =>
    let get := fun r : Req => { r with refcount := refcountAcquire r.refcount }
    .ok (.ok id, { m with reqs := update m.reqs id ((m.reqs id).map get) })

/-- `uk_9preq_put`: the last one puts the request on the free list. -/
def uk9preqPut (m : ReqMgmt) (id : Nat) : Outcome (Except Errno Nat × ReqMgmt) :=
  match m.reqs id with
  | none => .error .badPointer
  | some r => do
      ukAssert (0 < r.refcount)
      let put := { r with refcount := refcountRelease r.refcount }
      let m := { m with reqs := update m.reqs id (some put) }
      if r.refcount ≤ 1 then .ok (.ok 1, { m with reqFreeList := id :: m.reqFreeList })
      else .ok (.ok 0, m)

def uk9pdevReqRemove (m : ReqMgmt) (id : Nat) : Outcome (Except Errno Nat × ReqMgmt) :=
  match m.reqs id with
  | none => .error .badPointer
  | some r =>
    uk9preqPut { m with
      tagBm := ukBitmapClear m.tagBm r.tag 1
      reqList := m.reqList.erase id } id

/-! ### Runs -/

inductive ReqCall
  | create (type : UInt8) (mem : Option Nat)
  | remove (id : Nat)
  | lookup (tag : Nat)
  | put (id : Nat)
  deriving Repr, DecidableEq

def reqStep (m : ReqMgmt) : ReqCall → Outcome (Except Errno Nat × ReqMgmt)
  | .create type mem => uk9pdevReqCreate m type mem
  | .remove id => uk9pdevReqRemove m id
  | .lookup tag => uk9pdevReqLookup m tag
  | .put id => uk9preqPut m id

def ReqMgmt.tagOf (m : ReqMgmt) (id : Nat) : Option Nat := (m.reqs id).map Req.tag

def ReqMgmt.refs (m : ReqMgmt) (id : Nat) : Nat := (m.reqs id).elim 0 Req.refcount

/-- New memory is new, a request is removed once, and who puts a request has a reference to it,
besides the one of the list. There are fewer than `2 ^ 16` references. -/
def LegalCall (m : ReqMgmt) : ReqCall → Prop
  | .create _ mem => mem.elim True fun id => m.reqs id = none
  | .remove id => id ∈ m.reqList
  | .lookup _ => ∀ id ∈ m.reqList, m.refs id + 1 < 2 ^ 16
  | .put id => (if id ∈ m.reqList then 1 else 0) < m.refs id

/-- There is a tag for the request that a call creates: `UK_9P_NOTAG` for a version request, and
another one for any other request. -/
def TagFree (m : ReqMgmt) : ReqCall → Prop
  | .create type _ =>
    if type = tversion then ∀ id ∈ m.reqList, m.tagOf id ≠ some notag
    else m.reqList.countP (fun id => m.tagOf id ≠ some notag) < notag
  | _ => True

instance (m : ReqMgmt) (call : ReqCall) : Decidable (LegalCall m call) := by
  rcases call with ⟨_, _ | _⟩ | _ | _ | _ <;> dsimp only [LegalCall, Option.elim] <;> infer_instance

instance (m : ReqMgmt) (call : ReqCall) : Decidable (TagFree m call) := by
  cases call <;> dsimp only [TagFree] <;> infer_instance

/-- **The law of the tags.** The tags of the requests in the list are distinct, only a version
request has the reserved one, the bitmap has the tags in use, and a lookup finds the request with
the tag. -/
structure TagLaw (m : ReqMgmt) : Prop where
  distinct : m.reqList.Pairwise fun i j => m.tagOf i ≠ m.tagOf j
  reserved : ∀ id ∈ m.reqList, ∀ r, m.reqs id = some r → r.type ≠ tversion → r.tag ≠ notag
  bit_iff : ∀ t < numtags, bitAt m.tagBm t = true ↔ ∃ id ∈ m.reqList, m.tagOf id = some t
  lookup : ∀ id ∈ m.reqList, ∃ r m', m.reqs id = some r ∧
    uk9pdevReqLookup m r.tag = .ok (.ok id, m')

/-! ### The next tag -/

variable {m m' : ReqMgmt} {mem : Option Nat} {type : UInt8}

theorem notag_lt : notag < numtags := by decide

theorem nextZero_tagBm (m : ReqMgmt) :
    NextZero m.tagBm 0 numtags (ukFindNextZeroBit m.tagBm numtags 0) :=
  ukFindNextZeroBit_nextZero m.tagBm 1024

theorem nextTag_clear {t : Nat} (ht : t < numtags) (hclear : bitAt m.tagBm t = false) :
    reqMgmtNextTag m ≤ t ∧ bitAt m.tagBm (reqMgmtNextTag m) = false := by
  obtain ⟨-, hset, hclear_at⟩ := nextZero_tagBm m
  have hle : ukFindNextZeroBit m.tagBm numtags 0 ≤ t := by
    by_contra hlt
    rw [hset t (Nat.zero_le _) (Nat.lt_of_not_le hlt)] at hclear
    cases hclear
  have hnarrow : reqMgmtNextTag m = ukFindNextZeroBit m.tagBm numtags 0 := by
    rw [numtags] at ht
    exact Nat.mod_eq_of_lt (by omega)
  rw [hnarrow]
  exact ⟨hle, hclear_at (by omega)⟩

/-! ### The invariant -/

/-- A request is in one list at most, the list of requests holds a reference to each of them, and a
free one has none. -/
structure ReqOk (m : ReqMgmt) : Prop where
  nodup : (m.reqList ++ m.reqFreeList).Nodup
  alive : ∀ id ∈ m.reqList, 0 < m.refs id ∧ m.refs id < 2 ^ 16
  idle : ∀ id ∈ m.reqFreeList, m.reqs id ≠ none ∧ m.refs id = 0
  tag_lt : ∀ id ∈ m.reqList, ∀ t, m.tagOf id = some t → t < numtags
  distinct : m.reqList.Pairwise fun i j => m.tagOf i ≠ m.tagOf j
  reserved : ∀ id ∈ m.reqList, ∀ r, m.reqs id = some r → r.type ≠ tversion → r.tag ≠ notag
  bit_iff : ∀ t < numtags, bitAt m.tagBm t = true ↔ ∃ id ∈ m.reqList, m.tagOf id = some t

theorem reqMgmtInit_ok : ReqOk reqMgmtInit where
  nodup := nodup_nil
  alive := nofun
  idle := nofun
  tag_lt := nofun
  distinct := List.Pairwise.nil
  reserved := nofun
  bit_iff t _ := by simp [reqMgmtInit, bitAt]

theorem ReqOk.exists_clear (h : ReqOk m)
    (hcount : m.reqList.countP (fun id => m.tagOf id ≠ some notag) < notag) :
    ∃ t < notag, bitAt m.tagBm t = false := by
  by_contra hno
  -- otherwise each of the tags below the reserved one belongs to a request
  let used := m.reqList.filter fun id => m.tagOf id ≠ some notag
  have hsub : Finset.range notag ⊆ (used.map fun id => (m.tagOf id).getD 0).toFinset := by
    intro t ht
    have hlt := Finset.mem_range.mp ht
    have hset : bitAt m.tagBm t = true := by
      rw [← Bool.not_eq_false]
      exact fun hclear => hno ⟨t, hlt, hclear⟩
    obtain ⟨id, hid, htag⟩ := (h.bit_iff t (hlt.trans notag_lt)).mp hset
    have hne : m.tagOf id ≠ some notag := by
      rw [htag]
      exact fun heq => hlt.ne (Option.some.inj heq)
    rw [mem_toFinset, mem_map]
    refine ⟨id, mem_filter.mpr ⟨hid, decide_eq_true hne⟩, ?_⟩
    rw [htag, Option.getD_some]
  have hcard := (Finset.card_le_card hsub).trans (toFinset_card_le _)
  rw [Finset.card_range, length_map, ← countP_eq_length_filter] at hcard
  exact absurd hcard (Nat.not_le.mpr hcount)

theorem ReqOk.nextTagFor_clear (h : ReqOk m) (hfree : TagFree m (.create type mem)) :
    nextTagFor m type < numtags ∧ bitAt m.tagBm (nextTagFor m type) = false ∧
      (type ≠ tversion → nextTagFor m type ≠ notag) := by
  rw [nextTagFor]
  by_cases htype : type = tversion
  · rw [TagFree, if_pos htype] at hfree
    rw [if_pos htype]
    refine ⟨notag_lt, ?_, fun hne => absurd htype hne⟩
    rw [Bool.eq_false_iff, ne_eq, h.bit_iff _ notag_lt]
    rintro ⟨id, hid, htag⟩
    exact hfree id hid htag
  rw [TagFree, if_neg htype] at hfree
  obtain ⟨t, ht, hclear⟩ := h.exists_clear hfree
  obtain ⟨hle, hnext⟩ := nextTag_clear (ht.trans notag_lt) hclear
  rw [if_neg htype]
  exact ⟨(hle.trans_lt ht).trans notag_lt, hnext, fun _ => (hle.trans_lt ht).ne⟩

/-! ### The calls -/

variable {id : Nat} {r : Req}

theorem ReqOk.ofInit (h : ReqOk m)
    (hfree : TagFree m (.create type mem)) (hid : id ∉ m.reqList ++ m.reqFreeList) :
    ReqOk (initReq m id type) := by
  obtain ⟨hlt, hclear, hres⟩ := h.nextTagFor_clear hfree
  have hne : ∀ j ∈ m.reqList, j ≠ id := fun j hj heq =>
    hid (mem_append_left _ (heq ▸ hj))
  have hnew : (initReq m id type).reqs id = some ⟨nextTagFor m type, type, 1⟩ := update_self ..
  have hold : ∀ j, j ≠ id → (initReq m id type).reqs j = m.reqs j := fun j hj =>
    update_of_ne hj ..
  have hnewTag : (initReq m id type).tagOf id = some (nextTagFor m type) := by
    rw [ReqMgmt.tagOf, hnew, Option.map_some]
  have holdTag : ∀ j ∈ m.reqList, (initReq m id type).tagOf j = m.tagOf j := fun j hj => by
    rw [ReqMgmt.tagOf, ReqMgmt.tagOf, hold j (hne j hj)]
  have hunused : ∀ j ∈ m.reqList, m.tagOf j ≠ some (nextTagFor m type) := by
    intro j hj htag
    rw [(h.bit_iff _ hlt).mpr ⟨j, hj, htag⟩] at hclear
    cases hclear
  refine ⟨nodup_cons.mpr ⟨hid, h.nodup⟩, ?_, ?_, ?_, ?_, ?_, ?_⟩
  · intro j hj
    rcases mem_cons.mp hj with rfl | hj
    · rw [ReqMgmt.refs, hnew]
      exact ⟨one_pos, (by decide : 1 < 2 ^ 16)⟩
    · simpa only [ReqMgmt.refs, hold j (hne j hj)] using h.alive j hj
  · intro j hj
    have hj' : j ≠ id := fun heq => hid (mem_append_right _ (heq ▸ hj))
    simpa only [ReqMgmt.refs, hold j hj'] using h.idle j hj
  · intro j hj t htag
    rcases mem_cons.mp hj with rfl | hj
    · exact Option.some.inj (hnewTag.symm.trans htag) ▸ hlt
    · exact h.tag_lt j hj t ((holdTag j hj).symm.trans htag)
  · refine pairwise_cons.mpr ⟨fun j hj => ?_, h.distinct.imp_of_mem fun hi hj hij => ?_⟩
    · rw [hnewTag, holdTag j hj]
      exact (hunused j hj).symm
    · rwa [holdTag _ hi, holdTag _ hj]
  · intro j hj r hr htype
    rcases mem_cons.mp hj with rfl | hj
    · cases Option.some.inj (hnew.symm.trans hr)
      exact hres htype
    · exact h.reserved j hj r ((hold j (hne j hj)).symm.trans hr) htype
  intro t ht
  have hbit : bitAt (initReq m id type).tagBm t =
      (decide (t = nextTagFor m type) || bitAt m.tagBm t) := bitAt_ukBitmapSet ..
  have hlist : (initReq m id type).reqList = id :: m.reqList := rfl
  rw [hbit, Bool.or_eq_true, decide_eq_true_iff, h.bit_iff t ht, hlist,
    exists_mem_cons_iff, hnewTag, Option.some.injEq, eq_comm]
  exact or_congr_right (exists_congr fun j => and_congr_right fun hj => by rw [holdTag j hj])

theorem ReqOk.setRefs (h : ReqOk m) {c : Nat} (hr : m.reqs id = some r)
    (hlist : id ∈ m.reqList → 0 < c ∧ c < 2 ^ 16) (hidle : id ∉ m.reqFreeList) :
    ReqOk { m with reqs := update m.reqs id (some { r with refcount := c }) } := by
  set m' : ReqMgmt := { m with reqs := update m.reqs id (some { r with refcount := c }) }
  have hsame : m'.reqs id = some { r with refcount := c } := update_self ..
  have hold : ∀ j, j ≠ id → m'.reqs j = m.reqs j := fun j hj => update_of_ne hj ..
  have htagOf : m'.tagOf = m.tagOf := by
    funext j
    by_cases hj : j = id
    · subst hj
      rw [ReqMgmt.tagOf, ReqMgmt.tagOf, hsame, hr, Option.map_some, Option.map_some]
    · rw [ReqMgmt.tagOf, ReqMgmt.tagOf, hold j hj]
  refine ⟨h.nodup, fun j hj => ?_, fun j hj => ?_, ?_, ?_, fun j hj s hs htype => ?_, ?_⟩
  · by_cases hji : j = id
    · subst hji
      rw [ReqMgmt.refs, hsame]
      exact hlist hj
    · simpa only [ReqMgmt.refs, hold j hji] using h.alive j hj
  · have hji : j ≠ id := fun heq => hidle (heq ▸ hj)
    simpa only [ReqMgmt.refs, hold j hji] using h.idle j hj
  · rw [htagOf]
    exact h.tag_lt
  · rw [htagOf]
    exact h.distinct
  · by_cases hji : j = id
    · subst hji
      cases Option.some.inj (hsame.symm.trans hs)
      exact h.reserved j hj r hr htype
    · exact h.reserved j hj s ((hold j hji).symm.trans hs) htype
  rw [htagOf]
  exact h.bit_iff

theorem exists_req_of_refs (h : 0 < m.refs id) :
    ∃ r, m.reqs id = some r ∧ m.refs id = r.refcount := by
  rw [ReqMgmt.refs] at h ⊢
  cases hr : m.reqs id with
  | none =>
    rw [hr] at h
    cases h
  | some r => exact ⟨r, rfl, rfl⟩

section

variable (h : ReqOk m)

include h

theorem ReqOk.nodup_lists (hid : id ∈ m.reqList) : id ∉ m.reqFreeList :=
  fun hfree => (nodup_append.mp h.nodup).2.2 id hid id hfree rfl

theorem ReqOk.tagOf_inj {i j : Nat} (hi : i ∈ m.reqList) (hj : j ∈ m.reqList)
    (heq : m.tagOf i = m.tagOf j) : i = j := by
  have hsymm : Std.Symm fun i j => m.tagOf i ≠ m.tagOf j := ⟨fun _ _ hne => hne.symm⟩
  by_contra hne
  exact h.distinct.forall hi hj hne heq

theorem ReqOk.put (hlegal : LegalCall m (.put id)) :
    ∃ n m', uk9preqPut m id = .ok (.ok n, m') ∧ ReqOk m' := by
  obtain ⟨r, hr, hrefs⟩ := exists_req_of_refs (Nat.zero_lt_of_lt hlegal)
  rw [LegalCall, hrefs] at hlegal
  have hpos : 0 < r.refcount := Nat.zero_lt_of_lt hlegal
  have hidle : id ∉ m.reqFreeList := by
    intro hfree
    rw [(h.idle id hfree).2] at hrefs
    exact hpos.ne hrefs
  simp only [uk9preqPut, hr, ukAssert_pos hpos, Outcome.ok_bind]
  by_cases hlast : r.refcount ≤ 1
  · -- the list does not refer to the request any more
    have hlist : id ∉ m.reqList := fun hmem => by
      rw [if_pos hmem] at hlegal
      omega
    have hzero : refcountRelease r.refcount = 0 := by
      have hone : r.refcount = 1 := by omega
      rw [hone]
      decide
    have hok := h.setRefs hr (fun hmem => absurd hmem hlist) hidle (c := 0)
    rw [if_pos hlast, hzero]
    refine ⟨_, _, rfl, ?_, hok.alive, fun j hj => ?_, hok.tag_lt, hok.distinct, hok.reserved,
      hok.bit_iff⟩
    · exact nodup_middle.mpr (nodup_cons.mpr
        ⟨mem_append.not.mpr (not_or.mpr ⟨hlist, hidle⟩), h.nodup⟩)
    rcases mem_cons.mp hj with rfl | hj
    · simp [ReqMgmt.refs]
    · exact hok.idle j hj
  rw [if_neg hlast]
  refine ⟨_, _, rfl, h.setRefs hr (fun hmem => ?_) hidle⟩
  have hlt := (h.alive id hmem).2
  rw [hrefs] at hlt
  unfold refcountRelease
  omega

theorem ReqOk.unlist (hid : id ∈ m.reqList) (hr : m.reqs id = some r) :
    ReqOk { m with
      tagBm := ukBitmapClear m.tagBm r.tag 1
      reqList := m.reqList.erase id } := by
  have hnodup := (nodup_append.mp h.nodup).1
  have hmem : ∀ j, j ∈ m.reqList.erase id ↔ j ≠ id ∧ j ∈ m.reqList := fun j =>
    hnodup.mem_erase_iff
  have hsub : (m.reqList.erase id).Sublist m.reqList := erase_sublist
  have htag : m.tagOf id = some r.tag := by rw [ReqMgmt.tagOf, hr, Option.map_some]
  refine ⟨h.nodup.sublist (hsub.append_right _), fun j hj => h.alive j ((hmem j).mp hj).2,
    h.idle, fun j hj => h.tag_lt j ((hmem j).mp hj).2, h.distinct.sublist hsub,
    fun j hj => h.reserved j ((hmem j).mp hj).2, fun t ht => ?_⟩
  have hbit : bitAt (ukBitmapClear m.tagBm r.tag 1) t =
      (!decide (t = r.tag) && bitAt m.tagBm t) := bitAt_ukBitmapClear ..
  rw [hbit, Bool.and_eq_true, Bool.not_eq_true', decide_eq_false_iff_not, h.bit_iff t ht]
  constructor
  · rintro ⟨hne, j, hj, hjt⟩
    refine ⟨j, (hmem j).mpr ⟨?_, hj⟩, hjt⟩
    rintro rfl
    exact hne (Option.some.inj (hjt.symm.trans htag))
  rintro ⟨j, hj, hjt⟩
  obtain ⟨hji, hj⟩ := (hmem j).mp hj
  refine ⟨?_, j, hj, hjt⟩
  rintro rfl
  exact hji (h.tagOf_inj hj hid (hjt.trans htag.symm))

theorem ReqOk.remove (hid : id ∈ m.reqList) :
    ∃ n m', uk9pdevReqRemove m id = .ok (.ok n, m') ∧ ReqOk m' := by
  obtain ⟨r, hr, hrefs⟩ := exists_req_of_refs (h.alive id hid).1
  have hnodup := (nodup_append.mp h.nodup).1
  rw [uk9pdevReqRemove]
  simp only [hr]
  refine (h.unlist hid hr).put ?_
  rw [LegalCall, if_neg fun hmem => (hnodup.mem_erase_iff.mp hmem).1 rfl]
  exact (h.alive id hid).1

end

theorem findReq_eq {tag : Nat} {l : List Nat} (hid : id ∈ l) (htag : m.tagOf id = some tag)
    (halive : ∀ j ∈ l, m.reqs j ≠ none)
    (hinj : ∀ j ∈ l, m.tagOf j = some tag → j = id) : findReq m tag l = .ok (some id) := by
  induction l with
  | nil => cases hid
  | cons j l ih =>
    obtain ⟨s, hs⟩ := Option.ne_none_iff_exists'.mp (halive j mem_cons_self)
    simp only [findReq, hs]
    have hsTag : m.tagOf j = some s.tag := by rw [ReqMgmt.tagOf, hs, Option.map_some]
    by_cases hfound : s.tag = tag
    · rw [if_pos hfound, hinj j mem_cons_self (hfound ▸ hsTag)]
    rw [if_neg hfound]
    refine ih ?_ (fun i hi => halive i (mem_cons_of_mem _ hi))
      (fun i hi => hinj i (mem_cons_of_mem _ hi))
    rcases mem_cons.mp hid with rfl | hid
    · exact absurd (Option.some.inj (hsTag.symm.trans htag)) hfound
    · exact hid

theorem findReq_mem (tag : Nat) {l : List Nat} (halive : ∀ j ∈ l, m.reqs j ≠ none) :
    ∃ found, findReq m tag l = .ok found ∧ ∀ i, found = some i → i ∈ l := by
  induction l with
  | nil => exact ⟨none, rfl, nofun⟩
  | cons j l ih =>
    obtain ⟨s, hs⟩ := Option.ne_none_iff_exists'.mp (halive j mem_cons_self)
    simp only [findReq, hs]
    by_cases hfound : s.tag = tag
    · rw [if_pos hfound]
      refine ⟨some j, rfl, fun i hi => ?_⟩
      cases hi
      exact mem_cons_self
    rw [if_neg hfound]
    obtain ⟨found, heq, hmem⟩ := ih fun i hi => halive i (mem_cons_of_mem _ hi)
    exact ⟨found, heq, fun i hi => mem_cons_of_mem _ (hmem i hi)⟩

section

variable (h : ReqOk m)

include h

theorem ReqOk.reqs_ne_none (hid : id ∈ m.reqList) : m.reqs id ≠ none := by
  obtain ⟨r, hr, -⟩ := exists_req_of_refs (h.alive id hid).1
  rw [hr]
  exact Option.some_ne_none r

theorem ReqOk.lookup {tag : Nat} (hlegal : LegalCall m (.lookup tag)) :
    ∃ res m', uk9pdevReqLookup m tag = .ok (res, m') ∧ ReqOk m' := by
  obtain ⟨found, heq, hmem⟩ := findReq_mem tag fun j hj => h.reqs_ne_none hj
  rw [uk9pdevReqLookup, heq, Outcome.ok_bind]
  cases found with
  | none => exact ⟨_, m, rfl, h⟩
  | some id =>
    have hid := hmem id rfl
    obtain ⟨r, hr, hrefs⟩ := exists_req_of_refs (h.alive id hid).1
    have hlt := hlegal id hid
    refine ⟨_, _, rfl, ?_⟩
    rw [hr]
    refine h.setRefs hr (fun _ => ?_) (h.nodup_lists hid)
    rw [hrefs] at hlt
    unfold refcountAcquire
    omega

theorem ReqOk.create
    (hlegal : LegalCall m (.create type mem)) (hfree : TagFree m (.create type mem)) :
    ∃ res m', uk9pdevReqCreate m type mem = .ok (res, m') ∧ ReqOk m' := by
  unfold uk9pdevReqCreate
  cases hlist : m.reqFreeList with
  | cons id rest =>
    have hnodup := h.nodup
    rw [hlist, nodup_middle, nodup_cons] at hnodup
    have hrest : ReqOk { m with reqFreeList := rest } :=
      ⟨hnodup.2, h.alive, fun j hj => h.idle j (hlist ▸ mem_cons_of_mem _ hj), h.tag_lt,
        h.distinct, h.reserved, h.bit_iff⟩
    have hfree' : TagFree { m with reqFreeList := rest } (.create type mem) := hfree
    exact ⟨_, _, rfl, hrest.ofInit hfree' hnodup.1⟩
  | nil =>
    cases mem with
    | none => exact ⟨_, m, rfl, h⟩
    | some id =>
      refine ⟨_, _, rfl, h.ofInit hfree fun hid => ?_⟩
      rcases mem_append.mp hid with hid | hid
      · exact h.reqs_ne_none hid hlegal
      · exact (h.idle id hid).1 hlegal

theorem ReqOk.step {call : ReqCall} (hlegal : LegalCall m call)
    (hfree : TagFree m call) : ∃ res m', reqStep m call = .ok (res, m') ∧ ReqOk m' := by
  cases call with
  | create type mem => exact h.create hlegal hfree
  | remove id =>
    obtain ⟨n, m', heq, hok⟩ := h.remove hlegal
    exact ⟨_, m', heq, hok⟩
  | lookup tag => exact h.lookup hlegal
  | put id =>
    obtain ⟨n, m', heq, hok⟩ := h.put hlegal
    exact ⟨_, m', heq, hok⟩

theorem ReqOk.tagLaw : TagLaw m := by
  refine ⟨h.distinct, h.reserved, h.bit_iff, fun id hid => ?_⟩
  obtain ⟨r, hr⟩ := Option.ne_none_iff_exists'.mp (h.reqs_ne_none hid)
  have htag : m.tagOf id = some r.tag := by rw [ReqMgmt.tagOf, hr, Option.map_some]
  have hfind := findReq_eq hid htag (fun j hj => h.reqs_ne_none hj)
    fun j hj hjt => h.tagOf_inj hj hid (hjt.trans htag.symm)
  have hrun : ∃ m', uk9pdevReqLookup m r.tag = .ok (.ok id, m') := by
    rw [uk9pdevReqLookup, hfind, Outcome.ok_bind]
    exact ⟨_, rfl⟩
  obtain ⟨m', hrun⟩ := hrun
  exact ⟨r, m', hr, hrun⟩

end

/-- **9P tags.** In every run in which each request is created while there is a tag for it, the law
of the tags holds. -/
theorem uk_9pdev_tags
    (h : Reachable reqStep (fun m call => LegalCall m call ∧ TagFree m call) reqMgmtInit m) :
    TagLaw m := by
  have hok : ReqOk m := by
    exact h.invariant_of_returns reqMgmtInit_ok fun m call hm hcall => hm.step hcall.1 hcall.2
  exact hok.tagLaw

/-- An attach, a version and a walk request; the first one is removed, recycled when the reference
of a lookup is dropped, and its tag is used again. -/
theorem uk_9pdev_tags_recycled :
    ∃ m, Reachable reqStep (fun m call => LegalCall m call ∧ TagFree m call) reqMgmtInit m ∧
      m.reqList.map (fun id => (id, m.tagOf id)) =
        [(1, some 0), (3, some 1), (2, some notag)] ∧ TagLaw m := by
  obtain ⟨m, hreach, hlist⟩ : ∃ m, Reachable reqStep
      (fun m call => LegalCall m call ∧ TagFree m call) reqMgmtInit m ∧
      m.reqList.map (fun id => (id, m.tagOf id)) = [(1, some 0), (3, some 1), (2, some notag)] :=
    Reachable.exists_of_run [.create 104 (some 1), .create tversion (some 2),
      .create 110 (some 3), .lookup 0, .remove 1, .put 1, .create 110 none] (by decide +kernel)
  exact ⟨m, hreach, hlist, uk_9pdev_tags hreach⟩

/-- Two version requests at the same time both have the reserved tag. -/
theorem uk_9pdev_tags_two_versions :
    ∃ m, Reachable reqStep LegalCall reqMgmtInit m ∧ m.reqList = [2, 1] ∧
      m.tagOf 2 = m.tagOf 1 ∧ ¬ TagLaw m := by
  obtain ⟨m, hm, hlist, htags⟩ : ∃ m, Reachable reqStep LegalCall reqMgmtInit m ∧
      m.reqList = [2, 1] ∧ m.tagOf 2 = m.tagOf 1 :=
    Reachable.exists_of_run [.create tversion (some 1), .create tversion (some 2)]
      (by decide +kernel)
  refine ⟨m, hm, hlist, htags, fun hlaw => ?_⟩
  have hdistinct := hlaw.distinct
  rw [hlist] at hdistinct
  exact (pairwise_cons.mp hdistinct).1 1 mem_cons_self htags

end Unikraft.Uk9p
