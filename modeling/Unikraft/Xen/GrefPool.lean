import Unikraft.Xen.Blkfront
import Unikraft.Xen.Gnttab

/-!
# Unikraft.Xen.GrefPool

**The pool of grant references of a block queue** (`plat/xen/drivers/blk/blkfront.c`, with
`CONFIG_XEN_BLKFRONT_GREFPOOL`). A request takes references from the pool first and allocates
elements for the rest; when it completes, the first ones go back and the others are ended.
-/

namespace Unikraft.Xen

open Lib Outcome List
open Virtio (UkBlkreq UkBlkreqOp UkBlkdevCap)

def grantInvalidRef : Nat := 0

def blkifOpWriteBarrier : Nat := 2

def blkifOpFlushDiskcache : Nat := 3

structure BlkfrontGref where
  ref : Nat
  reusableGref : Bool
  deriving DecidableEq

/-- `struct blkfront_request` with its slot of the ring. The request has as many segments as
elements. -/
structure BlkfrontRequest where
  req : UkBlkreq
  gref : List BlkfrontGref
  ringReq : BlkifRequest

structure BlkfrontDev where
  cap : UkBlkdevCap
  otherendId : Nat
  barrier : Bool
  flush : Bool
  /-- The number of slots of the ring. -/
  nrEnts : Nat

/-- `struct uk_blkdev_queue`, with the grant table. -/
structure BlkfrontQueue where
  dev : BlkfrontDev
  pool : List BlkfrontGref
  g : Gnttab
  /-- The requests in flight. -/
  ring : List BlkfrontRequest

/-! ### Setting grant references -/

/-- `gnttab_end_access`, which must not fail. -/
def endAccess (g : Gnttab) (ref : Nat) : Outcome Gnttab := do
  let (rc, g) ← gnttabEndAccess g ref
  ukAssert (rc ≠ 0)
  return g

/-- Free the elements of a list, and end the access through those that `ends` selects. -/
def releaseGrefs (ends : BlkfrontGref → Bool) : Gnttab → List BlkfrontGref → Outcome Gnttab
  | g, [] => .ok g
  | g, el :: els => do
      let g ← (if ends el then endAccess g el.ref else .ok g)
      releaseGrefs ends g els

/-- The second loop of `blkfront_request_set_grefs`: the elements that have been allocated, and
whether all have. -/
def allocGrefs (alloc : Nat → Bool) : Nat → Nat → List BlkfrontGref × Bool
  | _, 0 => ([], true)
  | grefi, n + 1 =>
    if alloc grefi then
      let (els, ok) := allocGrefs alloc (grefi + 1) n
      (⟨grantInvalidRef, false⟩ :: els, ok)
    else ([], false)

/-- `blkfront_request_set_grefs`: the elements of the request, and what is left of the pool. -/
def blkfrontRequestSetGrefs (pool : List BlkfrontGref) (g : Gnttab) (alloc : Nat → Bool)
    (nb : Nat) : Outcome (Except Errno (List BlkfrontGref) × List BlkfrontGref × Gnttab) := do
  let taken := pool.take nb
  let (new, ok) := allocGrefs alloc taken.length (nb - taken.length)
  if ok then return (.ok (taken ++ new), pool.drop nb, g)
  else
    let g ← releaseGrefs (·.reusableGref) g (taken ++ new)
    return (.error .enomem, pool.drop nb, g)

def blkfrontRequestResetGrefs (pool : List BlkfrontGref) (g : Gnttab) (els : List BlkfrontGref) :
    Outcome (List BlkfrontGref × Gnttab) := do
  let g ← releaseGrefs (·.ref ≠ grantInvalidRef) g (els.dropWhile (·.reusableGref))
  return (pool ++ els.takeWhile (·.reusableGref), g)

/-- The grant of one segment, on the frame `mfn`. -/
def mapGref (g : Gnttab) (otherendId mfn operation : Nat) (el : BlkfrontGref) :
    Outcome (BlkfrontGref × Gnttab) :=
  if el.reusableGref then do
    let (rc, g) ← gnttabUpdateGrant g el.ref otherendId mfn operation
    ukAssert (rc ≠ 0)
    return (el, g)
  else do
    let (ref, g) ← gnttabGrantAccess g otherendId mfn operation
    return ({ el with ref := ref }, g)

/-- `blkfront_request_map_grefs`, from segment `k` on. -/
def blkfrontRequestMapGrefs (virtualToMfn : Nat → Nat) (otherendId : Nat) (req : UkBlkreq) :
    Nat → BlkifRequest → Gnttab → List BlkfrontGref →
      Outcome (BlkifRequest × Gnttab × List BlkfrontGref)
  | _, ringReq, g, [] => .ok (ringReq, g, [])
  | k, ringReq, g, el :: els => do
      let (el, g) ← mapGref g otherendId (virtualToMfn (segmentPage req k)) ringReq.operation el
      ukAssert (el.ref ≠ grantInvalidRef)
      let seg := Function.update ringReq.seg k { ringReq.seg k with gref := el.ref }
      let (ringReq, g, els) ← blkfrontRequestMapGrefs virtualToMfn otherendId req (k + 1)
        { ringReq with seg := seg } g els
      return (ringReq, g, el :: els)

/-! ### Requests -/

section

variable (virtualToMfn : Nat → Nat)

def blkfrontRequestWrite (q : BlkfrontQueue) (req : UkBlkreq) (slot : BlkifRequest)
    (alloc : Nat → Bool) : Outcome (Except Errno BlkfrontRequest × BlkfrontQueue) :=
  let cap := q.dev.cap
  if req.operation = .write ∧ cap.rdonly then .ok (.error .eperm, q)
  else if req.aioBuf = 0 then .ok (.error .einval, q)
  else if req.nbSectors = 0 then .ok (.error .einval, q)
  else if addU64 req.startSector req.nbSectors > cap.sectors then .ok (.error .einval, q)
  else if req.nbSectors > cap.maxSectorsPerReq then .ok (.error .einval, q)
  else do
    let ringReq ← blkifRequestInit slot req cap.ssize
    match ← blkfrontRequestSetGrefs q.pool q.g alloc ringReq.nrSegments with
    | (.error e, pool, g) => return (.error e, { q with pool := pool, g := g })
    | (.ok els, pool, g) => do
        let (ringReq, g, els) ← blkfrontRequestMapGrefs virtualToMfn q.dev.otherendId req 0
          ringReq g els
        return (.ok ⟨req, els, ringReq⟩, { q with pool := pool, g := g })

def blkfrontRequestFlush (dev : BlkfrontDev) (req : UkBlkreq) (slot : BlkifRequest) :
    Except Errno BlkfrontRequest :=
  if dev.barrier then
    .ok ⟨req, [],
      { slot with operation := blkifOpWriteBarrier, nrSegments := 0, sectorNumber := 0 }⟩
  else if dev.flush then
    .ok ⟨req, [],
      { slot with operation := blkifOpFlushDiskcache, nrSegments := 0, sectorNumber := 0 }⟩
  else .error .enotsup

/-- `blkfront_queue_enqueue`; `reqAlloc` says whether the request can be allocated. -/
def blkfrontQueueEnqueue (q : BlkfrontQueue) (req : UkBlkreq) (slot : BlkifRequest)
    (reqAlloc : Bool) (alloc : Nat → Bool) :
    Outcome (Except Errno BlkfrontRequest × BlkfrontQueue) :=
  if reqAlloc then
    match req.operation with
    | .read => blkfrontRequestWrite virtualToMfn q req slot alloc
    | .write => blkfrontRequestWrite virtualToMfn q req slot alloc
    | .fflush => .ok (blkfrontRequestFlush q.dev req slot, q)
    | .other _ => .ok (.error .einval, q)
  else .ok (.error .enomem, q)

def blkfrontSubmitRequest (q : BlkfrontQueue) (req : UkBlkreq) (slot : BlkifRequest)
    (reqAlloc : Bool) (alloc : Nat → Bool) : Outcome (Except Errno Unit × BlkfrontQueue) :=
  if q.ring.length = q.dev.nrEnts then .ok (.error .ebusy, q)
  else do
    match ← blkfrontQueueEnqueue virtualToMfn q req slot reqAlloc alloc with
    | (.error e, q) => return (.error e, q)
    | (.ok r, q) => return (.ok (), { q with ring := q.ring ++ [r] })

/-- `blkfront_queue_dequeue`, when the backend has answered the request at index `i` of those in
flight. -/
def blkfrontQueueDequeue (q : BlkfrontQueue) (i : Nat) :
    Outcome (Except Errno Unit × BlkfrontQueue) :=
  match q.ring[i]? with
  | none => .ok (.ok (), q)
  | some r => do
      let (pool, g) ←
        (if r.ringReq.operation = blkifOpRead ∨ r.ringReq.operation = blkifOpWrite then
          blkfrontRequestResetGrefs q.pool q.g r.gref
        else .ok (q.pool, q.g))
      return (.ok (), { q with pool := pool, g := g, ring := q.ring.eraseIdx i })

end

/-! ### The pool -/

def blkfrontQueueGrefPoolRelease (q : BlkfrontQueue) : Outcome BlkfrontQueue := do
  let g ← releaseGrefs (·.ref ≠ grantInvalidRef) q.g q.pool
  return { q with pool := [], g := g }

/-- The loop of `blkfront_queue_gref_pool_setup`, and whether all elements have been allocated. -/
def poolSetupLoop (alloc : Nat → Bool) : Nat → Nat → BlkfrontQueue → Outcome (Bool × BlkfrontQueue)
  | _, 0, q => .ok (true, q)
  | refIdx, n + 1, q =>
    if alloc refIdx then do
      let (ref, g) ← gnttabGrantAccess q.g q.dev.otherendId 0 1
      ukAssert (ref ≠ grantInvalidRef)
      poolSetupLoop alloc (refIdx + 1) n { q with g := g, pool := q.pool ++ [⟨ref, true⟩] }
    else .ok (false, q)

def blkfrontQueueGrefPoolSetup (q : BlkfrontQueue) (alloc : Nat → Bool) :
    Outcome (Except Errno Unit × BlkfrontQueue) := do
  let (ok, q) ← poolSetupLoop alloc 0 blkifMaxSegmentsPerRequest { q with pool := [] }
  if ok then return (.ok (), q)
  else
    let q ← blkfrontQueueGrefPoolRelease q
    return (.error .enomem, q)

/-! ### References -/

/-- The references of the pool among the elements of a list. -/
def reusableRefs (els : List BlkfrontGref) : List Nat := (els.filter (·.reusableGref)).map (·.ref)

/-- The references of their own requests have got. -/
def ownRefs (els : List BlkfrontGref) : List Nat := (els.filter (!·.reusableGref)).map (·.ref)

@[simp] theorem reusableRefs_append (els els' : List BlkfrontGref) :
    reusableRefs (els ++ els') = reusableRefs els ++ reusableRefs els' := by
  simp only [reusableRefs, filter_append, map_append]

@[simp] theorem ownRefs_append (els els' : List BlkfrontGref) :
    ownRefs (els ++ els') = ownRefs els ++ ownRefs els' := by
  simp only [ownRefs, filter_append, map_append]

def Ordered (els : List BlkfrontGref) : Prop :=
  (els.map (·.reusableGref)).Pairwise fun first second => second = true → first = true

variable {g g' : Gnttab} {free : List Nat} {ref : Nat} {el el' : BlkfrontGref}
  {els els' pool pool' : List BlkfrontGref}

theorem Ordered.append (hpool : ∀ el ∈ els, el.reusableGref = true)
    (hown : ∀ el ∈ els', el.reusableGref = false) : Ordered (els ++ els') := by
  simp only [Ordered, map_append, pairwise_append, pairwise_map, mem_map]
  refine ⟨?_, ?_, ?_⟩
  · exact pairwise_of_forall_mem_list fun a ha _ _ _ => hpool a ha
  · refine pairwise_of_forall_mem_list fun _ _ b hb h => ?_
    rw [hown b hb] at h
    cases h
  rintro _ ⟨a, ha, rfl⟩ _ _ _
  exact hpool a ha

theorem Ordered.takeWhile (h : Ordered els) :
    els.takeWhile (·.reusableGref) = els.filter (·.reusableGref) ∧
      els.dropWhile (·.reusableGref) = els.filter (!·.reusableGref) := by
  induction els with
  | nil => exact ⟨rfl, rfl⟩
  | cons el els ih =>
    obtain ⟨hfirst, hrest⟩ := pairwise_cons.mp h
    cases hel : el.reusableGref with
    | true =>
      obtain ⟨htake, hdrop⟩ := ih hrest
      simp [hel, htake, hdrop]
    | false =>
      have hown : ∀ el ∈ els, el.reusableGref = false := by
        intro el' hmem
        refine Bool.eq_false_iff.mpr fun hpool => ?_
        exact Bool.false_ne_true (hel.symm.trans (hfirst _ (mem_map_of_mem hmem) hpool))
      have hnone : els.filter (·.reusableGref) = [] :=
        filter_eq_nil_iff.mpr fun el' hmem => Bool.eq_false_iff.mp (hown el' hmem)
      have hall : els.filter (!·.reusableGref) = els :=
        filter_eq_self.mpr fun el' hmem => by rw [hown el' hmem]; rfl
      simp [hel, hnone, hall]

/-! ### What the calls do to the free entries -/

/-- **Ending access** puts one entry back. -/
theorem endAccess_ok (h : endAccess g ref = .ok g') :
    ValidRef ref ∧ (FreeList g free → ref ∉ free → FreeList g' (ref :: free)) := by
  obtain ⟨⟨rc, g₁⟩, hend, h⟩ := bind_ok.mp h
  obtain ⟨_, hassert, h⟩ := bind_ok.mp h
  obtain rfl : g₁ = g' := Except.ok.inj h
  have hrc : rc ≠ 0 := of_ukAssert hassert
  by_cases hvalid : ValidRef ref
  · refine ⟨hvalid, fun hfree hnot => ?_⟩
    rw [gnttabEndAccess_eq hvalid] at hend
    split at hend
    · cases hend
      exact absurd rfl hrc
    cases hend
    exact putFreeEntry_ok (hfree.setEntry _ _) hvalid hnot
  rw [gnttabEndAccess, gntCall, ukAssert_neg hvalid] at hend
  cases hend

/-- **A grant** takes the first free entry. -/
theorem gnttabGrantAccess_ok {domid mfn readonly : Nat} (hfree : FreeList g free)
    (h : gnttabGrantAccess g domid mfn readonly = .ok (ref, g')) :
    ∃ free', free = ref :: free' ∧ FreeList g' free' := by
  obtain ⟨⟨ref₁, g₁⟩, hget, h⟩ := bind_ok.mp h
  cases free with
  | nil =>
    have hsem : g.sem = 0 := hfree.sem
    rw [getFreeEntry, if_pos hsem] at hget
    cases hget
  | cons r free =>
    obtain ⟨g₂, hget', hfree'⟩ := getFreeEntry_ok hfree
    rw [hget'] at hget
    cases hget
    cases h
    exact ⟨free, rfl, hfree'.setEntry _ _⟩

/-- **Another grant through an entry** takes none. -/
theorem gnttabUpdateGrant_free {domid mfn readonly rc : Nat} (hfree : FreeList g free)
    (h : gnttabUpdateGrant g ref domid mfn readonly = .ok (rc, g')) : FreeList g' free := by
  by_cases hvalid : ValidRef ref
  · rw [gnttabUpdateGrant_eq hvalid] at h
    split at h
    · cases h
      exact hfree
    cases h
    exact hfree.setEntry _ _
  rw [gnttabUpdateGrant, gntCall, ukAssert_neg hvalid] at h
  cases h

/-- **Releasing elements** puts their entries back, each once. -/
theorem releaseGrefs_ok {ends : BlkfrontGref → Bool} (hends : ∀ el ∈ els, ends el = true)
    (hfree : FreeList g free) (hnodup : (els.map (·.ref)).Nodup)
    (hnot : ∀ ref ∈ els.map (·.ref), ref ∉ free) (h : releaseGrefs ends g els = .ok g') :
    FreeList g' ((els.map (·.ref)).reverse ++ free) := by
  induction els generalizing g free with
  | nil =>
    cases h
    exact hfree
  | cons el els ih =>
    obtain ⟨hfirst, hrest⟩ := nodup_cons.mp hnodup
    rw [releaseGrefs, if_pos (hends el mem_cons_self)] at h
    obtain ⟨g₁, hend, h⟩ := bind_ok.mp h
    have hfree₁ : FreeList g₁ (el.ref :: free) := (endAccess_ok hend).2 hfree (hnot _ mem_cons_self)
    have hnot₁ : ∀ ref ∈ els.map (·.ref), ref ∉ el.ref :: free := by
      intro ref hmem hin
      rcases mem_cons.mp hin with rfl | hin
      · exact hfirst hmem
      · exact hnot ref (mem_cons_of_mem _ hmem) hin
    have hdone := ih (fun el hel => hends el (mem_cons_of_mem _ hel)) hfree₁ hrest hnot₁ h
    rwa [map_cons, reverse_cons, append_assoc, singleton_append]

theorem releaseGrefs_none {ends : BlkfrontGref → Bool} (hends : ∀ el ∈ els, ends el = false)
    (h : releaseGrefs ends g els = .ok g') : g' = g := by
  induction els with
  | nil =>
    cases h
    rfl
  | cons el els ih =>
    rw [releaseGrefs, if_neg (by rw [hends el mem_cons_self]; exact Bool.false_ne_true)] at h
    exact ih (fun el hel => hends el (mem_cons_of_mem _ hel)) h

/-- **The grants of a request** take as many free entries as it has elements of its own. -/
theorem blkfrontRequestMapGrefs_ok {virtualToMfn : Nat → Nat} {otherendId k : Nat} {req : UkBlkreq}
    {ringReq ringReq' : BlkifRequest} (hfree : FreeList g free)
    (h : blkfrontRequestMapGrefs virtualToMfn otherendId req k ringReq g els =
      .ok (ringReq', g', els')) :
    (∃ free', free = ownRefs els' ++ free' ∧ FreeList g' free') ∧
      reusableRefs els' = reusableRefs els ∧
      els'.map (·.reusableGref) = els.map (·.reusableGref) ∧
      ringReq'.operation = ringReq.operation := by
  induction els generalizing k ringReq g free els' with
  | nil =>
    cases h
    exact ⟨⟨free, rfl, hfree⟩, rfl, rfl, rfl⟩
  | cons el els ih =>
    rw [blkfrontRequestMapGrefs] at h
    obtain ⟨⟨el₁, g₁⟩, hmap, h⟩ := bind_ok.mp h
    obtain ⟨-, -, h⟩ := bind_ok.mp h
    obtain ⟨⟨ringReq₂, g₂, els₂⟩, hrest, h⟩ := bind_ok.mp h
    cases h
    unfold mapGref at hmap
    split at hmap
    · rename_i hpool
      obtain ⟨⟨rc, g₃⟩, hupdate, hmap⟩ := bind_ok.mp hmap
      obtain ⟨-, -, hmap⟩ := bind_ok.mp hmap
      cases hmap
      obtain ⟨⟨free', hown, hfree'⟩, hreus, hflags, hop⟩ :=
        ih (gnttabUpdateGrant_free hfree hupdate) hrest
      refine ⟨⟨free', ?_, hfree'⟩, ?_, by simp [hflags], hop⟩
      · simpa [ownRefs, hpool] using hown
      · simpa [reusableRefs, hpool] using hreus
    rename_i hpool
    obtain ⟨⟨ref, g₃⟩, hgrant, hmap⟩ := bind_ok.mp hmap
    cases hmap
    obtain ⟨free₁, rfl, hfree₁⟩ := gnttabGrantAccess_ok hfree hgrant
    obtain ⟨⟨free', hown, hfree'⟩, hreus, hflags, hop⟩ := ih hfree₁ hrest
    refine ⟨⟨free', ?_, hfree'⟩, ?_, by simp [hflags], hop⟩
    · simpa [ownRefs, hpool] using hown
    · simpa [reusableRefs, hpool] using hreus

theorem allocGrefs_own (alloc : Nat → Bool) (grefi n : Nat) :
    ∀ el ∈ (allocGrefs alloc grefi n).1, el.reusableGref = false := by
  induction n generalizing grefi with
  | zero => exact fun _ hel => nomatch hel
  | succ n ih =>
    rw [allocGrefs]
    split
    · exact forall_mem_cons.mpr ⟨rfl, ih (grefi + 1)⟩
    · exact fun _ hel => nomatch hel

variable {alloc : Nat → Bool}

theorem allocGrefs_all {grefi n : Nat}
    (hall : ∀ k < grefi + n, alloc k = true) : (allocGrefs alloc grefi n).2 = true := by
  induction n generalizing grefi with
  | zero => rfl
  | succ n ih =>
    rw [allocGrefs, if_pos (hall grefi (by omega))]
    exact ih fun k hk => hall k (by omega)

/-- **Setting the references of a request** takes the first elements of the pool. -/
theorem blkfrontRequestSetGrefs_ok {nb : Nat}
    (h : blkfrontRequestSetGrefs pool g alloc nb = .ok (.ok els, pool', g')) :
    pool' = pool.drop nb ∧ g' = g ∧
      ∃ own, els = pool.take nb ++ own ∧ ∀ el ∈ own, el.reusableGref = false := by
  unfold blkfrontRequestSetGrefs at h
  simp only at h
  split at h
  · cases h
    exact ⟨rfl, rfl, _, rfl, allocGrefs_own _ _ _⟩
  obtain ⟨g₁, -, h⟩ := bind_ok.mp h
  cases h

/-- **A failed allocation** changes nothing if no element has been taken from the pool. -/
theorem blkfrontRequestSetGrefs_error {nb : Nat} {e : Errno}
    (hok : pool = [] ∨ ∀ k < nb, alloc k = true)
    (h : blkfrontRequestSetGrefs pool g alloc nb = .ok (.error e, pool', g')) :
    pool' = pool ∧ g' = g := by
  unfold blkfrontRequestSetGrefs at h
  simp only at h
  split at h
  · cases h
  rename_i hfail
  obtain ⟨g₁, hrelease, h⟩ := bind_ok.mp h
  rcases hok with rfl | hall
  · cases h
    refine ⟨drop_nil, releaseGrefs_none ?_ hrelease⟩
    rw [take_nil, nil_append]
    exact allocGrefs_own _ _ _
  refine absurd (allocGrefs_all fun k hk => hall k ?_) hfail
  have hle := length_take_le nb pool
  omega

theorem blkifRequestInit_inv {ringReq ringReq' : BlkifRequest} {req : UkBlkreq} {ssize : Nat}
    (h : blkifRequestInit ringReq req ssize = .ok ringReq') :
    (ringReq'.operation = blkifOpRead ∨ ringReq'.operation = blkifOpWrite) ∧
      ringReq'.nrSegments ≤ blkifMaxSegmentsPerRequest := by
  obtain ⟨-, -, h⟩ := bind_ok.mp h
  obtain ⟨_, hassert, h⟩ := bind_ok.mp h
  split at h
  · cases h
  split at h
  · cases h
  cases h
  refine ⟨?_, of_ukAssert hassert⟩
  simp only
  split
  · exact .inr rfl
  · exact .inl rfl

end Unikraft.Xen
