import Unikraft.Xen.GrefPool

/-!
# Submissions and completions on a block queue (`plat/xen/drivers/blk/blkfront.c`)

The references of the pool are conserved along every run in which no allocation fails after
references have been taken (`gref_pool_conserved`); otherwise the pool has lost them
(`gref_pool_drained`).
-/

namespace Unikraft.Xen

open Lib Outcome List BlkfrontQueue
open Virtio (UkBlkreq)

variable {g g' : Gnttab} {free : List Nat} {ref : Nat} {els els' pool pool' : List BlkfrontGref}

/-! ### Whole runs -/

/-- The allocations of a submission may fail at any point, the backend answers in any order, and
between two calls it changes the flags of entries as it likes. -/
inductive BlkfrontEvent
  | submit (req : UkBlkreq) (slot : BlkifRequest) (reqAlloc : Bool) (alloc : Nat → Bool)
  | complete (i : Nat)
  | other (gref flags : Nat)

def blkfrontStep (virtualToMfn : Nat → Nat) (q : BlkfrontQueue) :
    BlkfrontEvent → Outcome (Except Errno Unit × BlkfrontQueue)
  | .submit req slot reqAlloc alloc => blkfrontSubmitRequest virtualToMfn q req slot reqAlloc alloc
  | .complete i => blkfrontQueueDequeue q i
  | .other gref flags =>
    .ok (.ok (), { q with g := q.g.setEntry gref { q.g.table gref with flags := flags } })

def blkfrontAny (_ : BlkfrontQueue) (_ : BlkfrontEvent) : Prop := True

/-- No allocation of an element fails when the request has taken elements from the pool. -/
def blkfrontOk (q : BlkfrontQueue) : BlkfrontEvent → Prop
  | .submit _ _ _ alloc => q.pool = [] ∨ ∀ k < blkifMaxSegmentsPerRequest, alloc k = true
  | _ => True

instance (q : BlkfrontQueue) (e : BlkfrontEvent) : Decidable (blkfrontOk q e) := by
  cases e <;> dsimp only [blkfrontOk] <;> infer_instance

instance (q : BlkfrontQueue) (e : BlkfrontEvent) : Decidable (blkfrontAny q e) := .isTrue trivial

/-- The elements in the pool and those of the requests in flight. -/
def BlkfrontQueue.held (q : BlkfrontQueue) : List BlkfrontGref :=
  q.pool ++ q.ring.flatMap (·.gref)

/-- The references of the pool are in the pool or held by a request in flight, and each is in one
place. -/
structure BlkfrontQueue.Conserves (q₀ q : BlkfrontQueue) : Prop where
  refs : (q.pool.map (·.ref) ++ reusableRefs (q.ring.flatMap (·.gref))).Perm (q₀.pool.map (·.ref))
  nodup : (q.pool.map (·.ref) ++ reusableRefs (q.ring.flatMap (·.gref))).Nodup

/-- The references of its own of `r` have been ended, each once: none was free, and they are in
front of the free entries now. -/
def BlkfrontQueue.EndsOnce (q : BlkfrontQueue) (r : BlkfrontRequest) (q' : BlkfrontQueue) : Prop :=
  ∃ free, FreeList q.g free ∧ (ownRefs r.gref).Nodup ∧ (∀ ref ∈ ownRefs r.gref, ref ∉ free) ∧
    FreeList q'.g ((ownRefs r.gref).reverse ++ free)

/-- **The invariant.** The references that are not free are in one place, those of the pool in the
pool or at the front of a request. -/
structure PoolInv (refs frees : List Nat) (q : BlkfrontQueue) : Prop where
  nodup : frees.Nodup
  valid : ∀ ref ∈ frees, ValidRef ref
  pool : ∀ el ∈ q.pool, el.reusableGref = true
  ordered : ∀ r ∈ q.ring, Ordered r.gref
  flush : ∀ r ∈ q.ring, ¬ (r.ringReq.operation = blkifOpRead ∨ r.ringReq.operation = blkifOpWrite) →
    r.gref = []
  reusable : (reusableRefs q.held).Perm refs
  free : ∃ free, FreeList q.g free ∧ (free ++ ownRefs q.held).Perm frees

variable {refs frees : List Nat} {q q' : BlkfrontQueue}

theorem reusableRefs_pool (hpool : ∀ el ∈ pool, el.reusableGref = true) :
    reusableRefs pool = pool.map (·.ref) := by
  rw [reusableRefs, filter_eq_self.mpr hpool]

theorem ownRefs_pool (hpool : ∀ el ∈ pool, el.reusableGref = true) : ownRefs pool = [] := by
  rw [ownRefs, filter_eq_nil_iff.mpr fun el hel => by rw [hpool el hel]; decide]
  rfl

theorem reusableRefs_own (hown : ∀ el ∈ els, el.reusableGref = false) : reusableRefs els = [] := by
  rw [reusableRefs, filter_eq_nil_iff.mpr fun el hel => by rw [hown el hel]; decide]
  rfl

variable {alloc : Nat → Bool} {virtualToMfn : Nat → Nat} {req : UkBlkreq}

/-- **A request that is sent** holds what it has taken from the pool and from the free entries. -/
theorem PoolInv.send {nb : Nat} {ringReq ringReq' : BlkifRequest} (h : PoolInv refs frees q)
    (hop : ringReq.operation = blkifOpRead ∨ ringReq.operation = blkifOpWrite)
    (hset : blkfrontRequestSetGrefs q.pool q.g alloc nb = .ok (.ok els, pool', g))
    (hmap : blkfrontRequestMapGrefs virtualToMfn q.dev.otherendId req 0 ringReq g els =
      .ok (ringReq', g', els')) :
    PoolInv refs frees
      { q with pool := pool', g := g', ring := q.ring ++ [⟨req, els', ringReq'⟩] } := by
  obtain ⟨rfl, rfl, own, rfl, hown⟩ := blkfrontRequestSetGrefs_ok hset
  obtain ⟨free, hfree, hperm⟩ := h.free
  obtain ⟨⟨free', rfl, hfree'⟩, hreus, hflags, hop'⟩ := blkfrontRequestMapGrefs_ok hfree hmap
  have htaken : ∀ el ∈ q.pool.take nb, el.reusableGref = true :=
    fun el hel => h.pool el (mem_of_mem_take hel)
  have hleft : ∀ el ∈ q.pool.drop nb, el.reusableGref = true :=
    fun el hel => h.pool el (mem_of_mem_drop hel)
  have hsplit :
      q.pool.map (·.ref) = (q.pool.take nb).map (·.ref) ++ (q.pool.drop nb).map (·.ref) := by
    rw [← map_append, take_append_drop]
  rw [reusableRefs_append, reusableRefs_pool htaken, reusableRefs_own hown,
    append_nil] at hreus
  have hheld : held
      { q with pool := q.pool.drop nb, g := g', ring := q.ring ++ [⟨req, els', ringReq'⟩] } =
      q.pool.drop nb ++ (q.ring.flatMap (·.gref) ++ els') := by
    simp [held]
  refine ⟨h.nodup, h.valid, hleft, ?_, ?_, ?_, free', hfree', ?_⟩
  · refine forall_mem_append.mpr ⟨h.ordered, forall_mem_singleton.mpr ?_⟩
    rw [Ordered, hflags]
    exact Ordered.append htaken hown
  · refine forall_mem_append.mpr ⟨h.flush, forall_mem_singleton.mpr fun hnot => ?_⟩
    exact absurd (hop'.symm ▸ hop) hnot
  · refine List.Perm.trans ?_ h.reusable
    rw [hheld, held]
    simp only [reusableRefs_append, reusableRefs_pool hleft, reusableRefs_pool h.pool, hreus,
      hsplit]
    rw [perm_iff_count]
    intro ref
    simp only [count_append]
    omega
  · refine List.Perm.trans ?_ hperm
    rw [hheld, held]
    simp only [ownRefs_append, ownRefs_pool hleft, ownRefs_pool h.pool]
    rw [perm_iff_count]
    intro ref
    simp only [count_append, nil_append]
    omega

/-- What a request that has been prepared or refused leaves behind. -/
def Prepared (refs frees : List Nat) (q : BlkfrontQueue) :
    Except Errno BlkfrontRequest × BlkfrontQueue → Prop
  | (.error _, q') => q' = q
  | (.ok r, q') => PoolInv refs frees { q' with ring := q'.ring ++ [r] }

variable {slot : BlkifRequest}

/-- **Reads and writes.** -/
theorem PoolInv.requestWrite {res : Except Errno BlkfrontRequest × BlkfrontQueue}
    (h : PoolInv refs frees q)
    (hok : q.pool = [] ∨ ∀ k < blkifMaxSegmentsPerRequest, alloc k = true)
    (hs : blkfrontRequestWrite virtualToMfn q req slot alloc = .ok res) :
    Prepared refs frees q res := by
  have hrefused : ∀ {e : Errno}, (.ok (.error e, q) : Outcome _) = .ok res →
      Prepared refs frees q res := by
    intro e heq
    obtain rfl := Except.ok.inj heq
    rfl
  unfold blkfrontRequestWrite at hs
  dsimp only at hs
  -- The checks in front of the preparation refuse the request.
  iterate 5
    split at hs
    · exact hrefused hs
  obtain ⟨ringReq, hinit, hs⟩ := bind_ok.mp hs
  obtain ⟨⟨set, pool, g⟩, hset, hs⟩ := bind_ok.mp hs
  obtain ⟨hop, hle⟩ := blkifRequestInit_inv hinit
  cases set with
  | error e =>
    obtain ⟨rfl, rfl⟩ := blkfrontRequestSetGrefs_error
      (hok.imp_right fun hall k hk => hall k (hk.trans_le hle)) hset
    exact hrefused hs
  | ok els =>
    obtain ⟨⟨ringReq', g', els'⟩, hmap, hs⟩ := bind_ok.mp hs
    obtain rfl := Except.ok.inj hs
    exact h.send hop hset hmap

theorem PoolInv.requestFlush (h : PoolInv refs frees q) :
    Prepared refs frees q (blkfrontRequestFlush q.dev req slot, q) := by
  have hsent : ∀ {ringReq : BlkifRequest}, PoolInv refs frees
      { q with ring := q.ring ++ [⟨req, [], ringReq⟩] } := by
    intro ringReq
    have hheld : held { q with ring := q.ring ++ [⟨req, [], ringReq⟩] } = q.held := by
      simp [held]
    refine ⟨h.nodup, h.valid, h.pool, ?_, ?_, hheld ▸ h.reusable, hheld ▸ h.free⟩
    · exact forall_mem_append.mpr ⟨h.ordered, forall_mem_singleton.mpr .nil⟩
    · exact forall_mem_append.mpr ⟨h.flush, forall_mem_singleton.mpr fun _ => rfl⟩
  unfold blkfrontRequestFlush
  split
  · exact hsent
  · split
    · exact hsent
    · rfl

variable {reply : Except Errno Unit}

/-- **A submission.** -/
theorem PoolInv.submit {reqAlloc : Bool} (h : PoolInv refs frees q)
    (hok : q.pool = [] ∨ ∀ k < blkifMaxSegmentsPerRequest, alloc k = true)
    (hs : blkfrontSubmitRequest virtualToMfn q req slot reqAlloc alloc = .ok (reply, q')) :
    PoolInv refs frees q' := by
  unfold blkfrontSubmitRequest at hs
  split at hs
  · cases hs
    exact h
  · obtain ⟨⟨res, q₁⟩, henq, hdone⟩ := bind_ok.mp hs
    have hprep : Prepared refs frees q (res, q₁) := by
      unfold blkfrontQueueEnqueue at henq
      split at henq
      · split at henq
        · exact h.requestWrite hok henq
        · exact h.requestWrite hok henq
        · rw [← Except.ok.inj henq]
          exact h.requestFlush
        · cases henq
          rfl
      · cases henq
        rfl
    cases res with
    | error e =>
      obtain rfl : q₁ = q := hprep
      cases hdone
      exact h
    | ok r =>
      cases hdone
      exact hprep

/-! ### Completions -/

theorem reusableRefs_perm (h : els.Perm els') : (reusableRefs els).Perm (reusableRefs els') :=
  (h.filter _).map _

theorem ownRefs_perm (h : els.Perm els') : (ownRefs els).Perm (ownRefs els') :=
  (h.filter _).map _

variable {r : BlkfrontRequest} {i : Nat}

theorem ring_perm (hr : q.ring[i]? = some r) :
    (r.gref ++ (q.ring.eraseIdx i).flatMap (·.gref)).Perm (q.ring.flatMap (·.gref)) := by
  obtain ⟨hi, rfl⟩ := List.getElem?_eq_some_iff.mp hr
  have hperm := (List.getElem_cons_eraseIdx_perm hi).flatMap_right (·.gref)
  rwa [flatMap_cons] at hperm

section

variable (h : PoolInv refs frees q)

include h

section

variable (hr : q.ring[i]? = some r)

include hr

theorem PoolInv.own_perm {free : List Nat} (hfree : (free ++ ownRefs q.held).Perm frees) :
    (free ++ (ownRefs r.gref ++ ownRefs ((q.ring.eraseIdx i).flatMap (·.gref)))).Perm frees := by
  have hring := ownRefs_perm (ring_perm hr)
  rw [ownRefs_append] at hring
  rw [held, ownRefs_append, ownRefs_pool h.pool, nil_append] at hfree
  exact (hring.append_left free).trans hfree

theorem PoolInv.own {free : List Nat} (hfree : (free ++ ownRefs q.held).Perm frees) :
    (ownRefs r.gref).Nodup ∧ ∀ ref ∈ ownRefs r.gref, ValidRef ref ∧ ref ∉ free := by
  have hperm := h.own_perm hr hfree
  obtain ⟨-, hheld, hdisj⟩ := nodup_append.mp (hperm.nodup_iff.mpr h.nodup)
  refine ⟨(nodup_append.mp hheld).1, fun ref href => ⟨?_, fun hin => ?_⟩⟩
  · refine h.valid ref (hperm.mem_iff.mp ?_)
    exact mem_append_right _ (mem_append_left _ href)
  · exact hdisj ref hin ref (mem_append_left _ href) rfl

/-- **A completion** puts the references of the pool back and ends the others. -/
theorem PoolInv.complete (hs : blkfrontQueueDequeue q i = .ok (reply, q')) :
    PoolInv refs frees q' ∧ q.EndsOnce r q' := by
  obtain ⟨free, hfree, hperm⟩ := h.free
  obtain ⟨hnodup, hown⟩ := h.own hr hperm
  have hheld := h.own_perm hr hperm
  have hreus : (reusableRefs q.pool ++ (reusableRefs r.gref ++
      reusableRefs ((q.ring.eraseIdx i).flatMap (·.gref)))).Perm refs := by
    have hring := reusableRefs_perm (ring_perm hr)
    rw [reusableRefs_append] at hring
    refine (hring.append_left _).trans ?_
    rw [← reusableRefs_append]
    exact h.reusable
  have hmem : r ∈ q.ring := mem_of_getElem? hr
  have hrest : ∀ r' ∈ q.ring.eraseIdx i, r' ∈ q.ring := fun r' hr' => mem_of_mem_eraseIdx hr'
  rw [blkfrontQueueDequeue, hr] at hs
  obtain ⟨⟨pool, g⟩, hreset, hdone⟩ := bind_ok.mp hs
  obtain ⟨rfl, hfree'⟩ : pool = q.pool ++ r.gref.filter (·.reusableGref) ∧
      FreeList g ((ownRefs r.gref).reverse ++ free) := by
    split at hreset
    · obtain ⟨g₁, hrelease, hreset⟩ := bind_ok.mp hreset
      obtain ⟨htake, hdrop⟩ := (h.ordered r hmem).takeWhile
      rw [hdrop] at hrelease
      cases hreset
      refine ⟨by rw [htake], releaseGrefs_ok ?_ hfree hnodup (fun ref href => (hown ref href).2)
        hrelease⟩
      intro el hel
      exact decide_eq_true (hown el.ref (mem_map_of_mem hel)).1.pos
    · rename_i hop
      rw [h.flush r hmem hop]
      cases hreset
      exact ⟨(append_nil _).symm, hfree⟩
  cases hdone
  refine ⟨⟨h.nodup, h.valid, ?_, fun r' hr' => h.ordered r' (hrest r' hr'),
    fun r' hr' => h.flush r' (hrest r' hr'), ?_, _, hfree', ?_⟩, free, hfree, hnodup,
    fun ref href => (hown ref href).2, hfree'⟩
  · exact forall_mem_append.mpr ⟨h.pool, fun el hel => (mem_filter.mp hel).2⟩
  · have hkept : reusableRefs (r.gref.filter (·.reusableGref)) = reusableRefs r.gref := by
      rw [reusableRefs, filter_filter]
      simp only [Bool.and_self]
      rfl
    rwa [held, reusableRefs_append, reusableRefs_append, hkept, append_assoc]
  · have hkept : ownRefs (r.gref.filter (·.reusableGref)) = [] :=
      ownRefs_pool fun el hel => (mem_filter.mp hel).2
    rw [held, ownRefs_append, ownRefs_append, ownRefs_pool h.pool, hkept]
    refine List.Perm.trans ?_ hheld
    rw [perm_iff_count]
    intro ref
    simp only [count_append, count_reverse, nil_append]
    omega

end

/-- **One event.** -/
theorem PoolInv.step {e : BlkfrontEvent} (hok : blkfrontOk q e)
    (hs : blkfrontStep virtualToMfn q e = .ok (reply, q')) : PoolInv refs frees q' := by
  cases e with
  | submit req slot reqAlloc alloc => exact h.submit hok hs
  | complete i =>
    cases hr : q.ring[i]? with
    | none =>
      rw [blkfrontStep, blkfrontQueueDequeue, hr] at hs
      cases hs
      exact h
    | some r => exact (h.complete hr hs).1
  | other gref flags =>
    obtain ⟨free, hfree, hperm⟩ := h.free
    cases hs
    exact ⟨h.nodup, h.valid, h.pool, h.ordered, h.flush, h.reusable, free, hfree.setEntry _ _,
      hperm⟩

end

/-! ### Setting up the pool -/

section

variable (hfree : FreeList q.g free)

include hfree

theorem poolSetupLoop_ok {refIdx n : Nat} {ok : Bool}
    (h : poolSetupLoop alloc refIdx n q = .ok (ok, q')) :
    ∃ taken free', free = taken ++ free' ∧ FreeList q'.g free' ∧
      q'.pool = q.pool ++ taken.map (⟨·, true⟩) ∧ q'.ring = q.ring := by
  induction n generalizing refIdx q free with
  | zero =>
    cases h
    exact ⟨[], free, rfl, hfree, (append_nil _).symm, rfl⟩
  | succ n ih =>
    rw [poolSetupLoop] at h
    split at h
    · obtain ⟨⟨ref, g⟩, hgrant, h⟩ := bind_ok.mp h
      obtain ⟨-, -, h⟩ := bind_ok.mp h
      obtain ⟨free₁, rfl, hfree₁⟩ := gnttabGrantAccess_ok hfree hgrant
      obtain ⟨taken, free', rfl, hfree', hpool', hring⟩ := ih hfree₁ h
      refine ⟨ref :: taken, free', rfl, hfree', ?_, hring⟩
      rw [hpool', append_assoc]
      rfl
    · cases h
      exact ⟨[], free, rfl, hfree, (append_nil _).symm, rfl⟩

/-- **A setup that succeeds** has moved entries from the front of the free ones into the pool. -/
theorem blkfrontQueueGrefPoolSetup_ok (h : blkfrontQueueGrefPoolSetup q alloc = .ok (.ok (), q')) :
    ∃ taken free', free = taken ++ free' ∧ FreeList q'.g free' ∧
      q'.pool = taken.map (⟨·, true⟩) ∧ q'.ring = q.ring := by
  obtain ⟨⟨ok, q₁⟩, hloop, h⟩ := bind_ok.mp h
  have hdone := poolSetupLoop_ok (q := { q with pool := [] }) hfree hloop
  cases ok with
  | true =>
    cases h
    exact hdone
  | false =>
    obtain ⟨q₂, -, h⟩ := bind_ok.mp h
    cases h

/-- **The start.** -/
theorem PoolInv.start (hring : q.ring = [])
    (h : blkfrontQueueGrefPoolSetup q alloc = .ok (.ok (), q')) :
    (q'.pool.map (·.ref)).Nodup ∧ ∃ frees, PoolInv (q'.pool.map (·.ref)) frees q' := by
  obtain ⟨taken, free', rfl, hfree', hpool, hring'⟩ := blkfrontQueueGrefPoolSetup_ok hfree h
  have hreusable : ∀ el ∈ q'.pool, el.reusableGref = true := by
    intro el hel
    rw [hpool] at hel
    obtain ⟨ref, -, rfl⟩ := mem_map.mp hel
    rfl
  have hrefs : q'.pool.map (·.ref) = taken := by
    rw [hpool, map_map]
    exact map_id taken
  have hheld : q'.held = q'.pool := by
    rw [held, hring', hring, flatMap_nil, append_nil]
  rw [hring] at hring'
  refine ⟨?_, free', hfree'.nodup, hfree'.valid, hreusable, ?_, ?_, ?_, free', hfree', ?_⟩
  · rw [hrefs]
    exact (nodup_append.mp hfree.nodup).1
  · simp [hring']
  · simp [hring']
  · rw [hheld, reusableRefs_pool hreusable]
  · rw [hheld, ownRefs_pool hreusable, append_nil]

end

/-! ### Completions return -/

theorem endAccess_returns (hvalid : ValidRef ref) (hunused : ¬ (g.table ref).InUse) :
    ∃ g', endAccess g ref = .ok g' ∧
      ∀ ref', ¬ (g.table ref').InUse → ¬ (g'.table ref').InUse := by
  refine ⟨putFreeEntry (g.cleared ref) ref, ?_, fun ref' hunused' => ?_⟩
  · rw [endAccess, gnttabEndAccess_eq hvalid, if_neg hunused]
    rfl
  · simp only [putFreeEntry, Gnttab.cleared, Gnttab.setEntry]
    by_cases heq : ref' = ref
    · rw [heq, Function.update_self]
      exact not_not.mpr (Nat.zero_and _)
    · rwa [Function.update_of_ne heq]

theorem releaseGrefs_returns (ends : BlkfrontGref → Bool)
    (hels : ∀ el ∈ els, ValidRef el.ref ∧ ¬ (g.table el.ref).InUse) :
    ∃ g', releaseGrefs ends g els = .ok g' := by
  induction els generalizing g with
  | nil => exact ⟨g, rfl⟩
  | cons el els ih =>
    obtain ⟨⟨hvalid, hunused⟩, hels⟩ := forall_mem_cons.mp hels
    rw [releaseGrefs]
    split
    · obtain ⟨g₁, hend, hkeep⟩ := endAccess_returns hvalid hunused
      rw [hend]
      exact ih fun el hel => ⟨(hels el hel).1, hkeep _ (hels el hel).2⟩
    · exact ih hels

/-- **A completion returns** if the backend uses none of the references that are ended. -/
theorem PoolInv.complete_returns (h : PoolInv refs frees q)
    (hr : q.ring[i]? = some r) (hunused : ∀ ref ∈ ownRefs r.gref, ¬ (q.g.table ref).InUse) :
    ∃ q', blkfrontQueueDequeue q i = .ok (.ok (), q') := by
  obtain ⟨free, -, hperm⟩ := h.free
  obtain ⟨-, hown⟩ := h.own hr hperm
  rw [blkfrontQueueDequeue, hr]
  simp only
  split
  · obtain ⟨-, hdrop⟩ := (h.ordered r (mem_of_getElem? hr)).takeWhile
    have hels : ∀ el ∈ r.gref.filter (!·.reusableGref),
        ValidRef el.ref ∧ ¬ (q.g.table el.ref).InUse := fun el hel =>
      ⟨(hown el.ref (mem_map_of_mem hel)).1, hunused el.ref (mem_map_of_mem hel)⟩
    obtain ⟨g', hrelease⟩ := releaseGrefs_returns (·.ref ≠ grantInvalidRef) hels
    rw [blkfrontRequestResetGrefs, hdrop, hrelease]
    exact ⟨_, rfl⟩
  · exact ⟨_, rfl⟩

/-- **The references of the pool are conserved.** In every state of a run, the references of the
pool are those of the setup, each in the pool or held by one request in flight; and a request that
completes ends the references of its own, each once. -/
theorem gref_pool_conserved (virtualToMfn : Nat → Nat) (q₀ q₁ q : BlkfrontQueue)
    (alloc : Nat → Bool) (free : List Nat) (hfree : FreeList q₀.g free) (hring : q₀.ring = [])
    (hsetup : blkfrontQueueGrefPoolSetup q₀ alloc = .ok (.ok (), q₁))
    (hs : Reachable (blkfrontStep virtualToMfn) blkfrontOk q₁ q) :
    q₁.Conserves q ∧
      ∀ i r, q.ring[i]? = some r →
        (∀ reply q', blkfrontQueueDequeue q i = .ok (reply, q') → q.EndsOnce r q') ∧
        ((∀ ref ∈ ownRefs r.gref, ¬ (q.g.table ref).InUse) →
          ∃ q', blkfrontQueueDequeue q i = .ok (.ok (), q')) := by
  obtain ⟨hnodup, frees, hstart⟩ := PoolInv.start hfree hring hsetup
  have hinv : PoolInv (q₁.pool.map (·.ref)) frees q :=
    hs.invariant hstart fun _ _ _ _ h hok hs => h.step hok hs
  have hrefs := hinv.reusable
  rw [BlkfrontQueue.held, reusableRefs_append, reusableRefs_pool hinv.pool] at hrefs
  refine ⟨⟨hrefs, hrefs.nodup_iff.mpr hnodup⟩, fun i r hr => ⟨?_, ?_⟩⟩
  · exact fun reply q' hs => (hinv.complete hr hs).2
  · exact hinv.complete_returns hr

/-- A queue without a pool, on a device of 1024 sectors, and twenty free entries from 8 on. -/
def freshQueue : BlkfrontQueue where
  dev := ⟨⟨1024, 512, false, maxSectorsPerReq 512⟩, 0, false, false, 32⟩
  pool := []
  g := ⟨fun _ => ⟨0, 0, 0⟩, fun i => if i = 0 then 8 else i + 1, 20⟩
  ring := []

def pooledQueue : BlkfrontQueue :=
  match blkfrontQueueGrefPoolSetup freshQueue fun _ => true with
  | .ok (_, q) => q
  | .error _ => freshQueue

theorem freshQueue_free : FreeList freshQueue.g (range' 8 20) :=
  ⟨by decide, rfl, by decide, by decide⟩

theorem pooledQueue_setup :
    blkfrontQueueGrefPoolSetup freshQueue (fun _ => true) = .ok (.ok (), pooledQueue) := rfl

/-- Two reads of eleven pages and of one: the first one takes the pool, and the second one gets a
reference of its own. -/
theorem gref_pool_conserved_two :
    ∃ q, Reachable (blkfrontStep id) blkfrontOk pooledQueue q ∧ q.pool = [] ∧
      q.ring.map (fun r => (reusableRefs r.gref, ownRefs r.gref)) =
        [(range' 8 11, []), ([], [19])] ∧
      pooledQueue.Conserves q := by
  obtain ⟨q, hs, hpool, hring⟩ : ∃ q, Reachable (blkfrontStep id) blkfrontOk pooledQueue q ∧
      q.pool = [] ∧ q.ring.map (fun r => (reusableRefs r.gref, ownRefs r.gref)) =
        [(range' 8 11, []), ([], [19])] :=
    Reachable.exists_of_run [.submit ⟨.read, 0, 81, 0x1e00⟩ freshSlot true fun _ => true,
      .submit ⟨.read, 81, 1, 0x20000⟩ freshSlot true fun _ => true] (by decide +kernel)
  exact ⟨q, hs, hpool, hring, (gref_pool_conserved id _ _ q _ _ freshQueue_free rfl
    pooledQueue_setup hs).1⟩

/-- **A failed allocation drains the pool.** A read of eleven pages takes the ten references that
are left, fails to allocate the eleventh element and ends them. -/
theorem gref_pool_drained :
    ∃ q, Reachable (blkfrontStep id) blkfrontAny pooledQueue q ∧
      pooledQueue.pool.map (·.ref) = range' 8 11 ∧
      q.pool.map (·.ref) ++ reusableRefs (q.ring.flatMap (·.gref)) = [8] ∧
      ¬ pooledQueue.Conserves q := by
  have hsetup : pooledQueue.pool.map (·.ref) = range' 8 11 := by decide +kernel
  obtain ⟨q, hrun, hleft⟩ : ∃ q, Reachable (blkfrontStep id) blkfrontAny pooledQueue q ∧
      q.pool.map (·.ref) ++ reusableRefs (q.ring.flatMap (·.gref)) = [8] :=
    Reachable.exists_of_run [.submit ⟨.read, 0, 1, 0x20000⟩ freshSlot true fun _ => true,
      .submit ⟨.read, 0, 81, 0x1e00⟩ freshSlot true fun _ => false] (by decide +kernel)
  refine ⟨q, hrun, hsetup, hleft, fun hcons => ?_⟩
  have hlen := hcons.refs.length_eq
  rw [hleft, hsetup] at hlen
  cases hlen

end Unikraft.Xen
