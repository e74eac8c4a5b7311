import Unikraft.Basic

/-!
# Unikraft.Uk9p.Cleanup

The requests and fids of the 9P operations (`lib/uk9p/9p.c`), on every path. Each call that can fail
takes its result from a pattern of failures: the creation of a fid or a request, every field that is
written or read, and the exchange with the server. An error pointer that is passed on is a fault. If
the request of `uk_9p_walk` is not allocated, it is passed to `uk_9pdev_req_remove`.
-/

namespace Unikraft.Uk9p.Cleanup

/-- What happens to requests and fids, which have the number of the call that creates them. -/
inductive Step
  | reqCreate (id : Nat)
  | reqRemove (id : Nat)
  | fidCreate (id : Nat)
  | fidRelease (id : Nat)
  deriving DecidableEq

/-- The number of calls that could fail, and the steps so far. -/
structure Trace where
  next : Nat
  steps : List Step

/-- The calls on a request that can fail. -/
inductive Call
  | write8
  | write16
  | write32
  | write64
  | writestr
  /-- `send_and_wait_zc`, with a transport error and an `Rerror` -/
  | sendAndWait
  | read16
  | read32
  | readqid
  /-- The test whether an `Rwalk` has as many qids as the `Twalk` has names. -/
  | sameCount

/-- A pointer that may be an error pointer. -/
abbrev Ptr := Except Errno Nat

def deref : Ptr → Outcome Nat
  | .ok id => .ok id
  | .error _ => .error .badPointer

/-! ### The source -/

section

-- the errors of the calls, in their order
variable (fails : Nat → Option Errno)

def create (created : Nat → Step) (t : Trace) : Ptr × Trace :=
  match fails t.next with
  | some e => (.error e, { t with next := t.next + 1 })
  | none => (.ok t.next, ⟨t.next + 1, t.steps ++ [created t.next]⟩)

def requestCreate (t : Trace) : Ptr × Trace := create fails .reqCreate t

/-- `uk_9pdev_fid_create` -/
def fidCreate (t : Trace) : Ptr × Trace := create fails .fidCreate t

/-- `uk_9pdev_req_remove` -/
def reqRemove (req : Ptr) (t : Trace) : Outcome Trace := do
  let id ← deref req
  .ok { t with steps := t.steps ++ [.reqRemove id] }

/-- The calls `(rc = ..) || (rc = ..) || ..` on a request, up to the first that fails. -/
def firstError (req : Ptr) : List Call → Trace → Outcome (Option Errno × Trace)
  | [], t => .ok (none, t)
  | _ :: calls, t => do
      let _ ← deref req
      match fails t.next with
      | some e => .ok (some e, { t with next := t.next + 1 })
      | none => firstError req calls { t with next := t.next + 1 }

/-- An operation without a fid of its own. -/
def operation (calls : List Call) (t : Trace) : Outcome (Option Errno × Trace) :=
  match requestCreate fails t with
  | (.error e, t) => .ok (some e, t)
  | (.ok id, t) => do
      let (rc, t) ← firstError fails (.ok id) calls t
      let t ← reqRemove (.ok id) t
      .ok (rc, t)

def uk9pOpen : Trace → Outcome (Option Errno × Trace) :=
  operation fails [.write32, .write8, .sendAndWait, .readqid, .read32]

def uk9pCreate : Trace → Outcome (Option Errno × Trace) :=
  operation fails [.write32, .writestr, .write32, .write8, .writestr, .sendAndWait, .readqid,
    .read32]

def uk9pRemove : Trace → Outcome (Option Errno × Trace) := operation fails [.write32, .sendAndWait]

def uk9pRead : Trace → Outcome (Option Errno × Trace) :=
  operation fails [.write32, .write64, .write32, .sendAndWait, .read32]

def uk9pWrite : Trace → Outcome (Option Errno × Trace) :=
  operation fails [.write32, .write64, .write32, .sendAndWait, .read32]

def uk9pClunk (wasRemoved : Bool) (t : Trace) : Outcome (Option Errno × Trace) :=
  if wasRemoved then .ok (none, t) else operation fails [.write32, .sendAndWait] t

/-- `uk_9pdev_fid_release`, which clunks the fid first. -/
def fidRelease (fid : Ptr) (wasRemoved : Bool) (t : Trace) : Outcome Trace := do
  let id ← deref fid
  let (_, t) ← uk9pClunk fails wasRemoved t
  .ok { t with steps := t.steps ++ [.fidRelease id] }

def uk9pAttach (t : Trace) : Outcome (Ptr × Trace) :=
  match fidCreate fails t with
  | (.error e, t) => .ok (.error e, t)
  | (.ok fid, t) =>
    match requestCreate fails t with
    | (.error e, t) => do
        let t ← fidRelease fails (.ok fid) false t
        .ok (.error e, t)
    | (.ok req, t) => do
        let (rc, t) ← firstError fails (.ok req)
          [.write32, .write32, .writestr, .writestr, .write32, .sendAndWait, .readqid] t
        match rc with
        | none => do
            let t ← reqRemove (.ok req) t
            .ok (.ok fid, t)
        | some e => do
            let t ← fidRelease fails (.ok fid) false t
            let t ← reqRemove (.ok req) t
            .ok (.error e, t)

/-- The exchange of `uk_9p_walk`: the error, and whether the new fid is marked as removed. -/
def walkExchange (named : Bool) (req : Ptr) (t : Trace) :
    Outcome ((Option Errno × Bool) × Trace) := do
  let (rc, t) ← firstError fails req
    ([.write32, .write32, .write16] ++ if named then [.writestr] else []) t
  if rc ≠ none then .ok ((rc, false), t)
  else do
    let (rc, t) ← firstError fails req [.sendAndWait] t
    if rc ≠ none then .ok ((rc, true), t)
    else do
      let (rc, t) ← firstError fails req
        ([.read16, .sameCount] ++ if named then [.readqid] else []) t
      .ok ((rc, false), t)

/-- `uk_9p_walk`, with or without a name. -/
def uk9pWalk (named : Bool) (t : Trace) : Outcome (Ptr × Trace) :=
  match fidCreate fails t with
  | (.error e, t) => .ok (.error e, t)
  | (.ok newfid, t) => do
      let (req, t) := requestCreate fails t
      let ((rc, wasRemoved), t) ← match req with
        | .error e => .ok ((some e, false), t)
        | .ok id => walkExchange fails named (.ok id) t
      let t ← reqRemove req t
      match rc with
      | none => .ok (.ok newfid, t)
      | some e => do
          let t ← fidRelease fails (.ok newfid) wasRemoved t
          .ok (.error e, t)

end

/-! ### Every path -/

/-- Each request is removed exactly once, and a fid is released exactly once on failure and not on
success. -/
def Clean (failed : Bool) (steps : List Step) : Prop :=
  ∀ id, steps.count (.reqCreate id) ≤ 1 ∧
    steps.count (.reqRemove id) = steps.count (.reqCreate id) ∧
    steps.count (.fidCreate id) ≤ 1 ∧
    steps.count (.fidRelease id) = if failed then steps.count (.fidCreate id) else 0

/-- An operation returns, and all it has done is clean. -/
def CleansUp {α : Type} (failed : α → Bool) (op : Trace → Outcome (α × Trace)) : Prop :=
  ∃ rc t, op ⟨0, []⟩ = .ok (rc, t) ∧ Clean (failed rc) t.steps

variable {fails : Nat → Option Errno} {t : Trace}

variable (fails) in
theorem create_cases (created : Nat → Step) (t : Trace) :
    (∃ e, fails t.next = some e ∧ create fails created t = (.error e, ⟨t.next + 1, t.steps⟩)) ∨
      fails t.next = none ∧
        create fails created t = (.ok t.next, ⟨t.next + 1, t.steps ++ [created t.next]⟩) := by
  unfold create
  cases fails t.next with
  | some e => exact .inl ⟨e, rfl, rfl⟩
  | none => exact .inr ⟨rfl, rfl⟩

variable (fails) in
theorem firstError_ok (id : Nat) (calls : List Call) (t : Trace) :
    ∃ rc n, firstError fails (.ok id) calls t = .ok (rc, ⟨n, t.steps⟩) ∧ t.next ≤ n := by
  induction calls generalizing t with
  | nil => exact ⟨none, t.next, rfl, Nat.le_refl _⟩
  | cons call calls ih =>
    simp only [firstError, deref, Outcome.ok_bind]
    cases fails t.next with
    | some e => exact ⟨_, _, rfl, Nat.le_succ _⟩
    | none =>
      obtain ⟨rc, n, heq, hle⟩ := ih { t with next := t.next + 1 }
      exact ⟨rc, n, heq, Nat.le_of_succ_le hle⟩

variable (fails) in
/-- What an operation without a fid adds: nothing, or its request and the removal of it. -/
theorem operation_ok (calls : List Call) (t : Trace) :
    ∃ rc n, operation fails calls t = .ok (rc, ⟨n, t.steps⟩) ∨
      operation fails calls t =
        .ok (rc, ⟨n, t.steps ++ [.reqCreate t.next, .reqRemove t.next]⟩) := by
  rw [operation, requestCreate]
  rcases create_cases fails .reqCreate t with ⟨e, -, heq⟩ | ⟨-, heq⟩ <;> rw [heq]
  · exact ⟨some e, _, .inl rfl⟩
  obtain ⟨rc, n, hcalls, -⟩ := firstError_ok fails t.next calls
    ⟨t.next + 1, t.steps ++ [.reqCreate t.next]⟩
  refine ⟨rc, n, .inr ?_⟩
  simp [hcalls, reqRemove, deref]

variable (fails) in
theorem fidRelease_ok (fid : Nat) (wasRemoved : Bool) (t : Trace) :
    ∃ n, fidRelease fails (.ok fid) wasRemoved t = .ok ⟨n, t.steps ++ [.fidRelease fid]⟩ ∨
      fidRelease fails (.ok fid) wasRemoved t =
        .ok ⟨n, t.steps ++ [.reqCreate t.next, .reqRemove t.next, .fidRelease fid]⟩ := by
  simp only [fidRelease, deref, Outcome.ok_bind, uk9pClunk]
  cases wasRemoved with
  | true => exact ⟨t.next, .inl rfl⟩
  | false =>
    obtain ⟨rc, n, h | h⟩ := operation_ok fails [.write32, .sendAndWait] t
    · exact ⟨n, .inl (by simp [h])⟩
    · exact ⟨n, .inr (by simp [h])⟩

theorem operation_cleansUp (calls : List Call) :
    CleansUp Option.isSome (operation fails calls) := by
  obtain ⟨rc, n, h | h⟩ := operation_ok fails calls ⟨0, []⟩
  · exact ⟨rc, _, h, fun id => by cases rc <;> simp⟩
  · refine ⟨rc, _, h, fun id => ?_⟩
    cases rc <;> simp [List.count_cons] <;> split_ifs <;> simp

def isError (p : Ptr) : Bool := !p.toBool

/-- The steps of an operation whose fid is released with a clunk, before or after its request is
removed. -/
theorem clean_of_released {k : Nat} {clunk : List Step} (hk : 1 < k)
    (hclunk : clunk = [] ∨ clunk = [.reqCreate k, .reqRemove k]) :
    Clean true (.fidCreate 0 :: clunk ++ [.fidRelease 0]) ∧
    Clean true ([.fidCreate 0, .reqCreate 1] ++ clunk ++ [.fidRelease 0, .reqRemove 1]) ∧
    Clean true ([.fidCreate 0, .reqCreate 1, .reqRemove 1] ++ clunk ++ [.fidRelease 0]) := by
  rcases hclunk with rfl | rfl <;> refine ⟨fun id => ?_, fun id => ?_, fun id => ?_⟩ <;>
    simp [List.count_cons] <;> split_ifs <;> omega

theorem clean_of_kept : Clean false [.fidCreate 0, .reqCreate 1, .reqRemove 1] := fun id => by
  simp [List.count_cons]
  split_ifs <;> simp

theorem uk9pAttach_cleansUp : CleansUp isError (uk9pAttach fails) := by
  unfold CleansUp uk9pAttach fidCreate requestCreate
  rcases create_cases fails .fidCreate ⟨0, []⟩ with ⟨e, -, hfid⟩ | ⟨-, hfid⟩ <;> rw [hfid]
  · exact ⟨_, _, rfl, fun id => by simp⟩
  rcases create_cases fails .reqCreate ⟨1, [.fidCreate 0]⟩ with ⟨e, -, hreq⟩ | ⟨-, hreq⟩
  · obtain ⟨n, h | h⟩ := fidRelease_ok fails 0 false ⟨2, [.fidCreate 0]⟩
    · exact ⟨.error e, ⟨n, _⟩, by simp [hreq, h],
        (clean_of_released (k := 2) (by decide) (.inl rfl)).1⟩
    · exact ⟨.error e, ⟨n, _⟩, by simp [hreq, h],
        (clean_of_released (k := 2) (by decide) (.inr rfl)).1⟩
  obtain ⟨rc, n, hcalls, hn⟩ := firstError_ok fails 1
    [.write32, .write32, .writestr, .writestr, .write32, .sendAndWait, .readqid]
    ⟨2, [.fidCreate 0, .reqCreate 1]⟩
  cases rc with
  | none => exact ⟨.ok 0, ⟨n, _⟩, by simp [hreq, hcalls, reqRemove, deref], clean_of_kept⟩
  | some e =>
    obtain ⟨m, h | h⟩ := fidRelease_ok fails 0 false ⟨n, [.fidCreate 0, .reqCreate 1]⟩
    · exact ⟨.error e, ⟨m, _⟩, by simp [hreq, hcalls, h, reqRemove, deref],
        (clean_of_released hn (.inl rfl)).2.1⟩
    · exact ⟨.error e, ⟨m, _⟩, by simp [hreq, hcalls, h, reqRemove, deref],
        (clean_of_released hn (.inr rfl)).2.1⟩

variable (fails) in
theorem walkExchange_ok (named : Bool) (id : Nat) (t : Trace) :
    ∃ res n, walkExchange fails named (.ok id) t = .ok (res, ⟨n, t.steps⟩) ∧ t.next ≤ n := by
  unfold walkExchange
  obtain ⟨rc, n, h, hn⟩ := firstError_ok fails id
    ([.write32, .write32, .write16] ++ if named then [.writestr] else []) t
  rw [h, Outcome.ok_bind]
  cases rc with
  | some e => exact ⟨_, _, rfl, hn⟩
  | none =>
  obtain ⟨rc, m, h, hm⟩ := firstError_ok fails id [.sendAndWait] ⟨n, t.steps⟩
  simp only [ne_eq, not_true_eq_false, if_false, h, Outcome.ok_bind]
  cases rc with
  | some e => exact ⟨_, _, rfl, hn.trans hm⟩
  | none =>
  obtain ⟨rc, l, h, hl⟩ := firstError_ok fails id
    ([.read16, .sameCount] ++ if named then [.readqid] else []) ⟨m, t.steps⟩
  simp only [not_true_eq_false, if_false, h, Outcome.ok_bind]
  exact ⟨_, _, rfl, (hn.trans hm).trans hl⟩

/-- A walk cleans up, unless it has a fid and its request is not allocated: then it fails with an
error pointer. -/
theorem uk9pWalk_cleansUp (named : Bool) :
    CleansUp isError (uk9pWalk fails named) ↔ (fails 0 = none → fails 1 = none) := by
  unfold CleansUp uk9pWalk fidCreate requestCreate
  rcases create_cases fails .fidCreate ⟨0, []⟩ with ⟨e, h0, hfid⟩ | ⟨h0, hfid⟩ <;>
    rw [hfid]
  · exact iff_of_true ⟨_, _, rfl, fun id => by simp⟩ fun hnone => by simp [hnone] at h0
  rcases create_cases fails .reqCreate ⟨1, [.fidCreate 0]⟩ with ⟨e, h1, hreq⟩ | ⟨h1, hreq⟩
  · refine iff_of_false ?_ fun himp => by simp [himp h0] at h1
    rintro ⟨rc, t, heq, -⟩
    simp [hreq, reqRemove, deref] at heq
  refine iff_of_true ?_ fun _ => h1
  obtain ⟨⟨rc, wasRemoved⟩, n, hwalk, hn⟩ := walkExchange_ok fails named 1
    ⟨2, [.fidCreate 0, .reqCreate 1]⟩
  cases rc with
  | none => exact ⟨.ok 0, ⟨n, _⟩, by simp [hreq, hwalk, reqRemove, deref], clean_of_kept⟩
  | some e =>
    obtain ⟨m, h | h⟩ := fidRelease_ok fails 0 wasRemoved
      ⟨n, [.fidCreate 0, .reqCreate 1, .reqRemove 1]⟩
    · exact ⟨.error e, ⟨m, _⟩, by simp [hreq, hwalk, h, reqRemove, deref],
        (clean_of_released hn (.inl rfl)).2.2⟩
    · exact ⟨.error e, ⟨m, _⟩, by simp [hreq, hwalk, h, reqRemove, deref],
        (clean_of_released hn (.inr rfl)).2.2⟩

/-- **9P operations clean up on every failure.** For every pattern of failures they return, with
each request removed exactly once and a fid released exactly once on failure; a walk exactly if the
request is allocated or the fid is not. -/
theorem uk_9p_cleans_up (fails : Nat → Option Errno) (named wasRemoved : Bool) :
    CleansUp isError (uk9pAttach fails) ∧ CleansUp Option.isSome (uk9pOpen fails) ∧
    CleansUp Option.isSome (uk9pCreate fails) ∧ CleansUp Option.isSome (uk9pRemove fails) ∧
    CleansUp Option.isSome (uk9pClunk fails wasRemoved) ∧
    CleansUp Option.isSome (uk9pRead fails) ∧ CleansUp Option.isSome (uk9pWrite fails) ∧
    (CleansUp isError (uk9pWalk fails named) ↔ (fails 0 = none → fails 1 = none)) := by
  refine ⟨uk9pAttach_cleansUp, operation_cleansUp _, operation_cleansUp _, operation_cleansUp _, ?_,
    operation_cleansUp _, operation_cleansUp _, uk9pWalk_cleansUp named⟩
  cases wasRemoved with
  | true => exact ⟨none, _, rfl, fun id => by simp⟩
  | false => exact operation_cleansUp _

/-- The fid of a walk is created, and its request is not. -/
theorem uk_9p_walk_bad_pointer :
    uk9pWalk (fun n => if n = 1 then some .enomem else none) true ⟨0, []⟩ = .error .badPointer :=
  rfl

end Unikraft.Uk9p.Cleanup
