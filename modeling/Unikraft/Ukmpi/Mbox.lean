import Unikraft.Uklock.Semaphore

/-!
# Unikraft.Ukmpi.Mbox

The mailbox of `lib/ukmpi/mbox.c`: a ring of `size + 1` slots between two semaphores. A call takes
a token of one semaphore, moves a message, and gives a token to the other one. Any number of calls
are in progress at once (`MboxSys.ops`), and every interleaving of their steps is a run.

The number of bytes of the memory block is computed modulo `2 ^ 64`.
-/

namespace Unikraft.Ukmpi

open Lib Uklock Outcome List

variable {M : Type}

/-- `struct uk_mbox`, the semaphores by their counters. The positions are `long`;
they index `msgs` and stay far below the largest one. -/
structure Mbox (M : Type) where
  len : Nat
  readsem : Int
  readpos : Nat
  writesem : Int
  writepos : Nat
  msgs : List M

/-- `sizeof(struct uk_mbox)`. -/
abbrev sizeofMbox : Nat := 72

/-- `uk_mbox_create`, when the allocation succeeds. `garbage` is what the new block
contains. -/
def ukMboxCreate (garbage : Nat → M) (size : Nat) : Outcome (Mbox M) := do
  ukAssert (size < 2 ^ 63)
  let bytes := addU64 sizeofMbox (8 * (size + 1) % 2 ^ 64)
  -- a block that is too small for the struct itself
  if bytes < sizeofMbox then .error .outOfBounds
  else
    .ok {
      len := size + 1
      readsem := 0
      readpos := 0
      writesem := size
      writepos := 0
      msgs := (range ((bytes - sizeofMbox) / 8)).map garbage }

/-- The interrupts-off section of `_do_mbox_post`. -/
def doMboxPost (m : Mbox M) (msg : M) : Outcome (Mbox M) :=
  if m.writepos < m.msgs.length then do
    let writepos := (m.writepos + 1) % m.len
    ukAssert (m.readpos ≠ writepos)
    .ok { m with msgs := m.msgs.set m.writepos msg, writepos }
  else .error .outOfBounds

/-- The interrupts-off section of `_do_mbox_recv`. -/
def doMboxRecv (m : Mbox M) : Outcome (M × Mbox M) := do
  ukAssert (m.readpos ≠ m.writepos)
  match m.msgs[m.readpos]? with
  | some ret => .ok (ret, { m with readpos := (m.readpos + 1) % m.len })
  | none => .error .outOfBounds

/-! ### Calls in progress -/

/-- A call in progress, by the steps it has made. -/
inductive MboxOp (M : Type)
  /-- `uk_mbox_post`: has a token of `writesem`. -/
  | post (msg : M)
  /-- `uk_mbox_post`: has stored its message. -/
  | posted
  /-- `uk_mbox_recv`: has a token of `readsem`. -/
  | recv
  /-- `uk_mbox_recv`: has read its message. -/
  | received (msg : M)

structure MboxSys (M : Type) where
  box : Mbox M
  ops : List (MboxOp M)
  /-- The messages in the order of their slot writes. -/
  written : List M
  /-- The messages in the order of their slot reads. -/
  received : List M

inductive MboxEvent (M : Type)
  | post (msg : M)
  | postTry (msg : M)
  | recv
  | recvTry
  /-- The `i`-th call in progress makes its next step. -/
  | run (i : Nat)

inductive MboxRet (M : Type)
  /-- The call still waits in `uk_semaphore_down`. -/
  | waiting
  | running
  | error (err : Errno)
  | done (msg : Option M)

/-- Start a call that needs a token of `writesem`; `failed` is what becomes of it
when there is none. -/
def startPost (s : MboxSys M) (msg : M) (failed : MboxRet M) : MboxRet M × MboxSys M :=
  match takeToken s.box.writesem with
  | some writesem =>
    (.running, { s with box := { s.box with writesem }, ops := s.ops ++ [.post msg] })
  | none => (failed, s)

/-- Start a call that needs a token of `readsem`. -/
def startRecv (s : MboxSys M) (failed : MboxRet M) : MboxRet M × MboxSys M :=
  match takeToken s.box.readsem with
  | some readsem => (.running, { s with box := { s.box with readsem }, ops := s.ops ++ [.recv] })
  | none => (failed, s)

/-- The calls in progress with the `i`-th one replaced. -/
def replaceOp (ops : List (MboxOp M)) (i : Nat) (next : List (MboxOp M)) : List (MboxOp M) :=
  ops.take i ++ next ++ ops.drop (i + 1)

/-- The next step of the `i`-th call in progress. -/
def runOp (s : MboxSys M) (i : Nat) : Outcome (MboxRet M × MboxSys M) :=
  match s.ops[i]? with
  | none => .ok (.running, s)
  | some (.post msg) => do
      let box ← doMboxPost s.box msg
      .ok (.running, { s with
        box, ops := replaceOp s.ops i [.posted], written := s.written ++ [msg] })
  | some .posted => do
      let readsem ← giveToken s.box.readsem
      .ok (.done none, { s with box := { s.box with readsem }, ops := replaceOp s.ops i [] })
  | some .recv => do
      let (msg, box) ← doMboxRecv s.box
      .ok (.running, { s with
        box, ops := replaceOp s.ops i [.received msg], received := s.received ++ [msg] })
  | some (.received msg) => do
      let writesem ← giveToken s.box.writesem
      .ok (.done (some msg), { s with
        box := { s.box with writesem }, ops := replaceOp s.ops i [] })

def mboxStep (s : MboxSys M) : MboxEvent M → Outcome (MboxRet M × MboxSys M)
  | .post msg => .ok (startPost s msg .waiting)
  | .postTry msg => .ok (startPost s msg (.error .enobufs))
  | .recv => .ok (startRecv s .waiting)
  | .recvTry => .ok (startRecv s (.error .enomsg))
  | .run i => runOp s i

/-! ### The invariant

Every stored message has one token: in `readsem`, with the poster that has just
stored it, or with the receiver that is about to read it. The other calls in
progress have the token of a free slot. -/

def MboxOp.holdsMsg : MboxOp M → Bool
  | .posted | .recv => true
  | .post _ | .received _ => false

@[simp] theorem MboxOp.holdsMsg_post (msg : M) : (post msg).holdsMsg = false := rfl
@[simp] theorem MboxOp.holdsMsg_posted : (posted : MboxOp M).holdsMsg = true := rfl
@[simp] theorem MboxOp.holdsMsg_recv : (recv : MboxOp M).holdsMsg = true := rfl
@[simp] theorem MboxOp.holdsMsg_received (msg : M) : (received msg).holdsMsg = false := rfl

/-- The mailbox with the stored messages `q`. -/
structure MboxSys.Inv (size : Nat) (q : List M) (s : MboxSys M) : Prop where
  size_lt : size < 2 ^ 61
  len : s.box.len = size + 1
  slots : s.box.msgs.length = size + 1
  readpos_lt : s.box.readpos < size + 1
  writepos : s.box.writepos = (s.box.readpos + q.length) % (size + 1)
  holds : Holds s.box.msgs s.box.readpos q
  logs : s.written = s.received ++ q
  readsem : 0 ≤ s.box.readsem
  writesem : 0 ≤ s.box.writesem
  messages : s.box.readsem + s.ops.countP MboxOp.holdsMsg = q.length
  free : s.box.writesem + s.ops.countP (!·.holdsMsg) + q.length = size

variable {s s' : MboxSys M} {size i : Nat} {q : List M} {op : MboxOp M}

theorem ukMboxCreate_eq (garbage : Nat → M) (hfit : sizeofMbox + 8 * (size + 1) < 2 ^ 64) :
    ukMboxCreate garbage size = .ok {
      len := size + 1
      readsem := 0
      readpos := 0
      writesem := size
      writepos := 0
      msgs := (range (size + 1)).map garbage } := by
  simp only [sizeofMbox] at hfit
  have hbytes : addU64 sizeofMbox (8 * (size + 1) % 2 ^ 64) = 72 + 8 * (size + 1) := by
    rw [Nat.mod_eq_of_lt (by omega)]
    exact addU64_eq hfit
  have hslots : (72 + 8 * (size + 1) - sizeofMbox) / 8 = size + 1 := by
    simp only [sizeofMbox]
    omega
  simp only [ukMboxCreate, ukAssert_pos (show size < 2 ^ 63 by omega), ok_bind, hbytes, hslots]
  exact if_neg (by simp only [sizeofMbox]; omega)

theorem split_ops (hi : s.ops[i]? = some op) :
    s.ops = s.ops.take i ++ op :: s.ops.drop (i + 1) := by
  obtain ⟨hlt, hop⟩ := List.getElem?_eq_some_iff.mp hi
  rw [← hop, ← List.drop_eq_getElem_cons hlt, List.take_append_drop]

theorem countP_replaceOp (p : MboxOp M → Bool) (hi : s.ops[i]? = some op) (next : List (MboxOp M)) :
    (replaceOp s.ops i next).countP p + (if p op then 1 else 0) =
      s.ops.countP p + next.countP p := by
  conv_rhs => rw [split_ops hi]
  simp only [replaceOp, countP_append, countP_cons]
  omega

section

variable (h : s.Inv size q)

include h

theorem MboxSys.Inv.startPost {msg : M} {failed : MboxRet M} :
    (Ukmpi.startPost s msg failed).2.Inv size q := by
  unfold Ukmpi.startPost
  cases htake : takeToken s.box.writesem with
  | none => exact h
  | some writesem =>
    obtain ⟨hpos, rfl⟩ := takeToken_eq_some.mp htake
    have hm := h.messages
    have hf := h.free
    refine { h with writesem := ?_, messages := ?_, free := ?_ } <;> simp <;> omega

theorem MboxSys.Inv.startRecv {failed : MboxRet M} : (Ukmpi.startRecv s failed).2.Inv size q := by
  unfold Ukmpi.startRecv
  cases htake : takeToken s.box.readsem with
  | none => exact h
  | some readsem =>
    obtain ⟨hpos, rfl⟩ := takeToken_eq_some.mp htake
    have hm := h.messages
    have hf := h.free
    refine { h with readsem := ?_, messages := ?_, free := ?_ } <;> simp <;> omega

/-- A poster with the token of a free slot stores its message behind the others. -/
theorem MboxSys.Inv.post {msg : M} (hi : s.ops[i]? = some (.post msg)) :
    ∃ box, doMboxPost s.box msg = .ok box ∧ MboxSys.Inv size (q ++ [msg]) { s with
      box, ops := replaceOp s.ops i [.posted], written := s.written ++ [msg] } := by
  have hm := h.messages
  have hf := h.free
  have hwrite := h.writesem
  have hrp := h.readpos_lt
  have hmsgs := countP_replaceOp MboxOp.holdsMsg hi [.posted]
  have hfree := countP_replaceOp (!·.holdsMsg) hi [.posted]
  simp at hmsgs hfree
  -- the poster's token: the ring is not full
  have hq : q.length + 1 < size + 1 := by omega
  have hslot : s.box.writepos < s.box.msgs.length := by
    rw [h.slots, h.writepos]
    exact Nat.mod_lt _ (by omega)
  have hnext : (s.box.writepos + 1) % s.box.len =
      (s.box.readpos + (q.length + 1)) % (size + 1) := by
    rw [h.len, h.writepos, Nat.mod_add_mod, Nat.add_assoc]
  have hne : s.box.readpos ≠ (s.box.writepos + 1) % s.box.len := by
    rw [hnext, add_mod_slot hq, Nat.mod_eq_of_lt hrp]
    split <;> omega
  have hpost : doMboxPost s.box msg = .ok { s.box with
      msgs := s.box.msgs.set s.box.writepos msg,
      writepos := (s.box.writepos + 1) % s.box.len } := by
    simp only [doMboxPost, if_pos hslot, ukAssert_pos hne, ok_bind]
  refine ⟨_, hpost, { h with
    slots := ?_, writepos := ?_, holds := ?_, logs := ?_, messages := ?_, free := ?_ }⟩
  · simpa using h.slots
  · simpa using hnext
  · have hpush := h.holds.push (x := msg) (by rw [h.slots]; omega)
    rwa [h.slots, ← h.writepos] at hpush
  · simp [h.logs]
  · simp
    omega
  simp
  omega

/-- A receiver with the token of a message reads the oldest one. -/
theorem MboxSys.Inv.recv (hi : s.ops[i]? = some .recv) :
    ∃ msg rest box, q = msg :: rest ∧ doMboxRecv s.box = .ok (msg, box) ∧
      MboxSys.Inv size rest { s with
        box, ops := replaceOp s.ops i [.received msg], received := s.received ++ [msg] } := by
  have hm := h.messages
  have hf := h.free
  have hread := h.readsem
  have hwrite := h.writesem
  have hrp := h.readpos_lt
  have hpos := countP_replaceOp MboxOp.holdsMsg hi []
  simp at hpos
  obtain ⟨msg, rest, rfl⟩ := exists_cons_of_length_pos (l := q) (by omega)
  have hmsgs := countP_replaceOp MboxOp.holdsMsg hi [.received msg]
  have hfree := countP_replaceOp (!·.holdsMsg) hi [.received msg]
  simp at hmsgs hfree
  rw [length_cons] at hm hf
  have hne : s.box.readpos ≠ s.box.writepos := by
    rw [h.writepos, length_cons, add_mod_slot (by omega), Nat.mod_eq_of_lt hrp]
    split <;> omega
  have hhead : s.box.msgs[s.box.readpos]? = some msg := by
    have := h.holds.head
    rwa [h.slots, Nat.mod_eq_of_lt hrp] at this
  have hrecv : doMboxRecv s.box =
      .ok (msg, { s.box with readpos := (s.box.readpos + 1) % s.box.len }) := by
    simp only [doMboxRecv, ukAssert_pos hne, ok_bind, hhead]
  refine ⟨msg, rest, _, rfl, hrecv, { h with
    readpos_lt := ?_, writepos := ?_, holds := ?_, logs := ?_, messages := ?_, free := ?_ }⟩
  · rw [h.len]
    exact Nat.mod_lt _ (by omega)
  · rw [h.len, h.writepos, length_cons, Nat.mod_add_mod]
    congr 1
    omega
  · refine h.holds.tail.congr_mod ?_
    rw [h.len, h.slots, Nat.mod_mod]
  · simp [h.logs]
  · simp only
    omega
  simp only
  omega

/-- **Step lemma** for a call in progress: it does not fault. -/
theorem runOp_ok (i : Nat) : ∃ r s' q', runOp s i = .ok (r, s') ∧ s'.Inv size q' := by
  have hsize := h.size_lt
  have hm := h.messages
  have hf := h.free
  have hread := h.readsem
  have hwrite := h.writesem
  unfold runOp
  cases hi : s.ops[i]? with
  | none => exact ⟨_, s, q, rfl, h⟩
  | some op =>
    have hmsgs := countP_replaceOp MboxOp.holdsMsg hi []
    have hfree := countP_replaceOp (!·.holdsMsg) hi []
    cases op with
    | post msg =>
      obtain ⟨box, hbox, hinv⟩ := h.post hi
      simp only [hbox, ok_bind]
      exact ⟨_, _, _, rfl, hinv⟩
    | recv =>
      obtain ⟨msg, rest, box, -, hbox, hinv⟩ := h.recv hi
      simp only [hbox, ok_bind]
      exact ⟨_, _, _, rfl, hinv⟩
    | posted =>
      simp at hmsgs hfree
      have hgive : giveToken s.box.readsem = .ok (s.box.readsem + 1) :=
        giveToken_eq_ok.mpr ⟨by omega, rfl⟩
      simp only [hgive, ok_bind]
      refine ⟨_, _, q, rfl, { h with readsem := ?_, messages := ?_, free := ?_ }⟩ <;>
        simp only <;> omega
    | received msg =>
      simp at hmsgs hfree
      have hgive : giveToken s.box.writesem = .ok (s.box.writesem + 1) :=
        giveToken_eq_ok.mpr ⟨by omega, rfl⟩
      simp only [hgive, ok_bind]
      refine ⟨_, _, q, rfl, { h with writesem := ?_, messages := ?_, free := ?_ }⟩ <;>
        simp only <;> omega

theorem mboxStep_ok (e : MboxEvent M) : ∃ r s' q', mboxStep s e = .ok (r, s') ∧ s'.Inv size q' := by
  cases e with
  | post msg | postTry msg => exact ⟨_, _, q, rfl, h.startPost⟩
  | recv | recvTry => exact ⟨_, _, q, rfl, h.startRecv⟩
  | run i => exact runOp_ok h i

end

/-- The calls of a new mailbox, before any of them has started. -/
def MboxSys.init (box : Mbox M) : MboxSys M := ⟨box, [], [], []⟩

theorem MboxSys.Inv.of_reachable {box : Mbox M} {garbage : Nat → M}
    (hfit : sizeofMbox + 8 * (size + 1) < 2 ^ 64) (hbox : ukMboxCreate garbage size = .ok box)
    (h : Reachable mboxStep (fun _ _ => True) (MboxSys.init box) s) : ∃ q, s.Inv size q := by
  refine h.invariant (I := fun s => ∃ q, s.Inv size q) ⟨[], ?_⟩ ?_
  · rw [ukMboxCreate_eq garbage hfit] at hbox
    cases hbox
    simp only [sizeofMbox] at hfit
    constructor <;> simp [MboxSys.init, Holds.nil]
    omega
  rintro s e r s' ⟨q, hinv⟩ - hstep
  obtain ⟨r', t, q', ht, hinv'⟩ := mboxStep_ok hinv e
  rw [hstep] at ht
  cases ht
  exact ⟨q', hinv'⟩

/-- **Mailbox delivery.** If the slots fit into the address space, in every interleaving the
messages are received in the order of their slot writes, each at most once; at most `size` messages
are stored, each still in its slot; the tokens of the semaphores and the calls in progress make up
`size`; and no step fails an assertion or leaves the array. -/
theorem mbox_delivery (garbage : Nat → M) (size : Nat)
    (hfit : sizeofMbox + 8 * (size + 1) < 2 ^ 64) :
    ∃ box, ukMboxCreate garbage size = .ok box ∧
      ∀ s, Reachable mboxStep (fun _ _ => True) (MboxSys.init box) s →
        (∃ stored, s.written = s.received ++ stored ∧ stored.length ≤ size ∧
          ∀ j < stored.length, s.box.msgs[(s.box.readpos + j) % s.box.len]? = stored[j]?) ∧
        s.box.writesem + s.box.readsem + s.ops.length = size ∧
        ∀ e, ∃ r s', mboxStep s e = .ok (r, s') := by
  refine ⟨_, ukMboxCreate_eq garbage hfit, fun s h => ?_⟩
  obtain ⟨q, hinv⟩ := MboxSys.Inv.of_reachable hfit (ukMboxCreate_eq garbage hfit) h
  have hm := hinv.messages
  have hf := hinv.free
  have hwrite := hinv.writesem
  refine ⟨⟨q, hinv.logs, by omega, fun j hj => ?_⟩, ?_, fun e => ?_⟩
  · rw [hinv.len, ← hinv.slots]
    exact hinv.holds j hj
  · have hlen := length_eq_countP_add_countP MboxOp.holdsMsg (l := s.ops)
    simp only [Bool.not_eq_true, Bool.decide_eq_false] at hlen
    omega
  obtain ⟨r, s', -, hs, -⟩ := mboxStep_ok hinv e
  exact ⟨r, s', hs⟩

theorem mbox_delivery_one_slot :
    ∃ box : Mbox Nat, ukMboxCreate (fun _ => 0) 1 = .ok box ∧
      ∀ s, Reachable mboxStep (fun _ _ => True) (MboxSys.init box) s →
        s.box.writesem + s.box.readsem + s.ops.length = 1 := by
  obtain ⟨box, hbox, h⟩ := mbox_delivery (fun _ => 0) 1 (by decide)
  exact ⟨box, hbox, fun s hs => (h s hs).2.1⟩

/-- For `2 ^ 61 - 1` messages the size of the block wraps around to the size of the
struct alone: the first message is stored outside of it. -/
theorem mbox_create_too_small :
    ∃ box : Mbox Nat, ukMboxCreate (fun _ => 0) (2 ^ 61 - 1) = .ok box ∧
      ∃ s, Reachable mboxStep (fun _ _ => True) (MboxSys.init box) s ∧
        ∃ e, mboxStep s e = .error .outOfBounds := by
  let box : Mbox Nat := ⟨2 ^ 61, 0, 0, 2 ^ 61 - 1, 0, []⟩
  have hpost : mboxStep (.init box) (.post 7) =
      .ok (.running, ⟨{ box with writesem := 2 ^ 61 - 2 }, [.post 7], [], []⟩) := rfl
  exact ⟨box, rfl, _, Reachable.refl.tail trivial hpost, .run 0, rfl⟩

end Unikraft.Ukmpi
