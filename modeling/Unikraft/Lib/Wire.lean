import Mathlib.Data.List.Infix
import Mathlib.Tactic.Ring

/-!
# Wire formats over a bounded buffer

A cursor is a buffer, the part of it that may be used and the position of the next access. `Writes`
says that a writer puts the given bytes at the cursor if there is room, `Reads` that a reader
returns a value exactly if its bytes come next; otherwise they refuse. Both are closed under
sequencing, so that the format of a record follows from its fields.
-/

namespace Unikraft.Lib

open List

/-! ### Little-endian numbers -/

/-- The `n` low bytes of `v`, the lowest one first. -/
def leBytes : Nat → Nat → List UInt8
  | 0, _ => []
  | n + 1, v => UInt8.ofNat v :: leBytes n (v / 256)

/-- The number whose bytes are `bs`. -/
def leNat : List UInt8 → Nat
  | [] => 0
  | b :: bs => b.toNat + 256 * leNat bs

@[simp] theorem length_leBytes (n v : Nat) : (leBytes n v).length = n := by
  induction n generalizing v with
  | zero => rfl
  | succ n ih => rw [leBytes, length_cons, ih]

theorem leNat_leBytes {n v : Nat} (h : v < 256 ^ n) : leNat (leBytes n v) = v := by
  induction n generalizing v with
  | zero =>
    rw [pow_zero] at h
    exact (Nat.lt_one_iff.mp h).symm
  | succ n ih =>
    have hv : v / 256 < 256 ^ n := by
      rw [Nat.div_lt_iff_lt_mul (by norm_num), ← pow_succ]
      exact h
    rw [leBytes, leNat, ih hv, UInt8.toNat_ofNat', Nat.mod_add_div]

theorem leBytes_leNat (bs : List UInt8) : leBytes bs.length (leNat bs) = bs := by
  induction bs with
  | nil => rfl
  | cons b bs ih =>
    have hb := b.toNat_lt
    have hlow : UInt8.ofNat (b.toNat + 256 * leNat bs) = b := by
      apply UInt8.toNat_inj.mp
      rw [UInt8.toNat_ofNat']
      omega
    have hhigh : (b.toNat + 256 * leNat bs) / 256 = leNat bs := by omega
    rw [leNat, length_cons, leBytes, hlow, hhigh, ih]

theorem leNat_lt (bs : List UInt8) : leNat bs < 256 ^ bs.length := by
  induction bs with
  | nil => exact Nat.one_pos
  | cons b bs ih =>
    have hb := b.toNat_lt
    rw [leNat, length_cons, pow_succ]
    omega

/-! ### Cursors -/

/-- A buffer, the part of it in use and the position of the next access. -/
structure Cursor where
  buf : List UInt8
  size : Nat
  offset : Nat
  deriving Repr, DecidableEq

namespace Cursor

/-- The bytes from the position to the end of the part in use. -/
def rest (c : Cursor) : List UInt8 := (c.buf.take c.size).drop c.offset

/-- Skip `n` bytes. -/
def advance (c : Cursor) (n : Nat) : Cursor := { c with offset := c.offset + n }

/-- Overwrite the bytes at the position and skip them. -/
def put (c : Cursor) (bytes : List UInt8) : Cursor :=
  { c with
    buf := c.buf.take c.offset ++ bytes ++ c.buf.drop (c.offset + bytes.length)
    offset := c.offset + bytes.length }

theorem advance_advance (c : Cursor) (n k : Nat) : (c.advance n).advance k = c.advance (n + k) := by
  rw [advance, advance, advance, Nat.add_assoc]

theorem rest_advance (c : Cursor) (n : Nat) : (c.advance n).rest = c.rest.drop n := by
  rw [rest, rest, advance, drop_drop]

theorem length_rest_le (c : Cursor) : c.rest.length ≤ c.size - c.offset := by
  rw [rest, length_drop]
  exact Nat.sub_le_sub_right (length_take_le _ _) _

variable {c : Cursor} {b : List UInt8}

theorem offset_add_le {bytes : List UInt8} (h : bytes <+: c.rest)
    (hne : bytes ≠ []) : c.offset + bytes.length ≤ c.size := by
  have hlen := h.length_le.trans c.length_rest_le
  have hpos := length_pos_iff.mpr hne
  omega

variable {b' : List UInt8}

theorem append_next_iff : b ++ b' <+: c.rest ↔ b <+: c.rest ∧ b' <+: (c.advance b.length).rest := by
  rw [rest_advance]
  constructor
  · rintro ⟨tail, heq⟩
    rw [← heq, append_assoc, drop_left]
    exact ⟨prefix_append _ _, prefix_append _ _⟩
  rintro ⟨⟨tail, heq⟩, h⟩
  rw [← heq, drop_left] at h
  rw [← heq]
  exact (prefix_append_right_inj _).mpr h

theorem put_nil (c : Cursor) : c.put [] = c := by
  rw [put, append_nil, length_nil, Nat.add_zero, take_append_drop]

theorem put_put (h : c.offset ≤ c.buf.length) : (c.put b).put b' = c.put (b ++ b') := by
  have hlen : (c.buf.take c.offset ++ b).length = c.offset + b.length := by
    rw [length_append, length_take_of_le h]
  simp only [put, length_append]
  rw [take_left' hlen, ← Nat.add_assoc, Nat.add_comm _ b'.length,
    Nat.add_comm b'.length, ← drop_drop, drop_left' hlen, drop_drop]
  simp only [append_assoc]

theorem length_put (h : c.offset + b.length ≤ c.buf.length) :
    (c.put b).buf.length = c.buf.length := by
  simp only [put, length_append, length_take, length_drop]
  omega

theorem drop_put {n : Nat} (hn : c.offset + b.length ≤ n)
    (hbuf : n ≤ c.buf.length) : (c.put b).buf.drop n = c.buf.drop n := by
  have hlen : (c.buf.take c.offset ++ b).length = c.offset + b.length := by
    rw [length_append, length_take_of_le (by omega)]
  obtain ⟨k, rfl⟩ := Nat.exists_eq_add_of_le hn
  rw [put, ← drop_drop, drop_left' hlen, drop_drop]

theorem window_put (h : c.offset ≤ c.buf.length) :
    ((c.put b).buf.drop c.offset).take b.length = b := by
  rw [put, append_assoc, drop_left' (length_take_of_le h), take_left' rfl]

end Cursor

/-! ### Writers and readers -/

/-- A computation over a cursor: it can refuse with an error of type `ε`, and fail for
good with a fault of type `φ`. -/
abbrev CursorM (φ ε : Type) := ExceptT ε (StateT Cursor (Except φ))

section

variable {φ ε α β : Type} {c c' : Cursor}

variable {k : α → CursorM φ ε β} {m : CursorM φ ε α}

theorem CursorM.bind_ok {v : α} (h : m c = .ok (.ok v, c')) : (m >>= k) c = k v c' := by
  show (m c >>= fun r => ExceptT.bindCont k r.1 r.2) = _
  rw [h]
  rfl

theorem CursorM.bind_error {e : ε}
    (h : m c = .ok (.error e, c')) : (m >>= k) c = .ok (.error e, c') := by
  show (m c >>= fun r => ExceptT.bindCont k r.1 r.2) = _
  rw [h]
  rfl

theorem CursorM.bind_fault {fault : φ} (h : m c = .error fault) :
    (m >>= k) c = .error fault := by
  show (m c >>= fun r => ExceptT.bindCont k r.1 r.2) = _
  rw [h]
  rfl

/-- The condition `I` on a cursor allows the position to be anywhere in the part in use,
and it does not depend on the bytes. -/
def Stable (I : Cursor → Prop) : Prop :=
  ∀ c c', I c → c'.buf.length = c.buf.length → c'.size = c.size → c'.offset ≤ c.size → I c'

variable (I : Cursor → Prop) (full : ε)

/-- `m` puts `bytes` at the cursor, or refuses with `full` if they do not fit; then it
has not touched what is behind the part in use. -/
def Writes (m : CursorM φ ε Unit) (bytes : List UInt8) : Prop :=
  ∀ c, I c → (c.offset + bytes.length ≤ c.size → m c = .ok (.ok (), c.put bytes)) ∧
    (c.size < c.offset + bytes.length → ∃ c', m c = .ok (.error full, c') ∧ I c' ∧
      c'.buf.length = c.buf.length ∧ c'.size = c.size ∧ c'.buf.drop c.size = c.buf.drop c.size)

/-- `m` returns the value of `S` whose bytes come next and skips them, or refuses with
`full` if there is none. -/
def Reads (m : CursorM φ ε α) (S : Set α) (wire : α → List UInt8) : Prop :=
  ∀ c, I c → (∀ v ∈ S, wire v <+: c.rest → m c = .ok (.ok v, c.advance (wire v).length)) ∧
    ((∀ v ∈ S, ¬ wire v <+: c.rest) → ∃ c', m c = .ok (.error full, c') ∧ I c' ∧
      c'.buf = c.buf ∧ c'.size = c.size)

variable {I full}

theorem Stable.put (hI : Stable I) (hbuf : ∀ c, I c → c.size ≤ c.buf.length) {b : List UInt8}
    (hc : I c) (h : c.offset + b.length ≤ c.size) : I (c.put b) :=
  hI c _ hc (Cursor.length_put (h.trans (hbuf c hc))) rfl h

theorem Stable.advance (hI : Stable I) {b : List UInt8} (hc : I c) (h : b <+: c.rest) :
    I (c.advance b.length) := by
  by_cases hne : b = []
  · subst hne
    exact hc
  · exact hI c _ hc rfl rfl (Cursor.offset_add_le h hne)

theorem Writes.seq (hI : Stable I) (hbuf : ∀ c, I c → c.size ≤ c.buf.length)
    {m m' : CursorM φ ε Unit} {b b' : List UInt8} (h : Writes I full m b)
    (h' : Writes I full m' b') : Writes I full (m >>= fun _ => m') (b ++ b') := by
  intro c hc
  have hsize := hbuf c hc
  rw [length_append, ← Nat.add_assoc]
  by_cases hfit : c.offset + b.length ≤ c.size
  · -- the first part fits; the second one starts behind it
    have hm := CursorM.bind_ok (k := fun _ => m') ((h c hc).1 hfit)
    have hrest := h' (c.put b) (hI.put hbuf hc hfit)
    rw [hm]
    constructor
    · intro hall
      rw [hrest.1 hall, Cursor.put_put (by omega)]
    intro hlarge
    obtain ⟨c', heq, hc', hlen, hsize', hdrop⟩ := hrest.2 hlarge
    refine ⟨c', heq, hc', hlen.trans (Cursor.length_put (by omega)), hsize', ?_⟩
    exact hdrop.trans (Cursor.drop_put hfit hsize)
  obtain ⟨c', heq, hkeep⟩ := (h c hc).2 (Nat.lt_of_not_le hfit)
  exact ⟨fun hall => absurd hall (by omega), fun _ => ⟨c', CursorM.bind_error heq, hkeep⟩⟩

theorem Writes.last {m : CursorM φ ε Unit} {b : List UInt8} (h : Writes I full m b) :
    Writes I full m (b ++ []) := by
  rwa [append_nil]

theorem Reads.pure (v : α) : Reads I full (pure v : CursorM φ ε α) {v} (fun _ => []) := by
  intro c hc
  constructor
  · intro w hw _
    rw [Set.mem_singleton_iff.mp hw]
    rfl
  intro h
  have hnil : [] <+: c.rest := nil_prefix
  exact absurd hnil (h v rfl)

/-- A reader of the part `p` of a value, and then of the rest of it. -/
theorem Reads.bind (hI : Stable I) {S : Set α} {T : Set β} {wire : α → List UInt8}
    {wire₁ wire₂ : β → List UInt8} {p : β → α} (h : Reads I full m S wire) (hp : ∀ w ∈ T, p w ∈ S)
    (hwire : ∀ w ∈ T, wire₁ w = wire (p w) ++ wire₂ w)
    (hk : ∀ v ∈ S, Reads I full (k v) {w | w ∈ T ∧ p w = v} wire₂) :
    Reads I full (m >>= k) T wire₁ := by
  intro c hc
  -- what comes behind the first part
  have hsplit : ∀ w ∈ T, wire₁ w <+: c.rest ↔ wire (p w) <+: c.rest ∧
      wire₂ w <+: (c.advance (wire (p w)).length).rest := by
    intro w hw
    rw [hwire w hw, Cursor.append_next_iff]
  constructor
  · intro w hw hnext
    obtain ⟨h₁, h₂⟩ := (hsplit w hw).mp hnext
    have hm := CursorM.bind_ok (k := k) ((h c hc).1 _ (hp w hw) h₁)
    rw [hm, (hk _ (hp w hw) _ (hI.advance hc h₁)).1 w ⟨hw, rfl⟩ h₂, Cursor.advance_advance,
      hwire w hw, length_append]
  intro hnone
  by_cases hfirst : ∃ v ∈ S, wire v <+: c.rest
  · obtain ⟨v, hv, h₁⟩ := hfirst
    rw [CursorM.bind_ok (k := k) ((h c hc).1 v hv h₁)]
    refine (hk v hv _ (hI.advance hc h₁)).2 ?_
    rintro w ⟨hw, rfl⟩ h₂
    exact hnone w hw ((hsplit w hw).mpr ⟨h₁, h₂⟩)
  simp only [not_exists, not_and] at hfirst
  obtain ⟨c', heq, hkeep⟩ := (h c hc).2 hfirst
  exact ⟨c', CursorM.bind_error heq, hkeep⟩

end

end Unikraft.Lib
