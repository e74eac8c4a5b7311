import Mathlib.Data.Finset.Card
import Unikraft.Lib.PartialMap

/-!
# Open addressing with short chains

A table holds each key in one of the `chain` slots from its home on. A search looks at all of them,
so a key is taken out by emptying its slot. A new key can be put in whatever the order of the
others, if fewer than `chain` of them compete for its slots (`Spread`).
-/

namespace Unikraft.Lib

open Function

/-! ### Slots in a row -/

/-- `n` slots from `start` on, around the end of the table. -/
def probe (size : Nat) : Nat → Nat → List Nat
  | 0, _ => []
  | n + 1, start => start :: probe size n ((start + 1) % size)

section

variable {size n start i : Nat}

theorem mem_probe (hstart : start < size) :
    i ∈ probe size n start ↔ ∃ d, d < n ∧ i = (start + d) % size := by
  induction n generalizing start with
  | zero => simp [probe]
  | succ n ih =>
    rw [probe, List.mem_cons, ih (Nat.mod_lt _ (by omega))]
    constructor
    · intro h
      rcases h with rfl | ⟨d, hd, rfl⟩
      · exact ⟨0, Nat.succ_pos n, (Nat.mod_eq_of_lt hstart).symm⟩
      refine ⟨d + 1, by omega, ?_⟩
      rw [Nat.mod_add_mod]
      congr 1
      omega
    intro h
    obtain ⟨d, hd, rfl⟩ := h
    cases d with
    | zero => exact .inl (Nat.mod_eq_of_lt hstart)
    | succ d =>
      refine .inr ⟨d, by omega, ?_⟩
      rw [Nat.mod_add_mod]
      congr 1
      omega

theorem probe_lt (hstart : start < size) (hi : i ∈ probe size n start) : i < size := by
  obtain ⟨d, -, rfl⟩ := (mem_probe hstart).mp hi
  exact Nat.mod_lt _ (by omega)

@[simp] theorem probe_length : (probe size n start).length = n := by
  induction n generalizing start with
  | zero => rfl
  | succ n ih => rw [probe, List.length_cons, ih]

theorem probe_nodup (hstart : start < size) (hn : n ≤ size) : (probe size n start).Nodup := by
  induction n generalizing start with
  | zero => exact List.nodup_nil
  | succ n ih =>
    have hnext : (start + 1) % size < size := Nat.mod_lt _ (by omega)
    refine List.nodup_cons.mpr ⟨?_, ih hnext (by omega)⟩
    intro hmem
    obtain ⟨d, hd, heq⟩ := (mem_probe hnext).mp hmem
    rw [Nat.mod_add_mod] at heq
    rcases Nat.lt_or_ge (start + 1 + d) size with hlt | hge
    · rw [Nat.mod_eq_of_lt hlt] at heq
      omega
    rw [Nat.mod_eq_sub_mod hge, Nat.mod_eq_of_lt (by omega)] at heq
    omega

end

/-! ### Tables -/

variable {K V : Type*}

/-- Every key is in one of its slots, and in one slot only. -/
structure ProbeTable (home : K → Nat) (size chain : Nat) (data : Nat → Option (K × V)) :
    Prop where
  near : ∀ i e, i < size → data i = some e → i ∈ probe size chain (home e.1)
  unique : ∀ i j e e', i < size → j < size → data i = some e → data j = some e' → e.1 = e'.1 → i = j

def entries (size : Nat) (data : Nat → Option (K × V)) : Set (K × V) :=
  {e | ∃ i, i < size ∧ data i = some e}

def holdsKey [DecidableEq K] (data : Nat → Option (K × V)) (k : K) (i : Nat) : Bool :=
  (data i).any fun e => e.1 = k

section

variable {home : K → Nat} {size chain i : Nat} {data : Nat → Option (K × V)} {k : K} {v : V}

theorem mem_entries {e : K × V} :
    e ∈ entries size data ↔ ∃ i, i < size ∧ data i = some e := Iff.rfl

theorem entries_empty : entries size (fun _ => (none : Option (K × V))) = ∅ := by
  ext e
  simp [entries]

theorem ProbeTable.empty : ProbeTable home size chain (fun _ => (none : Option (K × V))) :=
  ⟨fun _ _ _ h => absurd h (by simp), fun _ _ _ _ _ _ h => absurd h (by simp)⟩

/-- Putting a new key into a free slot. -/
theorem ProbeTable.insert (h : ProbeTable home size chain data)
    (hnear : i ∈ probe size chain (home k)) (hnew : ∀ w, (k, w) ∉ entries size data) :
    ProbeTable home size chain (update data i (some (k, v))) := by
  constructor
  · intro j e hj he
    rcases update_some he with ⟨rfl, rfl⟩ | ⟨-, he⟩
    · exact hnear
    · exact h.near j e hj he
  intro j l e e' hj hl he he' hkey
  -- an entry of the old table does not have the new key
  have hold : ∀ l e, l < size → data l = some e → e.1 ≠ k := by
    intro l e hl he hk
    refine hnew e.2 ⟨l, hl, ?_⟩
    rw [he, ← hk]
  rcases update_some he with ⟨rfl, rfl⟩ | ⟨-, hd⟩ <;>
    rcases update_some he' with ⟨rfl, rfl⟩ | ⟨-, hd'⟩
  · rfl
  · exact absurd hkey.symm (hold l e' hl hd')
  · exact absurd hkey (hold j e hj hd)
  · exact h.unique j l e e' hj hl hd hd' hkey

theorem entries_insert (hi : i < size) (hfree : data i = none) :
    entries size (update data i (some (k, v))) = insert (k, v) (entries size data) := by
  ext e
  rw [Set.mem_insert_iff, mem_entries, mem_entries]
  constructor
  · intro ⟨j, hj, he⟩
    exact (update_some he).imp And.right fun he => ⟨j, hj, he.2⟩
  intro h
  rcases h with rfl | ⟨j, hj, he⟩
  · exact ⟨i, hi, update_self ..⟩
  refine ⟨j, hj, ?_⟩
  rw [update_of_ne (fun hji => by rw [hji, hfree] at he; cases he), he]

theorem ProbeTable.erase (h : ProbeTable home size chain data) (i : Nat) :
    ProbeTable home size chain (update data i none) := by
  constructor
  · intro j e hj he
    exact h.near j e hj (update_none he).2
  intro j l e e' hj hl he he' hkey
  exact h.unique j l e e' hj hl (update_none he).2 (update_none he').2 hkey

theorem mem_entries_erase (h : ProbeTable home size chain data) (hi : i < size) {e e' : K × V}
    (hdata : data i = some e) :
    e' ∈ entries size (update data i none) ↔ e' ∈ entries size data ∧ e'.1 ≠ e.1 := by
  rw [mem_entries, mem_entries]
  constructor
  · intro ⟨j, hj, he⟩
    obtain ⟨hji, he⟩ := update_none he
    exact ⟨⟨j, hj, he⟩, fun hkey => hji (h.unique j i e' e hj hi he hdata hkey)⟩
  intro ⟨⟨j, hj, he⟩, hkey⟩
  refine ⟨j, hj, ?_⟩
  rw [update_of_ne (fun hji => hkey ?_), he]
  rw [hji, hdata] at he
  rw [Option.some.inj he]

/-! ### Searching -/

variable [DecidableEq K]

theorem holdsKey_iff : holdsKey data k i = true ↔ ∃ v, data i = some (k, v) := by
  unfold holdsKey
  cases data i with
  | none => simp
  | some e =>
    constructor
    · intro h
      have hk : e.1 = k := of_decide_eq_true h
      exact ⟨e.2, by rw [← hk]⟩
    intro ⟨v, hv⟩
    cases hv
    exact decide_eq_true rfl

theorem mem_entries_of_find (hhome : home k < size)
    (hfind : (probe size chain (home k)).find? (holdsKey data k) = some i) :
    i < size ∧ ∃ v, data i = some (k, v) :=
  ⟨probe_lt hhome (List.mem_of_find?_eq_some hfind), holdsKey_iff.mp (List.find?_some hfind)⟩

theorem ProbeTable.notMem_of_find (h : ProbeTable home size chain data)
    (hfind : (probe size chain (home k)).find? (holdsKey data k) = none) (v : V) :
    (k, v) ∉ entries size data := by
  intro ⟨j, hj, hdata⟩
  exact List.find?_eq_none.mp hfind j (h.near j _ hj hdata) (holdsKey_iff.mpr ⟨v, hdata⟩)

/-! ### Room for a key -/

/-- Fewer than `chain` other keys of `S` have a slot in common with a key of `S`. -/
def Spread (home : K → Nat) (size chain : Nat) (S : Finset K) : Prop :=
  ∀ k ∈ S, ((S.erase k).filter fun k' =>
    ∃ i ∈ probe size chain (home k), i ∈ probe size chain (home k')).card < chain
  deriving Decidable

/-- There is room for one more key that is spread: the keys in its slots have a slot in common with
it. -/
theorem ProbeTable.exists_free (h : ProbeTable home size chain data) (hhome : home k < size)
    (hchain : chain ≤ size) {S : Finset K} (hS : Spread home size chain S) (hk : k ∈ S)
    (hkeys : ∀ e ∈ entries size data, e.1 ∈ S ∧ e.1 ≠ k) :
    ∃ i ∈ probe size chain (home k), data i = none := by
  by_contra hfull
  have hsome : ∀ i ∈ probe size chain (home k), ∃ k' v, data i = some (k', v) := by
    intro i hi
    cases hdata : data i with
    | none => exact absurd ⟨i, hi, hdata⟩ hfull
    | some e => exact ⟨e.1, e.2, rfl⟩
  have : Nonempty K := ⟨k⟩
  choose! key hkey using hsome
  have hlt : ∀ i ∈ probe size chain (home k), i < size := fun i hi => probe_lt hhome hi
  have hmaps : ∀ i ∈ (probe size chain (home k)).toFinset, key i ∈ (S.erase k).filter fun k' =>
      ∃ i ∈ probe size chain (home k), i ∈ probe size chain (home k') := by
    intro i hi
    have hi : i ∈ probe size chain (home k) := List.mem_toFinset.mp hi
    obtain ⟨v, hv⟩ := hkey i hi
    obtain ⟨hmem, hne⟩ := hkeys (key i, v) ⟨i, hlt i hi, hv⟩
    exact Finset.mem_filter.mpr ⟨Finset.mem_erase.mpr ⟨hne, hmem⟩, i, hi, h.near i _ (hlt i hi) hv⟩
  have hinj : Set.InjOn key (probe size chain (home k)).toFinset := by
    intro i hi j hj hij
    have hi : i ∈ probe size chain (home k) := List.mem_toFinset.mp hi
    have hj : j ∈ probe size chain (home k) := List.mem_toFinset.mp hj
    obtain ⟨v, hv⟩ := hkey i hi
    obtain ⟨w, hw⟩ := hkey j hj
    exact h.unique i j _ _ (hlt i hi) (hlt j hj) hv hw hij
  have hcard := Finset.card_le_card_of_injOn key hmaps hinj
  rw [List.toFinset_card_of_nodup (probe_nodup hhome hchain), probe_length] at hcard
  exact absurd (hS k hk) (Nat.not_lt.mpr hcard)

end

end Unikraft.Lib
