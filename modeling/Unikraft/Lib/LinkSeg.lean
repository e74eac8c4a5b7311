import Mathlib.Data.List.Nodup

/-!
# Unikraft.Lib.LinkSeg

**Intrusive lists with a pointer back to the slot**: the `next` field of the previous node, or the
head of the list. `Seg m s xs` says that the nodes `xs` are linked in this order from slot `s` on,
and `endSlot s xs` is the slot behind them. A segment depends on its own slots and nodes only
(`Seg.congr`).
-/

namespace Unikraft.Lib

open Function List

/-- A place that holds a pointer to a node. -/
inductive Slot (H N : Type)
  /-- The head of the list `h`. -/
  | head (h : H)
  /-- The `next` field of the node `n`. -/
  | next (n : N)
  deriving DecidableEq

/-- The pointers of a family of lists. -/
structure Links (H N : Type) where
  cell : Slot H N → Option N
  prev : N → Slot H N

variable {H N : Type}

namespace Links

section

variable [DecidableEq H] [DecidableEq N] {m : Links H N} {t u : Slot H N} {v : Option N}

/-- Store `v` in the slot `t`. -/
def setCell (m : Links H N) (t : Slot H N) (v : Option N) : Links H N :=
  { m with cell := update m.cell t v }

@[simp] theorem setCell_prev : (m.setCell t v).prev = m.prev := rfl

@[simp] theorem setCell_cell_self : (m.setCell t v).cell t = v := update_self _ _ _

theorem setCell_cell_of_ne (h : u ≠ t) : (m.setCell t v).cell u = m.cell u :=
  update_of_ne h _ _

end

variable [DecidableEq N] {m : Links H N} {t : Slot H N} {x y : N}

/-- Store the back pointer `t` in the node `y`. -/
def setPrev (m : Links H N) (y : N) (t : Slot H N) : Links H N :=
  { m with prev := update m.prev y t }

@[simp] theorem setPrev_cell : (m.setPrev y t).cell = m.cell := rfl

@[simp] theorem setPrev_prev_self : (m.setPrev y t).prev y = t := update_self _ _ _

theorem setPrev_prev_of_ne (h : x ≠ y) : (m.setPrev y t).prev x = m.prev x :=
  update_of_ne h _ _

end Links

variable {m m' : Links H N} {s t : Slot H N} {x y : N} {xs ys : List N}

/-! ### Segments -/

/-- From the slot `s` on the nodes `xs` are linked in this order. -/
def Seg (m : Links H N) : Slot H N → List N → Prop
  | _, [] => True
  | s, x :: xs => m.cell s = some x ∧ m.prev x = s ∧ Seg m (.next x) xs

def endSlot : Slot H N → List N → Slot H N
  | s, [] => s
  | _, x :: xs => endSlot (.next x) xs

/-- The slots that point to the nodes of a segment. -/
def slots : Slot H N → List N → List (Slot H N)
  | _, [] => []
  | s, x :: xs => s :: slots (.next x) xs

@[simp] theorem seg_nil : Seg m s [] := trivial

theorem seg_cons : Seg m s (x :: xs) ↔ m.cell s = some x ∧ m.prev x = s ∧ Seg m (.next x) xs :=
  Iff.rfl

theorem endSlot_append : endSlot s (xs ++ ys) = endSlot (endSlot s xs) ys := by
  induction xs generalizing s with
  | nil => rfl
  | cons x xs ih => exact ih

theorem seg_append : Seg m s (xs ++ ys) ↔ Seg m s xs ∧ Seg m (endSlot s xs) ys := by
  induction xs generalizing s with
  | nil => simp [endSlot]
  | cons x xs ih => rw [cons_append, seg_cons, seg_cons, ih, endSlot]; simp only [and_assoc]

/-- The slots of a segment and the one behind it are the first slot and the `next`
fields of the nodes. -/
theorem slots_append_endSlot : slots s xs ++ [endSlot s xs] = s :: xs.map .next := by
  induction xs generalizing s with
  | nil => rfl
  | cons x xs ih => rw [slots, endSlot, cons_append, ih, map_cons]

theorem mem_slots (h : t ∈ slots s xs) : t = s ∨ ∃ x ∈ xs, t = .next x := by
  have hmem : t ∈ slots s xs ++ [endSlot s xs] := mem_append_left _ h
  rw [slots_append_endSlot, mem_cons, mem_map] at hmem
  exact hmem.imp_right fun ⟨x, hx, heq⟩ => ⟨x, hx, heq.symm⟩

theorem endSlot_cases (s : Slot H N) (xs : List N) :
    endSlot s xs = s ∨ ∃ x ∈ xs, endSlot s xs = .next x := by
  have hmem : endSlot s xs ∈ slots s xs ++ [endSlot s xs] :=
    mem_append_right _ (mem_singleton_self _)
  rw [slots_append_endSlot, mem_cons, mem_map] at hmem
  exact hmem.imp_right fun ⟨x, hx, heq⟩ => ⟨x, hx, heq.symm⟩

theorem endSlot_ne_next {h : H} (hx : x ∉ xs) : endSlot (.head h) xs ≠ .next x := by
  rcases endSlot_cases (Slot.head h) xs with hend | ⟨y, hy, hend⟩ <;> rw [hend]
  · exact nofun
  · exact fun heq => hx (Slot.next.inj heq ▸ hy)

theorem endSlot_ne_head {h h' : H} (hh : h' ≠ h) : endSlot (.head h) xs ≠ .head h' := by
  rcases endSlot_cases (Slot.head h) xs with hend | ⟨y, hy, hend⟩ <;> rw [hend]
  · exact fun heq => hh (Slot.head.inj heq).symm
  · exact nofun

theorem endSlot_notMem_slots {h : H} (hnd : xs.Nodup) :
    endSlot (.head h) xs ∉ slots (.head h) xs := by
  have hall : (slots (.head h) xs ++ [endSlot (.head h) xs]).Nodup := by
    rw [slots_append_endSlot, nodup_cons]
    refine ⟨by simp, hnd.map fun a b hab => ?_⟩
    exact Slot.next.inj hab
  exact fun hmem => (nodup_append.mp hall).2.2 _ hmem _ (mem_singleton_self _) rfl

/-- **Frame rule.** A segment depends on its slots and on the back pointers of its
nodes only. -/
theorem Seg.congr (hs : Seg m s xs) (hcell : ∀ t ∈ slots s xs, m'.cell t = m.cell t)
    (hprev : ∀ x ∈ xs, m'.prev x = m.prev x) : Seg m' s xs := by
  induction xs generalizing s with
  | nil => trivial
  | cons x xs ih =>
    obtain ⟨hc, hp, hrest⟩ := hs
    refine ⟨?_, ?_, ?_⟩
    · rw [hcell s mem_cons_self, hc]
    · rw [hprev x mem_cons_self, hp]
    exact ih hrest (fun t ht => hcell t (mem_cons_of_mem _ ht))
      fun x hx => hprev x (mem_cons_of_mem _ hx)

theorem Seg.unique (hx : Seg m s xs) (hy : Seg m s ys) (hxe : m.cell (endSlot s xs) = none)
    (hye : m.cell (endSlot s ys) = none) : xs = ys := by
  induction xs generalizing s ys with
  | nil =>
    cases ys with
    | nil => rfl
    | cons y ys =>
      have : m.cell s = none := hxe
      rw [hy.1] at this
      cases this
  | cons x xs ih =>
    cases ys with
    | nil =>
      have : m.cell s = none := hye
      rw [hx.1] at this
      cases this
    | cons y ys =>
      obtain rfl : x = y := Option.some.inj (hx.1.symm.trans hy.1)
      rw [ih hx.2.2 hy.2.2 hxe hye]

/-- `m'` differs from `m` only in the head of list `h` and in the fields of the
nodes `own`. -/
structure SameOff (m m' : Links H N) (h : H) (own : List N) : Prop where
  head : ∀ h', h' ≠ h → m'.cell (.head h') = m.cell (.head h')
  next : ∀ n, n ∉ own → m'.cell (.next n) = m.cell (.next n)
  prev : ∀ n, n ∉ own → m'.prev n = m.prev n

theorem Seg.frame {h h' : H} {own : List N} (hs : Seg m (.head h') xs)
    (hoff : SameOff m m' h own) (hh : h' ≠ h) (hdisj : ∀ x ∈ xs, x ∉ own) :
    Seg m' (.head h') xs := by
  refine hs.congr (fun t ht => ?_) fun x hx => hoff.prev x (hdisj x hx)
  rcases mem_slots ht with rfl | ⟨x, hx, rfl⟩
  · exact hoff.head h' hh
  · exact hoff.next x (hdisj x hx)

section

variable [DecidableEq H] [DecidableEq N] {h : H}

/-! ### Unlinking a node -/

/-- Take the node `x` out of the list it is in; `y` is the node behind it. -/
def Links.unlink (m : Links H N) (x y : N) : Links H N :=
  (m.setCell (m.prev x) (some y)).setPrev y (m.prev x)

theorem Seg.unlink (hs : Seg m (.head h) (xs ++ x :: y :: ys)) (hnd : (xs ++ x :: y :: ys).Nodup) :
    Seg (m.unlink x y) (.head h) (xs ++ y :: ys) ∧
      (m.unlink x y).cell (endSlot (.next y) ys) = m.cell (endSlot (.next y) ys) ∧
      SameOff m (m.unlink x y) h (xs ++ x :: y :: ys) := by
  obtain ⟨hxs, -, hprevx, -, -, hys⟩ := seg_append.mp hs
  obtain ⟨hndxs, hndr, hdisj⟩ := nodup_append.mp hnd
  obtain ⟨hx, hndy⟩ := nodup_cons.mp hndr
  obtain ⟨hy, hndys⟩ := nodup_cons.mp hndy
  have hyxs : y ∉ xs := fun hmem => hdisj y hmem y (by simp) rfl
  -- the slot behind `xs` is no `next` field of `y` or of a later node
  have hslot : ∀ z ∈ y :: ys, Slot.next z ≠ endSlot (Slot.head h) xs := fun z hz =>
    (endSlot_ne_next fun hzxs => hdisj z hzxs z (mem_cons_of_mem _ hz) rfl).symm
  have hprev : ∀ z, z ≠ y → (m.unlink x y).prev z = m.prev z := fun z hz =>
    Links.setPrev_prev_of_ne hz
  have hcell : ∀ t, t ≠ endSlot (Slot.head h) xs → (m.unlink x y).cell t = m.cell t :=
    fun t ht => Links.setCell_cell_of_ne (hprevx ▸ ht)
  refine ⟨?_, hcell _ ?_, ?_⟩
  · rw [seg_append]
    refine ⟨hxs.congr (fun t ht => hcell t ?_) fun z hz => hprev z ?_, ?_, ?_, ?_⟩
    · exact fun heq => endSlot_notMem_slots hndxs (heq ▸ ht)
    · exact fun heq => hyxs (heq ▸ hz)
    · rw [Links.unlink, Links.setPrev_cell, hprevx, Links.setCell_cell_self]
    · rw [Links.unlink, Links.setPrev_prev_self, hprevx]
    refine hys.congr (fun t ht => hcell t ?_) fun z hz => hprev z ?_
    · rcases mem_slots ht with rfl | ⟨z, hz, rfl⟩
      · exact hslot y mem_cons_self
      · exact hslot z (mem_cons_of_mem _ hz)
    · exact fun heq => hy (heq ▸ hz)
  · rcases endSlot_cases (Slot.next y) ys with hend | ⟨z, hz, hend⟩ <;> rw [hend]
    · exact hslot y mem_cons_self
    · exact hslot z (mem_cons_of_mem _ hz)
  refine ⟨fun h' hh' => hcell _ ?_, fun n hn => hcell _ ?_, fun n hn => hprev n ?_⟩
  · exact (endSlot_ne_head hh').symm
  · exact (endSlot_ne_next fun hnxs => hn (mem_append_left _ hnxs)).symm
  · exact fun heq => hn (by simp [heq])

/-! ### Inserting a node in front -/

/-- Put the node `x` in front of the list `h`, whose first node is `y`. -/
def Links.pushFront (m : Links H N) (h : H) (x y : N) : Links H N :=
  (((m.setCell (.next x) (some y)).setPrev x (.head h)).setPrev y (.next x)).setCell
    (.head h) (some x)

theorem Seg.pushFront (hs : Seg m (.head h) (y :: ys)) (hx : x ∉ y :: ys) (hnd : (y :: ys).Nodup) :
    Seg (m.pushFront h x y) (.head h) (x :: y :: ys) ∧
      (m.pushFront h x y).cell (endSlot (.next y) ys) = m.cell (endSlot (.next y) ys) ∧
      SameOff m (m.pushFront h x y) h (x :: y :: ys) := by
  obtain ⟨-, -, hys⟩ := hs
  have hxy : x ≠ y := fun heq => hx (by simp [heq])
  have hy : y ∉ ys := (nodup_cons.mp hnd).1
  have hnext : ∀ n, n ≠ x → (m.pushFront h x y).cell (.next n) = m.cell (.next n) := by
    intro n hn
    rw [Links.pushFront, Links.setCell_cell_of_ne (by simp), Links.setPrev_cell,
      Links.setPrev_cell, Links.setCell_cell_of_ne (by simpa using hn)]
  have hprev : ∀ n, n ≠ x → n ≠ y → (m.pushFront h x y).prev n = m.prev n := by
    intro n hnx hny
    rw [Links.pushFront, Links.setCell_prev, Links.setPrev_prev_of_ne hny,
      Links.setPrev_prev_of_ne hnx, Links.setCell_prev]
  refine ⟨?_, ?_, ?_⟩
  · refine ⟨?_, ?_, ?_, ?_, ?_⟩
    · rw [Links.pushFront, Links.setCell_cell_self]
    · rw [Links.pushFront, Links.setCell_prev, Links.setPrev_prev_of_ne hxy,
        Links.setPrev_prev_self]
    · rw [Links.pushFront, Links.setCell_cell_of_ne (by simp), Links.setPrev_cell,
        Links.setPrev_cell, Links.setCell_cell_self]
    · rw [Links.pushFront, Links.setCell_prev, Links.setPrev_prev_self]
    refine hys.congr (fun t ht => ?_) fun z hz => hprev z ?_ ?_
    · rcases mem_slots ht with rfl | ⟨z, hz, rfl⟩
      · exact hnext y hxy.symm
      · exact hnext z fun heq => hx (heq ▸ mem_cons_of_mem _ hz)
    · exact fun heq => hx (heq ▸ mem_cons_of_mem _ hz)
    · exact fun heq => hy (heq ▸ hz)
  · rcases endSlot_cases (Slot.next y) ys with hend | ⟨z, hz, hend⟩ <;> rw [hend]
    · exact hnext y hxy.symm
    · exact hnext z fun heq => hx (heq ▸ mem_cons_of_mem _ hz)
  refine ⟨fun h' hh' => ?_, fun n hn => hnext n ?_, fun n hn => hprev n ?_ ?_⟩
  · rw [Links.pushFront, Links.setCell_cell_of_ne (by simpa using hh'), Links.setPrev_cell,
      Links.setPrev_cell, Links.setCell_cell_of_ne (by simp)]
  · exact fun heq => hn (by simp [heq])
  · exact fun heq => hn (by simp [heq])
  · exact fun heq => hn (by simp [heq])

end

end Unikraft.Lib
