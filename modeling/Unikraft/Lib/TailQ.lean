import Unikraft.Lib.LinkSeg

/-!
# Unikraft.Lib.TailQ

**Tail queues**: intrusive lists (`Lib.LinkSeg`) whose head also keeps the slot behind the last
node, with the operations of the BSD macros. `IsQueue q h xs` says that queue `h` has the nodes
`xs`, and `Queues q L` that a family of queues shares the link fields, no node being in two of
them.
-/

namespace Unikraft.Lib

open Function List Links

/-- The links of a family of tail queues and the end of each of them. -/
structure TailQ (H N : Type) where
  links : Links H N
  last : H → Slot H N

variable {H N : Type} [DecidableEq H] [DecidableEq N]

namespace TailQ

/-- `TAILQ_INIT` of all queues; the fields of the nodes are whatever they are. -/
def init (next : N → Option N) (prev : N → Slot H N) : TailQ H N where
  links :=
    { cell := fun
        | .head _ => none
        | .next n => next n
      prev := prev }
  last h := .head h

/-- `TAILQ_INSERT_TAIL`. -/
def insertTail (q : TailQ H N) (h : H) (x : N) : TailQ H N where
  links := ((q.links.setCell (.next x) none).setPrev x (q.last h)).setCell (q.last h) (some x)
  last := update q.last h (.next x)

/-- `TAILQ_INSERT_HEAD`. -/
def insertHead (q : TailQ H N) (h : H) (x : N) : TailQ H N :=
  let m := q.links.setCell (.next x) (q.links.cell (.head h))
  match q.links.cell (.head h) with
  | some y =>
    { q with links := ((m.setPrev y (.next x)).setCell (.head h) (some x)).setPrev x (.head h) }
  | none =>
    { links := (m.setCell (.head h) (some x)).setPrev x (.head h)
      last := update q.last h (.next x) }

/-- `TAILQ_REMOVE`. -/
def remove (q : TailQ H N) (h : H) (x : N) : TailQ H N :=
  match q.links.cell (.next x) with
  | some y =>
    let m := q.links.setPrev y (q.links.prev x)
    { q with links := m.setCell (m.prev x) (some y) }
  | none =>
    { links := q.links.setCell (q.links.prev x) none
      last := update q.last h (q.links.prev x) }

end TailQ

/-- The queue `h` has the nodes `xs`. -/
structure IsQueue (q : TailQ H N) (h : H) (xs : List N) : Prop where
  seg : Seg q.links (.head h) xs
  stop : q.links.cell (endSlot (.head h) xs) = none
  last : q.last h = endSlot (.head h) xs
  nodup : xs.Nodup

variable {q q' : TailQ H N} {h h' : H} {xs ys own : List N} {x y : N}

omit [DecidableEq H] [DecidableEq N] in
theorem IsQueue.frame (hq : IsQueue q h' ys) (hoff : SameOff q.links q'.links h own)
    (hlast : q'.last h' = q.last h') (hh : h' ≠ h) (hdisj : ∀ y ∈ ys, y ∉ own) :
    IsQueue q' h' ys := by
  refine ⟨hq.seg.frame hoff hh hdisj, ?_, hlast.trans hq.last, hq.nodup⟩
  rw [← hq.stop]
  rcases endSlot_cases (Slot.head h') ys with hend | ⟨y, hy, hend⟩ <;> rw [hend]
  · exact hoff.head h' hh
  · exact hoff.next y (hdisj y hy)

omit [DecidableEq H] [DecidableEq N] in
/-- `TAILQ_FIRST`. -/
theorem IsQueue.first (hq : IsQueue q h xs) : q.links.cell (.head h) = xs.head? := by
  cases xs with
  | nil => exact hq.stop
  | cons x xs => exact hq.seg.1

omit [DecidableEq H] [DecidableEq N] in
/-- `TAILQ_NEXT`. -/
theorem IsQueue.next (hq : IsQueue q h (xs ++ x :: ys)) : q.links.cell (.next x) = ys.head? := by
  cases ys with
  | nil =>
    have hstop := hq.stop
    rwa [endSlot_append] at hstop
  | cons y ys => exact (seg_append.mp hq.seg).2.2.2.1

/-! ### The operations -/

theorem IsQueue.insertTail (hq : IsQueue q h xs) (hx : x ∉ xs) :
    IsQueue (q.insertTail h x) h (xs ++ [x]) ∧
      SameOff q.links (q.insertTail h x).links h (x :: xs) := by
  obtain ⟨hseg, hstop, hlast, hnd⟩ := hq
  have hne : Slot.next x ≠ endSlot (Slot.head h) xs := (endSlot_ne_next hx).symm
  have hcell : ∀ t, t ≠ .next x → t ≠ endSlot (.head h) xs →
      (q.insertTail h x).links.cell t = q.links.cell t := by
    intro t htx hte
    rw [TailQ.insertTail, hlast, setCell_cell_of_ne hte, setPrev_cell,
      setCell_cell_of_ne htx]
  have hprev : ∀ n, n ≠ x → (q.insertTail h x).links.prev n = q.links.prev n := fun n hn =>
    setPrev_prev_of_ne hn
  refine ⟨⟨?_, ?_, ?_, ?_⟩, fun h' hh' => hcell _ nofun ?_, fun n hn => hcell _ ?_ ?_,
    fun n hn => hprev n fun heq => hn (heq ▸ mem_cons_self)⟩
  · rw [seg_append]
    refine ⟨hseg.congr (fun t ht => hcell t ?_ ?_) fun n hn => hprev n ?_, ?_, ?_, trivial⟩
    · rintro rfl
      rcases mem_slots ht with heq | ⟨y, hy, heq⟩
      · cases heq
      · exact hx (Slot.next.inj heq ▸ hy)
    · exact fun heq => endSlot_notMem_slots hnd (heq ▸ ht)
    · exact fun heq => hx (heq ▸ hn)
    · rw [TailQ.insertTail, hlast, setCell_cell_self]
    · rw [TailQ.insertTail, setCell_prev, setPrev_prev_self, hlast]
  · rw [endSlot_append]
    show (q.insertTail h x).links.cell (.next x) = none
    rw [TailQ.insertTail, hlast, setCell_cell_of_ne hne, setPrev_cell,
      setCell_cell_self]
  · rw [endSlot_append]
    exact update_self _ _ _
  · exact hnd.append (nodup_singleton x) (by simpa using hx)
  · exact (endSlot_ne_head hh').symm
  · exact fun heq => hn (Slot.next.inj heq ▸ mem_cons_self)
  · exact (endSlot_ne_next fun hnxs => hn (mem_cons_of_mem _ hnxs)).symm

theorem IsQueue.insertHead (hq : IsQueue q h xs) (hx : x ∉ xs) :
    IsQueue (q.insertHead h x) h (x :: xs) ∧
      SameOff q.links (q.insertHead h x).links h (x :: xs) := by
  obtain ⟨hseg, hstop, hlast, hnd⟩ := hq
  cases xs with
  | nil =>
    have heq : q.insertHead h x =
        { links := ((q.links.setCell (.next x) none).setCell (.head h) (some x)).setPrev x
            (.head h)
          last := update q.last h (.next x) } := by
      have hnone : q.links.cell (.head h) = none := hstop
      simp only [TailQ.insertHead, hnone]
    rw [heq]
    refine ⟨⟨⟨?_, ?_, trivial⟩, ?_, ?_, nodup_singleton x⟩, fun h' hh' => ?_,
      fun n hn => ?_, fun n hn => ?_⟩
    · rw [setPrev_cell, setCell_cell_self]
    · rw [setPrev_prev_self]
    · show cell _ (.next x) = none
      rw [setPrev_cell, setCell_cell_of_ne (by simp), setCell_cell_self]
    · exact update_self _ _ _
    · rw [setPrev_cell, setCell_cell_of_ne fun hs => hh' (Slot.head.inj hs),
        setCell_cell_of_ne (by simp)]
    · rw [setPrev_cell, setCell_cell_of_ne (by simp),
        setCell_cell_of_ne fun hs => hn (by simp [Slot.next.inj hs])]
    · rw [setPrev_prev_of_ne fun hs => hn (by simp [hs])]
      rfl
  | cons y ys =>
    have hxy : x ≠ y := fun heq => hx (by simp [heq])
    have hsome : q.links.cell (.head h) = some y := hseg.1
    have heq : q.insertHead h x = { q with links := q.links.pushFront h x y } := by
      simp only [TailQ.insertHead, hsome, pushFront, setPrev, setCell,
        update_comm hxy]
    rw [heq]
    obtain ⟨hseg', hend, hoff⟩ := hseg.pushFront hx hnd
    exact ⟨⟨hseg', hend.trans hstop, hlast, nodup_cons.mpr ⟨hx, hnd⟩⟩, hoff⟩

theorem IsQueue.remove (hq : IsQueue q h (xs ++ x :: ys)) :
    IsQueue (q.remove h x) h (xs ++ ys) ∧
      SameOff q.links (q.remove h x).links h (xs ++ x :: ys) := by
  obtain ⟨hseg, hstop, hlast, hnd⟩ := hq
  have hnd' : (xs ++ ys).Nodup := hnd.sublist
    (List.Sublist.append_left (sublist_cons_self x ys) xs)
  rw [endSlot_append] at hstop hlast
  cases ys with
  | nil =>
    obtain ⟨hxs, -, hprev, -⟩ := seg_append.mp hseg
    have hnone : q.links.cell (.next x) = none := hstop
    have heq : q.remove h x =
        { links := q.links.setCell (endSlot (.head h) xs) none
          last := update q.last h (endSlot (.head h) xs) } := by
      simp only [TailQ.remove, hnone, hprev]
    rw [append_nil] at hnd' ⊢
    rw [heq]
    refine ⟨⟨hxs.congr (fun t ht => setCell_cell_of_ne fun hs => ?_) fun _ _ => rfl,
      setCell_cell_self, update_self _ _ _, hnd'⟩,
      fun h' hh' => setCell_cell_of_ne (endSlot_ne_head hh').symm,
      fun n hn => setCell_cell_of_ne (endSlot_ne_next fun hnxs => ?_).symm,
      fun _ _ => rfl⟩
    · exact endSlot_notMem_slots hnd' (hs ▸ ht)
    · exact hn (mem_append_left _ hnxs)
  | cons y ys =>
    have hxy : x ≠ y := fun heq => by simp [heq, nodup_append] at hnd
    have hsome : q.links.cell (.next x) = some y := (seg_append.mp hseg).2.2.2.1
    have heq : q.remove h x = { q with links := q.links.unlink x y } := by
      simp only [TailQ.remove, hsome, setPrev_prev_of_ne hxy]
      rfl
    rw [heq]
    obtain ⟨hseg', hend, hoff⟩ := hseg.unlink hnd
    refine ⟨⟨hseg', ?_, ?_, hnd'⟩, hoff⟩
    · rw [endSlot_append]
      exact hend.trans hstop
    · rw [endSlot_append]
      exact hlast

theorem TailQ.insertHead_last (q : TailQ H N) (x : N) (hh : h' ≠ h) :
    (q.insertHead h x).last h' = q.last h' := by
  unfold TailQ.insertHead
  split
  · rfl
  · exact update_of_ne hh _ _

/-! ### Queues that share their nodes' links -/

/-- The queues have the nodes `L`, each node in at most one of them. -/
structure Queues (q : TailQ H N) (L : H → List N) : Prop where
  queue : ∀ h, IsQueue q h (L h)
  unique : ∀ h h' x, x ∈ L h → x ∈ L h' → h = h'

namespace Queues

variable {L : H → List N}

omit [DecidableEq H] [DecidableEq N] in
theorem init (next : N → Option N) (prev : N → Slot H N) :
    Queues (TailQ.init next prev) fun _ => [] :=
  ⟨fun _ => ⟨trivial, rfl, rfl, nodup_nil⟩, fun _ _ _ hx => nomatch hx⟩

omit [DecidableEq N] in
/-- An operation on one queue that touches only nodes `own`, none of them in another
queue. -/
theorem replace (hq : Queues q L) (hys : IsQueue q' h ys ∧ SameOff q.links q'.links h own)
    (hlast : ∀ h', h' ≠ h → q'.last h' = q.last h') (hsub : ys ⊆ own)
    (hown : ∀ h', h' ≠ h → ∀ y ∈ L h', y ∉ own) : Queues q' (update L h ys) := by
  refine ⟨fun h' => ?_, fun h₁ h₂ x => ?_⟩
  · by_cases hh : h' = h
    · subst hh
      rw [update_self]
      exact hys.1
    · rw [update_of_ne hh]
      exact (hq.queue h').frame hys.2 (hlast h' hh) hh (hown h' hh)
  · by_cases hh₁ : h₁ = h <;> by_cases hh₂ : h₂ = h
    · exact fun _ _ => hh₁.trans hh₂.symm
    · rw [hh₁, update_self, update_of_ne hh₂]
      exact fun h1 h2 => absurd (hsub h1) (hown h₂ hh₂ x h2)
    · rw [hh₂, update_self, update_of_ne hh₁]
      exact fun h1 h2 => absurd (hsub h2) (hown h₁ hh₁ x h1)
    · rw [update_of_ne hh₁, update_of_ne hh₂]
      exact hq.unique h₁ h₂ x

omit [DecidableEq H] [DecidableEq N] in
theorem notMem_cons (hq : Queues q L) (hx : ∀ h, x ∉ L h) :
    ∀ h', h' ≠ h → ∀ y ∈ L h', y ∉ x :: L h := by
  intro h' hh y hy hmem
  rcases mem_cons.mp hmem with rfl | hmem
  · exact hx h' hy
  · exact hh (hq.unique h' h y hy hmem)

theorem insertTail (hq : Queues q L) (h : H) (hx : ∀ h, x ∉ L h) :
    Queues (q.insertTail h x) (update L h (L h ++ [x])) :=
  hq.replace ((hq.queue h).insertTail (hx h)) (fun _ hh => update_of_ne hh _ _)
    (by simp) (hq.notMem_cons hx)

theorem insertHead (hq : Queues q L) (h : H) (hx : ∀ h, x ∉ L h) :
    Queues (q.insertHead h x) (update L h (x :: L h)) :=
  hq.replace ((hq.queue h).insertHead (hx h)) (fun _ hh => TailQ.insertHead_last q x hh)
    (List.Subset.refl _) (hq.notMem_cons hx)

theorem remove (hq : Queues q L) (hL : L h = xs ++ x :: ys) :
    Queues (q.remove h x) (update L h (xs ++ ys)) := by
  have hqueue := hq.queue h
  rw [hL] at hqueue
  refine hq.replace hqueue.remove (fun h' hh => ?_) (by simp) fun h' hh y hy hmem => ?_
  · unfold TailQ.remove
    split
    · rfl
    · exact update_of_ne hh _ _
  · exact hh (hq.unique h' h y hy (hL ▸ hmem))

end Queues

theorem TailQ.remove_cell (q : TailQ H N) (h : H) (x : N) : (q.remove h x).links.cell =
    update q.links.cell (q.links.prev x) (q.links.cell (.next x)) := by
  unfold TailQ.remove
  split
  case h_1 y hy =>
    have hprev : (q.links.setPrev y (q.links.prev x)).prev x = q.links.prev x := by
      by_cases hxy : x = y <;> simp [setPrev, hxy]
    rw [hy]
    exact congrArg (update q.links.cell · (some y)) hprev
  case h_2 hy =>
    rw [hy]
    rfl

/-- The head of the queue `h` and the `next` fields of its nodes. -/
def Slot.Of (h : H) (xs : List N) (t : Slot H N) : Prop := t = .head h ∨ ∃ x ∈ xs, t = .next x

end Unikraft.Lib
