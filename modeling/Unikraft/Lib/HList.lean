import Unikraft.Lib.TailQ
import Mathlib.Data.List.Induction

/-!
# Hash chains

An `hlist` is a tail queue (`Lib.TailQ`) without the pointer to its end. `HLists m L` says that the
chains of a family have the nodes `L`, no node being on two of them. Deleting a node leaves its own
pointers as they are, so that it must not be deleted twice.
-/

namespace Unikraft.Lib

variable {H N : Type}

/-- The chains have the nodes `L`, each node on at most one of them. -/
structure HLists (m : Links H N) (L : H → List N) : Prop where
  seg : ∀ h, Seg m (.head h) (L h)
  stop : ∀ h, m.cell (endSlot (.head h) (L h)) = none
  nodup : ∀ h, (L h).Nodup
  unique : ∀ h h' x, x ∈ L h → x ∈ L h' → h = h'

variable {m : Links H N} {L : H → List N} {h : H} {x : N} {xs ys : List N}

theorem HLists.queues (hm : HLists m L) : Queues ⟨m, fun h => endSlot (.head h) (L h)⟩ L :=
  ⟨fun h => ⟨hm.seg h, hm.stop h, rfl, hm.nodup h⟩, hm.unique⟩

theorem Queues.hlists {q : TailQ H N} (hq : Queues q L) : HLists q.links L :=
  ⟨fun h => (hq.queue h).seg, fun h => (hq.queue h).stop, fun h => (hq.queue h).nodup, hq.unique⟩

theorem HLists.first (hm : HLists m L) : m.cell (.head h) = (L h).head? :=
  (hm.queues.queue h).first

theorem HLists.next (hm : HLists m L) (hL : L h = xs ++ x :: ys) : m.cell (.next x) = ys.head? := by
  have hqueue := hm.queues.queue h
  rw [hL] at hqueue
  exact hqueue.next

theorem HLists.prev_ne (hm : HLists m L) (hL : L h = xs ++ x :: ys) : m.prev x ≠ .next x := by
  have hnd := hm.nodup h
  have hseg := hm.seg h
  rw [hL] at hnd hseg
  rw [(seg_append.mp hseg).2.2.1]
  refine endSlot_ne_next fun hmem => ?_
  exact (List.nodup_append.mp hnd).2.2 x hmem x List.mem_cons_self rfl

variable [DecidableEq H] [DecidableEq N]

/-- `hlist_add_head`. -/
def Links.addHead (m : Links H N) (h : H) (x : N) : Links H N :=
  let first := m.cell (.head h)
  let m := m.setCell (.next x) first
  let m := match first with
    | some y => m.setPrev y (.next x)
    | none => m
  (m.setCell (.head h) (some x)).setPrev x (.head h)

/-- `hlist_del`. -/
def Links.del (m : Links H N) (x : N) : Links H N :=
  let m := m.setCell (m.prev x) (m.cell (.next x))
  match m.cell (.next x) with
  | some y => m.setPrev y (m.prev x)
  | none => m

theorem HLists.addHead (hm : HLists m L) (h : H) (hx : ∀ h, x ∉ L h) :
    HLists (m.addHead h x) (Function.update L h (x :: L h)) := by
  have hq := (hm.queues.insertHead h hx).hlists
  have heq : m.addHead h x =
      (TailQ.insertHead ⟨m, fun h => endSlot (.head h) (L h)⟩ h x).links := by
    unfold Links.addHead TailQ.insertHead
    cases m.cell (.head h) <;> rfl
  rw [heq]
  exact hq

theorem HLists.del (hm : HLists m L) (hL : L h = xs ++ x :: ys) :
    HLists (m.del x) (Function.update L h (xs ++ ys)) := by
  have hq := (hm.queues.remove hL).hlists
  have heq : m.del x = (TailQ.remove ⟨m, fun h => endSlot (.head h) (L h)⟩ h x).links := by
    unfold Links.del TailQ.remove
    simp only [Links.setCell_cell_of_ne (hm.prev_ne hL).symm, hm.next hL]
    cases ys with
    | nil => rfl
    | cons y ys =>
      have hxy : x ≠ y := by
        have hnd := hm.nodup h
        rw [hL] at hnd
        exact fun heq => (List.nodup_cons.mp (List.nodup_append.mp hnd).2.1).1
          (heq ▸ List.mem_cons_self)
      simp only [List.head?_cons, Links.setPrev_prev_of_ne hxy]
      rfl
  rw [heq]
  exact hq

end Unikraft.Lib
