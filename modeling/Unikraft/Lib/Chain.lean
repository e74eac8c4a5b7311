import Mathlib.Data.List.Nodup
import Mathlib.Logic.Function.Iterate

/-!
# Chains in a table of successors

The chain of `k` slots from `h` on is read off by following the table (`walk`). It depends on its
own slots only (`walk_congr`), can be cut (`walk_add`), and is joined to another one by redirecting
its last slot (`walk_relink`).
-/

namespace Unikraft.Lib

open Function

variable {N : Type*} {next next' : N → N} {h g : N} {k m : Nat}

/-- The first `k` slots of the chain that starts at `h`. -/
def walk (next : N → N) : N → Nat → List N
  | _, 0 => []
  | h, k + 1 => h :: walk next (next h) k

@[simp] theorem walk_zero : walk next h 0 = [] := rfl

theorem walk_succ : walk next h (k + 1) = h :: walk next (next h) k := rfl

@[simp] theorem length_walk : (walk next h k).length = k := by
  induction k generalizing h with
  | zero => rfl
  | succ k ih => rw [walk_succ, List.length_cons, ih]

theorem walk_add : walk next h (k + m) = walk next h k ++ walk next (next^[k] h) m := by
  induction k generalizing h with
  | zero => simp
  | succ k ih => rw [Nat.add_right_comm, walk_succ, walk_succ, ih, List.cons_append,
      Function.iterate_succ_apply]

theorem walk_succ' : walk next h (k + 1) = walk next h k ++ [next^[k] h] := walk_add

theorem iterate_mem_walk : next^[k] h ∈ walk next h (k + 1) := by
  rw [walk_succ']
  exact List.mem_append_right _ (List.mem_singleton_self _)

theorem walk_congr (heq : ∀ i ∈ walk next h k, next' i = next i) :
    walk next' h k = walk next h k ∧ next'^[k] h = next^[k] h := by
  induction k generalizing h with
  | zero => exact ⟨rfl, rfl⟩
  | succ k ih =>
    have hh : next' h = next h := heq h List.mem_cons_self
    obtain ⟨hw, hi⟩ := ih (h := next h) fun i hi => heq i (List.mem_cons_of_mem _ hi)
    rw [walk_succ, walk_succ, Function.iterate_succ_apply, Function.iterate_succ_apply, hh]
    exact ⟨congrArg _ hw, hi⟩

variable [DecidableEq N]

theorem walk_update {l : N} (hl : l ∉ walk next h k) :
    walk (update next l g) h k = walk next h k ∧ (update next l g)^[k] h = next^[k] h :=
  walk_congr fun _ hi => update_of_ne (ne_of_mem_of_not_mem hi hl) _ _

/-- **Joining two chains** by redirecting the last slot of the first one: the result ends where the
second one did. -/
theorem walk_relink (hnd : (walk next h (k + 1)).Nodup) (hm : next^[k] h ∉ walk next g m) :
    walk (update next (next^[k] h) g) h (k + 1 + m) = walk next h (k + 1) ++ walk next g m ∧
      (update next (next^[k] h) g)^[k + 1 + m] h = next^[m] g := by
  -- the slots before the last one keep their successor
  have hinit : next^[k] h ∉ walk next h k := by
    rw [walk_succ'] at hnd
    exact fun hmem => (List.nodup_append.mp hnd).2.2 _ hmem _ (List.mem_singleton_self _) rfl
  obtain ⟨hw, hi⟩ := walk_update (g := g) hinit
  have hlast : (update next (next^[k] h) g)^[k + 1] h = g := by
    rw [Function.iterate_succ_apply', hi, update_self]
  constructor
  · rw [walk_add, walk_succ', walk_succ', hw, hi, hlast, (walk_update hm).1]
  · rw [Nat.add_comm, Function.iterate_add_apply, hlast, (walk_update hm).2]

end Unikraft.Lib
