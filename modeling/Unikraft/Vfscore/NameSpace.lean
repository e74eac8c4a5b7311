import Unikraft.Lib.NameTree
import Mathlib.Data.List.Nodup

/-!
# The file system below the virtual file system

Its objects are numbers; the entries of its directories give them names, and the vnode operations
act on the entries alone. Each has a lemma that says which paths lead to the same object as before.
-/

namespace Unikraft.Vfscore

open Lib List

abbrev Name := List Char

/-- The object `ino` has the name `name` in the directory `dir`. -/
structure Entry where
  dir : Nat
  name : Name
  ino : Nat
  deriving DecidableEq

/-- The entries of all directories and the types of the objects. -/
structure NameSpace where
  entries : List Entry
  isDir : Nat → Bool
  root : Nat
  /-- The number of the next object. -/
  next : Nat

namespace NameSpace

/-- `VOP_LOOKUP`. -/
def edge (fs : NameSpace) (d : Nat) (k : Name) : Option Nat :=
  (fs.entries.find? fun e => e.dir = d ∧ e.name = k).map (·.ino)

/-- `VOP_READDIR` finds no entry. -/
def isEmpty (fs : NameSpace) (d : Nat) : Bool := fs.entries.all fun e => e.dir ≠ d

/-- `VOP_CREATE` and `VOP_MKDIR`. -/
def create (fs : NameSpace) (d : Nat) (k : Name) (isDir : Bool) : NameSpace :=
  { fs with
    entries := ⟨d, k, fs.next⟩ :: fs.entries
    isDir := Function.update fs.isDir fs.next isDir
    next := fs.next + 1 }

/-- `VOP_REMOVE` and `VOP_RMDIR`. -/
def remove (fs : NameSpace) (d : Nat) (k : Name) : NameSpace :=
  { fs with entries := fs.entries.filter fun e => ¬ (e.dir = d ∧ e.name = k) }

/-- `VOP_RENAME`: the object `v` is moved, and what had its new name is removed. -/
def rename (fs : NameSpace) (d₁ : Nat) (k₁ : Name) (d₂ : Nat) (k₂ : Name) (v : Nat) : NameSpace :=
  { fs with
    entries := ⟨d₂, k₂, v⟩ :: fs.entries.filter fun e =>
      ¬ (e.dir = d₁ ∧ e.name = k₁) ∧ ¬ (e.dir = d₂ ∧ e.name = k₂) }

def nodeAt (fs : NameSpace) (p : List Name) : Option Nat := follow fs.edge fs.root p

/-- A name space is a tree: a name is used once in a directory, an object has one name, and
only directories have entries. -/
structure Ok (fs : NameSpace) : Prop where
  key : ∀ e ∈ fs.entries, ∀ e' ∈ fs.entries, e.dir = e'.dir → e.name = e'.name → e = e'
  ino : ∀ e ∈ fs.entries, ∀ e' ∈ fs.entries, e.ino = e'.ino → e = e'
  root : ∀ e ∈ fs.entries, e.ino ≠ fs.root
  dir : ∀ e ∈ fs.entries, fs.isDir e.dir = true
  bound : ∀ e ∈ fs.entries, e.ino < fs.next
  dir_bound : ∀ e ∈ fs.entries, e.dir < fs.next
  root_bound : fs.root < fs.next

variable {fs : NameSpace} {d v x : Nat} {k : Name} {p q : List Name}

theorem Ok.edge_eq_some (h : fs.Ok) : fs.edge d k = some v ↔ ⟨d, k, v⟩ ∈ fs.entries := by
  unfold edge
  constructor
  · intro hedge
    obtain ⟨e, he, rfl⟩ := Option.map_eq_some_iff.mp hedge
    have hmem := mem_of_find?_eq_some he
    have hkey := find?_some he
    obtain ⟨rfl, rfl⟩ := of_decide_eq_true hkey
    exact hmem
  intro hmem
  have hsome : (fs.entries.find? fun e => e.dir = d ∧ e.name = k).isSome :=
    find?_isSome.mpr ⟨_, hmem, decide_eq_true ⟨rfl, rfl⟩⟩
  obtain ⟨e, he⟩ := Option.isSome_iff_exists.mp hsome
  have hkey := find?_some he
  obtain ⟨hdir, hname⟩ := of_decide_eq_true hkey
  rw [he, h.key e (mem_of_find?_eq_some he) _ hmem hdir hname]
  rfl

theorem Ok.key_iff {j : Name} (h : fs.Ok) (hmem : ⟨d, k, v⟩ ∈ fs.entries) :
    (d = x ∧ k = j) ↔ fs.edge x j = some v := by
  constructor
  · intro heq
    obtain ⟨rfl, rfl⟩ := heq
    exact h.edge_eq_some.mpr hmem
  intro hedge
  cases h.ino _ hmem _ (h.edge_eq_some.mp hedge) rfl
  exact ⟨rfl, rfl⟩

theorem Ok.rooted (h : fs.Ok) : Rooted fs.edge fs.root where
  parent_unique := by
    intro d k d' k' c hc hc'
    have heq := h.ino _ (h.edge_eq_some.mp hc) _ (h.edge_eq_some.mp hc') rfl
    cases heq
    exact ⟨rfl, rfl⟩
  root_nameless := by
    intro d k hroot
    exact h.root _ (h.edge_eq_some.mp hroot) rfl

theorem Ok.lt_next (h : fs.Ok) (hp : fs.nodeAt p = some x) : x < fs.next := by
  rcases eq_nil_or_concat' p with rfl | ⟨p, k, rfl⟩
  · cases Option.some.inj hp
    exact h.root_bound
  rw [nodeAt, follow_concat] at hp
  obtain ⟨d, -, hd⟩ := Option.bind_eq_some_iff.mp hp
  exact h.bound _ (h.edge_eq_some.mp hd)

theorem nodeAt_concat : fs.nodeAt (p ++ [k]) = (fs.nodeAt p).bind fun d => fs.edge d k :=
  follow_concat

/-! ### Create -/

section

variable (h : fs.Ok)

include h

theorem Ok.create {isDir : Bool} (hd : fs.nodeAt q = some d)
    (hdir : fs.isDir d = true) (hk : fs.edge d k = none) : (fs.create d k isDir).Ok := by
  have hdlt : d < fs.next := h.lt_next hd
  have hnone : ∀ e ∈ fs.entries, d = e.dir → k ≠ e.name := by
    intro e he hed hek
    cases hed
    cases hek
    rw [h.edge_eq_some.mpr he] at hk
    cases hk
  have hold : ∀ e ∈ fs.entries, fs.next ≠ e.ino := fun e he => (h.bound e he).ne'
  refine ⟨?_, ?_, ?_, ?_, ?_, ?_, h.root_bound.trans (Nat.lt_succ_self _)⟩
  · intro e he e' he' hdir hname
    rcases mem_cons.mp he with rfl | he <;> rcases mem_cons.mp he' with rfl | he'
    · rfl
    · exact absurd hname (hnone e' he' hdir)
    · exact absurd hname.symm (hnone e he hdir.symm)
    · exact h.key e he e' he' hdir hname
  · intro e he e' he' hino
    rcases mem_cons.mp he with rfl | he <;> rcases mem_cons.mp he' with rfl | he'
    · rfl
    · exact absurd hino (hold e' he')
    · exact absurd hino.symm (hold e he)
    · exact h.ino e he e' he' hino
  · intro e he
    rcases mem_cons.mp he with rfl | he
    · exact h.root_bound.ne'
    · exact h.root e he
  · intro e he
    rcases mem_cons.mp he with rfl | he
    · exact (Function.update_of_ne hdlt.ne ..).trans hdir
    · exact (Function.update_of_ne (h.dir_bound e he).ne ..).trans (h.dir e he)
  · intro e he
    rcases mem_cons.mp he with rfl | he
    · exact Nat.lt_succ_self _
    · exact (h.bound e he).trans (Nat.lt_succ_self _)
  intro e he
  rcases mem_cons.mp he with rfl | he
  · exact hdlt.trans (Nat.lt_succ_self _)
  · exact (h.dir_bound e he).trans (Nat.lt_succ_self _)

theorem Ok.nodeAt_create {isDir : Bool} (h' : (fs.create d k isDir).Ok)
    (hp : fs.nodeAt p = some x) : (fs.create d k isDir).nodeAt p = some x :=
  follow_mono (fun _ _ _ hc =>
    h'.edge_eq_some.mpr (mem_cons_of_mem _ (h.edge_eq_some.mp hc))) hp

/-! ### Remove -/

theorem Ok.remove : (fs.remove d k).Ok := by
  have hsub : ∀ e ∈ (fs.remove d k).entries, e ∈ fs.entries := fun e he => mem_of_mem_filter he
  exact ⟨fun e he e' he' => h.key e (hsub e he) e' (hsub e' he'),
    fun e he e' he' => h.ino e (hsub e he) e' (hsub e' he'), fun e he => h.root e (hsub e he),
    fun e he => h.dir e (hsub e he), fun e he => h.bound e (hsub e he),
    fun e he => h.dir_bound e (hsub e he), h.root_bound⟩

theorem Ok.edge_of_isEmpty (hempty : fs.isEmpty v = true) : fs.edge v k = none := by
  refine Option.eq_none_iff_forall_ne_some.mpr fun c hc => ?_
  have hne := all_eq_true.mp hempty _ (h.edge_eq_some.mp hc)
  exact of_decide_eq_true hne rfl

theorem Ok.isEmpty_of_file (hfile : fs.isDir v = false) : fs.isEmpty v = true := by
  refine all_eq_true.mpr fun e he => decide_eq_true fun heq => ?_
  rw [← heq, h.dir e he] at hfile
  cases hfile

theorem Ok.nodeAt_remove (hq : fs.nodeAt q = some d) (hv : fs.edge d k = some v)
    (hempty : fs.isEmpty v = true) (hp : fs.nodeAt p = some x) (hne : p ≠ q ++ [k]) :
    (fs.remove d k).nodeAt p = some x := by
  refine h.rooted.follow_unlink hq hv (fun j => h.edge_of_isEmpty hempty) (fun a j hkey => ?_)
    hp hne
  refine Option.ext fun y => (h.remove.edge_eq_some).trans (Iff.trans ?_ h.edge_eq_some.symm)
  refine (mem_filter ..).trans (and_iff_left (decide_eq_true fun heq => hkey ?_))
  exact Prod.ext heq.1 heq.2

end

/-! ### Rename -/

variable {d₁ d₂ : Nat} {k₁ k₂ : Name} {q₁ q₂ : List Name}

theorem Ok.rename (h : fs.Ok) (hv : fs.edge d₁ k₁ = some v) (hd₂ : fs.nodeAt q₂ = some d₂)
    (hdir : fs.isDir d₂ = true) : (fs.rename d₁ k₁ d₂ k₂ v).Ok := by
  have hmem : ⟨d₁, k₁, v⟩ ∈ fs.entries := h.edge_eq_some.mp hv
  have hold : ∀ e ∈ fs.entries.filter (fun e =>
      ¬ (e.dir = d₁ ∧ e.name = k₁) ∧ ¬ (e.dir = d₂ ∧ e.name = k₂)),
      e ∈ fs.entries ∧ v ≠ e.ino ∧ ¬ (e.dir = d₂ ∧ e.name = k₂) := by
    intro e he
    obtain ⟨he, hkeep⟩ := mem_filter.mp he
    obtain ⟨h₁, h₂⟩ := of_decide_eq_true hkeep
    refine ⟨he, fun heq => h₁ ?_, h₂⟩
    cases h.ino e he _ hmem heq.symm
    exact ⟨rfl, rfl⟩
  refine ⟨?_, ?_, ?_, ?_, ?_, ?_, h.root_bound⟩
  · intro e he e' he' hdir hname
    rcases mem_cons.mp he with rfl | he <;> rcases mem_cons.mp he' with rfl | he'
    · rfl
    · exact absurd ⟨hdir.symm, hname.symm⟩ (hold e' he').2.2
    · exact absurd ⟨hdir, hname⟩ (hold e he).2.2
    · exact h.key e (hold e he).1 e' (hold e' he').1 hdir hname
  · intro e he e' he' hino
    rcases mem_cons.mp he with rfl | he <;> rcases mem_cons.mp he' with rfl | he'
    · rfl
    · exact absurd hino (hold e' he').2.1
    · exact absurd hino.symm (hold e he).2.1
    · exact h.ino e (hold e he).1 e' (hold e' he').1 hino
  · intro e he
    rcases mem_cons.mp he with rfl | he
    · exact (h.root _ hmem : v ≠ fs.root)
    · exact h.root e (hold e he).1
  · intro e he
    rcases mem_cons.mp he with rfl | he
    · exact hdir
    · exact h.dir e (hold e he).1
  · intro e he
    rcases mem_cons.mp he with rfl | he
    · exact (h.bound _ hmem : v < fs.next)
    · exact h.bound e (hold e he).1
  intro e he
  rcases mem_cons.mp he with rfl | he
  · exact h.lt_next hd₂
  · exact h.dir_bound e (hold e he).1

theorem Ok.nodeAt_rename (h : fs.Ok) (h' : (fs.rename d₁ k₁ d₂ k₂ v).Ok)
    (hd₁ : fs.nodeAt q₁ = some d₁) (hv : fs.edge d₁ k₁ = some v) (hd₂ : fs.nodeAt q₂ = some d₂)
    (hout : ¬ q₁ ++ [k₁] <+: q₂ ++ [k₂]) (hapart : ¬ q₂ ++ [k₂] <+: q₁ ++ [k₁])
    (hp₁ : ¬ q₁ ++ [k₁] <+: p) (hp₂ : ¬ q₂ ++ [k₂] <+: p) :
    (fs.rename d₁ k₁ d₂ k₂ v).nodeAt p = fs.nodeAt p := by
  have hmoved : Moved fs.edge (fs.rename d₁ k₁ d₂ k₂ v).edge fs.root q₁ k₁ q₂ k₂ d₁ v d₂ v
      fun _ => False :=
    { rooted := h.rooted
      source_dir := hd₁
      source := hv
      target_dir := hd₂
      outside := hout
      apart := hapart
      freed := nofun
      edges := by
        intro x k y
        rw [h'.edge_eq_some, h.edge_eq_some, NameSpace.rename, mem_cons, mem_filter,
          Entry.mk.injEq, decide_eq_true_iff]
        refine or_congr_right (and_congr_right fun hmem => ?_)
        rw [h.key_iff hmem, h.key_iff hmem, hv, Option.some.injEq, not_false_eq_true, and_true,
          eq_comm] }
  exact hmoved.follow_other hp₁ hp₂

end NameSpace

end Unikraft.Vfscore
