import Mathlib.Data.List.Perm.Subperm
import Unikraft.Basic
import Unikraft.Lib.Family
import Unikraft.Lib.HList

/-!
# The dentry cache (`vfscore/dentry.c`)

A dentry stands for a path of a mounted file system; it is found through a hash and has a counted
reference to the dentry of its directory.

The hash chains are the intrusive lists of the source (`Lib.HList`); a removed dentry is on a list
of its own, `fake`. `DcacheOk`: each dentry is on one chain, and the dentries are a `Lib.Family`.
-/

namespace Unikraft.Vfscore

open Lib Function Outcome List Option

/-! ### The cache -/

/-- The heads of the lists: the buckets of `dentry_hash_table`, and `fake`. -/
inductive Chain
  | bucket (i : Nat)
  | fake
  deriving DecidableEq

/-- What a dentry stands for. -/
structure Ident where
  dPath : List Char
  dVnode : Nat
  dMount : Nat
  dParent : Option Nat
  deriving DecidableEq

/-- `struct dentry`; `dChildren` is the list `d_child_list`. -/
structure Dentry extends Ident where
  dRefcnt : Nat
  dChildren : List Nat

/-- The dentries in memory and the links between them. -/
structure Dcache where
  links : Links Chain Nat
  dentries : Nat → Option Dentry
  /-- The addresses of the dentries; their number bounds the loops. -/
  addrs : List Nat
  /-- What the next call of `calloc` returns; addresses are not used again. -/
  next : Nat
  /-- Whether there is memory for the dentry at an address. -/
  calloc : Nat → Bool

namespace Dcache

def deref (c : Dcache) (dp : Nat) : Outcome Dentry :=
  match c.dentries dp with
  | none => .error .badPointer
  | some d => .ok d

def set (c : Dcache) (dp : Nat) (d : Dentry) : Dcache :=
  { c with dentries := update c.dentries dp (some d) }

def free (c : Dcache) (dp : Nat) : Dcache :=
  { c with dentries := update c.dentries dp none, addrs := c.addrs.erase dp }

end Dcache

/-! ### The functions of dentry.c -/

/-- `dentry_hash`. Only the low five bits of a character matter, so its sign does not. -/
def dentryHash (mp : Nat) (path : List Char) : Nat :=
  (path.foldl (fun val ch => (val * 32 + val + ch.toNat) % 2 ^ 32) 0 ^^^ mp) &&& 31

/-- The state after `dentry_init`. -/
def dentryInit (calloc : Nat → Bool) : Dcache :=
  { links := ⟨fun _ => none, fun _ => .head .fake⟩
    dentries := fun _ => none
    addrs := []
    next := 0
    calloc := calloc }

def dref (c : Dcache) (dp : Nat) : Outcome Dcache := do
  let d ← c.deref dp
  ukAssert (0 < d.dRefcnt)
  .ok (c.set dp { d with dRefcnt := d.dRefcnt + 1 })

/-- Insert a dentry into the list of its parent's children. -/
def addChild (c : Dcache) (parent dp : Nat) : Outcome Dcache := do
  let d ← c.deref parent
  .ok (c.set parent { d with dChildren := dp :: d.dChildren })

/-- Take a dentry out of the list of its parent's children. -/
def removeChild (c : Dcache) (parent dp : Nat) : Outcome Dcache := do
  let d ← c.deref parent
  .ok (c.set parent { d with dChildren := d.dChildren.erase dp })

/-- `dentry_alloc`; `NULL` if there is no memory. -/
def dentryAlloc (c : Dcache) (mp : Nat) (parent : Option Nat) (vp : Nat) (path : List Char) :
    Outcome (Option Nat × Dcache) :=
  let dp := c.next
  if c.calloc dp = false then .ok (none, { c with next := dp + 1 })
  else do
    let c := { c with next := dp + 1, addrs := dp :: c.addrs }.set dp
      { dPath := path, dVnode := vp, dMount := mp, dParent := parent, dRefcnt := 1,
        dChildren := [] }
    let c ← match parent with
      | none => .ok c
      | some parent => do
          let c ← dref c parent
          addChild c parent dp
    .ok (some dp, { c with links := c.links.addHead (.bucket (dentryHash mp path)) dp })

/-- The loop of `dentry_lookup`. -/
def hashFind (c : Dcache) (mp : Nat) (path : List Char) : Nat → Option Nat → Outcome (Option Nat)
  | _, none => .ok none
  | 0, some _ => .error .divergence
  | fuel + 1, some dp => do
      let d ← c.deref dp
      if d.dMount = mp ∧ d.dPath = path then .ok (some dp)
      else hashFind c mp path fuel (c.links.cell (.next dp))

/-- The dentry that `dentry_lookup` finds. -/
def dentryFind (c : Dcache) (mp : Nat) (path : List Char) : Outcome (Option Nat) :=
  hashFind c mp path c.addrs.length (c.links.cell (.head (.bucket (dentryHash mp path))))

/-- `dentry_lookup`. Paths are shorter than `PATH_MAX`, so that `strncmp` compares all of
them. -/
def dentryLookup (c : Dcache) (mp : Nat) (path : List Char) : Outcome (Option Nat × Dcache) := do
  match ← dentryFind c mp path with
  | none => .ok (none, c)
  | some dp => do
      let d ← c.deref dp
      .ok (some dp, c.set dp { d with dRefcnt := d.dRefcnt + 1 })

/-- `dentry_children_remove`: the loop over the children. -/
def dentryChildrenRemove : List Nat → Dcache → Outcome Dcache
  | [], c => .ok c
  | entry :: rest, c => do
      let d ← c.deref entry
      ukAssert (0 < d.dRefcnt)
      dentryChildrenRemove rest { c with links := c.links.del entry }

/-- `drele`. The memory of a dentry is freed before the one of its parent here; nothing looks
at it in between. -/
def drele : Nat → Dcache → Nat → Outcome Dcache
  | 0, _, _ => .error .divergence
  | fuel + 1, c, dp => do
      let d ← c.deref dp
      ukAssert (0 < d.dRefcnt)
      if d.dRefcnt - 1 ≠ 0 then .ok (c.set dp { d with dRefcnt := d.dRefcnt - 1 })
      else do
        let c := { c with links := c.links.del dp }
        match d.dParent with
        | none => .ok (c.free dp)
        | some parent => do
            let c ← removeChild c parent dp
            drele fuel (c.free dp) parent

/-- A call of `drele`. -/
def Dcache.drele (c : Dcache) (dp : Nat) : Outcome Dcache := Vfscore.drele c.addrs.length c dp

/-- `dentry_move`; `dup` says whether the path can be copied. -/
def dentryMove (c : Dcache) (dp : Nat) (parent : Option Nat) (path : List Char) (dup : Bool) :
    Outcome (Option Errno × Dcache) := do
  let old ← c.deref dp
  if !dup then .ok (some .enomem, c)
  else do
    let c ← match old.dParent with
      | none => .ok c
      | some oldPdp => removeChild c oldPdp dp
    let c ← match parent with
      | none => .ok c
      | some parent => do
          let c ← dref c parent
          addChild c parent dp
    let d ← c.deref dp
    let c ← dentryChildrenRemove d.dChildren c
    let c := { c with links := c.links.del dp }
    let c := c.set dp { d with dPath := path, dParent := parent }
    let c := { c with links := c.links.addHead (.bucket (dentryHash d.dMount path)) dp }
    match old.dParent with
    | none => .ok (none, c)
    | some oldPdp => do
        let c ← c.drele oldPdp
        .ok (none, c)

def dentryRemove (c : Dcache) (dp : Nat) : Outcome Dcache := do
  let _ ← c.deref dp
  .ok { c with links := (c.links.del dp).addHead .fake dp }

/-! ### The invariant -/

def Dentry.member (d : Dentry) : Member Nat := ⟨d.dParent, d.dChildren, d.dRefcnt⟩

namespace Dcache

def fam (c : Dcache) (a : Nat) : Option (Member Nat) := (c.dentries a).map Dentry.member

def ident (c : Dcache) (a : Nat) : Option Ident := (c.dentries a).map Dentry.toIdent

end Dcache

/-- Every dentry is on one chain: on `fake` or in the bucket of its mount and path. -/
structure ChainsOk (links : Links Chain Nat) (ident : Nat → Option Ident)
    (L : Chain → List Nat) : Prop where
  lists : HLists links L
  listed : ∀ a, (ident a).isSome ↔ ∃ h, a ∈ L h
  place : ∀ a i h, ident a = some i → a ∈ L h →
    h = .fake ∨ h = .bucket (dentryHash i.dMount i.dPath)

/-- The cache, with the chains `L` and the references `ext` in the hands of the code. -/
structure DcacheOk (c : Dcache) (L : Chain → List Nat) (ext : Nat → Nat) : Prop where
  family : Family c.fam ext
  chains : ChainsOk c.links c.ident L
  addrs : ∀ a, a ∈ c.addrs ↔ (c.dentries a).isSome
  addrs_nodup : c.addrs.Nodup
  fresh : ∀ a, (c.dentries a).isSome → a < c.next

section

variable {c c' : Dcache} {L : Chain → List Nat} {ext : Nat → Nat} {a x : Nat} {d : Dentry}

section

variable (h : c.dentries a = some d)

include h

@[simp] theorem deref_some : c.deref a = .ok d := by
  rw [Dcache.deref, h]

theorem fam_some : c.fam a = some d.member := by
  rw [Dcache.fam, h]
  rfl

theorem ident_some : c.ident a = some d.toIdent := by
  rw [Dcache.ident, h]
  rfl

end

theorem dentry_of_fam {m : Member Nat} (h : c.fam a = some m) :
    ∃ d, c.dentries a = some d ∧ d.member = m := map_eq_some_iff.mp h

variable {i : Ident}

theorem dentry_of_ident (h : c.ident a = some i) :
    ∃ d, c.dentries a = some d ∧ d.toIdent = i := map_eq_some_iff.mp h

@[simp] theorem set_self : (c.set a d).dentries a = some d := update_self ..

theorem set_of_ne (h : x ≠ a) : (c.set a d).dentries x = c.dentries x :=
  update_of_ne h ..

theorem fam_set : (c.set a d).fam = update c.fam a (some d.member) := by
  funext x
  by_cases hx : x = a
  · rw [hx, fam_some set_self, update_self]
  · rw [Dcache.fam, set_of_ne hx, update_of_ne hx, Dcache.fam]

theorem ident_set : (c.set a d).ident = update c.ident a (some d.toIdent) := by
  funext x
  by_cases hx : x = a
  · rw [hx, ident_some set_self, update_self]
  · rw [Dcache.ident, set_of_ne hx, update_of_ne hx, Dcache.ident]

theorem ident_set_same (h : c.ident a = some d.toIdent) : (c.set a d).ident = c.ident := by
  rw [ident_set, ← h, update_eq_self]

theorem isSome_ident : (c.dentries a).isSome ↔ (c.ident a).isSome := by
  rw [Dcache.ident, isSome_map]

theorem isSome_set (h : (c.dentries a).isSome) :
    ((c.set a d).dentries x).isSome ↔ (c.dentries x).isSome := by
  by_cases hx : x = a
  · rw [hx, set_self]
    simp [h]
  · rw [set_of_ne hx]

variable {ext' : Nat → Nat}

theorem DcacheOk.set (h : DcacheOk c L ext) (hd : c.ident a = some d.toIdent)
    (hfam : Family (update c.fam a (some d.member)) ext') : DcacheOk (c.set a d) L ext' := by
  obtain ⟨d₀, hd₀, -⟩ := dentry_of_ident hd
  have hlive : (c.dentries a).isSome := by rw [hd₀]; rfl
  refine ⟨?_, ?_, ?_, h.addrs_nodup, ?_⟩
  · rw [fam_set]
    exact hfam
  · rw [ident_set_same hd]
    exact h.chains
  · intro x
    rw [isSome_set hlive]
    exact h.addrs x
  intro x hx
  exact h.fresh x ((isSome_set hlive).mp hx)

theorem DcacheOk.live_of_ext (h : DcacheOk c L ext) (ha : ext a ≠ 0) :
    ∃ d, c.dentries a = some d := by
  obtain ⟨m, hm⟩ := h.family.held a ha
  obtain ⟨d, hd, -⟩ := dentry_of_fam hm
  exact ⟨d, hd⟩

theorem DcacheOk.live_of_held (h : DcacheOk c L (ext + Pi.single a 1)) :
    ∃ d, c.dentries a = some d :=
  h.live_of_ext (by simp)

section

variable (h : DcacheOk c L ext)

include h

theorem DcacheOk.pos (hd : c.dentries a = some d) : 0 < d.dRefcnt :=
  h.family.pos a _ (fam_some hd)

theorem DcacheOk.sole (hd : c.dentries a = some d)
    (hcount : d.dRefcnt = 1) (hheld : ext a ≠ 0) : d.dChildren = [] ∧ ext a = 1 := by
  have hfam : d.dRefcnt = d.dChildren.length + ext a := h.family.count a _ (fam_some hd)
  exact ⟨length_eq_zero_iff.mp (by omega), by omega⟩

theorem DcacheOk.dead (hext : ext a = 0)
    (hkids : ∀ d, c.dentries a = some d → d.dChildren = []) : c.ident a = none := by
  refine eq_none_iff_forall_ne_some.mpr fun i hi => ?_
  obtain ⟨d, hd, -⟩ := dentry_of_ident hi
  have hfam : d.dRefcnt = d.dChildren.length + ext a := h.family.count a _ (fam_some hd)
  rw [hkids d hd, hext] at hfam
  exact absurd hfam (h.pos hd).ne'

theorem DcacheOk.dref (hd : c.dentries a = some d) :
    Vfscore.dref c a = .ok (c.set a { d with dRefcnt := d.dRefcnt + 1 }) ∧
      DcacheOk (c.set a { d with dRefcnt := d.dRefcnt + 1 }) L (ext + Pi.single a 1) := by
  constructor
  · rw [Vfscore.dref, deref_some hd, ok_bind, ukAssert_pos (h.pos hd)]
    rfl
  have hident : c.ident a = some d.toIdent := ident_some hd
  exact h.set hident (h.family.hold (fam_some hd))

end

end

/-! ### Looking up -/

section

variable {c : Dcache} {L : Chain → List Nat} {ext : Nat → Nat} {a mp : Nat} {path : List Char}
  {i : Ident}

def Dcache.matches (c : Dcache) (mp : Nat) (path : List Char) (a : Nat) : Bool :=
  (c.ident a).any fun i => i.dMount = mp ∧ i.dPath = path

theorem matches_iff :
    c.matches mp path a = true ↔ ∃ i, c.ident a = some i ∧ i.dMount = mp ∧ i.dPath = path := by
  rw [Dcache.matches]
  cases c.ident a with
  | none | some i => simp

variable {ch : Chain}

theorem ChainsOk.live (h : ChainsOk c.links c.ident L) (ha : a ∈ L ch) :
    ∃ d, c.dentries a = some d := by
  have hsome := (h.listed a).mpr ⟨ch, ha⟩
  obtain ⟨i, hi⟩ := isSome_iff_exists.mp hsome
  obtain ⟨d, hd, -⟩ := dentry_of_ident hi
  exact ⟨d, hd⟩

variable {ys : List Nat}

theorem hashFind_eq (h : ChainsOk c.links c.ident L) (xs : List Nat)
    (hL : L ch = xs ++ ys) {fuel : Nat} (hfuel : ys.length ≤ fuel) :
    hashFind c mp path fuel ys.head? = .ok (ys.find? (c.matches mp path)) := by
  induction ys generalizing xs fuel with
  | nil => cases fuel <;> rfl
  | cons y ys ih =>
    obtain ⟨fuel, rfl⟩ : ∃ n, fuel = n + 1 := ⟨fuel - 1, by simp at hfuel; omega⟩
    have hmem : y ∈ L ch := by rw [hL]; simp
    obtain ⟨d, hd⟩ := h.live hmem
    have hmatch : c.matches mp path y = decide (d.dMount = mp ∧ d.dPath = path) := by
      rw [Dcache.matches, ident_some hd]
      rfl
    rw [head?_cons, hashFind, deref_some hd, ok_bind, find?_cons, hmatch]
    by_cases heq : d.dMount = mp ∧ d.dPath = path
    · rw [if_pos heq, decide_eq_true heq]
    rw [if_neg heq, decide_eq_false heq, h.lists.next hL]
    exact ih (xs ++ [y]) (by simp [hL]) (by simpa using hfuel)

theorem DcacheOk.length_le (h : DcacheOk c L ext) (ch : Chain) :
    (L ch).length ≤ c.addrs.length := by
  refine (subperm_of_subset (h.chains.lists.nodup ch) fun a ha => (h.addrs a).mpr ?_).length_le
  obtain ⟨d, hd⟩ := h.chains.live ha
  rw [hd]
  rfl

theorem DcacheOk.dentryFind (h : DcacheOk c L ext) (mp : Nat) (path : List Char) :
    Vfscore.dentryFind c mp path =
      .ok ((L (.bucket (dentryHash mp path))).find? (c.matches mp path)) := by
  rw [Vfscore.dentryFind, h.chains.lists.first]
  exact hashFind_eq h.chains [] rfl (h.length_le _)

def Hashed (L : Chain → List Nat) (a : Nat) : Prop := ∃ i, a ∈ L (.bucket i)

theorem hashed_cons {b x : Nat} :
    Hashed (update L (.bucket b) (x :: L (.bucket b))) a ↔ a = x ∨ Hashed L a := by
  constructor
  · rintro ⟨i, hi⟩
    by_cases hib : i = b
    · rw [hib, update_self] at hi
      exact (mem_cons.mp hi).imp_right fun hmem => ⟨b, hmem⟩
    rw [update_of_ne (by simpa using hib)] at hi
    exact .inr ⟨i, hi⟩
  rintro (rfl | ⟨i, hi⟩)
  · exact ⟨b, by rw [update_self]; exact mem_cons_self⟩
  refine ⟨i, ?_⟩
  by_cases hib : i = b
  · rw [hib, update_self]
    exact mem_cons_of_mem _ (hib ▸ hi)
  · rwa [update_of_ne (by simpa using hib)]

theorem ChainsOk.mem_bucket (h : ChainsOk c.links c.ident L) (ha : Hashed L a)
    (hi : c.ident a = some i) : a ∈ L (.bucket (dentryHash i.dMount i.dPath)) := by
  obtain ⟨n, hn⟩ := ha
  rcases h.place a i _ hi hn with hfake | hbucket
  · cases hfake
  · rwa [← hbucket]

theorem DcacheOk.lookup_none (h : DcacheOk c L ext)
    (hfind : (L (.bucket (dentryHash mp path))).find? (c.matches mp path) = none) :
    dentryLookup c mp path = .ok (none, c) ∧
      ∀ a i, Hashed L a → c.ident a = some i → i.dMount = mp → i.dPath ≠ path := by
  constructor
  · rw [dentryLookup, h.dentryFind, hfind]
    rfl
  intro a i ha hi hmp hpath
  have hmem := h.chains.mem_bucket ha hi
  rw [hmp, hpath] at hmem
  exact find?_eq_none.mp hfind a hmem (matches_iff.mpr ⟨i, hi, hmp, hpath⟩)

theorem DcacheOk.lookup_some (h : DcacheOk c L ext)
    (hfind : (L (.bucket (dentryHash mp path))).find? (c.matches mp path) = some a) :
    ∃ d, c.dentries a = some d ∧ Hashed L a ∧ d.dMount = mp ∧ d.dPath = path ∧
      dentryLookup c mp path = .ok (some a, c.set a { d with dRefcnt := d.dRefcnt + 1 }) ∧
      DcacheOk (c.set a { d with dRefcnt := d.dRefcnt + 1 }) L (ext + Pi.single a 1) := by
  obtain ⟨i, hi, hmp, hpath⟩ := matches_iff.mp (find?_some hfind)
  obtain ⟨d, hd, rfl⟩ := dentry_of_ident hi
  refine ⟨d, hd, ⟨_, mem_of_find?_eq_some hfind⟩, hmp, hpath, ?_, (h.dref hd).2⟩
  rw [dentryLookup, h.dentryFind, hfind, ok_bind]
  simp only [deref_some hd]
  rfl

end

/-! ### Chains -/

section

variable {links : Links Chain Nat} {ident : Nat → Option Ident} {L : Chain → List Nat} {a : Nat}
  {i : Ident} {ch : Chain} {ys : List Nat}

section

variable (h : ChainsOk links ident L) {xs : List Nat}

include h

theorem ChainsOk.add (ha : ident a = none)
    (hch : ch = .fake ∨ ch = .bucket (dentryHash i.dMount i.dPath)) :
    ChainsOk (links.addHead ch a) (update ident a (some i)) (update L ch (a :: L ch)) := by
  have hnot : ∀ ch, a ∉ L ch := by
    intro ch hmem
    have hsome := (h.listed a).mpr ⟨ch, hmem⟩
    rw [ha] at hsome
    cases hsome
  have hmem : ∀ ch' x, x ∈ update L ch (a :: L ch) ch' ↔ (x = a ∧ ch' = ch) ∨ x ∈ L ch' := by
    intro ch' x
    by_cases hch' : ch' = ch
    · rw [hch', update_self, mem_cons]
      simp
    rw [update_of_ne hch']
    simp [hch']
  refine ⟨h.lists.addHead ch hnot, ?_, ?_⟩
  · intro x
    simp only [hmem]
    by_cases hx : x = a
    · rw [hx, update_self]
      simp
    rw [update_of_ne hx, h.listed x]
    simp [hx]
  intro x j ch' hj hx
  rw [hmem] at hx
  rcases update_some hj with ⟨rfl, rfl⟩ | ⟨hxa, hj⟩
  · rcases hx with ⟨-, rfl⟩ | hx
    · exact hch
    · exact absurd hx (hnot ch')
  exact h.place x j ch' hj (hx.resolve_left fun heq => hxa heq.1)

section

variable (hL : L ch = xs ++ a :: ys)

include hL

theorem ChainsOk.mem_del (ch' : Chain) (x : Nat) :
    x ∈ update L ch (xs ++ ys) ch' ↔ x ∈ L ch' ∧ x ≠ a := by
  have hnd := h.lists.nodup ch
  rw [hL] at hnd
  have hnot : a ∉ xs ++ ys := (nodup_cons.mp (nodup_middle.mp hnd)).1
  by_cases hch' : ch' = ch
  · rw [hch', update_self, hL]
    constructor
    · intro hx
      refine ⟨?_, fun heq => hnot (heq ▸ hx)⟩
      simp only [mem_append, mem_cons] at hx ⊢
      exact hx.imp_right .inr
    intro ⟨hx, hne⟩
    simp only [mem_append, mem_cons] at hx ⊢
    exact hx.imp_right fun hx => hx.resolve_left hne
  rw [update_of_ne hch']
  refine ⟨fun hx => ⟨hx, fun heq => hch' ?_⟩, fun hx => hx.1⟩
  exact h.lists.unique ch' ch a (heq ▸ hx) (by rw [hL]; simp)

theorem ChainsOk.del : ChainsOk (links.del a) (update ident a none) (update L ch (xs ++ ys)) := by
  have hmem := h.mem_del hL
  refine ⟨h.lists.del hL, ?_, ?_⟩
  · intro x
    simp only [hmem]
    by_cases hx : x = a
    · rw [hx, update_self]
      simp
    rw [update_of_ne hx, h.listed x]
    simp [hx]
  intro x j ch' hj hx
  obtain ⟨hx, hxa⟩ := (hmem ch' x).mp hx
  rw [update_of_ne hxa] at hj
  exact h.place x j ch' hj hx

theorem ChainsOk.move {ch' : Chain}
    (hch' : ch' = .fake ∨ ch' = .bucket (dentryHash i.dMount i.dPath)) :
    ChainsOk ((links.del a).addHead ch' a) (update ident a (some i))
      (update (update L ch (xs ++ ys)) ch' (a :: update L ch (xs ++ ys) ch')) := by
  have hdel := (h.del hL).add (update_self ..) hch'
  rwa [update_idem] at hdel

end

end

end

/-! ### Allocating -/

section

variable {c : Dcache} {L : Chain → List Nat} {ext ext' : Nat → Nat} {a p vp mp : Nat} {pd : Dentry}
  {path : List Char} {i : Ident}

theorem DcacheOk.next_free (h : DcacheOk c L ext) : c.dentries c.next = none := by
  by_contra hne
  exact Nat.lt_irrefl _ (h.fresh c.next (ne_none_iff_isSome.mp hne))

theorem dentryAlloc_none (hcalloc : c.calloc c.next = false) (parent : Option Nat) :
    dentryAlloc c mp parent vp path = .ok (none, { c with next := c.next + 1 }) := by
  rw [dentryAlloc, if_pos hcalloc]

theorem DcacheOk.skip (h : DcacheOk c L ext) : DcacheOk { c with next := c.next + 1 } L ext :=
  ⟨h.family, h.chains, h.addrs, h.addrs_nodup, fun a ha => Nat.lt_succ_of_lt (h.fresh a ha)⟩

/-- The cache after `dentry_alloc` for a child of `p`. -/
def Dcache.allocated (c : Dcache) (mp p : Nat) (pd : Dentry) (vp : Nat) (path : List Char) :
    Dcache :=
  { links := c.links.addHead (.bucket (dentryHash mp path)) c.next
    dentries := update (update c.dentries p
      (some { pd with dRefcnt := pd.dRefcnt + 1, dChildren := c.next :: pd.dChildren })) c.next
      (some { dPath := path, dVnode := vp, dMount := mp, dParent := some p, dRefcnt := 1,
              dChildren := [] })
    addrs := c.next :: c.addrs
    next := c.next + 1
    calloc := c.calloc }

theorem DcacheOk.dentryAlloc_eq (h : DcacheOk c L ext) (hcalloc : c.calloc c.next = true)
    (hp : c.dentries p = some pd) :
    dentryAlloc c mp (some p) vp path = .ok (some c.next, c.allocated mp p pd vp path) := by
  have hne : p ≠ c.next := fun heq => by rw [heq, h.next_free] at hp; cases hp
  have hpos := h.pos hp
  simp only [dentryAlloc, hcalloc, Vfscore.dref, addChild, Dcache.deref, Dcache.set,
    ukAssert_pos hpos,
    update_of_ne hne, hp, ok_bind, update_self, update_idem,
    Bool.true_eq_false, if_false, Dcache.allocated]
  rw [update_comm hne]

theorem allocated_ident (hp : c.dentries p = some pd) (hne : p ≠ c.next) :
    (c.allocated mp p pd vp path).ident = update c.ident c.next (some ⟨path, vp, mp, some p⟩) := by
  funext x
  by_cases hx : x = c.next
  · rw [hx, update_self]
    simp [Dcache.ident, Dcache.allocated]
  rw [update_of_ne hx]
  by_cases hxp : x = p
  · rw [hxp]
    simp [Dcache.ident, Dcache.allocated, update_of_ne hne, hp]
  · simp [Dcache.ident, Dcache.allocated, update_of_ne hx, update_of_ne hxp]

theorem allocated_next : (c.allocated mp p pd vp path).dentries c.next =
    some { dPath := path, dVnode := vp, dMount := mp, dParent := some p, dRefcnt := 1,
           dChildren := [] } :=
  update_self ..

theorem allocated_of_ne {a : Nat} (hnext : a ≠ c.next) (hp : a ≠ p) :
    (c.allocated mp p pd vp path).dentries a = c.dentries a :=
  (update_of_ne hnext ..).trans (update_of_ne hp ..)

theorem allocated_fam :
    (c.allocated mp p pd vp path).fam = update (update c.fam p
      (some ⟨pd.dParent, c.next :: pd.dChildren, pd.dRefcnt + 1⟩)) c.next
      (some ⟨some p, [], 1⟩) := by
  funext x
  by_cases hx : x = c.next
  · rw [hx, update_self]
    simp [Dcache.fam, Dcache.allocated, Dentry.member]
  rw [update_of_ne hx]
  by_cases hxp : x = p
  · rw [hxp, update_self]
    rw [hxp] at hx
    simp [Dcache.fam, Dcache.allocated, update_of_ne hx, Dentry.member]
  · simp [Dcache.fam, Dcache.allocated, update_of_ne hx, update_of_ne hxp]

theorem DcacheOk.new_dentry {c' : Dcache} (h : DcacheOk c L ext)
    (hfam : Family c'.fam ext') (hident : c'.ident = update c.ident c.next (some i))
    (hlinks : c'.links = c.links.addHead (.bucket (dentryHash i.dMount i.dPath)) c.next)
    (haddrs : c'.addrs = c.next :: c.addrs) (hnext : c'.next = c.next + 1) :
    DcacheOk c' (update L (.bucket (dentryHash i.dMount i.dPath))
      (c.next :: L (.bucket (dentryHash i.dMount i.dPath)))) ext' := by
  have hfree := h.next_free
  have hlive : ∀ x, (c'.dentries x).isSome ↔ x = c.next ∨ (c.dentries x).isSome := by
    intro x
    have hsome : ∀ c : Dcache, (c.dentries x).isSome ↔ (c.ident x).isSome := fun c => by
      rw [Dcache.ident, isSome_map]
    rw [hsome c', hsome c, hident]
    by_cases hx : x = c.next
    · simp [hx]
    · simp [hx]
  refine ⟨hfam, ?_, ?_, ?_, ?_⟩
  · rw [hident, hlinks]
    refine h.chains.add ?_ (.inr rfl)
    rw [Dcache.ident, hfree]
    rfl
  · intro x
    rw [hlive, haddrs, mem_cons, h.addrs]
  · rw [haddrs]
    refine nodup_cons.mpr ⟨fun hmem => ?_, h.addrs_nodup⟩
    rw [h.addrs, hfree] at hmem
    cases hmem
  intro x hx
  rw [hnext]
  rcases (hlive x).mp hx with rfl | hx
  · exact Nat.lt_succ_self _
  · exact Nat.lt_succ_of_lt (h.fresh x hx)

theorem DcacheOk.alloc (h : DcacheOk c L ext) (hp : c.dentries p = some pd) :
    DcacheOk (c.allocated mp p pd vp path) (update L (.bucket (dentryHash mp path))
        (c.next :: L (.bucket (dentryHash mp path)))) (ext + Pi.single c.next 1) := by
  have hfree := h.next_free
  have hne : p ≠ c.next := fun heq => by rw [heq, hfree] at hp; cases hp
  have hfam : c.fam c.next = none := by rw [Dcache.fam, hfree]; rfl
  have hpar : update c.fam c.next (some ⟨none, [], 1⟩) p = some pd.member := by
    rw [update_of_ne hne, fam_some hp]
  have hatt := (h.family.alloc hfam).attach (update_self ..) rfl hpar (Ne.symm hne)
  rw [update_comm hne, update_idem, update_comm (Ne.symm hne)] at hatt
  have hfamily : Family (c.allocated mp p pd vp path).fam (ext + Pi.single c.next 1) := by
    rw [allocated_fam]
    exact hatt
  exact h.new_dentry hfamily (allocated_ident hp hne) rfl rfl rfl

/-- The cache after `dentry_alloc` for the root of a mount. -/
def Dcache.allocatedRoot (c : Dcache) (mp vp : Nat) (path : List Char) : Dcache :=
  { links := c.links.addHead (.bucket (dentryHash mp path)) c.next
    dentries := update c.dentries c.next
      (some { dPath := path, dVnode := vp, dMount := mp, dParent := none, dRefcnt := 1,
              dChildren := [] })
    addrs := c.next :: c.addrs
    next := c.next + 1
    calloc := c.calloc }

theorem allocatedRoot_ident : (c.allocatedRoot mp vp path).ident =
    update c.ident c.next (some ⟨path, vp, mp, none⟩) :=
  ident_set (c := c)

theorem firstDentry {calloc : Nat → Bool}
    (h : ((dentryInit calloc).allocatedRoot mp vp path).ident a = some i) :
    a = 0 ∧ i = ⟨path, vp, mp, none⟩ := by
  rw [allocatedRoot_ident] at h
  exact (update_some h).resolve_right fun hold => by cases hold.2

theorem DcacheOk.alloc_root (h : DcacheOk c L ext) :
    DcacheOk (c.allocatedRoot mp vp path) (update L (.bucket (dentryHash mp path))
        (c.next :: L (.bucket (dentryHash mp path)))) (ext + Pi.single c.next 1) := by
  have hfam : c.fam c.next = none := by rw [Dcache.fam, h.next_free]; rfl
  have hset : (c.allocatedRoot mp vp path).fam =
      update c.fam c.next (some ⟨none, [], 1⟩) := fam_set (c := c)
  have hfamily : Family (c.allocatedRoot mp vp path).fam (ext + Pi.single c.next 1) := by
    rw [hset]
    exact h.family.alloc hfam
  exact h.new_dentry hfamily allocatedRoot_ident rfl rfl rfl

theorem DcacheOk.init {calloc : Nat → Bool} : DcacheOk (dentryInit calloc) (fun _ => []) 0 where
  family := ⟨nofun, nofun, nofun, nofun, nofun, nofun, fun _ h => absurd rfl h⟩
  chains := ⟨⟨fun _ => trivial, fun _ => rfl, fun _ => nodup_nil, nofun⟩,
    fun _ => ⟨nofun, fun ⟨_, h⟩ => nomatch h⟩, nofun⟩
  addrs _ := ⟨nofun, nofun⟩
  addrs_nodup := nodup_nil
  fresh := nofun

end

/-! ### Releasing -/

/-- What is left when references are dropped: some dentries are freed, the others are as they were.
-/
structure Shrunk (c : Dcache) (L : Chain → List Nat) (c' : Dcache) (L' : Chain → List Nat) :
    Prop where
  ident : ∀ x i, c'.ident x = some i → c.ident x = some i
  kids : ∀ x d', c'.dentries x = some d' → ∃ d, c.dentries x = some d ∧ d'.dChildren ⊆ d.dChildren
  mem : ∀ h x, x ∈ L' h → x ∈ L h
  keep : ∀ h x, x ∈ L h → (c'.ident x).isSome → x ∈ L' h
  calloc : c'.calloc = c.calloc

section

variable {c c' c₁ : Dcache} {L L' L₁ : Chain → List Nat} {ext ext' : Nat → Nat} {a : Nat}
  {d pd : Dentry} {ch : Chain} {ys : List Nat}

theorem Shrunk.refl : Shrunk c L c L :=
  ⟨fun _ _ h => h, fun _ d h => ⟨d, h, fun _ hx => hx⟩, fun _ _ h => h, fun _ _ h _ => h, rfl⟩

theorem Shrunk.trans (h : Shrunk c L c₁ L₁) (h' : Shrunk c₁ L₁ c' L') : Shrunk c L c' L' where
  ident x i hi := h.ident x i (h'.ident x i hi)
  kids x d' hd' := by
    obtain ⟨d₁, hd₁, hsub₁⟩ := h'.kids x d' hd'
    obtain ⟨d, hd, hsub⟩ := h.kids x d₁ hd₁
    exact ⟨d, hd, fun y hy => hsub (hsub₁ hy)⟩
  mem ch x hx := h.mem ch x (h'.mem ch x hx)
  keep ch x hx hlive := by
    obtain ⟨i, hi⟩ := isSome_iff_exists.mp hlive
    have hlive₁ : (c₁.ident x).isSome := by rw [h'.ident x i hi]; rfl
    exact h'.keep ch x (h.keep ch x hx hlive₁) hlive
  calloc := h'.calloc.trans h.calloc

theorem Shrunk.set (hd : c.dentries a = some d) {d' : Dentry} (hident : d'.toIdent = d.toIdent)
    (hkids : d'.dChildren ⊆ d.dChildren) : Shrunk c L (c.set a d') L where
  ident x i hi := by
    rwa [ident_set_same (by rw [ident_some hd, hident])] at hi
  kids x dx hx := by
    by_cases hxa : x = a
    · rw [hxa, set_self] at hx
      cases hx
      exact ⟨d, hxa ▸ hd, hkids⟩
    rw [set_of_ne hxa] at hx
    exact ⟨dx, hx, fun _ hy => hy⟩
  mem _ _ hx := hx
  keep _ _ hx _ := hx
  calloc := rfl

/-- The cache after the last reference on `a` is gone, before its parent `p` is released. -/
def Dcache.freed (c : Dcache) (a p : Nat) (pd : Dentry) : Dcache :=
  { c with
    links := c.links.del a
    dentries := update (update c.dentries p
      (some { pd with dChildren := pd.dChildren.erase a })) a none
    addrs := c.addrs.erase a }

theorem freed_ident {p : Nat} (hp : c.dentries p = some pd) :
    (c.freed a p pd).ident = update c.ident a none := by
  funext x
  by_cases hx : x = a
  · rw [hx, update_self]
    simp [Dcache.ident, Dcache.freed]
  rw [update_of_ne hx]
  by_cases hxp : x = p
  · rw [hxp] at hx ⊢
    simp [Dcache.ident, Dcache.freed, update_of_ne hx, hp]
  · simp [Dcache.ident, Dcache.freed, update_of_ne hx, update_of_ne hxp]

theorem freed_fam {p : Nat} :
    (c.freed a p pd).fam = update (update c.fam p
      (some ⟨pd.dParent, pd.dChildren.erase a, pd.dRefcnt⟩)) a none := by
  funext x
  by_cases hx : x = a
  · rw [hx, update_self]
    simp [Dcache.fam, Dcache.freed]
  rw [update_of_ne hx]
  by_cases hxp : x = p
  · rw [hxp] at hx ⊢
    simp [Dcache.fam, Dcache.freed, update_of_ne hx, Dentry.member]
  · simp [Dcache.fam, Dcache.freed, update_of_ne hx, update_of_ne hxp]

theorem ChainsOk.split (h : ChainsOk c.links c.ident L) (hd : c.dentries a = some d) :
    ∃ ch xs ys, L ch = xs ++ a :: ys := by
  have hsome : (c.ident a).isSome := by rw [ident_some hd]; rfl
  obtain ⟨ch, hch⟩ := (h.listed a).mp hsome
  obtain ⟨xs, ys, hL⟩ := append_of_mem hch
  exact ⟨ch, xs, ys, hL⟩

theorem DcacheOk.free_dentry {xs : List Nat}
    (h : DcacheOk c L ext) (hL : L ch = xs ++ a :: ys) (hfam : Family c'.fam ext')
    (hident : c'.ident = update c.ident a none) (hlinks : c'.links = c.links.del a)
    (haddrs : c'.addrs = c.addrs.erase a) (hnext : c'.next = c.next)
    (hcalloc : c'.calloc = c.calloc) (hkids : ∀ x d', c'.dentries x = some d' →
      ∃ d, c.dentries x = some d ∧ d'.dChildren ⊆ d.dChildren) :
    DcacheOk c' (update L ch (xs ++ ys)) ext' ∧ Shrunk c L c' (update L ch (xs ++ ys)) := by
  have hsome : ∀ (c : Dcache) x, (c.dentries x).isSome ↔ (c.ident x).isSome := fun c x => by
    rw [Dcache.ident, isSome_map]
  have hold : ∀ x i, c'.ident x = some i → c.ident x = some i := by
    intro x i hi
    rw [hident] at hi
    by_cases hx : x = a
    · rw [hx, update_self] at hi
      cases hi
    · rwa [update_of_ne hx] at hi
  refine ⟨⟨hfam, ?_, ?_, ?_, ?_⟩, ⟨hold, hkids, ?_, ?_, hcalloc⟩⟩
  · rw [hident, hlinks]
    exact h.chains.del hL
  · intro x
    rw [haddrs, hsome, hident]
    by_cases hx : x = a
    · rw [hx, update_self]
      simp [h.addrs_nodup.not_mem_erase]
    · rw [mem_erase_of_ne hx, h.addrs, hsome, update_of_ne hx]
  · rw [haddrs]
    exact h.addrs_nodup.erase a
  · intro x hx
    obtain ⟨i, hi⟩ := isSome_iff_exists.mp ((hsome c' x).mp hx)
    rw [hnext]
    exact h.fresh x ((hsome c x).mpr (by rw [hold x i hi]; rfl))
  · intro ch' x hx
    exact ((h.chains.mem_del hL ch' x).mp hx).1
  intro ch' x hx hlive
  refine (h.chains.mem_del hL ch' x).mpr ⟨hx, fun heq => ?_⟩
  rw [hident, heq, update_self] at hlive
  cases hlive

section

variable (h : DcacheOk c L (ext + Pi.single a 1))

include h

theorem DcacheOk.freed {p : Nat} {xs : List Nat}
    (hd : c.dentries a = some d) (hone : d.dRefcnt = 1) (hparent : d.dParent = some p)
    (hp : c.dentries p = some pd) (hL : L ch = xs ++ a :: ys) :
    DcacheOk (c.freed a p pd) (update L ch (xs ++ ys)) (ext + Pi.single p 1) ∧
      Shrunk c L (c.freed a p pd) (update L ch (xs ++ ys)) := by
  have hfam : Family (c.freed a p pd).fam (ext + Pi.single p 1) := by
    have hdet := h.family.detach (fam_some hd) hparent (fam_some hp)
    rw [add_right_comm] at hdet
    have hrem := hdet.remove (update_self ..) rfl hone
    rw [update_idem] at hrem
    rw [freed_fam]
    exact hrem
  refine h.free_dentry hL hfam (freed_ident hp) rfl rfl rfl rfl ?_
  intro x d' hd'
  by_cases hxa : x = a
  · rw [hxa] at hd'
    have hnone : (c.freed a p pd).dentries a = none := update_self ..
    rw [hnone] at hd'
    cases hd'
  by_cases hxp : x = p
  · simp only [Dcache.freed, update_of_ne hxa] at hd'
    rw [hxp, update_self] at hd'
    cases hd'
    exact ⟨pd, hxp ▸ hp, erase_subset⟩
  simp only [Dcache.freed, update_of_ne hxa, update_of_ne hxp] at hd'
  exact ⟨d', hd', fun _ hy => hy⟩

theorem DcacheOk.freed_root {xs : List Nat} (hd : c.dentries a = some d)
    (hone : d.dRefcnt = 1) (hparent : d.dParent = none) (hL : L ch = xs ++ a :: ys) :
    DcacheOk ({ c with links := c.links.del a }.free a) (update L ch (xs ++ ys)) ext ∧
      Shrunk c L ({ c with links := c.links.del a }.free a) (update L ch (xs ++ ys)) := by
  have hother : ∀ x, x ≠ a → (({ c with links := c.links.del a } : Dcache).free a).dentries x =
      c.dentries x := fun x hx => update_of_ne hx ..
  have hnone : (({ c with links := c.links.del a } : Dcache).free a).dentries a = none :=
    update_self ..
  have hfam : Family (({ c with links := c.links.del a } : Dcache).free a).fam ext := by
    have hrem := h.family.remove (fam_some hd) hparent hone
    convert hrem using 1
    funext x
    by_cases hx : x = a
    · rw [hx, update_self, Dcache.fam, hnone]
      rfl
    · rw [update_of_ne hx, Dcache.fam, hother x hx, Dcache.fam]
  have hident : (({ c with links := c.links.del a } : Dcache).free a).ident =
      update c.ident a none := by
    funext x
    by_cases hx : x = a
    · rw [hx, update_self, Dcache.ident, hnone]
      rfl
    · rw [update_of_ne hx, Dcache.ident, hother x hx, Dcache.ident]
  refine h.free_dentry hL hfam hident rfl rfl rfl rfl fun x d' hd' => ?_
  have hxa : x ≠ a := fun heq => by rw [heq, hnone] at hd'; cases hd'
  rw [hother x hxa] at hd'
  exact ⟨d', hd', fun _ hy => hy⟩

/-- **`drele` drops a reference** and with it, one after the other, the dentries nobody else
refers to. -/
theorem DcacheOk.drele_fuel {fuel : Nat} (hfuel : c.addrs.length ≤ fuel) :
    ∃ c' L', Vfscore.drele fuel c a = .ok c' ∧ DcacheOk c' L' ext ∧ Shrunk c L c' L' ∧
      ∀ d, c.dentries a = some d → d.dRefcnt = 1 → c'.dentries a = none := by
  obtain ⟨d, hd⟩ := h.live_of_held
  have hmem : a ∈ c.addrs := (h.addrs a).mpr (by rw [hd]; rfl)
  have hlen := length_pos_of_mem hmem
  induction fuel generalizing c L ext a d with
  | zero => omega
  | succ fuel ih =>
    have hpos := h.pos hd
    rw [Vfscore.drele, deref_some hd, ok_bind, ukAssert_pos hpos, ok_bind]
    by_cases hone : d.dRefcnt = 1
    · rw [if_neg (by omega)]
      obtain ⟨ch, xs, ys, hL⟩ := h.chains.split hd
      cases hparent : d.dParent with
      | none =>
        obtain ⟨hok, hshrunk⟩ := h.freed_root hd hone hparent hL
        exact ⟨_, _, rfl, hok, hshrunk, fun _ _ _ => update_self ..⟩
      | some p =>
        obtain ⟨m, hm⟩ := h.family.parent a _ p (fam_some hd) hparent
        obtain ⟨pd, hp, -⟩ := dentry_of_fam hm
        obtain ⟨hok, hshrunk⟩ := h.freed hd hone hparent hp hL
        have herase : (c.freed a p pd).addrs.length ≤ fuel := by
          show (c.addrs.erase a).length ≤ fuel
          rw [length_erase_of_mem hmem]
          omega
        obtain ⟨pd', hp'⟩ := hok.live_of_held
        have hpmem : p ∈ (c.freed a p pd).addrs := (hok.addrs p).mpr (by rw [hp']; rfl)
        obtain ⟨c', L', hcall, hok', hshrunk', -⟩ :=
          ih hok herase pd' hp' hpmem (length_pos_of_mem hpmem)
        refine ⟨c', L', ?_, hok', hshrunk.trans hshrunk', fun _ _ _ => ?_⟩
        · have hremove : removeChild { c with links := c.links.del a } p a =
              .ok ({ c with links := c.links.del a }.set p
                { pd with dChildren := pd.dChildren.erase a }) := by
            rw [removeChild, deref_some (c := { c with links := c.links.del a }) hp]
            rfl
          simp only [hremove, ok_bind]
          exact hcall
        by_contra hne
        obtain ⟨d', hd'⟩ := ne_none_iff_exists'.mp hne
        obtain ⟨d₁, hd₁, -⟩ := hshrunk'.kids a d' hd'
        have hnone : (c.freed a p pd).dentries a = none := update_self ..
        rw [hnone] at hd₁
        cases hd₁
    rw [if_pos (by omega)]
    have hident : c.ident a = some d.toIdent := ident_some hd
    have hdrop := h.family.drop (fam_some hd) hone
    refine ⟨_, L, rfl, ?_, Shrunk.set hd rfl fun _ hx => hx, ?_⟩
    · have hset : DcacheOk (c.set a { d with dRefcnt := d.dRefcnt - 1 }) L ext := h.set hident hdrop
      exact hset
    intro d' hd' hone'
    rw [hd] at hd'
    cases hd'
    exact absurd hone' hone

theorem DcacheOk.drele :
    ∃ c' L', c.drele a = .ok c' ∧ DcacheOk c' L' ext ∧ Shrunk c L c' L' ∧
      ∀ d, c.dentries a = some d → d.dRefcnt = 1 → c'.dentries a = none :=
  h.drele_fuel (Nat.le_refl _)

end

theorem Shrunk.hashed (h : Shrunk c L c' L') (ha : Hashed L' a) : Hashed L a := by
  obtain ⟨b, hb⟩ := ha
  exact ⟨b, h.mem _ a hb⟩

theorem Shrunk.hashed_keep (h : Shrunk c L c' L') (ha : Hashed L a)
    (hlive : (c'.ident a).isSome) : Hashed L' a := by
  obtain ⟨b, hb⟩ := ha
  exact ⟨b, h.keep _ a hb hlive⟩

theorem Shrunk.live (h : Shrunk c L c' L') (ha : (c'.ident a).isSome) : (c.ident a).isSome := by
  obtain ⟨i, hi⟩ := isSome_iff_exists.mp ha
  rw [h.ident a i hi]
  rfl

end

end Unikraft.Vfscore
