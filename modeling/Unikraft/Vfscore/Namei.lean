import Unikraft.Vfscore.Dentry
import Unikraft.Vfscore.PathConv

/-!
# Path resolution (`vfscore/lookup.c`)

`namei` looks for a dentry of the whole path; if there is none, it walks from the root of the mount,
takes each dentry from the cache or makes it, and starts again at a symbolic link. `lookup` resolves
the directory of a path, `namei_last_nofollow` its last component. An invariant that survives
releases and new dentries (`WalkInv`) survives all of them.
-/

namespace Unikraft.Vfscore

open Lib Outcome List

/-! ### The file systems -/

inductive VType
  | vdir
  | vreg
  | vlnk
  deriving DecidableEq

/-- The vnode operations that a resolution uses, and the root vnodes of the mounts. -/
structure Vops where
  lookup : Nat → List Char → Outcome (Except Errno Nat)
  vtype : Nat → VType
  readlink : Nat → Outcome (Except Errno (List Char))
  root : Nat → Nat

/-- `struct mount`: its address, `m_path` and `m_root`. -/
structure Mount where
  addr : Nat
  mPath : List Char
  mRoot : Nat

def maxSymlinks : Nat := 20

/-! ### The functions of mount.c and lookup.c -/

/-- `count_match`: the length of the path of a mount point, if `path` is below it. -/
def countMatch (path mountRoot : List Char) : Nat :=
  if ¬ mountRoot <+: path then 0
  else if mountRoot = ['/'] then 1
  else
    match path.drop mountRoot.length with
    | [] => mountRoot.length
    | x :: _ => if x = '/' then mountRoot.length else 0

/-- The loop of `vfs_findroot`: the first mount with the longest match. -/
def findrootLoop (path : List Char) : List Mount → Nat → Option Mount → Nat × Option Mount
  | [], maxLen, m => (maxLen, m)
  | tmp :: rest, maxLen, m =>
    let len := countMatch path tmp.mPath
    if maxLen < len then findrootLoop path rest len (some tmp)
    else findrootLoop path rest maxLen m

/-- `vfs_findroot`: the mount of a path, and where the path goes on in it. -/
def vfsFindroot (mounts : List Mount) (path : List Char) : Option (Mount × Nat) :=
  match findrootLoop path mounts 0 none with
  | (_, none) => none
  | (maxLen, some m) =>
    some (m, if (path.drop maxLen).head? = some '/' then maxLen + 1 else maxLen)

/-- `strlcat` into a buffer of `PATH_MAX` characters that has a string in it. -/
def strlcat (dst src : List Char) : List Char := (dst ++ src).take (pathMax - 1)

/-- `namei_follow_link`: the path with the link replaced. An error of `path_conv` is not looked at.
-/
def nameiFollowLink (fs : Vops) (vp : Nat) (node name fp : List Char) (mountpointLen : Nat) :
    Outcome (Except Errno (List Char)) := do
  match ← fs.readlink vp with
  | .error e => .ok (.error e)
  | .ok link =>
    if pathMax ≤ link.length then .error .outOfBounds
    else
      let p := fp.drop (mountpointLen + node.length)
      let c := node.length - name.length - 1
      if link.head? = some '/' then .ok (.ok (strlcat link p))
      else do
        match ← pathConv (fp.take (mountpointLen + c)) link with
        | .error _ => .ok (.ok (strlcat fp p))
        | .ok full => .ok (.ok (strlcat full p))

/-- The dentry of a component: from the cache, or a new one for the vnode that the directory
has under the name. -/
def nameiEntry (fs : Vops) (c : Dcache) (mp ddp dvp : Nat) (name node : List Char) :
    Outcome (Except Errno Nat × Dcache) := do
  match ← dentryLookup c mp node with
  | (some dp, c) => .ok (.ok dp, c)
  | (none, c) => do
      match ← fs.lookup dvp name with
      | .error e => .ok (.error e, c)
      | .ok vp => do
          match ← dentryAlloc c mp (some ddp) vp node with
          | (none, c) => .ok (.error .enomem, c)
          | (some dp, c) => .ok (.ok dp, c)

/-- How a walk ends: with what is returned, with an error, or with another path to resolve. -/
inductive Walked
  | found (x : Option Nat)
  | fail (e : Errno)
  | again (fp : List Char)
  deriving DecidableEq

/-- The loop over the components of `p`. `node` is no longer than `fp`. The vnodes of a mount have
it as their `v_mount`. -/
def nameiWalk (fs : Vops) (mp : Nat) (fp : List Char) (mountpointLen : Nat) :
    Nat → Dcache → (node p : List Char) → (ddp : Nat) → (dp : Option Nat) →
      Outcome (Walked × Dcache)
  | 0, _, _, _, _, _ => .error .divergence
  | fuel + 1, c, node, p, ddp, dp =>
    match p.dropWhile (· = '/') with
    | [] => .ok (.found dp, c)
    | x :: xs => do
        let name := (x :: xs).takeWhile (· ≠ '/')
        let p := (x :: xs).dropWhile (· ≠ '/')
        let node := node ++ '/' :: name
        let dd ← c.deref ddp
        let (r, c) ← nameiEntry fs c mp ddp dd.dVnode name node
        let c ← c.drele ddp
        match r with
        | .error e => .ok (.fail e, c)
        | .ok dp => do
            let d ← c.deref dp
            if fs.vtype d.dVnode = .vlnk then do
              let r ← nameiFollowLink fs d.dVnode node name fp mountpointLen
              let c ← c.drele dp
              match r with
              | .error e => .ok (.fail e, c)
              | .ok fp => .ok (.again fp, c)
            else if p.head? = some '/' ∧ fs.vtype d.dVnode ≠ .vdir then do
              let c ← c.drele dp
              .ok (.fail .enotdir, c)
            else nameiWalk fs mp fp mountpointLen fuel c node p dp (some dp)

/-- One turn of the outer loop of `namei`. -/
def nameiTurn (fs : Vops) (mounts : List Mount) (c : Dcache) (fp : List Char) :
    Outcome (Walked × Dcache) :=
  match vfsFindroot mounts fp with
  | none => .ok (.fail .enotdir, c)
  | some (m, pos) => do
      let p := fp.drop pos
      match ← dentryLookup c m.addr ('/' :: p) with
      | (some dp, c) => .ok (.found (some dp), c)
      | (none, c) => do
          let c ← dref c m.mRoot
          nameiWalk fs m.addr fp (pos - 1) (p.length + 1) c [] p m.mRoot none

/-- The outer loop of `namei`, with the number of links that may still be followed: a dentry with a
reference, or `NULL`. -/
def nameiLoop (fs : Vops) (mounts : List Mount) :
    Nat → Dcache → List Char → Outcome (Except Errno (Option Nat) × Dcache)
  | 0, c, _ => .ok (.error .eloop, c)
  | left + 1, c, fp => do
      match ← nameiTurn fs mounts c fp with
      | (.found dp, c) => .ok (.ok dp, c)
      | (.fail e, c) => .ok (.error e, c)
      | (.again fp, c) => nameiLoop fs mounts left c fp

def namei (fs : Vops) (mounts : List Mount) (c : Dcache) (path : List Char) :
    Outcome (Except Errno (Option Nat) × Dcache) :=
  nameiLoop fs mounts maxSymlinks c (path.take (pathMax - 1))

/-- The path before its last slash, and the name behind that (`strrchr`). -/
def splitLast (path : List Char) : Option (List Char × List Char) :=
  match path.reverse.dropWhile (· ≠ '/') with
  | [] => none
  | _ :: dir => some (dir.reverse, (path.reverse.takeWhile (· ≠ '/')).reverse)

/-- `lookup`: the dentry of the directory of a path, and the name in it. A `NULL` from `strrchr`
or `namei` is used without a check. -/
def lookup (fs : Vops) (mounts : List Mount) (c : Dcache) (path : List Char) :
    Outcome (Except Errno (Nat × List Char) × Dcache) :=
  let buf := path.take (pathMax - 1)
  if buf = [] then .ok (.error .enotdir, c)
  else
    match splitLast buf, splitLast path with
    | some (dir, _), some (_, name) => do
        let (r, c) ← namei fs mounts c (if dir = [] then ['/'] else dir)
        match r with
        | .error e => .ok (.error e, c)
        | .ok none => .error .badPointer
        | .ok (some dp) => do
            let d ← c.deref dp
            if fs.vtype d.dVnode ≠ .vdir then do
              let c ← c.drele dp
              .ok (.error .enotdir, c)
            else .ok (.ok (dp, name), c)
    | _, _ => .error .badPointer

def endsSlash (p : List Char) : Bool := p.getLast? = some '/'

/-- What `namei_last_nofollow` looks up: the mount, the last name of the path, and the path in
the mount. -/
def lastComponent (mounts : List Mount) (path : List Char) :
    Except Errno (Nat × List Char × List Char) :=
  if path.head? ≠ some '/' then .error .enotdir
  else
    match splitLast path, vfsFindroot mounts path with
    | none, _ => .error .enoent
    | some _, none => .error .enotdir
    | some (_, name), some (m, pos) =>
      let node := strlcat ['/'] (path.drop pos)
      -- `/tmp/` is the same as `/tmp`
      .ok (m.addr, name, if 1 < node.length ∧ endsSlash node = true then node.dropLast else node)

/-- `namei_last_nofollow`: the dentry of the last component of a path in the directory `ddp`. -/
def nameiLastNofollow (fs : Vops) (mounts : List Mount) (c : Dcache) (path : List Char)
    (ddp : Nat) : Outcome (Except Errno Nat × Dcache) :=
  match lastComponent mounts path with
  | .error e => .ok (.error e, c)
  | .ok (mp, name, node) => do
      let dd ← c.deref ddp
      nameiEntry fs c mp ddp dd.dVnode name node

/-- The names in a path: its components without the empty ones. -/
def names (p : List Char) : List (List Char) := (components p).filter (· ≠ [])

/-! ### Names -/

section

variable {p q : List Char}

@[simp] theorem names_nil : names [] = [] := rfl

@[simp] theorem names_slash : names ('/' :: p) = names p := by
  rw [names, components_slash, filter_cons_of_neg (by simp)]
  rfl

theorem names_dropWhile (p : List Char) : names (p.dropWhile (· = '/')) = names p := by
  induction p with
  | nil => rfl
  | cons x p ih =>
    by_cases hx : x = '/'
    · rw [dropWhile_cons_of_pos (by simp [hx]), ih, hx, names_slash]
    · rw [dropWhile_cons_of_neg (by simp [hx])]

theorem names_cons {x : Char} (hx : x ≠ '/') :
    names (x :: p) = (x :: p).takeWhile (· ≠ '/') :: names ((x :: p).dropWhile (· ≠ '/')) := by
  have hne : (x :: p).takeWhile (· ≠ '/') ≠ [] := by
    rw [takeWhile_cons_of_pos (by simpa using hx)]
    exact cons_ne_nil _ _
  obtain ⟨hlast, hmore⟩ := components_turn (x :: p)
  cases hrest : (x :: p).dropWhile (· ≠ '/') with
  | nil =>
    rw [names, hlast hrest, filter_cons_of_pos (by simpa using hne)]
    rfl
  | cons y q =>
    obtain rfl := slash_of_dropWhile hrest
    rw [names_slash, names, hmore q hrest, filter_cons_of_pos (by simpa using hne)]
    rfl

theorem head_of_names (hq : q.head? = none ∨ q.head? = some '/') :
    q.head? = some '/' ↔ names q ≠ [] ∨ endsSlash q = true := by
  cases q with
  | nil => simp [endsSlash]
  | cons y q =>
    have hy : y = '/' := by simpa using hq
    refine ⟨fun _ => ?_, fun _ => by rw [hy]; rfl⟩
    rw [hy, names_slash]
    -- without a name, the last character is a slash
    have hall : ∀ (q : List Char), names q = [] → endsSlash ('/' :: q) = true := by
      intro q
      induction q with
      | nil => intro _; rfl
      | cons z q ih =>
        intro hnil
        by_cases hz : z = '/'
        · rw [hz, names_slash] at hnil
          have hend := ih hnil
          rw [hz]
          simpa [endsSlash, getLast?_cons_cons] using hend
        rw [names_cons hz] at hnil
        cases hnil
    by_cases hnames : names q = []
    · exact .inr (hall q hnames)
    · exact .inl hnames

theorem endsSlash_rest {x : Char} {xs : List Char} (h : p.dropWhile (· = '/') = x :: xs) :
    endsSlash ((x :: xs).dropWhile (· ≠ '/')) = endsSlash p := by
  have hp := takeWhile_append_dropWhile (p := (· = '/')) (l := p)
  have hsplit := takeWhile_append_dropWhile (p := (· ≠ '/')) (l := x :: xs)
  rw [h] at hp
  rw [endsSlash, endsSlash, ← hp, getLast?_append_of_ne_nil _ (cons_ne_nil x xs)]
  cases hrest : (x :: xs).dropWhile (· ≠ '/') with
  | nil =>
    rw [hrest, append_nil] at hsplit
    have hlast : (x :: xs).getLast? ≠ some '/' := by
      intro heq
      rw [← hsplit] at heq
      simpa using mem_takeWhile_imp (mem_of_getLast? heq)
    simp [hlast]
  | cons y q =>
    rw [← hsplit, hrest, getLast?_append_of_ne_nil _ (cons_ne_nil y q)]

/-- What one turn of the walk takes off a path: the name, and the rest of the path. -/
structure FirstName (p name rest : List Char) : Prop where
  names : names p = name :: names rest
  ne_nil : name ≠ []
  no_slash : '/' ∉ name
  shorter : rest.length < p.length
  slash : endsSlash rest = endsSlash p
  more : rest.head? = some '/' ↔ Vfscore.names rest ≠ [] ∨ endsSlash p = true

theorem firstName {x : Char} {xs : List Char} (h : p.dropWhile (· = '/') = x :: xs) :
    FirstName p ((x :: xs).takeWhile (· ≠ '/')) ((x :: xs).dropWhile (· ≠ '/')) := by
  have hx : x ≠ '/' := by
    have hhead := head?_dropWhile_not (· = '/') p
    rw [h] at hhead
    simpa using hhead
  have hlen := (dropWhile_suffix (· = '/') (l := p)).length_le
  have hrest : ((x :: xs).dropWhile (· ≠ '/')).length ≤ xs.length := by
    rw [dropWhile_cons_of_pos (by simpa using hx)]
    exact (dropWhile_suffix _).length_le
  have hhead : ((x :: xs).dropWhile (· ≠ '/')).head? = none ∨
      ((x :: xs).dropWhile (· ≠ '/')).head? = some '/' := by
    cases hd : (x :: xs).dropWhile (· ≠ '/') with
    | nil => exact .inl rfl
    | cons y q => exact .inr (congrArg some (slash_of_dropWhile hd))
  refine ⟨?_, ?_, fun hmem => ?_, ?_, endsSlash_rest h, ?_⟩
  · rw [← names_dropWhile p, h, names_cons hx]
  · rw [takeWhile_cons_of_pos (by simpa using hx)]
    exact cons_ne_nil _ _
  · simpa using mem_takeWhile_imp hmem
  · rw [h, length_cons] at hlen
    omega
  rw [← endsSlash_rest h]
  exact head_of_names hhead

end

/-! ### Mounted caches -/

/-- The dentry `a` is hashed for a path of the mount `mp`. -/
def At (c : Dcache) (L : Chain → List Nat) (mp : Nat) (path : List Char) (a : Nat) : Prop :=
  Hashed L a ∧ ∃ i, c.ident a = some i ∧ i.dMount = mp ∧ i.dPath = path

/-- The cache, with the roots of the mounts in it; each mount has a reference on its root. -/
structure Mounted (mounts : List Mount) (c : Dcache) (L : Chain → List Nat) (ext : Nat → Nat) :
    Prop where
  ok : DcacheOk c L ext
  root : ∀ m ∈ mounts, At c L m.addr ['/'] m.mRoot
  held : ∀ m ∈ mounts, ext m.mRoot ≠ 0

section

variable {mounts : List Mount} {c c' : Dcache} {L L' : Chain → List Nat} {ext ext' : Nat → Nat}
  {a mp w ddp : Nat} {dd : Dentry} {path : List Char}

theorem At.kept (h : At c L mp path a) (hlive : ∃ d, c'.dentries a = some d)
    (hident : ∀ i, c'.ident a = some i → c.ident a = some i)
    (hkeep : Hashed L a → (c'.ident a).isSome → Hashed L' a) : At c' L' mp path a := by
  obtain ⟨hhashed, i, hi, hmount, hpath⟩ := h
  obtain ⟨d, hd⟩ := hlive
  have hd' := ident_some hd
  have heq := hident _ hd'
  rw [hi] at heq
  cases heq
  exact ⟨hkeep hhashed (by rw [hd']; rfl), _, hd', hmount, hpath⟩

theorem At.shrunk (h : At c L mp path a) (hshrunk : Shrunk c L c' L')
    (hlive : ∃ d, c'.dentries a = some d) : At c' L' mp path a :=
  h.kept hlive (hshrunk.ident a) fun ⟨b, hb⟩ hsome => ⟨b, hshrunk.keep _ a hb hsome⟩

theorem Mounted.shrunk (h : Mounted mounts c L ext) (hok : DcacheOk c' L' ext')
    (hshrunk : Shrunk c L c' L') (hheld : ∀ m ∈ mounts, ext' m.mRoot ≠ 0) :
    Mounted mounts c' L' ext' :=
  ⟨hok, fun m hm => (h.root m hm).shrunk hshrunk (hok.live_of_ext (hheld m hm)), hheld⟩

theorem held_add (h : ∀ m ∈ mounts, ext m.mRoot ≠ 0) (a : Nat) :
    ∀ m ∈ mounts, (ext + Pi.single a 1 : Nat → Nat) m.mRoot ≠ 0 := by
  intro m hm
  have hne := h m hm
  rw [Pi.add_apply]
  omega

theorem Mounted.retain {d : Dentry} (h : Mounted mounts c L ext) (hd : c.dentries a = some d) :
    Mounted mounts (c.set a { d with dRefcnt := d.dRefcnt + 1 }) L (ext + Pi.single a 1) ∧
      Shrunk c L (c.set a { d with dRefcnt := d.dRefcnt + 1 }) L := by
  have hshrunk : Shrunk c L (c.set a { d with dRefcnt := d.dRefcnt + 1 }) L :=
    Shrunk.set hd rfl fun _ hx => hx
  exact ⟨h.shrunk (h.ok.dref hd).2 hshrunk (held_add h.held a), hshrunk⟩

theorem Mounted.drele (h : Mounted mounts c L (ext + Pi.single a 1))
    (hheld : ∀ m ∈ mounts, ext m.mRoot ≠ 0) :
    ∃ c' L', c.drele a = .ok c' ∧ Mounted mounts c' L' ext ∧ Shrunk c L c' L' ∧
      ∀ d, c.dentries a = some d → d.dRefcnt = 1 → c'.dentries a = none := by
  obtain ⟨c', L', hcall, hok, hshrunk, hlast⟩ := h.ok.drele
  exact ⟨c', L', hcall, h.shrunk hok hshrunk hheld, hshrunk, hlast⟩

/-- The chains with a new dentry in the bucket of its path. -/
def pushed (c : Dcache) (L : Chain → List Nat) (mp : Nat) (path : List Char) : Chain → List Nat :=
  Function.update L (.bucket (dentryHash mp path)) (c.next :: L (.bucket (dentryHash mp path)))

section

variable (h : DcacheOk c L ext) (hd : c.dentries ddp = some dd)

include h hd

theorem hashed_old {i : Ident} (ha : a ≠ c.next) (hhashed : Hashed (pushed c L mp path) a)
    (hi : (c.allocated mp ddp dd w path).ident a = some i) : Hashed L a ∧ c.ident a = some i := by
  have hne : ddp ≠ c.next := fun heq => by rw [heq, h.next_free] at hd; cases hd
  rw [allocated_ident hd hne, Function.update_of_ne ha] at hi
  exact ⟨(hashed_cons.mp hhashed).resolve_left ha, hi⟩

theorem ident_old {i : Ident} (hi : c.ident a = some i) :
    (c.allocated mp ddp dd w path).ident a = some i := by
  have hne : ddp ≠ c.next := fun heq => by rw [heq, h.next_free] at hd; cases hd
  obtain ⟨d, hda, -⟩ := dentry_of_ident hi
  have ha : a ≠ c.next := fun heq => by rw [heq, h.next_free] at hda; cases hda
  rw [allocated_ident hd hne, Function.update_of_ne ha, hi]

theorem At.allocated {mp' : Nat} {path' : List Char} (hat : At c L mp' path' a) :
    At (c.allocated mp ddp dd w path) (pushed c L mp path) mp' path' a := by
  obtain ⟨hhashed, i, hi, hmount, hpath⟩ := hat
  exact ⟨hashed_cons.mpr (.inr hhashed), i, ident_old h hd hi, hmount, hpath⟩

theorem ident_next :
    (c.allocated mp ddp dd w path).ident c.next = some ⟨path, w, mp, some ddp⟩ := by
  have hne : ddp ≠ c.next := fun heq => by rw [heq, h.next_free] at hd; cases hd
  rw [allocated_ident hd hne, Function.update_self]

theorem at_next : At (c.allocated mp ddp dd w path) (pushed c L mp path) mp path c.next :=
  ⟨hashed_cons.mpr (.inl rfl), _, ident_next h hd, rfl, rfl⟩

end

theorem Mounted.alloc (h : Mounted mounts c L ext) (hd : c.dentries ddp = some dd) :
    Mounted mounts (c.allocated mp ddp dd w path) (pushed c L mp path) (ext + Pi.single c.next 1) :=
  ⟨h.ok.alloc hd, fun m hm => (h.root m hm).allocated h.ok hd, held_add h.held _⟩

end

/-! ### References -/

/-- The dentries that the references `ext` are on stay what they are, and in the hash table. -/
def Held (ext : Nat → Nat) (c : Dcache) (L : Chain → List Nat) (c' : Dcache)
    (L' : Chain → List Nat) : Prop :=
  ∀ a i, ext a ≠ 0 → c.ident a = some i → c'.ident a = some i ∧ (Hashed L a → Hashed L' a)

section

variable {c c' c₁ : Dcache} {L L' L₁ : Chain → List Nat} {ext ext' : Nat → Nat} {a : Nat}

theorem Held.refl : Held ext c L c L := fun _ _ _ hi => ⟨hi, id⟩

theorem Held.trans (h : Held ext c L c₁ L₁) (h' : Held ext c₁ L₁ c' L') : Held ext c L c' L' := by
  intro a i ha hi
  obtain ⟨hi₁, hhashed₁⟩ := h a i ha hi
  obtain ⟨hi', hhashed'⟩ := h' a i ha hi₁
  exact ⟨hi', hhashed' ∘ hhashed₁⟩

theorem Held.mono (h : Held ext' c L c' L') (hle : ∀ a, ext a ≤ ext' a) : Held ext c L c' L' :=
  fun a i ha => h a i fun hzero => ha (Nat.le_zero.mp (hzero ▸ hle a))

theorem Shrunk.held (h : Shrunk c L c' L') (hok : DcacheOk c' L' ext) : Held ext c L c' L' := by
  intro a i ha hi
  obtain ⟨d, hd⟩ := hok.live_of_ext ha
  have hident := ident_some hd
  have heq := h.ident a _ hident
  rw [hi] at heq
  rw [hident, ← Option.some.inj heq]
  exact ⟨rfl, fun hhashed => h.hashed_keep hhashed (by rw [hident]; rfl)⟩

theorem At.held {mp : Nat} {path : List Char} (h : At c L mp path a) (hheld : Held ext c L c' L')
    (ha : ext a ≠ 0) : At c' L' mp path a := by
  obtain ⟨hhashed, i, hi, hmount, hpath⟩ := h
  obtain ⟨hi', hkeep⟩ := hheld a i ha hi
  exact ⟨hkeep hhashed, i, hi', hmount, hpath⟩

theorem Held.dentry {d : Dentry} (h : Held ext c L c' L') (ha : ext a ≠ 0)
    (hd : c.dentries a = some d) : ∃ d', c'.dentries a = some d' ∧ d'.toIdent = d.toIdent :=
  dentry_of_ident (h a _ ha (ident_some hd)).1

end

/-! ### Invariants of the cache -/

/-- An invariant of the cache that a walk keeps, while there are the references `ext`. While it
holds, the vnode operations are not `bad`, and a new dentry on the `Way` keeps it that stands for
what is found under its last name. -/
structure WalkInv (fs : Vops) (bad : Fault → Prop) (ext : Nat → Nat)
    (Way : List (List Char) → Prop) (Inv : Dcache → (Chain → List Nat) → Prop) : Prop where
  shrunk : ∀ {c L c' L' ext'}, Inv c L → DcacheOk c' L' ext' → (∀ a, ext a ≤ ext' a) →
    Shrunk c L c' L' → Inv c' L'
  lookup : ∀ {c L a d}, Inv c L → c.dentries a = some d →
    ∀ name, (fs.lookup d.dVnode name).Sat bad fun _ => True
  link : ∀ {c L a d}, Inv c L → c.dentries a = some d → fs.vtype d.dVnode = .vlnk →
    ∀ node name fp n, (nameiFollowLink fs d.dVnode node name fp n).Sat bad fun _ => True
  alloc : ∀ {c L ext' mp ddp dd done name w}, Inv c L → DcacheOk c L ext' →
    c.dentries ddp = some dd → At c L mp (joinPath done) ddp → Kept (done ++ [name]) →
    Way (done ++ [name]) → fs.lookup dd.dVnode name = .ok (.ok w) →
    (∀ a, ¬ At c L mp (joinPath (done ++ [name])) a) →
    Inv (c.allocated mp ddp dd w (joinPath (done ++ [name])))
      (pushed c L mp (joinPath (done ++ [name])))

/-- What a call leaves that returns a dentry or an error: the caller has a reference on the
dentry, which is hashed for a path. -/
def EntryKept (mounts : List Mount) (Inv : Dcache → (Chain → List Nat) → Prop) (ext : Nat → Nat)
    (Place : Dcache → (Chain → List Nat) → Nat → Prop) (r : Except Errno Nat × Dcache) : Prop :=
  ∃ L, Inv r.2 L ∧ match r.1 with
    | .error _ => Mounted mounts r.2 L ext
    | .ok a => Mounted mounts r.2 L (ext + Pi.single a 1) ∧ Place r.2 L a

section

variable {fs : Vops} {bad : Fault → Prop} {Way : List (List Char) → Prop}
  {Inv : Dcache → (Chain → List Nat) → Prop} {mounts : List Mount} {c : Dcache}
  {L : Chain → List Nat} {ext ext₀ : Nat → Nat} {mp ddp : Nat} {dd : Dentry}
  {done : List (List Char)} {name : List Char}

theorem le_hold (h : ∀ a, ext₀ a ≤ ext a) (b : Nat) :
    ∀ a, ext₀ a ≤ (ext + Pi.single b 1 : Nat → Nat) a :=
  fun a => (h a).trans (Nat.le_add_right _ _)

theorem joinPath_concat : joinPath (done ++ [name]) = done.flatMap ('/' :: ·) ++ '/' :: name := by
  rw [joinPath, if_neg (by simp)]
  simp

theorem WalkInv.held (hI : WalkInv fs bad ext Way Inv) (c₀ : Dcache) (L₀ : Chain → List Nat) :
    WalkInv fs bad ext Way fun c L => Inv c L ∧ Held ext c₀ L₀ c L where
  shrunk h hok hle hshrunk :=
    ⟨hI.shrunk h.1 hok hle hshrunk, h.2.trans ((hshrunk.held hok).mono hle)⟩
  lookup h := hI.lookup h.1
  link h := hI.link h.1
  alloc := by
    intro c L ext' mp ddp dd done name w h hok hd hat hkept hway hlookup hmiss
    refine ⟨hI.alloc h.1 hok hd hat hkept hway hlookup hmiss, h.2.trans fun a i _ hi => ?_⟩
    exact ⟨ident_old hok hd hi, fun hhashed => hashed_cons.mpr (.inr hhashed)⟩

variable {path : List Char}

theorem nameiEntry_keeps (hI : WalkInv fs bad ext₀ Way Inv) (hle : ∀ a, ext₀ a ≤ ext a)
    (h : Mounted mounts c L ext) (hinv : Inv c L) (hd : c.dentries ddp = some dd)
    (halloc : ∀ w, fs.lookup dd.dVnode name = .ok (.ok w) → (∀ a, ¬ At c L mp path a) →
      Inv (c.allocated mp ddp dd w path) (pushed c L mp path)) :
    (nameiEntry fs c mp ddp dd.dVnode name path).Sat bad
      (EntryKept mounts Inv ext fun c L a => At c L mp path a) := by
  cases hfind : (L (.bucket (dentryHash mp path))).find? (c.matches mp path) with
  | some a =>
    obtain ⟨d, hda, hhashed, hmount, hpath, hcall, -⟩ := h.ok.lookup_some hfind
    obtain ⟨hmounted, hshrunk⟩ := h.retain hda
    simp only [nameiEntry, hcall, ok_bind]
    have hat : At c L mp path a := ⟨hhashed, _, ident_some hda, hmount, hpath⟩
    exact ⟨L, hI.shrunk hinv hmounted.ok (le_hold hle a) hshrunk, hmounted,
      hat.shrunk hshrunk ⟨_, set_self⟩⟩
  | none =>
    obtain ⟨hcall, hmiss⟩ := h.ok.lookup_none hfind
    simp only [nameiEntry, hcall, ok_bind]
    have hsat := hI.lookup hinv hd name
    cases hlookup : fs.lookup dd.dVnode name with
    | error f =>
      rw [hlookup] at hsat
      exact hsat
    | ok r =>
      cases r with
      | error e => exact ⟨L, hinv, h⟩
      | ok w =>
        simp only [ok_bind]
        by_cases hcalloc : c.calloc c.next = true
        · simp only [h.ok.dentryAlloc_eq hcalloc hd, ok_bind]
          refine ⟨_, halloc w hlookup ?_, h.alloc hd, at_next h.ok hd⟩
          intro a ⟨hhashed, i, hi, hmount, hpath⟩
          exact hmiss a i hhashed hi hmount hpath
        rw [Bool.not_eq_true] at hcalloc
        simp only [dentryAlloc_none hcalloc, ok_bind]
        have hshrunk : Shrunk c L { c with next := c.next + 1 } L :=
          ⟨fun _ _ hi => hi, fun _ d hd => ⟨d, hd, fun _ hx => hx⟩, fun _ _ hx => hx,
            fun _ _ hx _ => hx, rfl⟩
        exact ⟨L, hI.shrunk hinv h.ok.skip hle hshrunk, h.shrunk h.ok.skip hshrunk h.held⟩

/-- What a walk leaves; `Place` is where a dentry is found, and `nameless` says that there is
no name on the path. -/
def WalkKept (fs : Vops) (mounts : List Mount) (Inv : Dcache → (Chain → List Nat) → Prop)
    (ext : Nat → Nat) (Place : Dcache → (Chain → List Nat) → Nat → Prop) (nameless : Prop) :
    Walked × Dcache → Prop
  | (.found none, _) => nameless
  | (.found (some a), c) => ∃ L, Inv c L ∧ Mounted mounts c L (ext + Pi.single a 1) ∧ Place c L a
  | (.fail _, c) => ∃ L, Inv c L ∧ Mounted mounts c L ext
  | (.again _, c) => (∃ v, fs.vtype v = .vlnk) ∧ ∃ L, Inv c L ∧ Mounted mounts c L ext

theorem Kept.concat {p rest : List Char} (h : Kept done) (hfirst : FirstName p name rest) :
    Kept (done ++ [name]) := by
  intro k hk
  rcases mem_append.mp hk with hk | hk
  · exact h k hk
  cases mem_singleton.mp hk
  exact ⟨hfirst.ne_nil, hfirst.no_slash⟩

/-- **The walk keeps an invariant.** -/
theorem nameiWalk_keeps (fp p : List Char) {n fuel : Nat} {dp : Option Nat}
    (hI : WalkInv fs bad ext Way Inv) (h : Mounted mounts c L (ext + Pi.single ddp 1))
    (hinv : Inv c L) (hheld : ∀ m ∈ mounts, ext m.mRoot ≠ 0) (hkept : Kept done)
    (hway : ∀ q, q <+: done ++ names p → Way q) (hat : At c L mp (joinPath done) ddp)
    (hdp : dp = none ∧ done = [] ∨ dp = some ddp) (hfuel : p.length < fuel) :
    (nameiWalk fs mp fp n fuel c (done.flatMap ('/' :: ·)) p ddp dp).Sat bad
      (WalkKept fs mounts Inv ext (fun c L a => At c L mp (joinPath (done ++ names p)) a)
        (done ++ names p = [])) := by
  induction fuel generalizing c L ddp dp done p with
  | zero => omega
  | succ fuel ih =>
    cases hdrop : p.dropWhile (· = '/') with
    | nil =>
      have hnames := names_dropWhile p
      rw [hdrop, names_nil] at hnames
      simp only [nameiWalk, hdrop, ← hnames, append_nil]
      rcases hdp with ⟨rfl, hnil⟩ | rfl
      · exact hnil
      · exact ⟨L, hinv, h, hat⟩
    | cons x xs =>
      have hfirst := firstName hdrop
      simp only [nameiWalk, hdrop]
      generalize (x :: xs).takeWhile (· ≠ '/') = name at *
      generalize (x :: xs).dropWhile (· ≠ '/') = rest at *
      have hkept' := hkept.concat hfirst
      obtain ⟨dd, hd⟩ := h.ok.live_of_held
      rw [hfirst.names] at hway ⊢
      have hnext : Way (done ++ [name]) :=
        hway _ (prefix_append_right_inj _ |>.mpr ⟨names rest, rfl⟩)
      simp only [← joinPath_concat, deref_some hd, ok_bind]
      refine (nameiEntry_keeps hI (le_hold (fun _ => le_rfl) ddp) h hinv hd
        fun w hw hmiss => hI.alloc hinv h.ok hd hat hkept' hnext hw hmiss).bind ?_
      intro ⟨r, c₁⟩ ⟨L₁, hinv₁, hr⟩
      cases r with
      | error e =>
        obtain ⟨c₂, L₂, hcall, hm₂, hshrunk, -⟩ := Mounted.drele hr hheld
        simp only [hcall, ok_bind]
        exact ⟨L₂, hI.shrunk hinv₁ hm₂.ok (fun _ => le_rfl) hshrunk, hm₂⟩
      | ok a =>
        obtain ⟨hm₁, hat₁⟩ := hr
        rw [add_right_comm] at hm₁
        obtain ⟨c₂, L₂, hcall, hm₂, hshrunk, -⟩ := hm₁.drele (held_add hheld a)
        have hinv₂ := hI.shrunk hinv₁ hm₂.ok (le_hold (fun _ => le_rfl) a) hshrunk
        have hat₂ := hat₁.shrunk hshrunk hm₂.ok.live_of_held
        obtain ⟨d, hd₂⟩ := hm₂.ok.live_of_held
        obtain ⟨c₃, L₃, hcall₃, hm₃, hshrunk₃, -⟩ := hm₂.drele hheld
        have hinv₃ := hI.shrunk hinv₂ hm₃.ok (fun _ => le_rfl) hshrunk₃
        simp only [hcall, ok_bind, deref_some hd₂]
        split
        · rename_i hlink
          refine (hI.link hinv₂ hd₂ hlink _ _ _ _).bind fun r _ => ?_
          simp only [hcall₃, ok_bind]
          cases r with
          | error e => exact ⟨L₃, hinv₃, hm₃⟩
          | ok fp' => exact ⟨⟨_, hlink⟩, L₃, hinv₃, hm₃⟩
        split
        · simp only [hcall₃, ok_bind]
          exact ⟨L₃, hinv₃, hm₃⟩
        have hshort := hfirst.shorter
        have hwalk := ih rest hm₂ hinv₂ hkept'
          (by simpa only [append_assoc, singleton_append] using hway) hat₂
          (.inr rfl) (by omega)
        have hnode : joinPath (done ++ [name]) = (done ++ [name]).flatMap ('/' :: ·) :=
          if_neg (by simp)
        simp only [append_assoc, singleton_append] at hwalk
        rw [hnode]
        exact hwalk

/-- Where one turn of `namei` finds a dentry: at the path itself, or at the path of its names. -/
def TurnPlace (mounts : List Mount) (fp : List Char) (c : Dcache) (L : Chain → List Nat) (a : Nat) :
    Prop :=
  ∃ m pos, vfsFindroot mounts fp = some (m, pos) ∧
    (At c L m.addr ('/' :: fp.drop pos) a ∨ At c L m.addr (joinPath (names (fp.drop pos))) a)

/-- A path has no names, but it is not the path of a mount either. -/
def Nameless (mounts : List Mount) (fp : List Char) : Prop :=
  ∃ m pos, vfsFindroot mounts fp = some (m, pos) ∧ names (fp.drop pos) = [] ∧ fp.drop pos ≠ []

/-- The loop returns what it starts with, or a mount with the longest match. -/
theorem findrootLoop_longest (path : List Char) (ms : List Mount) (len : Nat) (m₀ : Option Mount) :
    (findrootLoop path ms len m₀ = (len, m₀) ∧ ∀ m ∈ ms, countMatch path m.mPath ≤ len) ∨
      ∃ m ∈ ms, findrootLoop path ms len m₀ = (countMatch path m.mPath, some m) ∧
        len < countMatch path m.mPath ∧
        ∀ m' ∈ ms, countMatch path m'.mPath ≤ countMatch path m.mPath := by
  induction ms generalizing len m₀ with
  | nil => exact .inl ⟨rfl, nofun⟩
  | cons tmp ms ih =>
    rw [findrootLoop]
    split
    · rename_i hlt
      rcases ih (countMatch path tmp.mPath) (some tmp) with ⟨heq, hle⟩ | ⟨m, hm, heq, hmax, hle⟩
      · exact .inr ⟨tmp, mem_cons_self, heq, hlt, forall_mem_cons.mpr ⟨le_rfl, hle⟩⟩
      · exact .inr ⟨m, mem_cons_of_mem _ hm, heq, hlt.trans hmax,
          forall_mem_cons.mpr ⟨hmax.le, hle⟩⟩
    · rename_i hge
      rcases ih len m₀ with ⟨heq, hle⟩ | ⟨m, hm, heq, hmax, hle⟩
      · exact .inl ⟨heq, forall_mem_cons.mpr ⟨by omega, hle⟩⟩
      · exact .inr ⟨m, mem_cons_of_mem _ hm, heq, hmax, forall_mem_cons.mpr ⟨by omega, hle⟩⟩

theorem mem_of_vfsFindroot {m : Mount} {pos : Nat}
    (h : vfsFindroot mounts path = some (m, pos)) : m ∈ mounts := by
  rw [vfsFindroot] at h
  rcases findrootLoop_longest path mounts 0 none with ⟨hloop, -⟩ | ⟨m', hm, hloop, -⟩
  · rw [hloop] at h
    cases h
  rw [hloop] at h
  cases h
  exact hm

theorem nameiTurn_keeps {fp : List Char} (hI : WalkInv fs bad ext Way Inv)
    (h : Mounted mounts c L ext) (hinv : Inv c L)
    (hway : ∀ m pos, vfsFindroot mounts fp = some (m, pos) →
      ∀ q, q <+: names (fp.drop pos) → Way q) :
    (nameiTurn fs mounts c fp).Sat bad
      (WalkKept fs mounts Inv ext (TurnPlace mounts fp) (Nameless mounts fp)) := by
  cases hroot : vfsFindroot mounts fp with
  | none =>
    simp only [nameiTurn, hroot]
    exact ⟨L, hinv, h⟩
  | some mpos =>
    obtain ⟨m, pos⟩ := mpos
    have hrootAt := h.root m (mem_of_vfsFindroot hroot)
    simp only [nameiTurn, hroot]
    cases hfind : (L (.bucket (dentryHash m.addr ('/' :: fp.drop pos)))).find?
        (c.matches m.addr ('/' :: fp.drop pos)) with
    | some a =>
      obtain ⟨d, hd, hhashed, hmount, hpath, hcall, -⟩ := h.ok.lookup_some hfind
      obtain ⟨hmounted, hshrunk⟩ := h.retain hd
      have hat : At c L m.addr ('/' :: fp.drop pos) a := ⟨hhashed, _, ident_some hd, hmount, hpath⟩
      simp only [hcall, ok_bind]
      exact ⟨L, hI.shrunk hinv hmounted.ok (le_hold (fun _ => le_rfl) a) hshrunk, hmounted, m,
        pos, hroot, .inl (hat.shrunk hshrunk ⟨_, set_self⟩)⟩
    | none =>
      obtain ⟨hcall, hmiss⟩ := h.ok.lookup_none hfind
      obtain ⟨d, hd⟩ := h.ok.live_of_ext (h.held m (mem_of_vfsFindroot hroot))
      obtain ⟨hmounted, hshrunk⟩ := h.retain hd
      have hnil : Kept [] := fun _ hk => absurd hk not_mem_nil
      have hwalk := nameiWalk_keeps fp (fp.drop pos) (n := pos - 1) hI hmounted
        (hI.shrunk hinv hmounted.ok (le_hold (fun _ => le_rfl) _) hshrunk) h.held hnil
        (hway m pos hroot) (hrootAt.shrunk hshrunk ⟨_, set_self⟩) (.inl ⟨rfl, rfl⟩)
        (Nat.lt_succ_self _)
      simp only [hcall, (h.ok.dref hd).1, ok_bind]
      refine hwalk.mono fun r hr => ?_
      obtain ⟨r, c'⟩ := r
      cases r with
      | found x =>
        cases x with
        | none =>
          obtain ⟨hhashed, i, hi, hmount, hpath⟩ := hrootAt
          refine ⟨m, pos, hroot, hr, fun hempty => ?_⟩
          rw [hempty] at hmiss
          exact hmiss _ i hhashed hi hmount hpath
        | some a =>
          obtain ⟨L', hinv', hm', hat'⟩ := hr
          exact ⟨L', hinv', hm', m, pos, hroot, .inr hat'⟩
      | fail e | again fp' => exact hr

/-- What `namei` leaves. -/
def NameiKept (mounts : List Mount) (Inv : Dcache → (Chain → List Nat) → Prop) (ext : Nat → Nat)
    (Place : Dcache → (Chain → List Nat) → Nat → Prop) (nameless : Prop) :
    Except Errno (Option Nat) × Dcache → Prop
  | (.ok none, _) => nameless
  | (.ok (some a), c) => ∃ L, Inv c L ∧ Mounted mounts c L (ext + Pi.single a 1) ∧ Place c L a
  | (.error _, c) => ∃ L, Inv c L ∧ Mounted mounts c L ext

theorem NameiKept.mono {Place Place' : Dcache → (Chain → List Nat) → Nat → Prop}
    {nameless nameless' : Prop} {r : Except Errno (Option Nat) × Dcache}
    (h : NameiKept mounts Inv ext Place nameless r)
    (hplace : ∀ {c L a}, Inv c L → Place c L a → Place' c L a) (hnone : nameless → nameless') :
    NameiKept mounts Inv ext Place' nameless' r := by
  obtain ⟨e | x, c⟩ := r
  · exact h
  cases x with
  | none => exact hnone h
  | some a =>
    obtain ⟨L, hinv, hm, ha⟩ := h
    exact ⟨L, hinv, hm, hplace hinv ha⟩

/-- **`namei` keeps an invariant.** -/
theorem namei_keeps (hI : WalkInv fs bad ext Way Inv) (hway : ∀ q, Way q)
    (h : Mounted mounts c L ext) (hinv : Inv c L) (path : List Char) :
    (namei fs mounts c path).Sat bad
      (NameiKept mounts Inv ext (fun c L a => ∃ fp, TurnPlace mounts fp c L a)
        (∃ fp, Nameless mounts fp)) := by
  rw [namei]
  generalize maxSymlinks = left, path.take (pathMax - 1) = fp
  induction left generalizing c L fp with
  | zero => exact ⟨L, hinv, h⟩
  | succ left ih =>
    refine (nameiTurn_keeps hI h hinv fun _ _ _ q _ => hway q).bind fun r hr => ?_
    obtain ⟨r, c'⟩ := r
    cases r with
    | found x =>
      cases x with
      | none => exact ⟨fp, hr⟩
      | some a =>
        obtain ⟨L', hinv', hm', hat'⟩ := hr
        exact ⟨L', hinv', hm', fp, hat'⟩
    | fail e => exact hr
    | again fp' =>
      obtain ⟨-, L', hinv', hm'⟩ := hr
      exact ih hm' hinv' fp'

theorem namei_keeps_place (path : List Char) (hI : WalkInv fs bad ext Way Inv)
    (hlink : ∀ v, fs.vtype v ≠ .vlnk) (h : Mounted mounts c L ext) (hinv : Inv c L)
    (hway : ∀ m pos, vfsFindroot mounts (path.take (pathMax - 1)) = some (m, pos) →
      ∀ q, q <+: names ((path.take (pathMax - 1)).drop pos) → Way q) :
    (namei fs mounts c path).Sat bad
      (NameiKept mounts Inv ext (TurnPlace mounts (path.take (pathMax - 1)))
        (Nameless mounts (path.take (pathMax - 1)))) := by
  refine (nameiTurn_keeps hI h hinv hway).bind fun r hr => ?_
  obtain ⟨r, c'⟩ := r
  cases r with
  | found x =>
    cases x with
    | none | some a => exact hr
  | fail e => exact hr
  | again fp' =>
    obtain ⟨⟨v, hv⟩, -⟩ := hr
    exact absurd hv (hlink v)

/-- What `lookup` leaves: a reference on the dentry of a directory, and the name behind the last
slash. -/
def LookupKept (fs : Vops) (mounts : List Mount) (Inv : Dcache → (Chain → List Nat) → Prop)
    (ext : Nat → Nat) (Place : Dcache → (Chain → List Nat) → Nat → Prop) (path : List Char) :
    Except Errno (Nat × List Char) × Dcache → Prop
  | (.error _, c) => ∃ L, Inv c L ∧ Mounted mounts c L ext
  | (.ok (ddp, name), c) => ∃ L dd, Inv c L ∧ Mounted mounts c L (ext + Pi.single ddp 1) ∧
      Place c L ddp ∧ c.dentries ddp = some dd ∧ fs.vtype dd.dVnode = .vdir ∧
      ∃ dir, splitLast path = some (dir, name)

variable {Place : Dcache → (Chain → List Nat) → Nat → Prop}

theorem lookup_keeps (hI : WalkInv fs bad ext Way Inv) (hbad : ¬ bad .badPointer)
    (h : Mounted mounts c L ext) (hinv : Inv c L)
    (hnamei : ∀ dir name, splitLast (path.take (pathMax - 1)) = some (dir, name) →
      (namei fs mounts c (if dir = [] then ['/'] else dir)).Sat bad
        (NameiKept mounts Inv ext Place True)) :
    (lookup fs mounts c path).Sat bad (LookupKept fs mounts Inv ext Place path) := by
  rw [lookup]
  split
  · exact ⟨L, hinv, h⟩
  split
  · rename_i dir name₀ dir₀ name hbuf hpath
    refine (hnamei dir name₀ hbuf).bind ?_
    intro ⟨r, c₁⟩ hr
    cases r with
    | error e => exact hr
    | ok x =>
      cases x with
      | none => exact hbad
      | some dp =>
        obtain ⟨L₁, hinv₁, hm₁, hplace⟩ := hr
        obtain ⟨d, hd⟩ := hm₁.ok.live_of_held
        simp only [deref_some hd, ok_bind]
        split
        · obtain ⟨c₂, L₂, hcall, hm₂, hshrunk, -⟩ := hm₁.drele h.held
          simp only [hcall, ok_bind]
          exact ⟨L₂, hI.shrunk hinv₁ hm₂.ok (fun _ => le_rfl) hshrunk, hm₂⟩
        rename_i hdir
        exact ⟨L₁, d, hinv₁, hm₁, hplace, hd, not_not.mp hdir, dir₀, hpath⟩
  · exact hbad

theorem nameiLastNofollow_keeps (hI : WalkInv fs bad ext₀ Way Inv) (hle : ∀ a, ext₀ a ≤ ext a)
    (h : Mounted mounts c L ext) (hinv : Inv c L) (hd : c.dentries ddp = some dd)
    (hlast : ∀ mp name node, lastComponent mounts path = .ok (mp, name, node) →
      (∀ c L a, At c L mp node a → Place c L a) ∧
      ∀ w, fs.lookup dd.dVnode name = .ok (.ok w) → (∀ a, ¬ At c L mp node a) →
        Inv (c.allocated mp ddp dd w node) (pushed c L mp node)) :
    (nameiLastNofollow fs mounts c path ddp).Sat bad (EntryKept mounts Inv ext Place) := by
  rw [nameiLastNofollow]
  cases hcomp : lastComponent mounts path with
  | error e => exact ⟨L, hinv, h⟩
  | ok args =>
    obtain ⟨mp, name, node⟩ := args
    obtain ⟨hplace, halloc⟩ := hlast mp name node hcomp
    simp only [deref_some hd, ok_bind]
    refine (nameiEntry_keeps hI hle h hinv hd halloc).mono ?_
    intro ⟨r, c₁⟩ ⟨L₁, hinv₁, hr⟩
    cases r with
    | error e => exact ⟨L₁, hinv₁, hr⟩
    | ok a => exact ⟨L₁, hinv₁, hr.1, hplace _ _ a hr.2⟩

end

end Unikraft.Vfscore
