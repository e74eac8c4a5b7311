import Mathlib.Data.List.TakeWhile
import Unikraft.Basic

/-!
# Path normalisation (`lib/vfscore/task.c`)

`path_conv` writes the full path into one buffer: it appends the components one by one and backs up
over the last one at a `..`. The buffer is modelled as the characters before the target pointer, the
last one first.

It always shows a stack of names (`Shows`), on which each component acts as it should
(`convComp_shows`). But a relative path that starts with a dot is appended to the working
directory without a slash, which is right for `.` and `..` only.
-/

namespace Unikraft.Vfscore

open Outcome List

/-! ### The source -/

def pathMax : Nat := 4096

/-- `*tgt++ = c`, in a buffer of `PATH_MAX` characters. -/
def push (out : List Char) (c : Char) : Outcome (List Char) :=
  if out.length < pathMax then .ok (c :: out) else .error .outOfBounds

/-- The loop that copies a component. -/
def pushAll (out : List Char) : List Char → Outcome (List Char)
  | [] => .ok out
  | c :: cs => do
      let out ← push out c
      pushAll out cs

/-- The branch for `..`: back to the slash before the last component. -/
def backUp (out : List Char) : Outcome (List Char) :=
  if 2 ≤ out.length then
    match out.tail.dropWhile (· ≠ '/') with
    | [] => .error .outOfBounds
    | slash :: rest => .ok (if rest = [] then [slash] else rest)
  else .ok out

def convComp (out comp : List Char) : Outcome (List Char) :=
  if comp = ['.', '.'] then backUp out
  else if comp = ['.'] then .ok out
  else pushAll out comp

/-- The slash behind a component, unless there is one. -/
def addSlash (out : List Char) : Outcome (List Char) :=
  if 0 < out.length ∧ out.head? ≠ some '/' then push out '/' else .ok out

/-- The loop over the components of `src`. -/
def convLoop : Nat → List Char → List Char → Outcome (List Char)
  | fuel, src, out =>
    if src = [] then .ok out
    else
      match fuel with
      | 0 => .error .divergence
      | fuel + 1 => do
          let out ← convComp out (src.takeWhile (· ≠ '/'))
          match src.dropWhile (· ≠ '/') with
          | [] => return out
          | _ :: src' =>
            let out ← addSlash out
            convLoop fuel src' out

/-- What is in the buffer before the loop, and the rest of the path. -/
def convStart (wd : List Char) : List Char → List Char × List Char
  | '/' :: src => (src, ['/'])
  | path =>
    if 1 < wd.length ∧ path.head? ≠ some '.' then (path, '/' :: wd.reverse)
    else (path, wd.reverse)

/-- `path_conv`: the full path, or an error. -/
def pathConv (wd cpath : List Char) : Outcome (Except Errno (List Char)) :=
  let path := cpath.take (pathMax - 1)
  if pathMax ≤ path.length then .ok (.error .enametoolong)
  else if pathMax ≤ wd.length + path.length then .ok (.error .enametoolong)
  else do
    let (src, out) := convStart wd path
    let out ← convLoop (path.length + 1) src out
    if out.length < pathMax then return .ok out.reverse else .error .outOfBounds

/-! ### The meaning of a path -/

/-- A component on the stack of the components before it, the last one first. -/
def applyComp (st : List (List Char)) (comp : List Char) : List (List Char) :=
  if comp = [] ∨ comp = ['.'] then st
  else if comp = ['.', '.'] then st.tail
  else comp :: st

/-- The height of the stack after a component. -/
def depthAfter (depth : Nat) (comp : List Char) : Nat :=
  if comp = [] ∨ comp = ['.'] then depth
  else if comp = ['.', '.'] then depth - 1
  else depth + 1

theorem length_applyComp (st : List (List Char)) (comp : List Char) :
    (applyComp st comp).length = depthAfter st.length comp := by
  rw [applyComp, depthAfter]
  split_ifs
  · rfl
  · exact length_tail
  · rfl

/-- The components of a path, the empty ones included. -/
def components (path : List Char) : List (List Char) := path.splitOn '/'

/-- The names that a sequence of components leads to from the root. -/
def resolve (comps : List (List Char)) : List (List Char) := (comps.foldl applyComp []).reverse

def joinPath (names : List (List Char)) : List Char :=
  if names = [] then ['/'] else names.flatMap ('/' :: ·)

/-- A component that is a name. -/
structure IsName (comp : List Char) : Prop where
  ne_nil : comp ≠ []
  slash : '/' ∉ comp
  ne_dot : comp ≠ ['.']
  ne_dotdot : comp ≠ ['.', '.']

/-- An absolute path without redundant components. -/
def Normalised (path : List Char) : Prop := ∃ names, (∀ c ∈ names, IsName c) ∧ path = joinPath names

theorem applyComp_name {st : List (List Char)} {comp : List Char} (h : IsName comp) :
    applyComp st comp = comp :: st := by
  rw [applyComp, if_neg (not_or.mpr ⟨h.ne_nil, h.ne_dot⟩), if_neg h.ne_dotdot]

variable {names : List (List Char)}

theorem foldl_applyComp {st : List (List Char)} (h : ∀ c ∈ names, IsName c) :
    names.foldl applyComp st = names.reverse ++ st := by
  induction names generalizing st with
  | nil => rfl
  | cons c names ih =>
    rw [foldl_cons, applyComp_name (h c mem_cons_self),
      ih fun d hd => h d (mem_cons_of_mem _ hd), reverse_cons, append_assoc]
    rfl

theorem components_slash (src : List Char) : components ('/' :: src) = [] :: components src :=
  splitOn_append_cons_self [] src

theorem splitOn_flatMap (h : ∀ c ∈ names, '/' ∉ c) :
    (names.flatMap ('/' :: ·)).splitOn '/' = [] :: names := by
  have hjoin : ∀ (ns : List (List Char)) (c : List Char),
      c ++ ns.flatMap ('/' :: ·) = ['/'].intercalate (c :: ns) := by
    intro ns
    induction ns with
    | nil => simp
    | cons d ns ih =>
      intro c
      rw [flatMap_cons, cons_append, ih, intercalate_cons_cons, append_assoc]
      rfl
  rw [← nil_append (names.flatMap _), hjoin]
  exact splitOn_intercalate '/' (forall_mem_cons.mpr ⟨not_mem_nil, h⟩) (cons_ne_nil _ _)

theorem resolve_components (h : ∀ c ∈ names, IsName c) :
    (components (joinPath names)).foldl applyComp [] = names.reverse := by
  rw [components, joinPath]
  split
  · rename_i hnil
    rw [hnil]
    rfl
  rw [splitOn_flatMap fun c hc => (h c hc).slash, foldl_cons, foldl_applyComp h]
  simp [applyComp]

/-! ### What the buffer shows -/

/-- The names of the stack, each with a slash behind it. -/
def slashed : List (List Char) → List Char
  | [] => ['/']
  | c :: st => '/' :: (c.reverse ++ slashed st)

/-- The names of the stack, with no slash behind the last one. -/
def bare : List (List Char) → List Char
  | [] => ['/']
  | c :: st => c.reverse ++ slashed st

/-- The buffer shows the stack, with or without a slash at the end. -/
def Shows (out : List Char) (st : List (List Char)) : Prop := out = slashed st ∨ out = bare st

/-- The components that are kept: they have characters, and none of them is a slash. -/
def Kept (st : List (List Char)) : Prop := ∀ c ∈ st, c ≠ [] ∧ '/' ∉ c

variable {st : List (List Char)} {out comp src out' : List Char} {fuel : Nat}

theorem slashed_pos (st : List (List Char)) : 0 < (slashed st).length := by
  cases st <;> exact Nat.succ_pos _

theorem slashed_eq_cons (st : List (List Char)) : ∃ rest, slashed st = '/' :: rest ∧
    (st = [] → rest = []) ∧ (st ≠ [] → rest = bare st) := by
  cases st with
  | nil => exact ⟨[], rfl, fun _ => rfl, fun h => absurd rfl h⟩
  | cons c st => exact ⟨_, rfl, nofun, fun _ => rfl⟩

theorem reverse_slashed (st : List (List Char)) :
    (slashed st).reverse = st.reverse.flatMap ('/' :: ·) ++ ['/'] := by
  induction st with
  | nil => rfl
  | cons c st ih => simp [slashed, ih]

theorem reverse_bare (st : List (List Char)) : (bare st).reverse = joinPath st.reverse := by
  cases st with
  | nil => rfl
  | cons c st => simp [bare, reverse_slashed, joinPath]

theorem Shows.reverse (h : Shows out st) :
    out.reverse = joinPath st.reverse ∨ out.reverse = joinPath st.reverse ++ ['/'] := by
  rcases h with rfl | rfl
  · cases st with
    | nil => exact .inl rfl
    | cons c st => exact .inr (by rw [reverse_slashed]; simp [joinPath])
  · exact .inl (reverse_bare st)

theorem Kept.applyComp (h : Kept st) (hcomp : '/' ∉ comp) : Kept (applyComp st comp) := by
  rw [Vfscore.applyComp]
  split
  · exact h
  rename_i hne
  split
  · exact fun c hc => h c (mem_of_mem_tail hc)
  rintro c (_ | ⟨_, hc⟩)
  · exact ⟨fun hnil => hne (.inl hnil), hcomp⟩
  · exact h c hc

theorem Kept.join {c : List Char} (h : Kept (c :: st)) (hcomp : '/' ∉ comp) :
    Kept ((c ++ comp) :: st) := by
  obtain ⟨⟨hne, hc⟩, hst⟩ := forall_mem_cons.mp h
  exact forall_mem_cons.mpr ⟨⟨append_ne_nil_of_left_ne_nil hne _,
    fun hmem => (mem_append.mp hmem).elim hc hcomp⟩, hst⟩

theorem pushAll_cases (out comp : List Char) : pushAll out comp = .ok (comp.reverse ++ out) ∨
    pushAll out comp = .error .outOfBounds ∧ pathMax < out.length + comp.length := by
  induction comp generalizing out with
  | nil => exact .inl rfl
  | cons c comp ih =>
    have hrest := ih (c :: out)
    rw [pushAll, push, length_cons, reverse_cons, append_assoc]
    split_ifs
    · rwa [length_cons, Nat.succ_add_eq_add_succ] at hrest
    · exact .inr ⟨rfl, by omega⟩

theorem backUp_ok {x : Char} {pre : List Char} (hpre : '/' ∉ pre) (hst : Kept st) :
    backUp (x :: (pre ++ slashed st)) = .ok (bare st) := by
  have hpos := slashed_pos st
  obtain ⟨rest, hrest, hnil, hcons⟩ := slashed_eq_cons st
  have hdrop : (pre ++ slashed st).dropWhile (· ≠ '/') = '/' :: rest := by
    rw [dropWhile_append_of_pos, hrest]
    · rfl
    intro c hc
    simpa using ne_of_mem_of_not_mem hc hpre
  rw [backUp, if_pos (by simp only [length_cons, length_append]; omega)]
  simp only [tail_cons, hdrop]
  cases st with
  | nil => rw [hnil rfl]; rfl
  | cons c st =>
    have hne : bare (c :: st) ≠ [] := by
      simp [bare, (hst c mem_cons_self).1]
    rw [hcons (cons_ne_nil _ _), if_neg hne]

theorem backUp_slashed (hst : Kept st) : backUp (slashed st) = .ok (bare st.tail) := by
  cases st with
  | nil => rfl
  | cons c st =>
    have hc := (hst c mem_cons_self).2
    exact backUp_ok (by simpa using hc) fun d hd => hst d (mem_cons_of_mem _ hd)

theorem backUp_bare (hst : Kept st) : backUp (bare st) = .ok (bare st.tail) := by
  cases st with
  | nil => rfl
  | cons c st =>
    obtain ⟨hne, hc⟩ := hst c mem_cons_self
    obtain ⟨x, pre, hrev⟩ := exists_cons_of_ne_nil (reverse_ne_nil_iff.mpr hne)
    have hpre : '/' ∉ pre := fun hmem => by
      have : '/' ∈ c.reverse := hrev ▸ mem_cons_of_mem _ hmem
      exact hc (mem_reverse.mp this)
    rw [bare, hrev]
    exact backUp_ok hpre fun d hd => hst d (mem_cons_of_mem _ hd)

/-- Where a component starts: behind a slash, or, if it is `.` or `..`, behind the names. -/
def Starts (out comp : List Char) (st : List (List Char)) : Prop :=
  out = slashed st ∨ out = bare st ∧ (comp = ['.'] ∨ comp = ['.', '.'])

/-- **One component** acts on the stack. -/
theorem convComp_shows (hst : Kept st) (hstart : Starts out comp st)
    (h : convComp out comp = .ok out') : Shows out' (applyComp st comp) := by
  by_cases hdd : comp = ['.', '.']
  · subst hdd
    have hback : backUp out = .ok (bare st.tail) :=
      hstart.elim (· ▸ backUp_slashed hst) fun hb => hb.1 ▸ backUp_bare hst
    cases hback.symm.trans h
    exact .inr rfl
  by_cases hd : comp = ['.']
  · subst hd
    cases h
    exact hstart.imp_right And.left
  obtain rfl := hstart.resolve_right fun hb => hb.2.elim hd hdd
  rw [convComp, if_neg hdd, if_neg hd] at h
  rcases pushAll_cases (slashed st) comp with hpush | ⟨hpush, -⟩
  swap
  · cases hpush.symm.trans h
  cases hpush.symm.trans h
  rw [applyComp, if_neg hdd]
  by_cases hnil : comp = []
  · subst hnil
    exact .inl rfl
  rw [if_neg (not_or.mpr ⟨hnil, hd⟩)]
  exact .inr rfl

theorem addSlash_shows (hst : Kept st) (hshow : Shows out st)
    (h : addSlash out = .ok out') : out' = slashed st := by
  rcases hshow with rfl | rfl
  · obtain ⟨rest, hrest, -, -⟩ := slashed_eq_cons st
    rw [addSlash, if_neg (by rw [hrest]; simp)] at h
    cases h
    rfl
  cases st with
  | nil =>
    cases h
    rfl
  | cons c st =>
    obtain ⟨hne, hc⟩ := hst c mem_cons_self
    obtain ⟨x, pre, hrev⟩ := exists_cons_of_ne_nil (reverse_ne_nil_iff.mpr hne)
    have hx : x ≠ '/' := by
      rintro rfl
      exact hc (mem_reverse.mp (hrev ▸ mem_cons_self))
    rw [addSlash, if_pos (by simp [bare, hrev, hx]), push] at h
    split_ifs at h
    cases h
    rfl

/-! ### The loop -/

theorem components_turn (src : List Char) :
    (src.dropWhile (· ≠ '/') = [] → components src = [src.takeWhile (· ≠ '/')]) ∧
      ∀ src', src.dropWhile (· ≠ '/') = '/' :: src' →
        components src = src.takeWhile (· ≠ '/') :: components src' := by
  have hcomp : '/' ∉ src.takeWhile (· ≠ '/') := fun hmem => by
    simpa using mem_takeWhile_imp hmem
  have happ := takeWhile_append_dropWhile (p := (· ≠ '/')) (l := src)
  constructor
  · intro hrest
    rw [hrest, append_nil] at happ
    rw [components, happ, splitOn_eq_singleton (happ ▸ hcomp)]
  intro src' hrest
  rw [hrest] at happ
  conv_lhs => rw [components, ← happ]
  exact splitOn_append_cons_self_of_not_mem hcomp _

theorem slash_of_dropWhile {x : Char} {src' : List Char}
    (h : src.dropWhile (· ≠ '/') = x :: src') : x = '/' := by
  have hhead := head?_dropWhile_not (· ≠ '/') src
  rw [h] at hhead
  simpa using hhead

theorem components_eq_cons (src : List Char) :
    components src = src.takeWhile (· ≠ '/') :: (components src).tail := by
  cases hrest : src.dropWhile (· ≠ '/') with
  | nil => rw [(components_turn src).1 hrest, tail_cons]
  | cons x src' =>
    obtain rfl := slash_of_dropWhile hrest
    rw [(components_turn src).2 src' hrest, tail_cons]

/-- **The loop** acts on the stack with one component after the other. -/
theorem convLoop_shows (hst : Kept st)
    (hstart : Starts out (src.takeWhile (· ≠ '/')) st) (h : convLoop fuel src out = .ok out') :
    Shows out' ((components src).foldl applyComp st) := by
  induction fuel generalizing src out st with
  | zero =>
    rw [convLoop] at h
    split_ifs at h with hsrc
    subst hsrc
    cases h
    exact hstart.imp_right And.left
  | succ fuel ih =>
    rw [convLoop] at h
    split_ifs at h with hsrc
    · subst hsrc
      cases h
      exact hstart.imp_right And.left
    obtain ⟨out₁, hcomp, h⟩ := bind_ok.mp h
    have hshow := convComp_shows hst hstart hcomp
    have hkept : Kept (applyComp st (src.takeWhile (· ≠ '/'))) :=
      hst.applyComp fun hmem => by simpa using mem_takeWhile_imp hmem
    cases hrest : src.dropWhile (· ≠ '/') with
    | nil =>
      rw [hrest] at h
      cases h
      rw [(components_turn src).1 hrest]
      exact hshow
    | cons x src' =>
      obtain rfl := slash_of_dropWhile hrest
      rw [hrest] at h
      obtain ⟨out₂, hslash, h⟩ := bind_ok.mp h
      obtain rfl := addSlash_shows hkept hshow hslash
      rw [(components_turn src).2 src' hrest, foldl_cons]
      exact ih hkept (.inl rfl) h

/-- A first component that is appended to the last name on the stack, with no slash between the
two, becomes a part of that name. -/
theorem convLoop_joined {c : List Char} (hst : Kept (c :: st))
    (hdd : src.takeWhile (· ≠ '/') ≠ ['.', '.']) (hd : src.takeWhile (· ≠ '/') ≠ ['.'])
    (hsrc : src ≠ []) (h : convLoop fuel src (bare (c :: st)) = .ok out') :
    Shows out' ((components src).tail.foldl applyComp ((c ++ src.takeWhile (· ≠ '/')) :: st)) := by
  cases fuel with
  | zero =>
    rw [convLoop, if_neg hsrc] at h
    cases h
  | succ fuel =>
    rw [convLoop, if_neg hsrc, convComp, if_neg hdd, if_neg hd] at h
    obtain ⟨out₁, hpush, h⟩ := bind_ok.mp h
    have hout : out₁ = bare ((c ++ src.takeWhile (· ≠ '/')) :: st) := by
      rcases pushAll_cases (bare (c :: st)) (src.takeWhile (· ≠ '/')) with hok | ⟨herr, -⟩
      · cases hok.symm.trans hpush
        simp [bare]
      · cases herr.symm.trans hpush
    have hkept : Kept ((c ++ src.takeWhile (· ≠ '/')) :: st) :=
      hst.join fun hmem => by simpa using mem_takeWhile_imp hmem
    cases hrest : src.dropWhile (· ≠ '/') with
    | nil =>
      rw [hrest] at h
      cases h
      rw [(components_turn src).1 hrest]
      exact .inr hout
    | cons x src' =>
      obtain rfl := slash_of_dropWhile hrest
      rw [hrest] at h
      obtain ⟨out₂, hslash, h⟩ := bind_ok.mp h
      obtain rfl := addSlash_shows hkept (.inr hout) hslash
      rw [(components_turn src).2 src' hrest]
      exact convLoop_shows hkept (.inl rfl) h

/-! ### The buffer -/

/-- The output starts with a slash, and `n` more characters and the NUL fit behind it. -/
def Room (n : Nat) (out : List Char) : Prop :=
  out.getLast? = some '/' ∧ out.length + n < pathMax

variable {n : Nat} {wd path : List Char}

theorem backUp_room (h : Room n out) : ∃ out', backUp out = .ok out' ∧ Room n out' := by
  obtain ⟨hlast, hlen⟩ := h
  rw [backUp]
  split_ifs with hlong
  · obtain ⟨x, y, rest, rfl⟩ : ∃ x y rest, out = x :: y :: rest := by
      match out, hlong with
      | x :: y :: rest, _ => exact ⟨x, y, rest, rfl⟩
    rw [getLast?_cons_cons] at hlast
    obtain ⟨pre, hpre⟩ := dropWhile_suffix (· ≠ '/') (l := y :: rest)
    have hslash : '/' ∈ y :: rest := mem_of_getLast? hlast
    rw [length_cons, ← hpre, length_append] at hlen
    simp only [tail_cons]
    cases hdrop : (y :: rest).dropWhile (· ≠ '/') with
    | nil => exact absurd (dropWhile_eq_nil_iff.mp hdrop '/' hslash) (by simp)
    | cons slash left =>
      rw [hdrop] at hpre hlen
      rw [← hpre, getLast?_append_cons] at hlast
      rw [length_cons] at hlen
      cases left with
      | nil => exact ⟨[slash], rfl, hlast, by rw [length_singleton]; omega⟩
      | cons z left =>
        rw [getLast?_cons_cons] at hlast
        exact ⟨z :: left, rfl, hlast, by omega⟩
  · exact ⟨out, rfl, hlast, hlen⟩

theorem convComp_room (h : Room (comp.length + n) out) :
    ∃ out', convComp out comp = .ok out' ∧ Room n out' := by
  have hle : Room n out := ⟨h.1, by have := h.2; omega⟩
  rw [convComp]
  split_ifs
  · exact backUp_room hle
  · exact ⟨out, rfl, hle⟩
  · obtain ⟨hlast, hlen⟩ := h
    refine ⟨_, (pushAll_cases out comp).resolve_right (by omega), ?_, ?_⟩
    · rw [getLast?_append, hlast, Option.some_or]
    · rw [length_append, length_reverse]
      omega

theorem addSlash_room (h : Room (n + 1) out) : ∃ out', addSlash out = .ok out' ∧ Room n out' := by
  obtain ⟨hlast, hlen⟩ := h
  rw [addSlash]
  split_ifs
  · refine ⟨'/' :: out, if_pos (by omega), ?_, by rw [length_cons]; omega⟩
    rw [getLast?_cons, hlast, Option.getD_some]
  · exact ⟨out, rfl, hlast, by omega⟩

theorem convLoop_room (hfuel : src.length < fuel) (h : Room src.length out) :
    ∃ out', convLoop fuel src out = .ok out' ∧ out'.length < pathMax := by
  induction fuel generalizing src out with
  | zero => omega
  | succ fuel ih =>
    rw [convLoop]
    split_ifs
    · exact ⟨out, rfl, by have := h.2; omega⟩
    have hcut := congrArg length (takeWhile_append_dropWhile (p := (· ≠ '/')) (l := src))
    rw [length_append] at hcut
    rw [← hcut] at h
    obtain ⟨out₁, hcomp, hlast, hlen⟩ := convComp_room h
    rw [hcomp, ok_bind]
    cases hrest : src.dropWhile (· ≠ '/') with
    | nil => exact ⟨out₁, rfl, by omega⟩
    | cons x src' =>
      rw [hrest, length_cons] at hlen hcut
      obtain ⟨out₂, hslash, hroom⟩ := addSlash_room ⟨hlast, hlen⟩
      simp only [hslash, ok_bind]
      exact ih (by omega) hroom

theorem joinPath_head (ns : List (List Char)) : (joinPath ns).head? = some '/' := by
  cases ns with
  | nil | cons k ns => rfl

/-- The path is absolute, or relative to a normalised working directory. If a slash is put between
the two, it does not take the place of the NUL. -/
def StartFits (wd path : List Char) : Prop :=
  path.head? = some '/' ∨ Normalised wd ∧
    (1 < wd.length ∧ path.head? ≠ some '.' → wd.length + path.length + 1 ≠ pathMax)

section

variable (h : StartFits wd path)

include h

theorem convStart_room
    (hlen : wd.length + path.length < pathMax) : ∃ src out, convStart wd path = (src, out) ∧
      src.length ≤ path.length ∧ Room src.length out := by
  rw [convStart.eq_def]
  split
  · rw [length_cons] at hlen ⊢
    exact ⟨_, _, rfl, Nat.le_succ _, rfl, by rw [length_singleton]; omega⟩
  rename_i habs
  obtain ⟨⟨names, -, rfl⟩, hslash⟩ := h.resolve_left fun hhead => by
    obtain ⟨src, rfl⟩ := head?_eq_some_iff.mp hhead
    exact habs src rfl
  have hlast : (joinPath names).reverse.getLast? = some '/' :=
    getLast?_reverse.trans (joinPath_head names)
  split_ifs with hlong
  · have hne := hslash hlong
    refine ⟨_, _, rfl, le_rfl, by rw [getLast?_cons, hlast, Option.getD_some], ?_⟩
    rw [length_cons, length_reverse]
    omega
  · exact ⟨_, _, rfl, le_rfl, hlast, by rw [length_reverse]; omega⟩

theorem pathConv_eq (hlen : wd.length + path.length < pathMax) : ∃ src out out',
      convStart wd path = (src, out) ∧ convLoop (path.length + 1) src out = .ok out' ∧
      out'.length < pathMax ∧ pathConv wd path = .ok (.ok out'.reverse) := by
  obtain ⟨src, out, hstart, hle, hroom⟩ := convStart_room h hlen
  obtain ⟨out', hloop, hlt⟩ := convLoop_room (Nat.lt_succ_of_le hle) hroom
  refine ⟨src, out, out', hstart, hloop, hlt, ?_⟩
  rw [pathConv, take_of_length_le (by omega), if_neg (by omega), if_neg (by omega), hstart]
  simp only [hloop, ok_bind, if_pos hlt]
  rfl

/-- A path that is too long for the copy in `path` does not fit behind a working directory. -/
theorem pathConv_cases :
    pathConv wd path = .ok (.error .enametoolong) ∨ ∃ fuel src out out',
      convStart wd (path.take (pathMax - 1)) = (src, out) ∧ convLoop fuel src out = .ok out' ∧
      out'.length < pathMax ∧ pathConv wd path = .ok (.ok out'.reverse) := by
  by_cases hlen : wd.length + (path.take (pathMax - 1)).length < pathMax
  · have hstart : StartFits wd (path.take (pathMax - 1)) := by
      by_cases hshort : path.length < pathMax
      · rwa [take_of_length_le (by omega)]
      refine h.imp (fun hhead => ?_) fun ⟨⟨names, _, hwd⟩, _⟩ => ?_
      · rw [head?_take, if_neg (by decide), hhead]
      have hpos := length_pos_of_mem (mem_of_head? (joinPath_head names))
      rw [← hwd] at hpos
      rw [length_take] at hlen
      omega
    obtain ⟨src, out, out', hinit, hloop, hlt, heq⟩ := pathConv_eq hstart hlen
    rw [pathConv, take_take, min_self] at heq
    exact .inr ⟨_, src, out, out', hinit, hloop, hlt, heq⟩
  refine .inl ?_
  rw [pathConv]
  dsimp only
  split_ifs
  · rfl
  · rfl
  · omega

end

/-! ### The tight case -/

/-- Nothing of the path is dropped: all components are names, but the last one may be empty. -/
def Fills : List (List Char) → Prop
  | [] => True
  | comp :: comps => (IsName comp ∨ comp = [] ∧ comps = []) ∧ Fills comps

theorem addSlash_head (h : out.head? = some '/') : addSlash out = .ok out :=
  if_neg fun hslash => hslash.2 h

/-- A path that takes all of the buffer leaves no room for the NUL, unless the loop drops a part of
it. -/
theorem convLoop_tight (hfuel : src.length < fuel) (hhead : out.head? = some '/')
    (hlast : out.getLast? = some '/') (hlen : out.length + src.length = pathMax) :
    (∃ out', convLoop fuel src out = .ok out' ∧ out'.length < pathMax) ↔
      ¬ Fills (components src) := by
  induction fuel generalizing src out with
  | zero => omega
  | succ fuel ih =>
    have hcut := congrArg length (takeWhile_append_dropWhile (p := (· ≠ '/')) (l := src))
    have hslash : '/' ∉ src.takeWhile (· ≠ '/') := fun hmem => by simpa using mem_takeWhile_imp hmem
    have hmore := (components_turn src).2
    have hcons := components_eq_cons src
    have hone := (components_turn src).1
    rw [length_append] at hcut
    rw [convLoop]
    by_cases hsrc : src = []
    · subst hsrc
      rw [if_pos rfl]
      refine ⟨?_, fun h => absurd ⟨.inr ⟨rfl, rfl⟩, trivial⟩ h⟩
      rintro ⟨_, ⟨⟩, hlt⟩
      rw [length_nil] at hlen
      omega
    rw [if_neg hsrc]
    generalize src.takeWhile (· ≠ '/') = comp at *
    by_cases hdots : comp = ['.'] ∨ comp = ['.', '.']
    · -- the dots are dropped, and what follows them fits
      have hdrop : ¬ Fills (components src) := by
        rw [hcons]
        rintro ⟨hname | ⟨rfl, -⟩, -⟩
        · exact hdots.elim hname.ne_dot hname.ne_dotdot
        · simp at hdots
      obtain ⟨out₁, hcomp, hroom⟩ : ∃ out₁, convComp out comp = .ok out₁ ∧
          Room (src.dropWhile (· ≠ '/')).length out₁ := by
        rcases hdots with rfl | rfl
        · exact ⟨out, rfl, hlast, by rw [length_singleton] at hcut; omega⟩
        · exact backUp_room ⟨hlast, by rw [length_cons, length_singleton] at hcut; omega⟩
      rw [hcomp, ok_bind]
      refine iff_of_true ?_ hdrop
      cases hrest : src.dropWhile (· ≠ '/') with
      | nil => exact ⟨out₁, rfl, by have := hroom.2; omega⟩
      | cons x src' =>
        rw [hrest, length_cons] at hroom hcut
        obtain ⟨out₂, hadd, hroom⟩ := addSlash_room hroom
        simp only [hadd, ok_bind]
        exact convLoop_room (by omega) hroom
    have hpush : convComp out comp = .ok (comp.reverse ++ out) := by
      rw [convComp, if_neg fun h => hdots (.inr h), if_neg fun h => hdots (.inl h)]
      exact (pushAll_cases out comp).resolve_right (by omega)
    rw [hpush, ok_bind]
    by_cases hnil : comp = []
    · -- of two slashes only one is written
      subst hnil
      cases hrest : src.dropWhile (· ≠ '/') with
      | nil =>
        rw [hrest] at hcut
        exact absurd (length_eq_zero_iff.mp hcut.symm) hsrc
      | cons x src' =>
        obtain rfl := slash_of_dropWhile hrest
        rw [hrest, length_cons, length_nil] at hcut
        rw [hmore src' hrest, components_eq_cons src']
        simp only [reverse_nil, nil_append, addSlash_head hhead, ok_bind]
        refine iff_of_true (convLoop_room (by omega) ⟨hlast, by omega⟩) ?_
        rintro ⟨hname | ⟨-, hcomps⟩, -⟩
        · exact hname.ne_nil rfl
        · cases hcomps
    have hname : IsName comp :=
      ⟨hnil, hslash, fun h => hdots (.inl h), fun h => hdots (.inr h)⟩
    have hlength : (comp.reverse ++ out).length = comp.length + out.length := by
      rw [length_append, length_reverse]
    cases hrest : src.dropWhile (· ≠ '/') with
    | nil =>
      rw [hrest, length_nil] at hcut
      rw [hone hrest]
      refine iff_of_false ?_ fun h => h ⟨.inl hname, trivial⟩
      rintro ⟨_, ⟨⟩, hlt⟩
      omega
    | cons x src' =>
      obtain rfl := slash_of_dropWhile hrest
      rw [hrest, length_cons] at hcut
      obtain ⟨y, pre, hrev⟩ := exists_cons_of_ne_nil (reverse_ne_nil_iff.mpr hnil)
      have hy : y ≠ '/' := by
        rintro rfl
        exact hslash (mem_reverse.mp (hrev ▸ mem_cons_self))
      have hadd : addSlash (comp.reverse ++ out) = .ok ('/' :: (comp.reverse ++ out)) := by
        rw [addSlash, if_pos (by simp [hrev, hy]), push, if_pos (by omega)]
      have hlast' : ('/' :: (comp.reverse ++ out)).getLast? = some '/' := by
        rw [getLast?_cons, getLast?_append, hlast, Option.some_or, Option.getD_some]
      simp only [hadd, ok_bind]
      rw [ih (by omega) rfl hlast' (by rw [length_cons]; omega), hmore src' hrest]
      exact not_congr ⟨fun h => ⟨.inl hname, h⟩, And.right⟩

/-! ### Without a working directory -/

/-- The names of the stack with no slash before the first one, and one behind each. -/
def slashedRel : List (List Char) → List Char
  | [] => []
  | c :: st => '/' :: (c.reverse ++ slashedRel st)

/-- No `..` comes behind exactly one name. -/
def Stays : Nat → List (List Char) → Prop
  | _, [] => True
  | depth, comp :: comps =>
    ¬ (comp = ['.', '.'] ∧ depth = 1) ∧ Stays (depthAfter depth comp) comps

theorem backUp_rel (hst : Kept st) : backUp (slashedRel st) =
    if st.length = 1 then .error .outOfBounds else .ok (slashedRel st.tail).tail := by
  cases st with
  | nil => rfl
  | cons c st =>
    obtain ⟨⟨hne, hc⟩, hst⟩ := forall_mem_cons.mp hst
    have hpos := length_pos_iff.mpr hne
    have hslash : ∀ x ∈ c.reverse, decide (x ≠ '/') = true := fun x hx => by
      simpa using ne_of_mem_of_not_mem (mem_reverse.mp hx) hc
    rw [backUp, slashedRel,
      if_pos (by simp only [length_cons, length_append, length_reverse]; omega), tail_cons,
      dropWhile_append_of_pos hslash]
    cases st with
    | nil => rfl
    | cons d st =>
      have hd := (hst d mem_cons_self).1
      have hrest : d.reverse ++ slashedRel st ≠ [] := by simp [hd]
      rw [slashedRel, dropWhile_cons_of_neg (by simp)]
      simp only [if_neg hrest]
      rfl

theorem addSlash_rel (hst : Kept st) (hlen : (slashedRel st).length ≤ pathMax) :
    addSlash (slashedRel st) = .ok (slashedRel st) ∧
      addSlash (slashedRel st).tail = .ok (slashedRel st) := by
  cases st with
  | nil => exact ⟨rfl, rfl⟩
  | cons c st =>
    refine ⟨addSlash_head rfl, ?_⟩
    obtain ⟨⟨hne, hc⟩, -⟩ := forall_mem_cons.mp hst
    obtain ⟨x, pre, hrev⟩ := exists_cons_of_ne_nil (reverse_ne_nil_iff.mpr hne)
    have hx : x ≠ '/' := by
      rintro rfl
      exact hc (mem_reverse.mp (hrev ▸ mem_cons_self))
    rw [slashedRel, length_cons] at hlen
    rw [slashedRel, tail_cons, addSlash, if_pos (by simp [hrev, hx]), push, if_pos (by omega)]

/-- **One component**, with no working directory. -/
theorem convComp_rel (hst : Kept st) (hlen : (slashedRel st).length + comp.length ≤ pathMax) :
    (comp = ['.', '.'] ∧ st.length = 1 ∧ convComp (slashedRel st) comp = .error .outOfBounds) ∨
      ¬ (comp = ['.', '.'] ∧ st.length = 1) ∧ ∃ out, convComp (slashedRel st) comp = .ok out ∧
        (out = slashedRel (applyComp st comp) ∨ out = (slashedRel (applyComp st comp)).tail) ∧
        out.length ≤ (slashedRel st).length + comp.length := by
  by_cases hdd : comp = ['.', '.']
  · subst hdd
    rw [convComp, if_pos rfl, backUp_rel hst]
    by_cases hone : st.length = 1
    · exact .inl ⟨rfl, hone, if_pos hone⟩
    refine .inr ⟨fun h => hone h.2, _, if_neg hone, .inr rfl, ?_⟩
    cases st with
    | nil => exact Nat.zero_le _
    | cons c st =>
      simp only [slashedRel, tail_cons, length_tail, length_cons, length_append]
      omega
  refine .inr ⟨fun h => hdd h.1, ?_⟩
  by_cases hd : comp = ['.']
  · subst hd
    exact ⟨slashedRel st, rfl, .inl rfl, Nat.le_add_right _ _⟩
  rw [convComp, if_neg hdd, if_neg hd]
  refine ⟨_, (pushAll_cases _ comp).resolve_right (by omega), ?_, ?_⟩
  · by_cases hnil : comp = []
    · subst hnil
      exact .inl rfl
    rw [applyComp, if_neg (not_or.mpr ⟨hnil, hd⟩), if_neg hdd]
    exact .inr rfl
  · rw [length_append, length_reverse]
    omega

/-- **The loop** with no working directory leads before the buffer exactly at a `..` behind one
name. -/
theorem convLoop_rel (hst : Kept st) (hfuel : src.length < fuel)
    (hlen : (slashedRel st).length + src.length < pathMax) :
    (∃ out', convLoop fuel src (slashedRel st) = .ok out' ∧ out'.length < pathMax) ↔
      Stays st.length (components src) := by
  induction fuel generalizing src st with
  | zero => omega
  | succ fuel ih =>
    have hcut := congrArg length (takeWhile_append_dropWhile (p := (· ≠ '/')) (l := src))
    have hslash : '/' ∉ src.takeWhile (· ≠ '/') := fun hmem => by simpa using mem_takeWhile_imp hmem
    have hcons := components_eq_cons src
    obtain ⟨hlast, hmore⟩ := components_turn src
    rw [length_append] at hcut
    rw [convLoop]
    by_cases hsrc : src = []
    · subst hsrc
      exact iff_of_true ⟨_, rfl, by omega⟩ ⟨by simp, trivial⟩
    rw [if_neg hsrc]
    generalize src.takeWhile (· ≠ '/') = comp at *
    rcases convComp_rel hst (show _ + comp.length ≤ _ by omega) with
      ⟨hdd, hone, herr⟩ | ⟨hstay, out₁, hcomp, hshape, hle⟩
    · rw [herr, hcons]
      refine iff_of_false ?_ fun h => h.1 ⟨hdd, hone⟩
      rintro ⟨_, ⟨⟩, -⟩
    rw [hcomp, ok_bind]
    cases hrest : src.dropWhile (· ≠ '/') with
    | nil =>
      rw [hlast hrest]
      exact iff_of_true ⟨out₁, rfl, by omega⟩ ⟨hstay, trivial⟩
    | cons x src' =>
      obtain rfl := slash_of_dropWhile hrest
      rw [hrest, length_cons] at hcut
      have hkept := hst.applyComp hslash
      have hlong : (slashedRel (applyComp st comp)).length ≤ out₁.length + 1 := by
        rcases hshape with rfl | rfl
        · exact Nat.le_succ _
        · rw [length_tail]
          omega
      obtain ⟨hsame, hput⟩ := addSlash_rel hkept (by omega)
      have hadd : addSlash out₁ = .ok (slashedRel (applyComp st comp)) :=
        hshape.elim (· ▸ hsame) (· ▸ hput)
      simp only [hadd, ok_bind]
      rw [ih hkept (by omega) (by omega), hmore src' hrest, Stays, ← length_applyComp,
        and_iff_right hstay]

theorem backUp_relative (hlast : out.getLast? ≠ some '/') (h : backUp out = .ok out') :
    out'.getLast? ≠ some '/' := by
  rw [backUp] at h
  split_ifs at h
  · cases hdrop : out.tail.dropWhile (· ≠ '/') with
    | nil =>
      rw [hdrop] at h
      cases h
    | cons slash rest =>
      -- what is left is an end of `out`
      obtain ⟨pre, hpre⟩ := (dropWhile_suffix (· ≠ '/') (l := out.tail)).trans (tail_suffix out)
      rw [← hpre, hdrop, getLast?_append_cons] at hlast
      rw [hdrop] at h
      cases h
      split_ifs with hrest
      · rwa [hrest] at hlast
      · obtain ⟨y, rest, rfl⟩ := exists_cons_of_ne_nil hrest
        rwa [getLast?_cons_cons] at hlast
  · cases h
    exact hlast

theorem convComp_relative (hlast : out.getLast? ≠ some '/') (hcomp : '/' ∉ comp)
    (h : convComp out comp = .ok out') : out'.getLast? ≠ some '/' := by
  rw [convComp] at h
  split_ifs at h
  · exact backUp_relative hlast h
  · cases h
    exact hlast
  · rcases pushAll_cases out comp with hpush | ⟨hpush, -⟩
    swap
    · cases hpush.symm.trans h
    cases hpush.symm.trans h
    rw [getLast?_append, getLast?_reverse]
    cases hout : out.getLast? with
    | none => exact fun hhead => hcomp (mem_of_head? hhead)
    | some c =>
      rw [hout] at hlast
      exact hlast

/-- What does not start with a slash never will. -/
theorem convLoop_relative (hlast : out.getLast? ≠ some '/')
    (h : convLoop fuel src out = .ok out') : out'.getLast? ≠ some '/' := by
  induction fuel generalizing src out with
  | zero =>
    rw [convLoop] at h
    split_ifs at h
    cases h
    exact hlast
  | succ fuel ih =>
    rw [convLoop] at h
    split_ifs at h
    · cases h
      exact hlast
    obtain ⟨out₁, hcomp, h⟩ := bind_ok.mp h
    have hlast₁ := convComp_relative hlast
      (fun hmem => by simpa using mem_takeWhile_imp hmem) hcomp
    cases hrest : src.dropWhile (· ≠ '/') with
    | nil =>
      rw [hrest] at h
      cases h
      exact hlast₁
    | cons x src' =>
      rw [hrest] at h
      obtain ⟨out₂, hslash, h⟩ := bind_ok.mp h
      refine ih (fun hlast₂ => hlast₁ ?_) h
      rw [addSlash, push] at hslash
      split_ifs at hslash with hpos
      · cases hslash
        obtain ⟨c, rest, rfl⟩ := exists_cons_of_length_pos hpos.1
        rwa [getLast?_cons_cons] at hlast₂
      · cases hslash
        exact hlast₂

theorem pathConv_relative {full : List Char} (habs : path.head? ≠ some '/')
    (h : pathConv [] path = .ok (.ok full)) : full.head? ≠ some '/' := by
  rw [pathConv] at h
  dsimp only at h
  split_ifs at h
  · cases h
  · cases h
  obtain ⟨out, hloop, h⟩ := bind_ok.mp h
  split_ifs at h
  cases h
  rw [head?_reverse]
  refine convLoop_relative ?_ hloop
  rw [convStart.eq_def]
  split
  · rename_i src hsrc
    have hhead : (path.take (pathMax - 1)).head? = path.head? := by
      rw [head?_take, if_neg (by decide)]
    exact absurd (by rw [← hhead, hsrc]; rfl) habs
  · rw [if_neg fun hlong => Nat.not_lt_zero _ hlong.1]
    exact nofun

theorem pathConv_ne_error {e : Errno} (hlen : wd.length + path.length < pathMax) :
    pathConv wd path ≠ .ok (.error e) := by
  intro h
  rw [pathConv, take_of_length_le (by omega), if_neg (by omega), if_neg (by omega)] at h
  obtain ⟨out, -, h⟩ := bind_ok.mp h
  split_ifs at h
  cases h

/-! ### The result -/

def firstComponent (path : List Char) : List Char := path.takeWhile (· ≠ '/')

/-- A relative path that starts with a dot starts with the component `.` or `..`, or is relative to
the root. -/
def StartsWell (wd path : List Char) : Prop :=
  path.head? ≠ some '.' ∨ wd = ['/'] ∨ firstComponent path = ['.'] ∨
    firstComponent path = ['.', '.']
  deriving Decidable

/-- The components that a path stands for: those of the working directory, unless it is
absolute, and its own. -/
def fullComponents (wd path : List Char) : List (List Char) :=
  (if path.head? = some '/' then [] else components wd) ++ components path

theorem Normalised.reverse (h : Normalised wd) :
    ∃ st, Kept st ∧ wd.reverse = bare st ∧ (components wd).foldl applyComp [] = st ∧
      (st = [] ↔ wd = ['/']) ∧ (1 < wd.length ↔ st ≠ []) := by
  obtain ⟨names, hnames, rfl⟩ := h
  have hrev := reverse_bare names.reverse
  rw [reverse_reverse] at hrev
  have hkept : Kept names.reverse := fun c hc =>
    ⟨(hnames c (mem_reverse.mp hc)).ne_nil, (hnames c (mem_reverse.mp hc)).slash⟩
  refine ⟨names.reverse, hkept, ?_, resolve_components hnames, ?_⟩
  · rw [← hrev, reverse_reverse]
  cases names with
  | nil => simp [joinPath]
  | cons c names =>
    have hne := (hnames c mem_cons_self).ne_nil
    have hpos := length_pos_iff.mpr hne
    simp [joinPath, hne]
    omega

theorem pathConv_resolves (hwd : Normalised wd)
    (hlen : wd.length + path.length + 2 < pathMax) (hstart : StartsWell wd path) :
    ∃ full, pathConv wd path = .ok (.ok full) ∧
      (full = joinPath (resolve (fullComponents wd path)) ∨
        full = joinPath (resolve (fullComponents wd path)) ++ ['/']) := by
  obtain ⟨src, out, out', hinit, hloop, -, heq⟩ := pathConv_eq (.inr ⟨hwd, fun _ => by omega⟩)
    (show wd.length + path.length < pathMax by omega)
  refine ⟨out'.reverse, heq, ?_⟩
  suffices hst : ∃ st, Kept st ∧ Starts out (src.takeWhile (· ≠ '/')) st ∧
      (components src).foldl applyComp st = (fullComponents wd path).foldl applyComp [] by
    obtain ⟨st, hkept, hstart, hfold⟩ := hst
    exact (hfold ▸ convLoop_shows hkept hstart hloop).reverse
  obtain ⟨st, hkept, hrev, hfold, hroot, hlong⟩ := hwd.reverse
  rw [fullComponents]
  by_cases habs : path.head? = some '/'
  · -- the first component of an absolute path is empty
    obtain ⟨rest, rfl⟩ := head?_eq_some_iff.mp habs
    rw [if_pos habs, nil_append, components_slash]
    cases hinit
    exact ⟨[], nofun, .inl rfl, rfl⟩
  have hconv : convStart wd path =
      if 1 < wd.length ∧ path.head? ≠ some '.' then (path, '/' :: wd.reverse)
      else (path, wd.reverse) := by
    unfold convStart
    split
    · exact absurd rfl habs
    · rfl
  rw [if_neg habs, foldl_append, hfold]
  rw [hconv, hrev] at hinit
  by_cases hlong' : 1 < wd.length
  · obtain ⟨c, st, rfl⟩ := exists_cons_of_ne_nil (hlong.mp hlong')
    by_cases hdot : path.head? = some '.'
    · rw [if_neg (by simp [hdot])] at hinit
      cases hinit
      have hdots := (hstart.resolve_left (not_not.mpr hdot)).resolve_left fun h =>
        absurd (hroot.mpr h) (cons_ne_nil _ _)
      exact ⟨_, hkept, .inr ⟨rfl, hdots⟩, rfl⟩
    rw [if_pos ⟨hlong', hdot⟩] at hinit
    cases hinit
    exact ⟨_, hkept, .inl rfl, rfl⟩
  obtain rfl : st = [] := by
    by_contra hne
    exact hlong' (hlong.mpr hne)
  rw [if_neg fun h => hlong' h.1] at hinit
  cases hinit
  exact ⟨[], hkept, .inl rfl, rfl⟩

/-- From `depth` names, the `..` components lead up to the root at some point. -/
def Climbs : Nat → List (List Char) → Prop
  | 0, _ => True
  | _ + 1, [] => False
  | depth + 1, comp :: comps => Climbs (depthAfter (depth + 1) comp) comps

/-- Two stacks of different heights become the same only at the root. -/
theorem foldl_eq_iff_climbs {s t : List (List Char)} (comps : List (List Char))
    (hlen : s.length + 1 = t.length) :
    comps.foldl applyComp s = comps.foldl applyComp t ↔ Climbs t.length comps := by
  induction comps generalizing s t with
  | nil =>
    rw [← hlen]
    refine ⟨fun h => ?_, False.elim⟩
    rw [show s = t from h] at hlen
    omega
  | cons comp comps ih =>
    rw [foldl_cons, foldl_cons, ← hlen, Climbs, hlen, ← length_applyComp]
    by_cases hend : comp = ['.', '.'] ∧ s = []
    · -- both stacks are empty now
      obtain ⟨rfl, rfl⟩ := hend
      obtain ⟨c, rfl⟩ := length_eq_one_iff.mp hlen.symm
      exact ⟨fun _ => by cases comps <;> trivial, fun _ => rfl⟩
    refine ih ?_
    rw [length_applyComp, length_applyComp, depthAfter, depthAfter]
    split_ifs with hstay hdd
    · exact hlen
    · have := length_pos_iff.mpr fun hs => hend ⟨hdd, hs⟩
      omega
    · omega

/-- The names are what is left of the components of their path. -/
theorem filter_components_joinPath (h : Kept names) :
    (components (joinPath names)).filter (· ≠ []) = names := by
  have hself : names.filter (· ≠ []) = names :=
    filter_eq_self.mpr fun c hc => decide_eq_true (h c hc).1
  rw [components, joinPath]
  split
  · rename_i hnil
    rw [hnil]
    rfl
  · rw [splitOn_flatMap fun c hc => (h c hc).2, filter_cons_of_neg (by simp), hself]

theorem joinPath_injective {ns : List (List Char)} {full : List Char} (hnames : Kept names)
    (hns : Kept ns) (h : full = joinPath names ∨ full = joinPath names ++ ['/'])
    (h' : full = joinPath ns ∨ full = joinPath ns ++ ['/']) : names = ns := by
  have hread : ∀ ms, Kept ms → full = joinPath ms ∨ full = joinPath ms ++ ['/'] →
      (components full).filter (· ≠ []) = ms := by
    rintro ms hms (rfl | rfl)
    · exact filter_components_joinPath hms
    · rw [components, splitOn_append_cons_self, filter_append]
      exact (append_nil _).trans (filter_components_joinPath hms)
  rw [← hread names hnames h, hread ns hns h']

theorem components_no_slash {comp : List Char} (h : comp ∈ components path) : '/' ∉ comp := by
  induction path generalizing comp with
  | nil =>
    rw [mem_singleton.mp h]
    exact not_mem_nil
  | cons x xs ih =>
    rw [components, splitOn_cons_eq_if_modifyHead] at h
    split at h
    · rcases mem_cons.mp h with rfl | h
      · exact not_mem_nil
      · exact ih h
    rename_i hx
    cases hsplit : xs.splitOn '/' with
    | nil =>
      rw [hsplit] at h
      cases h
    | cons c cs =>
      have hmem : ∀ d ∈ c :: cs, '/' ∉ d := fun d hd => ih (hsplit.symm ▸ hd : d ∈ xs.splitOn '/')
      rw [hsplit] at h
      rcases mem_cons.mp h with rfl | h
      · simpa using ⟨Ne.symm (by simpa using hx), hmem c mem_cons_self⟩
      · exact hmem comp (mem_cons_of_mem _ h)

theorem Kept.foldl {comps : List (List Char)} (h : Kept st) (hcomps : ∀ c ∈ comps, '/' ∉ c) :
    Kept (comps.foldl Vfscore.applyComp st) := by
  induction comps generalizing st with
  | nil => exact h
  | cons c comps ih =>
    exact ih (h.applyComp (hcomps c mem_cons_self)) fun d hd =>
      hcomps d (mem_cons_of_mem _ hd)

/-- A relative path that does not start well: its first component becomes a part of the last name
of the working directory, and the result is right only where the rest of the path leads up to the
root. -/
theorem pathConv_joined (hwd : Normalised wd)
    (hlen : wd.length + path.length + 2 < pathMax) (hstart : ¬ StartsWell wd path) :
    (∃ full, pathConv wd path = .ok (.ok full) ∧
      (full = joinPath (resolve (fullComponents wd path)) ∨
        full = joinPath (resolve (fullComponents wd path)) ++ ['/'])) ↔
      Climbs ((resolve (components wd)).length + 1) (components path).tail := by
  obtain ⟨hhead, hroot, hd, hdd⟩ : path.head? = some '.' ∧ wd ≠ ['/'] ∧
      firstComponent path ≠ ['.'] ∧ firstComponent path ≠ ['.', '.'] := by
    simpa only [StartsWell, not_or, not_not, ne_eq] using hstart
  obtain ⟨src, out, out', hinit, hloop, -, heq⟩ := pathConv_eq (.inr ⟨hwd, fun _ => by omega⟩)
    (show wd.length + path.length < pathMax by omega)
  obtain ⟨st, hkept, hrev, hfold, hnil, -⟩ := hwd.reverse
  obtain ⟨c, st, rfl⟩ := exists_cons_of_ne_nil (mt hnil.mp hroot)
  obtain ⟨rest, rfl⟩ := head?_eq_some_iff.mp hhead
  rw [convStart.eq_2 _ _ fun _ h => absurd (cons.inj h).1 (by decide), if_neg (by simp),
    hrev] at hinit
  cases hinit
  have hname : IsName (firstComponent ('.' :: rest)) :=
    ⟨by simp [firstComponent], fun hmem => by simpa using mem_takeWhile_imp hmem, hd, hdd⟩
  have hshows := (convLoop_joined hkept hdd hd (cons_ne_nil _ _) hloop).reverse
  have hgood : resolve (fullComponents wd ('.' :: rest)) =
      ((components ('.' :: rest)).tail.foldl applyComp
        (firstComponent ('.' :: rest) :: c :: st)).reverse := by
    rw [resolve, fullComponents, if_neg (by simp), foldl_append, hfold, components_eq_cons,
      ← firstComponent, foldl_cons, applyComp_name hname, tail_cons]
  have hdepth : (resolve (components wd)).length + 1 =
      (firstComponent ('.' :: rest) :: c :: st).length := by
    rw [resolve, hfold, length_reverse]
    rfl
  have htail : ∀ comp ∈ (components ('.' :: rest)).tail, '/' ∉ comp :=
    fun comp hc => components_no_slash (mem_of_mem_tail hc)
  rw [hdepth, ← foldl_eq_iff_climbs (s := (c ++ firstComponent ('.' :: rest)) :: st) _ rfl]
  constructor
  · rintro ⟨full, hconv, hfull⟩
    cases heq.symm.trans hconv
    rw [hgood] at hfull
    refine reverse_injective (joinPath_injective ?_ ?_ hshows hfull)
    · exact fun d hd => (hkept.join hname.slash).foldl htail d (mem_reverse.mp hd)
    · have hpushed : Kept (firstComponent ('.' :: rest) :: c :: st) :=
        forall_mem_cons.mpr ⟨⟨hname.ne_nil, hname.slash⟩, hkept⟩
      exact fun d hd => hpushed.foldl htail d (mem_reverse.mp hd)
  · intro hsame
    refine ⟨_, heq, ?_⟩
    rw [hgood, ← hsame]
    exact hshows

/-- **Path normalisation.** `path_conv` leads to the names that the components of a normalised
working directory and of the path resolve to, up to a slash at the end, exactly if the path starts
well, or its later components lead up to the root. -/
theorem path_conv_resolves (wd path : List Char) (hwd : Normalised wd)
    (hlen : wd.length + path.length + 2 < pathMax) :
    (∃ full, pathConv wd path = .ok (.ok full) ∧
      (full = joinPath (resolve (fullComponents wd path)) ∨
        full = joinPath (resolve (fullComponents wd path)) ++ ['/'])) ↔
      StartsWell wd path ∨
        Climbs ((resolve (components wd)).length + 1) (components path).tail := by
  by_cases hstart : StartsWell wd path
  · exact ⟨fun _ => .inl hstart, fun _ => pathConv_resolves hwd hlen hstart⟩
  · rw [pathConv_joined hwd hlen hstart]
    exact ⟨.inr, fun h => h.resolve_left hstart⟩

theorem path_conv_resolves_parent :
    ∃ full, pathConv "/a/bc".toList "../.d//./e".toList = .ok (.ok full) ∧
      (full = "/a/.d/e".toList ∨ full = "/a/.d/e/".toList) := by
  have hname : ∀ c ∈ ["a".toList, "bc".toList], IsName c := by
    intro c hc
    simp only [mem_cons, not_mem_nil, or_false] at hc
    rcases hc with rfl | rfl <;> exact ⟨by decide, by decide, by decide, by decide⟩
  exact (path_conv_resolves "/a/bc".toList "../.d//./e".toList
    ⟨["a".toList, "bc".toList], hname, by decide⟩ (by decide)).mpr (.inl (by decide))

/-- A hidden file in a directory other than the root is not found: `.b` in `/a` is taken for
`/a.b`. -/
theorem path_conv_hidden_file :
    Normalised "/a".toList ∧ pathConv "/a".toList ".b".toList = .ok (.ok "/a.b".toList) ∧
      joinPath (resolve (fullComponents "/a".toList ".b".toList)) = "/a/.b".toList := by
  refine ⟨⟨["a".toList], ?_, by decide⟩, by decide +kernel, by decide⟩
  intro c hc
  rw [mem_singleton.mp hc]
  exact ⟨by decide, by decide, by decide, by decide⟩

/-- The path is absolute; or no `..` leads before the start of a buffer without a working
directory, and where a slash is added behind the working directory, it does not take the place of
the NUL, or the loop drops a part of the path. -/
def StaysInside (wd path : List Char) : Prop :=
  path.head? = some '/' ∨ (wd = [] → Stays 0 (components (path.take (pathMax - 1)))) ∧
    ¬ (1 < wd.length ∧ path.head? ≠ some '.' ∧ wd.length + path.length + 1 = pathMax ∧
      Fills (components path))

theorem pathConv_inBuffer_iff (hlen : wd.length + (path.take (pathMax - 1)).length < pathMax)
    (hinit : convStart wd (path.take (pathMax - 1)) = (src, out)) :
    (pathConv wd path = .ok (.error .enametoolong) ∨
      ∃ full, pathConv wd path = .ok (.ok full) ∧ full.length < pathMax) ↔
      ∃ out', convLoop ((path.take (pathMax - 1)).length + 1) src out = .ok out' ∧
        out'.length < pathMax := by
  rw [pathConv]
  simp only [hinit]
  rw [if_neg (by omega), if_neg (by omega)]
  cases hloop : convLoop ((path.take (pathMax - 1)).length + 1) src out with
  | error e => exact iff_of_false (by rintro (h | ⟨_, h, -⟩) <;> cases h) (by rintro ⟨_, ⟨⟩, -⟩)
  | ok out' =>
    rw [ok_bind]
    by_cases hlt : out'.length < pathMax
    · rw [if_pos hlt]
      exact iff_of_true (.inr ⟨_, rfl, by rwa [length_reverse]⟩) ⟨out', rfl, hlt⟩
    · rw [if_neg hlt]
      refine iff_of_false (by rintro (h | ⟨_, h, -⟩) <;> cases h) ?_
      rintro ⟨_, ⟨⟩, h⟩
      exact hlt h

/-- **`path_conv` stays inside of its buffer** exactly if the path and the working directory do not
lead out of it at one of its ends. -/
theorem path_conv_in_buffer (wd path : List Char) (hwd : wd = [] ∨ Normalised wd) :
    (pathConv wd path = .ok (.error .enametoolong) ∨
      ∃ full, pathConv wd path = .ok (.ok full) ∧ full.length < pathMax) ↔
      StaysInside wd path := by
  have hfits : StartFits wd path → pathConv wd path = .ok (.error .enametoolong) ∨
      ∃ full, pathConv wd path = .ok (.ok full) ∧ full.length < pathMax := fun h => by
    refine (pathConv_cases h).imp_right ?_
    rintro ⟨fuel, src, out, out', -, -, hlt, heq⟩
    exact ⟨_, heq, by rwa [length_reverse]⟩
  rw [StaysInside]
  by_cases habs : path.head? = some '/'
  · exact iff_of_true (hfits (.inl habs)) (.inl habs)
  rw [or_iff_right habs]
  by_cases hnil : wd = []
  · subst hnil
    have hlen : (path.take (pathMax - 1)).length < pathMax := by
      rw [length_take]
      exact Nat.lt_of_le_of_lt (Nat.min_le_left _ _) (by decide)
    have hinit : convStart [] (path.take (pathMax - 1)) = (path.take (pathMax - 1), []) := by
      rw [convStart.eq_2, if_neg fun h => Nat.not_lt_zero _ h.1]
      · rfl
      · intro src h
        have hhead : (path.take (pathMax - 1)).head? = path.head? := by
          rw [head?_take, if_neg (by decide)]
        exact habs (by rw [← hhead, h]; rfl)
    rw [pathConv_inBuffer_iff (by simpa using hlen) hinit,
      and_iff_left fun h => Nat.not_lt_zero _ h.1, forall_prop_of_true rfl]
    refine convLoop_rel (show Kept [] from nofun) (Nat.lt_succ_self _) ?_
    rwa [slashedRel, length_nil, Nat.zero_add]
  have hnorm := hwd.resolve_left hnil
  rw [and_iff_right fun h => absurd h hnil]
  by_cases htight : 1 < wd.length ∧ path.head? ≠ some '.' ∧ wd.length + path.length + 1 = pathMax
  · obtain ⟨hlong, hdot, hsum⟩ := htight
    have htake : path.take (pathMax - 1) = path := take_of_length_le (by omega)
    obtain ⟨names, -, rfl⟩ := hnorm
    have hlast : ('/' :: (joinPath names).reverse).getLast? = some '/' := by
      rw [getLast?_cons, getLast?_reverse, joinPath_head, Option.getD_some]
    have hinit : convStart (joinPath names) (path.take (pathMax - 1)) =
        (path, '/' :: (joinPath names).reverse) := by
      rw [htake, convStart.eq_2 _ _ (fun src h => habs (by rw [h]; rfl)), if_pos ⟨hlong, hdot⟩]
    rw [pathConv_inBuffer_iff (by rw [htake]; omega) hinit, htake, convLoop_tight
      (Nat.lt_succ_self _) rfl hlast (by rw [length_cons, length_reverse]; omega)]
    exact not_congr ⟨fun h => ⟨hlong, hdot, hsum, h⟩, fun h => h.2.2.2⟩
  · refine iff_of_true (hfits (.inr ⟨hnorm, fun h hsum => htight ⟨h.1, h.2, hsum⟩⟩)) fun h => ?_
    exact htight ⟨h.1, h.2.1, h.2.2.1⟩

theorem path_conv_in_buffer_root :
    pathConv "/".toList "a/../..".toList = .ok (.error .enametoolong) ∨
      ∃ full, pathConv "/".toList "a/../..".toList = .ok (.ok full) ∧ full.length < pathMax :=
  (path_conv_in_buffer "/".toList "a/../..".toList (.inr ⟨[], nofun, rfl⟩)).mpr
    (.inr ⟨nofun, fun h => absurd h.1 (by decide)⟩)

/-- With an empty working directory, `..` leads before the buffer; with `/a` and 4093 characters,
the NUL is written behind it. -/
theorem path_conv_outside : pathConv [] "a/..".toList = .error .outOfBounds ∧
    pathConv "/a".toList (replicate 4093 'b') = .error .outOfBounds := by
  refine ⟨by decide, ?_⟩
  have hne (comp : List Char) (h : comp.length < 3) : replicate 4093 'b' ≠ comp := by
    rintro rfl
    rw [length_replicate] at h
    omega
  have hslash : ∀ c ∈ replicate 4093 'b', decide (c ≠ '/') = true := fun c hc => by
    rw [eq_of_mem_replicate hc]
    rfl
  have hlen : (replicate 4093 'b').length = 4093 := length_replicate
  have hstart : convStart "/a".toList (replicate 4093 'b') =
      (replicate 4093 'b', "/a/".toList.reverse) := rfl
  generalize replicate 4093 'b' = path at *
  rw [pathConv, take_of_length_le (by rw [hlen]; decide)]
  simp only [hstart]
  rw [hlen, convLoop, if_neg (hne [] (by decide)), takeWhile_eq_self_iff.mpr hslash,
    dropWhile_eq_nil_iff.mpr hslash, convComp, if_neg (hne _ (by decide)),
    if_neg (hne _ (by decide)), (pushAll_cases _ _).resolve_right (by simp [hlen, pathMax])]
  rw [if_neg (by decide), if_neg (by decide), ok_bind]
  exact if_neg (by rw [length_append, length_reverse, hlen]; decide)

end Unikraft.Vfscore
