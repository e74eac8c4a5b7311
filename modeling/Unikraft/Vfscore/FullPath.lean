import Mathlib.Data.List.Chain
import Mathlib.Data.List.DropRight
import Unikraft.Vfscore.Syscalls

/-!
# Unikraft.Vfscore.FullPath

The paths that the system calls work on come from `path_conv`: absolute, without two slashes in a
row (`FullPath`). The functions of `lookup.c` look for the dentries of the names behind the mount
point (`mountNames`, `lastComponent_eq`).
-/

namespace Unikraft.Vfscore

open Lib List Outcome

/-! ### Names -/

section

variable {p q path dir name : List Char} {ns : List (List Char)}

theorem names_kept (p : List Char) : Kept (names p) := by
  intro k hk
  obtain ⟨hcomp, hne⟩ := mem_filter.mp hk
  exact ⟨of_decide_eq_true hne, components_no_slash hcomp⟩

theorem names_append : names (p ++ '/' :: q) = names p ++ names q := by
  rw [names, components, splitOn_append_cons_self, filter_append]
  rfl

theorem names_single (hname : '/' ∉ name) : names name = if name = [] then [] else [name] := by
  rw [names, components, splitOn_eq_singleton hname]
  split
  · rename_i hnil
    rw [hnil]
    rfl
  rename_i hne
  exact filter_cons_of_pos (by simpa using hne)

theorem names_joinPath (h : Kept ns) : names (joinPath ns) = ns := filter_components_joinPath h

theorem joinPath_inj {ns' : List (List Char)} (h : Kept ns) (h' : Kept ns')
    (heq : joinPath ns = joinPath ns') : ns = ns' :=
  joinPath_injective h h' (.inl rfl) (.inl heq)

theorem splitLast_eq (h : splitLast path = some (dir, name)) :
    path = dir ++ '/' :: name ∧ '/' ∉ name := by
  have hjoin := takeWhile_append_dropWhile (p := (· ≠ '/')) (l := path.reverse)
  rw [splitLast] at h
  cases hdrop : path.reverse.dropWhile (· ≠ '/') with
  | nil =>
    rw [hdrop] at h
    cases h
  | cons x rest =>
    rw [hdrop] at h hjoin
    cases h
    refine ⟨?_, fun hmem => ?_⟩
    · conv_lhs => rw [← reverse_reverse path, ← hjoin, slash_of_dropWhile hdrop]
      simp
    · simpa using mem_takeWhile_imp (mem_reverse.mp hmem)

end

/-! ### Full paths -/

/-- An absolute path without two slashes in a row. -/
structure FullPath (path : List Char) : Prop where
  rooted : path.head? = some '/'
  single : path.IsChain fun a b => a = '/' → b ≠ '/'
  short : path.length < pathMax

section

variable {p path dir name : List Char} {st : List (List Char)}

theorem eq_joinPath_names (h : ('/' :: p).IsChain fun a b => a = '/' → b ≠ '/')
    (hend : endsSlash p = false) : '/' :: p = joinPath (names p) := by
  induction hlen : p.length using Nat.strong_induction_on generalizing p with
  | _ n ih =>
    cases p with
    | nil => rfl
    | cons x xs =>
      have hx : x ≠ '/' := (isChain_cons_cons.mp h).1 rfl
      have hdrop : (x :: xs).dropWhile (· = '/') = x :: xs :=
        dropWhile_cons_of_neg (by simpa using hx)
      have hfirst := firstName hdrop
      have hjoin := takeWhile_append_dropWhile (p := (· ≠ '/')) (l := x :: xs)
      generalize (x :: xs).takeWhile (· ≠ '/') = name at *
      generalize hrest : (x :: xs).dropWhile (· ≠ '/') = rest at *
      rw [hfirst.names]
      cases rest with
      | nil =>
        rw [← hjoin]
        simp [joinPath]
      | cons y q =>
        -- behind the name there is a slash, and not at the end
        obtain rfl := slash_of_dropWhile hrest
        have hchain : ('/' :: q).IsChain fun a b => a = '/' → b ≠ '/' := by
          refine h.suffix ⟨'/' :: name, ?_⟩
          rw [cons_append, hjoin]
        have hslash := hfirst.slash
        rw [hend] at hslash
        have hne : q ≠ [] := by
          rintro rfl
          simp [endsSlash] at hslash
        have hend' : endsSlash q = false := by
          obtain ⟨z, zs, rfl⟩ := exists_cons_of_ne_nil hne
          simpa [endsSlash, getLast?_cons_cons] using hslash
        have hshort := hfirst.shorter
        rw [length_cons] at hshort
        have hq := ih q.length (by omega) hchain hend' rfl
        have hnames : names q ≠ [] := by
          intro hnil
          rw [hnil] at hq
          exact hne (List.cons.inj hq).2
        rw [joinPath, if_neg hnames] at hq
        rw [← hjoin, names_slash, joinPath, if_neg (cons_ne_nil _ _), flatMap_cons, ← hq]
        rfl

theorem slashed_single (h : Kept st) : (slashed st).IsChain fun a b => a = '/' → b ≠ '/' := by
  induction st with
  | nil => exact isChain_singleton _
  | cons k st ih =>
    obtain ⟨hne, hslash⟩ := h k mem_cons_self
    obtain ⟨x, xs, hx⟩ := exists_cons_of_ne_nil (reverse_ne_nil_iff.mpr hne)
    have hno : ∀ y ∈ x :: xs, y ≠ '/' := by
      intro y hy heq
      rw [← hx, mem_reverse, heq] at hy
      exact hslash hy
    rw [slashed, hx, isChain_cons, isChain_append]
    refine ⟨fun y hy _ => ?_, ?_, ih fun c hc => h c (mem_cons_of_mem _ hc), ?_⟩
    · cases hy
      exact hno x mem_cons_self
    · exact (pairwise_of_forall_mem_list fun a ha b _ heq =>
        absurd heq (hno a ha)).isChain
    intro a ha b _ heq
    exact absurd heq (hno a (mem_of_getLast? ha))

theorem bare_single (h : Kept st) : (bare st).IsChain fun a b => a = '/' → b ≠ '/' := by
  cases st with
  | nil => exact isChain_singleton _
  | cons k st => exact (slashed_single h).suffix ⟨['/'], rfl⟩

theorem pathConv_root (cpath : List Char) :
    (∃ e, pathConv ['/'] cpath = .ok (.error e)) ∨
      ∃ path, pathConv ['/'] cpath = .ok (.ok path) ∧ FullPath path := by
  have hfits : StartFits ['/'] cpath :=
    .inr ⟨⟨[], nofun, rfl⟩, fun h => absurd h.1 (Nat.lt_irrefl 1)⟩
  refine (pathConv_cases hfits).imp (fun heq => ⟨_, heq⟩) ?_
  rintro ⟨fuel, src, init, out, hstart, hloop, hshort, heq⟩
  obtain rfl : init = slashed [] := by
    rw [convStart.eq_def] at hstart
    split at hstart <;> cases hstart <;> rfl
  have hempty : Kept [] := nofun
  have hshows := convLoop_shows hempty (.inl rfl) hloop
  have hkept : Kept ((components src).foldl applyComp []) :=
    hempty.foldl fun c hc => components_no_slash hc
  refine ⟨_, heq, ?_, ?_, by simpa using hshort⟩
  · rcases hshows.reverse with heq | heq
    · rw [heq]
      exact joinPath_head _
    rw [heq, head?_append, joinPath_head]
    rfl
  rw [isChain_reverse]
  have hsingle : out.IsChain fun a b => a = '/' → b ≠ '/' := by
    rcases hshows with heq | heq
    · exact heq ▸ slashed_single hkept
    · exact heq ▸ bare_single hkept
  exact hsingle.imp fun a b himp hb ha => himp ha hb

end

/-! ### One mounted file system -/

def mountPart (m : Mount) (path : List Char) : Option (List Char) :=
  (vfsFindroot [m] path).map fun found => path.drop found.2

/-- What a path below a mount point has before the slash of its first name. -/
def mountBase (root : List Char) : List Char := if root = ['/'] then [] else root

/-- The names of a path in a mounted file system. -/
def mountNames (m : Mount) (path : List Char) : Option (List (List Char)) :=
  (mountPart m path).map names

section

variable {m : Mount} {root p q path dir name : List Char} {ns : List (List Char)} {pos : Nat}

theorem mountBase_ne (root : List Char) : mountBase root ≠ ['/'] := by
  rw [mountBase]
  split
  · exact nofun
  · assumption

theorem mountPart_some {m' : Mount} (h : vfsFindroot [m] path = some (m', pos)) :
    m' = m ∧ mountPart m path = some (path.drop pos) := by
  refine ⟨mem_singleton.mp (mem_of_vfsFindroot h), ?_⟩
  rw [mountPart, h]
  rfl

theorem countMatch_pos (h : 0 < countMatch path root) :
    root ≠ [] ∧ countMatch path root = root.length ∧
      (path = root ∨ ∃ rest, path = mountBase root ++ '/' :: rest) := by
  by_cases hpre : root <+: path
  · obtain ⟨rest, rfl⟩ := hpre
    rw [countMatch, if_neg (not_not.mpr ⟨rest, rfl⟩), drop_left] at h ⊢
    split at h
    · rename_i hroot
      rw [if_pos hroot, hroot]
      exact ⟨cons_ne_nil _ _, rfl, .inr ⟨rest, rfl⟩⟩
    rename_i hroot
    rw [if_neg hroot, mountBase, if_neg hroot]
    cases rest with
    | nil => exact ⟨ne_nil_of_length_pos h, rfl, .inl (append_nil _)⟩
    | cons x rest =>
      dsimp only at h ⊢
      split at h
      · rename_i hx
        exact ⟨ne_nil_of_length_pos h, if_pos hx, .inr ⟨rest, by rw [hx]⟩⟩
      · exact absurd h (Nat.lt_irrefl 0)
  rw [countMatch, if_pos hpre] at h
  exact absurd h (Nat.lt_irrefl 0)

theorem countMatch_below (rest : List Char) :
    countMatch (mountBase root ++ '/' :: rest) root = root.length := by
  by_cases hroot : root = ['/']
  · rw [hroot]
    rfl
  rw [mountBase, if_neg hroot, countMatch, if_neg (not_not.mpr ⟨_, rfl⟩), if_neg hroot, drop_left]
  rfl

/-- The names of a normalised mount path are the first components of the path. -/
def Covers (root path : List Char) : Prop :=
  path = root ∨ ∃ comps, comps ≠ [] ∧ path = (names root ++ comps).flatMap ('/' :: ·)

theorem countMatch_pos_iff (h : Normalised root) : 0 < countMatch path root ↔ Covers root path := by
  obtain ⟨ns, hkept, rfl⟩ := h
  have hnames : names (joinPath ns) = ns :=
    names_joinPath fun c hc => ⟨(hkept c hc).ne_nil, (hkept c hc).slash⟩
  have hbase : mountBase (joinPath ns) = ns.flatMap ('/' :: ·) := by
    by_cases hnil : ns = []
    · rw [hnil]
      rfl
    have hroot : joinPath ns ≠ ['/'] := fun heq => hnil (hnames ▸ heq ▸ rfl)
    rw [mountBase, if_neg hroot, joinPath, if_neg hnil]
  rw [Covers, hnames]
  constructor
  · intro hpos
    refine (countMatch_pos hpos).2.2.imp_right ?_
    rintro ⟨rest, heq⟩
    exact ⟨[rest], cons_ne_nil _ _, by simp [heq, hbase]⟩
  have hpos : 0 < (joinPath ns).length := length_pos_of_mem (mem_of_mem_head? (joinPath_head ns))
  rintro (rfl | ⟨comps, hne, rfl⟩)
  · rw [countMatch, if_neg (not_not.mpr prefix_rfl), drop_length]
    split
    · exact Nat.one_pos
    · exact hpos
  obtain ⟨k, comps, rfl⟩ := exists_cons_of_ne_nil hne
  rw [flatMap_append, ← hbase]
  exact (countMatch_below _).symm ▸ hpos

theorem prefix_of_match (h : 0 < countMatch path root) : root <+: path := by
  by_contra hne
  rw [countMatch, if_pos hne] at h
  exact Nat.lt_irrefl 0 h

/-- **Mount resolution.** A path has no mount if and only if none covers it. The mount that is found
covers the path and is longer than every other that does; the path goes on behind it, without one
slash. -/
theorem vfs_findroot_longest (mounts : List Mount) (path : List Char)
    (hnorm : ∀ m ∈ mounts, Normalised m.mPath) (hdistinct : (mounts.map Mount.mPath).Nodup) :
    (vfsFindroot mounts path = none ↔ ∀ m ∈ mounts, ¬ Covers m.mPath path) ∧
      ∀ m pos, vfsFindroot mounts path = some (m, pos) → m ∈ mounts ∧ Covers m.mPath path ∧
        (∀ m' ∈ mounts, Covers m'.mPath path → m' = m ∨ m'.mPath.length < m.mPath.length) ∧
        ∃ rest, path = m.mPath ++ rest ∧
          path.drop pos = if rest.head? = some '/' then rest.tail else rest := by
  have hcovers : ∀ m ∈ mounts, 0 < countMatch path m.mPath ↔ Covers m.mPath path :=
    fun m hm => countMatch_pos_iff (hnorm m hm)
  rcases findrootLoop_longest path mounts 0 none with ⟨hloop, hzero⟩ | ⟨m, hm, hloop, hlt, hmax⟩
  · rw [vfsFindroot, hloop]
    refine ⟨⟨fun _ m hm hcov => ((hcovers m hm).mpr hcov).not_ge (hzero m hm), fun _ => rfl⟩, ?_⟩
    intro m pos heq
    cases heq
  have hcov := (hcovers m hm).mp hlt
  rw [vfsFindroot, hloop]
  refine ⟨iff_of_false (Option.some_ne_none _) fun hnone => hnone m hm hcov, fun m' pos heq => ?_⟩
  obtain ⟨rfl, rfl⟩ := Prod.mk.inj (Option.some.inj heq)
  obtain ⟨rest, hrest⟩ := prefix_of_match hlt
  have hcount := (countMatch_pos hlt).2.1
  refine ⟨hm, hcov, fun m' hm' hcov' => ?_, rest, hrest.symm, ?_⟩
  · have hlt' := (hcovers m' hm').mpr hcov'
    have hle := hmax m' hm'
    rw [hcount, (countMatch_pos hlt').2.1] at hle
    -- both are at the front of the path
    have hpre := prefix_of_prefix_length_le (prefix_of_match hlt') ⟨rest, hrest⟩ hle
    exact hle.lt_or_eq.symm.imp_left fun heq =>
      inj_on_of_nodup_map hdistinct hm' hm (hpre.eq_of_length heq)
  rw [hcount, ← hrest, drop_left]
  split
  · rw [← drop_drop, drop_left, drop_one]
  · exact drop_left

/-- A mount below the root. -/
theorem vfs_findroot_longest_nested :
    vfsFindroot [⟨0, ['/'], 0⟩, ⟨64, ['/', 'a'], 1⟩] ['/', 'a', '/', 'b'] =
        some (⟨64, ['/', 'a'], 1⟩, 3) ∧ Covers ['/', 'a'] ['/', 'a', '/', 'b'] := by
  have hname : IsName ['a'] := by constructor <;> decide
  have hnorm : ∀ m ∈ [⟨0, ['/'], 0⟩, (⟨64, ['/', 'a'], 1⟩ : Mount)], Normalised m.mPath :=
    forall_mem_cons.mpr ⟨⟨[], nofun, rfl⟩, forall_mem_singleton.mpr
      ⟨[['a']], by simpa using hname, rfl⟩⟩
  have hfound := (vfs_findroot_longest _ ['/', 'a', '/', 'b'] hnorm (by decide)).2 _ 3 rfl
  exact ⟨rfl, hfound.2.1⟩

theorem mountPart_of_match (h : 0 < countMatch path m.mPath) :
    mountPart m path = some (path.drop
      (if (path.drop m.mPath.length).head? = some '/' then m.mPath.length + 1
        else m.mPath.length)) := by
  have hloop : findrootLoop path [m] 0 none = (m.mPath.length, some m) := by
    rw [findrootLoop, (countMatch_pos h).2.1]
    exact if_pos ((countMatch_pos h).2.1 ▸ h)
  rw [mountPart, vfsFindroot, hloop]
  rfl

theorem mountPart_below (hne : m.mPath ≠ []) (h : path.IsChain fun a b => a = '/' → b ≠ '/')
    (hpath : path = mountBase m.mPath ++ '/' :: p) : mountPart m path = some p := by
  have hmatch : 0 < countMatch path m.mPath := by
    rw [hpath, countMatch_below]
    exact length_pos_iff.mpr hne
  rw [mountPart_of_match hmatch, hpath]
  by_cases hroot : m.mPath = ['/']
  · rw [hpath, hroot] at h
    rw [hroot]
    cases p with
    | nil => rfl
    | cons x p =>
      have hx : x ≠ '/' := (isChain_cons_cons.mp h).1 rfl
      simp [mountBase, hx]
  · simp [mountBase, hroot]

theorem mountPart_eq (h : path.IsChain fun a b => a = '/' → b ≠ '/')
    (hp : mountPart m path = some p) : m.mPath ≠ [] ∧
      (path = mountBase m.mPath ++ '/' :: p ∨ path = mountBase m.mPath ∧ p = []) := by
  have hmatch : 0 < countMatch path m.mPath := by
    by_contra hzero
    have hloop : findrootLoop path [m] 0 none = (0, none) := if_neg hzero
    rw [mountPart, vfsFindroot, hloop] at hp
    cases hp
  obtain ⟨hne, -, hpath⟩ := countMatch_pos hmatch
  refine ⟨hne, ?_⟩
  rcases hpath with rfl | ⟨rest, hrest⟩
  · by_cases hroot : m.mPath = ['/']
    · have hbelow := mountPart_below (p := []) hne h (by rw [hroot]; rfl)
      rw [hp] at hbelow
      cases hbelow
      exact .inl (by rw [hroot]; rfl)
    rw [mountPart_of_match hmatch, drop_length] at hp
    cases hp
    exact .inr ⟨(if_neg hroot).symm, drop_length⟩
  have hbelow := mountPart_below hne h hrest
  rw [hp] at hbelow
  cases hbelow
  exact .inl hrest

theorem mountPart_single (h : FullPath path) (hp : mountPart m path = some p) :
    (('/' :: p).IsChain fun a b => a = '/' → b ≠ '/') ∧ ('/' :: p).length < pathMax := by
  obtain ⟨-, heq | ⟨-, rfl⟩⟩ := mountPart_eq h.single hp
  · have hsuffix : '/' :: p <:+ path := ⟨_, heq.symm⟩
    exact ⟨h.single.suffix hsuffix, hsuffix.length_le.trans_lt h.short⟩
  · exact ⟨isChain_singleton _, by decide⟩

section

variable (h : FullPath path) (hsplit : splitLast path = some (dir, name))

include h hsplit

theorem FullPath.parent : FullPath (if dir = [] then ['/'] else dir) := by
  obtain ⟨heq, -⟩ := splitLast_eq hsplit
  have hrooted := h.rooted
  have hshort := h.short
  split
  · exact ⟨rfl, isChain_singleton _, by decide⟩
  rename_i hne
  obtain ⟨x, xs, rfl⟩ := exists_cons_of_ne_nil hne
  rw [heq] at hrooted hshort
  refine ⟨hrooted, h.single.infix (heq ▸ (prefix_append _ _).isInfix), ?_⟩
  rw [length_append] at hshort
  omega

theorem mountNames_child (hparent : mountNames m (if dir = [] then ['/'] else dir) = some ns) :
    mountNames m path = some (if name = [] then ns else ns ++ [name]) := by
  obtain ⟨heq, hname⟩ := splitLast_eq hsplit
  obtain ⟨q, hq, rfl⟩ := Option.map_eq_some_iff.mp hparent
  obtain ⟨hne, hdir⟩ := mountPart_eq (h.parent hsplit).single hq
  -- the path goes on where its directory ends
  obtain ⟨p, hpath, hnames⟩ : ∃ p, path = mountBase m.mPath ++ '/' :: p ∧
      names p = names q ++ names name := by
    split at hdir
    · rename_i hnil
      rw [hnil] at heq
      rcases hdir with hdir | ⟨hdir, -⟩
      · obtain ⟨hbase, hq⟩ | ⟨-, hq⟩ := singleton_eq_append_iff.mp hdir
        · cases hq
          exact ⟨name, by rw [heq, hbase], by rw [names_nil, nil_append]⟩
        · cases hq
      · exact absurd hdir.symm (mountBase_ne _)
    rcases hdir with hdir | ⟨hdir, rfl⟩
    · exact ⟨q ++ '/' :: name, by rw [heq, hdir, append_assoc]; rfl, names_append⟩
    · exact ⟨name, by rw [heq, hdir], by rw [names_nil, nil_append]⟩
  rw [mountNames, mountPart_below hne h.single hpath, Option.map_some, hnames, names_single hname]
  split
  · rw [append_nil]
  · rfl

end

/-- What `namei_last_nofollow` looks for is the path of the names. -/
theorem lastComponent_eq {mp : Nat} {last node : List Char} (h : FullPath path)
    (hlast : lastComponent [m] path = .ok (mp, last, node)) :
    mp = m.addr ∧ (∃ dir, splitLast path = some (dir, last)) ∧
      ∃ ns, mountNames m path = some ns ∧ node = joinPath ns := by
  rw [lastComponent, if_neg (not_not.mpr h.rooted)] at hlast
  cases hsplit : splitLast path with
  | none =>
    rw [hsplit] at hlast
    cases hlast
  | some split =>
    obtain ⟨dir, name⟩ := split
    cases hroot : vfsFindroot [m] path with
    | none =>
      rw [hsplit, hroot] at hlast
      cases hlast
    | some found =>
      obtain ⟨m', pos⟩ := found
      obtain ⟨rfl, hpart⟩ := mountPart_some hroot
      obtain ⟨hchain, hshort⟩ := mountPart_single h hpart
      rw [hsplit, hroot] at hlast
      have hcat : strlcat ['/'] (path.drop pos) = '/' :: path.drop pos :=
        take_of_length_le (Nat.le_sub_one_of_lt hshort)
      simp only [hcat] at hlast
      cases hlast
      refine ⟨rfl, ⟨dir, rfl⟩, names (path.drop pos), by rw [mountNames, hpart]; rfl, ?_⟩
      generalize path.drop pos = p at hchain
      rcases eq_nil_or_concat' p with rfl | ⟨p₀, x, rfl⟩
      · rfl
      have hends : ('/' :: (p₀ ++ [x])).getLast? = some x := by
        rw [← cons_append, getLast?_concat]
      by_cases hx : x = '/'
      · -- one slash is taken off, and there is none before it
        subst hx
        rw [if_pos ⟨by simp, by simp only [endsSlash, hends, decide_true]⟩]
        rw [← cons_append, isChain_append] at hchain
        obtain ⟨hchain₀, -, hsingle⟩ := hchain
        have hend₀ : endsSlash p₀ = false := by
          rw [endsSlash, decide_eq_false_iff_not]
          intro heq
          refine hsingle '/' ?_ '/' rfl rfl rfl
          obtain ⟨z, zs, rfl⟩ := exists_cons_of_ne_nil (ne_nil_of_mem (mem_of_getLast? heq))
          rw [getLast?_cons_cons]
          exact heq
        rw [names_append, names_nil, append_nil, ← eq_joinPath_names hchain₀ hend₀, ← cons_append,
          dropLast_concat]
      · rw [if_neg (by simp [endsSlash, hends, hx])]
        exact eq_joinPath_names hchain (by simp [endsSlash, hx])

end

/-! ### The two paths of a rename -/

section

variable {m : Mount} {p path src dest : List Char} {ns ns' : List (List Char)}

theorem FullPath.stripped (h : FullPath path) :
    FullPath (stripped path) ∧ (Vfscore.stripped path = ['/'] ∨
      endsSlash (Vfscore.stripped path) = false) := by
  rw [Vfscore.stripped]
  split
  · rename_i htrailing
    rw [trailing, Bool.and_eq_true] at htrailing
    obtain ⟨hend, hlen⟩ := htrailing
    obtain ⟨p₀, rfl⟩ := getLast?_eq_some_iff.mp (of_decide_eq_true hend)
    have hne : p₀ ≠ [] := by
      rintro rfl
      simp at hlen
    obtain ⟨hchain, -, hsingle⟩ := isChain_append.mp h.single
    have hlast : p₀.getLast? ≠ some '/' := fun heq => hsingle '/' heq '/' rfl rfl rfl
    have hstrip : stripTrailing (p₀ ++ ['/']) = p₀ := by
      refine (rdropWhile_concat_pos _ _ _ (by simp)).trans (rdropWhile_eq_self_iff.mpr ?_)
      intro hl hp
      exact hlast (by rw [getLast?_eq_getLast_of_ne_nil hl, of_decide_eq_true hp])
    have hrooted := h.rooted
    have hshort := h.short
    rw [length_append, length_singleton] at hshort
    rw [hstrip]
    refine ⟨⟨?_, hchain, by omega⟩, .inr (decide_eq_false hlast)⟩
    obtain ⟨x, xs, rfl⟩ := exists_cons_of_ne_nil hne
    exact hrooted
  rename_i htrailing
  refine ⟨h, ?_⟩
  by_cases hend : endsSlash path = true
  · have hlen : path.length = 1 := by
      by_contra hne
      exact htrailing (by simp [trailing, hend, hne])
    obtain ⟨x, rfl⟩ := length_eq_one_iff.mp hlen
    exact .inl (by simpa using h.rooted)
  · exact .inr (Bool.eq_false_iff.mpr hend)

theorem FullPath.part_eq (h : FullPath path) (hend : path = ['/'] ∨ endsSlash path = false)
    (hp : mountPart m path = some p) : '/' :: p = joinPath (names p) := by
  refine eq_joinPath_names (mountPart_single h hp).1 ?_
  cases p with
  | nil => rfl
  | cons z zs =>
    have hlast : ∀ pre, path = pre ++ '/' :: z :: zs → endsSlash (z :: zs) = false := by
      intro pre heq
      have hne : path ≠ ['/'] := by
        intro hroot
        have hlen := congrArg List.length (hroot.symm.trans heq)
        simp only [length_append, length_cons, length_nil] at hlen
        omega
      have hend := hend.resolve_left hne
      rwa [heq, endsSlash, getLast?_append_of_ne_nil _ (cons_ne_nil _ _),
        getLast?_cons_cons] at hend
    obtain ⟨-, heq | ⟨-, hnil⟩⟩ := mountPart_eq h.single hp
    · exact hlast _ heq
    · cases hnil

theorem FullPath.eq_names (h : FullPath path) (hend : path = ['/'] ∨ endsSlash path = false)
    (hnames : mountNames m path = some ns) :
    path = mountBase m.mPath ++ ns.flatMap ('/' :: ·) ∨
      path = ['/'] ∧ mountBase m.mPath = [] ∧ ns = [] := by
  obtain ⟨p, hp, rfl⟩ := Option.map_eq_some_iff.mp hnames
  obtain ⟨-, heq | ⟨heq, rfl⟩⟩ := mountPart_eq h.single hp
  · rw [h.part_eq hend hp, joinPath] at heq
    split at heq
    · rename_i hnil
      have hroot := hend.resolve_right (by simp [heq, endsSlash])
      exact .inr ⟨hroot, by simpa [heq] using hroot, hnil⟩
    · exact .inl heq
  · exact .inl (by simpa using heq)

/-- If the names of one path start with those of another one, then the paths are equal, or one
is the parent of the other. -/
theorem isParent_of_names (hsrc : FullPath src) (hdest : FullPath dest)
    (hend : src = ['/'] ∨ endsSlash src = false) (hend' : dest = ['/'] ∨ endsSlash dest = false)
    (hns : mountNames m src = some ns) (hns' : mountNames m dest = some ns')
    (hpre : ns <+: ns') : src = dest ∨ isParent src dest := by
  obtain ⟨rest, rfl⟩ := hpre
  rcases hsrc.eq_names hend hns with heq | ⟨hroot, -⟩
  · have hbelow : dest = src ++ rest.flatMap ('/' :: ·) := by
      rcases hdest.eq_names hend' hns' with heq' | ⟨-, hbase, hnil⟩
      · rw [heq', flatMap_append, ← append_assoc, ← heq]
      -- the source would be the empty path
      rw [(append_eq_nil_iff.mp hnil).1, hbase] at heq
      have hrooted := hsrc.rooted
      rw [heq] at hrooted
      cases hrooted
    cases rest with
    | nil => exact .inl (by simpa using hbelow.symm)
    | cons k r =>
      refine .inr ⟨hbelow ▸ prefix_append _ _, .inr ?_⟩
      rw [hbelow, drop_left]
      rfl
  obtain ⟨r, hr⟩ := head?_eq_some_iff.mp hdest.rooted
  exact .inr ⟨⟨r, by rw [hroot, hr]; rfl⟩, .inl (by rw [hroot]; rfl)⟩

end

/-! ### Following a link -/

/-- What a link in the directory `dir` leads to. -/
def linkPath (dir target : List Char) : List Char :=
  if target.head? = some '/' then target else joinPath (resolve (fullComponents dir target))

/-- All results are shorter than `PATH_MAX`: the new path and, if the target is relative, also that
of the directory and the target with a slash behind each of them. -/
def LinkShort (dir target rest : List Char) : Prop :=
  if target.head? = some '/' then target.length + rest.length < pathMax
  else dir.length + target.length + 2 < pathMax ∧
    ∀ full, pathConv dir target = .ok (.ok full) → full.length + rest.length < pathMax

/-- A file system with one link. -/
def oneLink (target : List Char) : Vops :=
  ⟨fun _ _ => .ok (.error .enoent), fun _ => .vlnk, fun _ => .ok (.ok target), fun _ => 0⟩

end Unikraft.Vfscore
