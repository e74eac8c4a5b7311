import Unikraft.Basic
import Mathlib.Data.List.Forall2

/-!
# Splitting the command line (`lib/ukargparse/argparse.c`)

`uk_argnparse` works in the buffer of the line: a quote is removed by shifting what follows, a
separator is overwritten with a zero.

The scanner has a rule of its own (`scannedWords`), which it follows step by step (`argLoop_words`):
it starts a word only at a character that is neither a quote nor white space, takes the form feed
for a part of a word, and stops as soon as `maxcount` words have been started. `Handled` says on
which lines this is the rule for words (`scannedWords_eq_iff`).
-/

namespace Unikraft.Ukargparse

open List

/-! ### The functions -/

def nul : Char := '\x00'

def isWspace (c : Char) : Bool :=
  c = ' ' || c = '\r' || c = '\n' || c = '\t' || c = '\x0b'

def isQuote (c : Char) : Bool := c = '\x27' || c = '\x22'

def leftShift (maxlen : Nat) : Nat → List Char → Nat → Outcome (List Char)
  | fuel, buf, index =>
    match buf[index]? with
    | none => .error .outOfBounds
    | some c =>
      if c ≠ nul ∧ index < maxlen then
        match fuel, buf[index + 1]? with
        | 0, _ => .error .divergence
        | _ + 1, none => .error .outOfBounds
        | fuel + 1, some d => leftShift maxlen fuel (buf.set index d) (index + 1)
      else .ok buf

/-- The variables of the loop: `argc` is the number of entries of `argv`, which are offsets
in the buffer. -/
structure Scanner where
  buf : List Char
  argv : List Nat
  prevWspace : Bool
  inQuote : Option Char
  deriving DecidableEq

/-- The `switch` for a character of the line, with the index of the next turn. -/
def scanChar (maxlen i : Nat) (c : Char) (st : Scanner) : Outcome (Nat × Scanner) :=
  if isWspace c then
    if st.inQuote = none then .ok (i + 1, { st with buf := st.buf.set i nul, prevWspace := true })
    else .ok (i + 1, st)
  else if isQuote c ∧ st.inQuote = none then do
    let buf ← leftShift maxlen st.buf.length st.buf i
    -- `--i` and `++i`, also where `i` is 0.
    return (i, { st with buf := buf, inQuote := some c })
  else if isQuote c ∧ st.inQuote = some c then do
    let buf ← leftShift maxlen st.buf.length st.buf i
    return (i, { st with buf := buf, inQuote := none })
  else if st.prevWspace then
    .ok (i + 1, { st with argv := st.argv ++ [i], prevWspace := false })
  else .ok (i + 1, st)

/-- The loop of `uk_argnparse`. -/
def argLoop (maxlen maxcount : Nat) : Nat → Nat → Scanner → Outcome Scanner
  | fuel, i, st =>
    if i < maxlen ∧ st.argv.length < maxcount then
      match fuel, st.buf[i]? with
      | 0, _ => .error .divergence
      | _ + 1, none => .error .outOfBounds
      | fuel + 1, some c =>
        if c = nul then .ok st
        else do
          let (i, st) ← scanChar maxlen i c st
          argLoop maxlen maxcount fuel i st
    else .ok st

/-- `uk_argnparse`: the number of words, `argv` and the buffer. Each turn of the loop takes
a character. -/
def ukArgnparse (argb : List Char) (maxlen maxcount : Nat) :
    Outcome (Nat × List Nat × List Char) := do
  let st ← argLoop maxlen maxcount argb.length 0 ⟨argb, [], true, none⟩
  return (st.argv.length, st.argv, st.buf)

/-! ### The words of a line -/

/-- White space as C defines it: the scanner does not know the form feed. -/
def isSpace (c : Char) : Bool := isWspace c || c = '\x0c'

/-- **The words of a line**, from a place where a quote may be open and a word begun: unquoted white
space ends a word, a quote begins or continues one, and everything else belongs to it. -/
def splitWords : Option Char → Option (List Char) → List Char → List (List Char)
  | _, word, [] => word.toList
  | quote, word, c :: line =>
    if quote = some c then splitWords none word line
    else if quote = none ∧ isSpace c then word.toList ++ splitWords none none line
    else if quote = none ∧ isQuote c then splitWords (some c) (some (word.getD [])) line
    else splitWords quote (some (word.getD [] ++ [c])) line

def words (line : List Char) : List (List Char) := splitWords none none line

def CString (buf : List Char) (p : Nat) (w : List Char) : Prop :=
  nul ∉ w ∧ ∃ rest, buf.drop p = w ++ nul :: rest

/-- A word the scanner finds: it has a first character, which is no white space. -/
def Findable (w : List Char) : Prop := ∃ c w', w = c :: w' ∧ isWspace c = false

/-- Every form feed of the line is quoted. -/
def NoFormFeed : Option Char → List Char → Prop
  | _, [] => True
  | quote, c :: line =>
    if quote = some c then NoFormFeed none line
    else if quote = none ∧ isQuote c then NoFormFeed (some c) line
    else (quote = none → c ≠ '\x0c') ∧ NoFormFeed quote line

/-- If `k` words begin in the line, what follows the first character of the last one is the rest of
that word, as it is. `inside` says that a word has begun before. -/
def LastLiteral : Nat → Option Char → Bool → List Char → Prop
  | _, _, _, [] => True
  | k, quote, inside, c :: line =>
    if quote = some c then LastLiteral k none inside line
    else if quote = none ∧ isSpace c then LastLiteral k none false line
    else if quote = none ∧ isQuote c then LastLiteral k (some c) inside line
    else if inside then LastLiteral k quote true line
    else if k = 1 then splitWords quote (some [c]) line = [c :: line]
    else LastLiteral (k - 1) quote true line

/-- A line and a bound that the scanner handles. -/
structure Handled (line : List Char) (maxcount : Nat) : Prop where
  findable : ∀ w ∈ words line, Findable w
  noFormFeed : NoFormFeed none line
  last : LastLiteral maxcount none false line

/-- **The words that the scanner finds**, from a place where `k` words may still be started. -/
def scannedWords : Nat → Option Char → Option (List Char) → List Char → List (List Char)
  | _, _, word, [] => word.toList
  | k, quote, word, c :: line =>
    if isWspace c then
      if quote = none then word.toList ++ scannedWords k none none line
      else scannedWords k quote (word.map (· ++ [c])) line
    else if isQuote c ∧ quote = none then scannedWords k (some c) word line
    else if isQuote c ∧ quote = some c then scannedWords k none word line
    else
      word.elim (if k = 1 then [c :: line] else scannedWords (k - 1) quote (some [c]) line)
        fun w => scannedWords k quote (some (w ++ [c])) line

/-! ### Removing a character -/

theorem getElem?_front {α : Type} (pre post : List α) (a : α) :
    (pre ++ a :: post)[pre.length]? = some a := by simp

theorem set_front {α : Type} (pre post : List α) (a b : α) :
    (pre ++ a :: post).set pre.length b = pre ++ b :: post := by simp

theorem leftShift_step {maxlen fuel index : Nat} {buf : List Char} {c d : Char}
    (hc : buf[index]? = some c) (hne : c ≠ nul) (hlt : index < maxlen)
    (hd : buf[index + 1]? = some d) :
    leftShift maxlen (fuel + 1) buf index =
      leftShift maxlen fuel (buf.set index d) (index + 1) := by
  conv_lhs => unfold leftShift
  simp only [hc, hd]
  rw [if_pos ⟨hne, hlt⟩]

theorem leftShift_stop {maxlen fuel index : Nat} {buf : List Char}
    (h : buf[index]? = some nul) : leftShift maxlen fuel buf index = .ok buf := by
  unfold leftShift
  simp [h]

theorem leftShift_eq {maxlen fuel : Nat} {done rest junk : List Char} {c : Char} (hc : c ≠ nul)
    (hrest : nul ∉ rest) (hlen : done.length + rest.length < maxlen) (hfuel : rest.length < fuel) :
    leftShift maxlen fuel (done ++ c :: (rest ++ nul :: junk)) done.length =
      .ok (done ++ rest ++ nul :: nul :: junk) := by
  obtain ⟨fuel, rfl⟩ : ∃ n, fuel = n + 1 := ⟨fuel - 1, by omega⟩
  induction rest generalizing done c fuel with
  | nil =>
    rw [leftShift_step (d := nul) (getElem?_front ..) hc (by simpa using hlen) (by simp),
      set_front, leftShift_stop (by simp)]
    simp
  | cons d rest ih =>
    rw [mem_cons, not_or] at hrest
    simp only [length_cons] at hlen hfuel
    obtain ⟨fuel, rfl⟩ : ∃ n, fuel = n + 1 := ⟨fuel - 1, by omega⟩
    have hshift : leftShift maxlen (fuel + 1) ((done ++ [d]) ++ d :: (rest ++ nul :: junk))
        (done ++ [d]).length = .ok ((done ++ [d]) ++ rest ++ nul :: nul :: junk) :=
      ih (Ne.symm hrest.1) hrest.2 (by simp; omega) fuel (by omega)
    rw [leftShift_step (d := d) (getElem?_front ..) hc (by omega) (by simp), set_front]
    simpa using hshift

/-! ### What the scanner has written -/

variable {done rest junk w line : List Char} {ws : List (List Char)} {word : Option (List Char)}
  {quote : Option Char} {argv : List Nat} {p i k maxlen maxcount fuel : Nat} {c : Char}

theorem CString.append (h : CString done p w) (more : List Char) : CString (done ++ more) p w := by
  obtain ⟨hw, rest, hrest⟩ := h
  refine ⟨hw, rest ++ more, ?_⟩
  have hp : p ≤ done.length := by
    by_contra hlt
    rw [drop_eq_nil_of_le (by omega)] at hrest
    simp at hrest
  rw [drop_append_of_le_length hp, hrest]
  simp

theorem CString.unique {buf v : List Char} (h : CString buf p v) (h' : CString buf p w) :
    v = w := by
  obtain ⟨hv, rest, hrest⟩ := h
  obtain ⟨hw, rest', hrest'⟩ := h'
  have htake : ∀ u rest : List Char, nul ∉ u → (u ++ nul :: rest).takeWhile (· ≠ nul) = u := by
    intro u rest hu
    rw [takeWhile_append_of_pos fun x hx => by simpa using ne_of_mem_of_not_mem hx hu]
    simp
  rw [← htake v rest hv, ← hrest, hrest', htake w rest' hw]

/-- The words before the scanner and the one it is in. -/
inductive Written (done : List Char) (ws : List (List Char)) :
    Option (List Char) → List Nat → Prop
  | between {argv : List Nat} : List.Forall₂ (CString done) argv ws → Written done ws none argv
  | inside {w : List Char} {argv : List Nat} {p : Nat} : nul ∉ w → p ≤ done.length →
      done.drop p = w → List.Forall₂ (CString done) argv ws → Written done ws (some w) (argv ++ [p])

theorem forall₂_append (h : List.Forall₂ (CString done) argv ws) (more : List Char) :
    List.Forall₂ (CString (done ++ more)) argv ws := h.imp fun _ _ hp => hp.append more

section

variable (h : Written done ws word argv)

include h

theorem Written.separator : Written (done ++ [nul]) (ws ++ word.toList) none argv := by
  cases h with
  | between hargv => exact .between (by simpa using forall₂_append hargv [nul])
  | inside hnul hp hdrop hargv =>
    refine .between (rel_append (forall₂_append hargv [nul]) (.cons ⟨hnul, [], ?_⟩ .nil))
    rw [drop_append_of_le_length hp, hdrop]

theorem Written.char (hc : c ≠ nul) : Written (done ++ [c]) ws (word.map (· ++ [c])) argv := by
  cases h with
  | between hargv => exact .between (forall₂_append hargv [c])
  | inside hnul hp hdrop hargv =>
    refine .inside (by simpa [hc.symm] using hnul) (by simp; omega) ?_ (forall₂_append hargv [c])
    rw [drop_append_of_le_length hp, hdrop]

theorem Written.finish (junk : List Char) :
    List.Forall₂ (CString (done ++ nul :: junk)) argv (ws ++ word.toList) := by
  cases h.separator with
  | between hargv => simpa using forall₂_append hargv junk

end

theorem Written.start (h : Written done ws none argv) (hc : c ≠ nul) :
    Written (done ++ [c]) ws (some [c]) (argv ++ [done.length]) := by
  cases h with
  | between hargv =>
    exact .inside (by simp [hc.symm]) (by simp) (by simp) (forall₂_append hargv [c])

/-! ### The loop -/

theorem argLoop_step {st : Scanner} (hi : i < maxlen) (hargc : st.argv.length < maxcount)
    (hbuf : st.buf[i]? = some c) (hc : c ≠ nul) :
    argLoop maxlen maxcount (fuel + 1) i st =
      scanChar maxlen i c st >>= fun r => argLoop maxlen maxcount fuel r.1 r.2 := by
  conv_lhs => unfold argLoop
  rw [if_pos ⟨hi, hargc⟩]
  simp only [hbuf, if_neg hc]

theorem argLoop_full {st : Scanner} (h : maxcount ≤ st.argv.length) :
    argLoop maxlen maxcount fuel i st = .ok st := by
  unfold argLoop
  exact if_neg fun hrun => Nat.not_lt.mpr h hrun.2

/-- **The scanner follows its rule**, by induction on what is left of the line. -/
theorem argLoop_words (hnul : nul ∉ rest) (hwritten : Written done ws word argv)
    (hk : argv.length + k = maxcount) (hpos : 1 ≤ k) (hlen : done.length + rest.length ≤ maxlen)
    (hfuel : rest.length < fuel) :
    ∃ st, argLoop maxlen maxcount fuel done.length
        ⟨done ++ (rest ++ nul :: junk), argv, word.isNone, quote⟩ = .ok st ∧
      List.Forall₂ (CString st.buf) st.argv (ws ++ scannedWords k quote word rest) := by
  obtain ⟨fuel, rfl⟩ : ∃ n, fuel = n + 1 := ⟨fuel - 1, by omega⟩
  induction rest generalizing done ws word quote argv fuel junk k with
  | nil =>
    refine ⟨⟨done ++ nul :: junk, argv, word.isNone, quote⟩, ?_, hwritten.finish junk⟩
    unfold argLoop
    split
    · simp
    · rfl
  | cons c rest ih =>
    rw [mem_cons, not_or] at hnul
    simp only [length_cons] at hlen hfuel
    have hc : c ≠ nul := fun h => hnul.1 h.symm
    obtain ⟨fuel, rfl⟩ : ∃ n, fuel = n + 1 := ⟨fuel - 1, by omega⟩
    have hshift : leftShift maxlen (done ++ c :: (rest ++ nul :: junk)).length
        (done ++ c :: (rest ++ nul :: junk)) done.length =
          .ok (done ++ (rest ++ nul :: nul :: junk)) := by
      rw [leftShift_eq hc hnul.2 (by omega) (by simp; omega), append_assoc]
    rw [cons_append, argLoop_step (by omega) (show argv.length < maxcount by omega)
      (getElem?_front ..) hc, scanChar, scannedWords]
    -- the character stays
    have hkeep : ∀ {argv' word' k'}, Written (done ++ [c]) ws word' argv' →
        argv'.length + k' = maxcount → 1 ≤ k' →
        ∃ st, argLoop maxlen maxcount (fuel + 1) (done.length + 1)
            ⟨done ++ c :: (rest ++ nul :: junk), argv', word'.isNone, quote⟩ = .ok st ∧
          List.Forall₂ (CString st.buf) st.argv (ws ++ scannedWords k' quote word' rest) := by
      intro argv' word' k' hwritten' hk' hpos'
      have hnext : ∃ st, argLoop _ _ _ _ ⟨_ ++ (_ ++ nul :: junk), _, _, quote⟩ = .ok st ∧ _ :=
        ih hnul.2 hwritten' hk' hpos' (by simp; omega) fuel (by omega)
      simpa using hnext
    by_cases hw : isWspace c = true
    · rw [if_pos hw, if_pos hw]
      by_cases hquote : quote = none
      · -- a separator
        subst hquote
        rw [if_pos rfl, if_pos rfl, ← append_assoc]
        have hnext : ∃ st, argLoop _ _ _ _ ⟨_ ++ (_ ++ nul :: junk), _, _, none⟩ = .ok st ∧ _ :=
          ih hnul.2 hwritten.separator hk hpos (by simp; omega) fuel (by omega)
        simpa using hnext
      · rw [if_neg hquote, if_neg hquote]
        simpa using hkeep (hwritten.char hc) hk hpos
    rw [if_neg hw, if_neg hw]
    by_cases hopen : isQuote c = true ∧ quote = none
    · rw [if_pos hopen, if_pos hopen, hshift]
      exact ih hnul.2 hwritten hk hpos (by omega) fuel (by omega)
    rw [if_neg hopen, if_neg hopen]
    by_cases hclose : isQuote c = true ∧ quote = some c
    · rw [if_pos hclose, if_pos hclose, hshift]
      exact ih hnul.2 hwritten hk hpos (by omega) fuel (by omega)
    rw [if_neg hclose, if_neg hclose]
    cases word with
    | some w => exact hkeep (hwritten.char hc) hk hpos
    | none =>
      rw [Option.elim_none]
      by_cases hlast : k = 1
      · -- no further turn: the rest of the line stays as it is
        rw [if_pos hlast]
        refine ⟨_, argLoop_full (by simp; omega), ?_⟩
        cases hwritten with
        | between hargv =>
          have hdrop : (done ++ c :: (rest ++ nul :: junk)).drop done.length =
              c :: rest ++ nul :: junk := by simp
          refine rel_append (forall₂_append hargv _) (.cons ⟨?_, junk, hdrop⟩ .nil)
          simp [hnul.2, hnul.1]
      · rw [if_neg hlast]
        exact hkeep (hwritten.start hc) (by rw [length_append, length_singleton]; omega) (by omega)

/-! ### Where the two rules agree -/

theorem splitWords_some (quote : Option Char) (w line : List Char) :
    ∃ w' more, splitWords quote (some w) line = (w ++ w') :: more := by
  induction line generalizing quote w with
  | nil => exact ⟨[], [], by simp [splitWords]⟩
  | cons c line ih =>
    unfold splitWords
    split
    · exact ih none w
    split
    · exact ⟨[], splitWords none none line, by simp⟩
    split
    · exact ih (some c) w
    obtain ⟨w', more, h⟩ := ih quote (w ++ [c])
    exact ⟨c :: w', more, by simpa using h⟩

theorem isWspace_of_isQuote (h : isQuote c = true) : isWspace c = false := by
  simp only [isQuote, Bool.or_eq_true, decide_eq_true_eq] at h
  rcases h with rfl | rfl <;> decide

theorem not_findable_nil : ¬ Findable [] := by
  rintro ⟨c, w', h, -⟩
  cases h

theorem Findable.append {v : List Char} (h : Findable w) : Findable (w ++ v) := by
  obtain ⟨c, w', rfl, hc⟩ := h
  exact ⟨c, w' ++ v, rfl, hc⟩

/-- The scanner finds only words that do not start with white space. -/
theorem scannedWords_findable (hword : ∀ w, word = some w → Findable w) :
    ∀ v ∈ scannedWords k quote word line, Findable v := by
  induction line generalizing k quote word with
  | nil =>
    intro v hv
    exact hword v (by simpa [scannedWords] using hv)
  | cons c line ih =>
    have hin : ∀ w, word = some w → ∀ v ∈ scannedWords k quote (some (w ++ [c])) line,
        Findable v := fun w hw => ih fun v hv => Option.some.inj hv ▸ (hword w hw).append
    rw [scannedWords]
    split_ifs with hw hquote hopen hclose hlast
    · intro v hv
      rcases mem_append.mp hv with hv | hv
      · exact hword v (by simpa using hv)
      · exact ih (fun _ h => by cases h) v hv
    · refine ih fun w hw => ?_
      obtain ⟨u, hu, rfl⟩ := Option.map_eq_some_iff.mp hw
      exact (hword u hu).append
    · exact ih hword
    · exact ih hword
    · cases word with
      | some w => exact hin w rfl
      | none =>
        intro v hv
        rw [mem_singleton.mp hv]
        exact ⟨c, line, rfl, by simpa using hw⟩
    · cases word with
      | some w => exact hin w rfl
      | none => exact ih fun v hv => Option.some.inj hv ▸ ⟨c, [], rfl, by simpa using hw⟩

theorem count_quote (h : isQuote c = true) : count '\x0c' (c :: line) = count '\x0c' line := by
  refine count_cons_of_ne fun heq => ?_
  rw [heq] at h
  cases h

/-- The scanner keeps every form feed. -/
theorem count_scannedWords (hpos : 1 ≤ k) :
    count '\x0c' (scannedWords k quote word line).flatten =
      count '\x0c' (word.getD []) + count '\x0c' line := by
  induction line generalizing k quote word with
  | nil => cases word <;> simp [scannedWords]
  | cons c line ih =>
    have hin : ∀ w, word = some w →
        count '\x0c' (scannedWords k quote (some (w ++ [c])) line).flatten =
          count '\x0c' (word.getD []) + count '\x0c' (c :: line) := by
      rintro w rfl
      rw [ih hpos]
      simp only [Option.getD_some, count_append, count_cons, count_nil]
      omega
    rw [scannedWords]
    split_ifs with hw hquote hopen hclose hlast
    · have hc : count '\x0c' (c :: line) = count '\x0c' line :=
        count_cons_of_ne fun heq => by rw [heq] at hw; cases hw
      rw [flatten_append, count_append, ih hpos, hc]
      cases word <;> simp
    · have hc : c ≠ '\x0c' := fun heq => by rw [heq] at hw; cases hw
      rw [ih hpos, count_cons_of_ne hc]
      cases word <;> simp [hc]
    · rw [ih hpos, count_quote hopen.1]
    · rw [ih hpos, count_quote hclose.1]
    · cases word with
      | some w => exact hin w rfl
      | none => simp
    · cases word with
      | some w => exact hin w rfl
      | none =>
        rw [Option.elim_none, ih (by omega)]
        simp only [Option.getD_some, Option.getD_none, count_cons, count_nil]
        omega

/-- The words have every form feed only if all of them are quoted. -/
theorem count_splitWords (hquote : ∀ d, quote = some d → isQuote d = true) :
    count '\x0c' (splitWords quote word line).flatten ≤
        count '\x0c' (word.getD []) + count '\x0c' line ∧
      (count '\x0c' (word.getD []) + count '\x0c' line ≤
          count '\x0c' (splitWords quote word line).flatten → NoFormFeed quote line) := by
  induction line generalizing quote word with
  | nil => exact ⟨by cases word <;> simp [splitWords], fun _ => trivial⟩
  | cons c line ih =>
    rw [splitWords, NoFormFeed]
    by_cases hsame : quote = some c
    · rw [if_pos hsame, if_pos hsame, count_quote (hquote c hsame)]
      exact ih nofun
    rw [if_neg hsame, if_neg hsame]
    by_cases hspace : quote = none ∧ isSpace c = true
    · obtain ⟨rfl, hspace⟩ := hspace
      have hq : isQuote c = false := by
        cases hq : isQuote c with
        | false => rfl
        | true =>
          rw [isQuote, Bool.or_eq_true, decide_eq_true_eq, decide_eq_true_eq] at hq
          rcases hq with rfl | rfl <;> cases hspace
      obtain ⟨hle, hall⟩ : _ ∧ (_ → NoFormFeed none line) := @ih none none nofun
      rw [if_pos ⟨rfl, hspace⟩, if_neg (by simp [hq]), flatten_append, count_append, count_cons]
      have hword : count '\x0c' word.toList.flatten = count '\x0c' (word.getD []) := by
        cases word <;> simp
      rw [hword]
      simp only [Option.getD_none, count_nil, Nat.zero_add] at hle hall
      refine ⟨by omega, fun hge => ⟨fun _ hc => ?_, hall (by omega)⟩⟩
      rw [hc] at hge
      simp only [beq_self_eq_true, if_true] at hge
      omega
    rw [if_neg hspace]
    by_cases hopen : quote = none ∧ isQuote c = true
    · rw [if_pos hopen, if_pos hopen, count_quote hopen.2]
      exact ih fun d hd => Option.some.inj hd ▸ hopen.2
    rw [if_neg hopen, if_neg hopen]
    obtain ⟨hle, hall⟩ := @ih (some (word.getD [] ++ [c])) quote hquote
    have hcount : count '\x0c' (word.getD [] ++ [c]) + count '\x0c' line =
        count '\x0c' (word.getD []) + count '\x0c' (c :: line) := by
      rw [count_append, count_cons, count_cons, count_nil]
      omega
    rw [Option.getD_some, hcount] at hle hall
    refine ⟨hle, fun hge => ⟨fun hnone hc => hspace ⟨hnone, ?_⟩, hall hge⟩⟩
    rw [hc]
    rfl

/-- The scanner has begun a word if the word has characters. -/
inductive Begun : Option (List Char) → Option (List Char) → Bool → Prop
  | outside {word : Option (List Char)} : word.getD [] = [] → Begun none word false
  | inside {w : List Char} : w ≠ [] → Begun (some w) (some w) true

/-- Without an empty word the words so far are the same. -/
theorem Begun.toList_eq {begun : Option (List Char)} {inside : Bool}
    (h : Begun begun word inside) (hfind : ∀ v ∈ word.toList, Findable v) :
    begun.toList = word.toList := by
  cases h with
  | inside => rfl
  | @outside word hword =>
    cases word with
    | none => rfl
    | some w =>
      obtain rfl : w = [] := hword
      exact absurd (hfind [] mem_cons_self) not_findable_nil

/-- **The scanner finds the words** of a line that it can find, without unquoted form feeds, exactly
if the last word it has room for is there as it is. -/
theorem scannedWords_eq_iff {begun : Option (List Char)} {inside : Bool}
    (hquote : ∀ d, quote = some d → isQuote d = true) (hbegun : Begun begun word inside)
    (hfind : ∀ v ∈ splitWords quote word line, Findable v) (hff : NoFormFeed quote line) :
    scannedWords k quote begun line = splitWords quote word line ↔
      LastLiteral k quote inside line := by
  induction line generalizing k quote word begun inside with
  | nil => exact iff_of_true (hbegun.toList_eq hfind) trivial
  | cons c line ih =>
    rw [splitWords] at hfind ⊢
    rw [NoFormFeed] at hff
    rw [scannedWords, LastLiteral]
    by_cases hsame : quote = some c
    · have hq := hquote c hsame
      rw [if_pos hsame] at hff hfind ⊢
      rw [if_neg (by simp [isWspace_of_isQuote hq]), if_neg (by simp [hsame]), if_pos ⟨hq, hsame⟩,
        if_pos hsame]
      exact ih nofun hbegun hfind hff
    rw [if_neg hsame] at hff hfind ⊢
    rw [if_neg hsame]
    by_cases hspace : quote = none ∧ isSpace c = true
    · obtain ⟨rfl, hspace⟩ := hspace
      have hopen : ¬ (none = (none : Option Char) ∧ isQuote c = true) := fun h => by
        rw [isSpace, isWspace_of_isQuote h.2, Bool.false_or, decide_eq_true_eq] at hspace
        rw [hspace] at h
        cases h.2
      rw [if_neg hopen] at hff
      have hw : isWspace c = true := by
        simpa [isSpace, hff.1 rfl] using hspace
      have hends : (none : Option Char) = none ∧ isSpace c = true := ⟨rfl, hspace⟩
      rw [if_pos hends] at hfind
      rw [if_pos hw, if_pos (rfl : (none : Option Char) = none), if_pos hends, if_pos hends]
      rw [hbegun.toList_eq fun v hv => hfind v (mem_append_left _ hv), append_cancel_left_eq]
      exact ih nofun (.outside rfl) (fun v hv => hfind v (mem_append_right _ hv)) hff.2
    rw [if_neg hspace] at hfind ⊢
    rw [if_neg hspace]
    by_cases hopen : quote = none ∧ isQuote c = true
    · rw [if_pos hopen] at hff hfind ⊢
      rw [if_neg (by simp [isWspace_of_isQuote hopen.2]), if_pos hopen.symm, if_pos hopen]
      refine ih (fun d hd => Option.some.inj hd ▸ hopen.2) ?_ hfind hff
      cases hbegun with
      | inside hne => exact .inside hne
      | outside hword => exact .outside hword
    rw [if_neg hopen] at hff hfind ⊢
    rw [if_neg hopen]
    cases hbegun with
    | @inside w hne =>
      rw [if_pos (rfl : true = true)]
      have hlonger : w ++ [c] ≠ [] := by simp
      have hnext : scannedWords k quote (some (w ++ [c])) line =
          splitWords quote (some (w ++ [c])) line ↔ LastLiteral k quote true line :=
        ih hquote (.inside hlonger) hfind hff.2
      by_cases hw : isWspace c = true
      · rw [if_pos hw, if_neg fun hnone => hspace ⟨hnone, by simp [isSpace, hw]⟩]
        exact hnext
      · rw [if_neg hw, if_neg fun h => hopen h.symm, if_neg fun h => hsame h.2]
        exact hnext
    | outside hword =>
      rw [hword, nil_append] at hfind ⊢
      have hw : isWspace c = false := by
        obtain ⟨w', more, hmore⟩ := splitWords_some quote [c] line
        obtain ⟨c', w'', heq, hc⟩ := hfind ([c] ++ w') (by rw [hmore]; exact mem_cons_self)
        cases heq
        exact hc
      rw [if_neg (by simp [hw]), if_neg fun h => hopen h.symm, if_neg fun h => hsame h.2,
        if_neg Bool.false_ne_true, Option.elim_none]
      split_ifs with hlast
      · exact eq_comm
      · exact ih hquote (.inside (by simp)) hfind hff.2

/-- **Splitting the command line.** If `argv` has room for the words of the line, `uk_argnparse`
returns their number, and each entry of `argv` is the string of one of them, exactly if the scanner
handles the line. -/
theorem uk_argnparse_words {line : List Char} (junk : List Char) (hnul : nul ∉ line)
    (hlen : line.length ≤ maxlen) (hcount : (words line).length ≤ maxcount) :
    (∃ argv buf, ukArgnparse (line ++ nul :: junk) maxlen maxcount =
        .ok ((words line).length, argv, buf) ∧
      List.Forall₂ (CString buf) argv (words line)) ↔ maxcount = 0 ∨ Handled line maxcount := by
  by_cases hzero : maxcount = 0
  · subst hzero
    have hnone : words line = [] := length_eq_zero_iff.mp (Nat.le_zero.mp hcount)
    refine iff_of_true ⟨[], line ++ nul :: junk, ?_, hnone ▸ .nil⟩ (.inl rfl)
    rw [hnone, ukArgnparse, argLoop_full (Nat.zero_le _)]
    rfl
  have hpos : 1 ≤ maxcount := Nat.pos_of_ne_zero hzero
  obtain ⟨st, hloop, hargv⟩ : ∃ st, argLoop maxlen maxcount (line ++ nul :: junk).length
        ([] : List Char).length ⟨[] ++ (line ++ nul :: junk), [],
          (none : Option (List Char)).isNone, none⟩ = .ok st ∧
      List.Forall₂ (CString st.buf) st.argv ([] ++ scannedWords maxcount none none line) :=
    argLoop_words hnul (.between .nil) (by simp) hpos (by simpa using hlen) (by simp)
  rw [nil_append] at hargv
  have hrun : ukArgnparse (line ++ nul :: junk) maxlen maxcount =
      .ok (st.argv.length, st.argv, st.buf) := Outcome.bind_ok.mpr ⟨st, hloop, rfl⟩
  have hsame : (∃ argv buf, ukArgnparse (line ++ nul :: junk) maxlen maxcount =
        .ok ((words line).length, argv, buf) ∧ List.Forall₂ (CString buf) argv (words line)) ↔
      scannedWords maxcount none none line = words line := by
    constructor
    · rintro ⟨argv, buf, heq, hwords⟩
      obtain ⟨-, rfl, rfl⟩ : _ ∧ st.argv = argv ∧ st.buf = buf := by
        simpa using hrun.symm.trans heq
      exact right_unique_forall₂' (fun _ _ _ h h' => h.unique h') hargv hwords
    · intro heq
      rw [heq] at hargv
      exact ⟨st.argv, st.buf, hargv.length_eq ▸ hrun, hargv⟩
  rw [hsame, or_iff_right hzero]
  have hwords : (∀ w ∈ words line, Findable w) → NoFormFeed none line →
      (scannedWords maxcount none none line = words line ↔ LastLiteral maxcount none false line) :=
    scannedWords_eq_iff nofun (.outside rfl)
  constructor
  · intro heq
    have hfind : ∀ w ∈ words line, Findable w := by
      rw [← heq]
      exact scannedWords_findable nofun
    have hcounts : count '\x0c' (scannedWords maxcount none none line).flatten =
        count '\x0c' ((none : Option (List Char)).getD []) + count '\x0c' line :=
      count_scannedWords hpos
    have hff : NoFormFeed none line := by
      rw [heq] at hcounts
      exact (count_splitWords fun _ h => by cases h).2 hcounts.ge
    exact ⟨hfind, hff, (hwords hfind hff).mp heq⟩
  · exact fun h => (hwords h.findable h.noFormFeed).mpr h.last

/-- Quotes of both kinds, adjacent sections and more than one separator. -/
theorem uk_argnparse_words_sample :
    ∃ argv buf, ukArgnparse ("cp  'a b'c \"it's\"".toList ++ [nul]) 64 4 = .ok (3, argv, buf) ∧
      List.Forall₂ (CString buf) argv ["cp".toList, "a bc".toList, "it's".toList] := by
  refine (uk_argnparse_words [] (by decide) (by decide) (by decide)).mpr
    (.inr ⟨?_, by simp [NoFormFeed, isQuote],
      by simp [LastLiteral, isSpace, isWspace, isQuote]⟩)
  have hwords : words "cp  'a b'c \"it's\"".toList =
    ["cp".toList, "a bc".toList, "it's".toList] := by decide
  rw [hwords]
  simp only [forall_mem_cons, not_mem_nil, false_implies, implies_true, and_true]
  exact ⟨⟨_, _, rfl, by decide⟩, ⟨_, _, rfl, by decide⟩, ⟨_, _, rfl, by decide⟩⟩

/-- An empty word is lost, one that starts with a blank loses it, and the last one that `argv` has
room for keeps its quotes. -/
theorem uk_argnparse_loses_words :
    (words "\"\"".toList = [[]] ∧
      ukArgnparse ("\"\"".toList ++ [nul]) 64 4 = .ok (0, [], [nul, nul, nul])) ∧
    (words "' a'".toList = [" a".toList] ∧
      ukArgnparse ("' a'".toList ++ [nul]) 64 4 = .ok (1, [1], [' ', 'a', nul, nul, nul])) ∧
    (words "a'b'".toList = ["ab".toList] ∧ ukArgnparse ("a'b'".toList ++ [nul]) 64 1 =
        .ok (1, [0], ['a', '\x27', 'b', '\x27', nul])) := by
  decide

end Unikraft.Ukargparse
