import Unikraft.Basic
import Mathlib.Data.List.Forall2

/-!
# Library parameters on the command line (`lib/uklibparam/param.c`)

`kernel_arg_fetch` takes as many words before `--` as make up one assignment, in any of four
spellings.

A pointer into a word is its number and an offset. `kernel_args_set` is a parameter of the model:
it is called for the given assignments, in order, and for nothing else.
-/

namespace Unikraft.Uklibparam

open List

/-! ### The functions -/

/-- A word of `argv`: a string whose length is an `int`. The memory of the platform ends at
one gigabyte. -/
structure Word where
  chars : List Char
  noNul : '\x00' ∉ chars
  short : chars.length < 2 ^ 31

/-- `struct uk_param`; the type and the size are only read when the value is converted. -/
structure UkParam where
  name : List Char
  addr : Nat
  deriving DecidableEq

structure UkLibSection where
  libName : List Char
  params : List UkParam

/-- `struct param_args`: `param` and `value` are the strings that start where the pointers
point to. -/
structure ParamArgs where
  param : List Char
  paramLen : Nat
  value : List Char
  valueLen : Nat
  deriving DecidableEq

/-- `strchr`, as an offset. -/
def strchr (s : List Char) (c : Char) : Option Nat := s.idxOf? c

/-- `strrchr`, as an offset. -/
def strrchr (s : List Char) (c : Char) : Option Nat :=
  (s.reverse.idxOf? c).map fun k => s.length - 1 - k

def libArgSep : List Char := ['-', '-']

def kernelArgRangeFetch (argv : List Word) : Option Nat := argv.findIdx? (·.chars = libArgSep)

/-- The variables of the loop of `kernel_arg_fetch`. -/
structure Fetch where
  pargs : ParamArgs
  equalsPtr : Option (Nat × Nat)
  equals : Option Nat

/-- One turn of the loop, for the word `args[i]`. -/
def fetchWord (i : Nat) (arg : List Char) (st : Fetch) : Outcome (Except Errno Fetch) :=
  let len := arg.length
  let equalsPtr := match st.equalsPtr with
    | some ptr => some ptr
    | none => (strchr arg '=').map (Prod.mk i)
  let duplPtr := (strrchr arg '=').map (Prod.mk i)
  if equalsPtr.isSome ∧ duplPtr.isSome ∧ equalsPtr ≠ duplPtr then .ok (.error .einval)
  else
    match st.equals with
    | none =>
      match equalsPtr with
      | some (word, off) =>
        -- The distance of pointers into two words is not defined.
        if word ≠ i ∧ len ≠ 1 then .error .badPointer
        else if 1 < len ∧ off = len - 1 then
          .ok (.ok ⟨{ st.pargs with param := arg, paramLen := len - 1 }, equalsPtr, some i⟩)
        else if 1 < len ∧ off = 0 then
          .ok (.ok ⟨{ st.pargs with value := arg.drop 1, valueLen := len - 1 }, equalsPtr, some i⟩)
        else if len = 1 then .ok (.ok ⟨st.pargs, equalsPtr, some i⟩)
        else
          .ok (.ok ⟨⟨arg, off, arg.drop (off + 1), len - (off + 1)⟩, equalsPtr, some i⟩)
      | none => .ok (.ok ⟨{ st.pargs with param := arg, paramLen := len }, none, none⟩)
    | some k => .ok (.ok ⟨{ st.pargs with value := arg, valueLen := len }, equalsPtr, some k⟩)

/-- The loop of `kernel_arg_fetch` from `args[i]` on, with the number of words it has read. -/
def fetchLoop : Nat → List Word → Fetch → Outcome (Except Errno Fetch × Nat)
  | i, [], st => .ok (.ok st, i)
  | i, arg :: args, st =>
    if st.pargs.valueLen = 0 ∨ st.pargs.paramLen = 0 then do
      match ← fetchWord i arg.chars st with
      | .error e => return (.error e, i + 1)
      | .ok st => fetchLoop (i + 1) args st
    else .ok (.ok st, i)

/-- `kernel_arg_fetch`: the assignment and `*rewind`. -/
def kernelArgFetch (args : List Word) : Outcome (Except Errno ParamArgs × Nat) := do
  match ← fetchLoop 0 args ⟨⟨[], 0, [], 0⟩, none, none⟩ with
  | (.error e, cnt) => return (.error e, cnt)
  | (.ok st, cnt) =>
    if st.pargs.paramLen ≠ 0 ∧ st.pargs.valueLen = 0 then return (.error .einval, cnt)
    else return (.ok st.pargs, cnt)

/-- `kernel_lib_fetch`: the library before the first dot. -/
def kernelLibFetch (sections : List UkLibSection) (pargs : ParamArgs) : Option UkLibSection :=
  match strchr (pargs.param.take pargs.paramLen) '.' with
  | none => none
  | some k => sections.find? fun s => s.libName.length = k && pargs.param.take k = s.libName

def kernelParseArg (pargs : ParamArgs) (sec : UkLibSection) : Option UkParam :=
  sec.params.find? fun p =>
    p.name.length = pargs.paramLen && p.name = pargs.param.take pargs.paramLen

/-- The variables of the loop of `kernel_value_sanitize`, the pointers as offsets. -/
structure Scan where
  startIdx : Option Nat
  endIdx : Option Nat
  qcnt : Nat

/-- The characters `kernel_value_sanitize` skips. -/
def isBlank (c : Char) : Bool :=
  c = ' ' || c = '\r' || c = '\n' || c = '\t' || c = '\x0b'

def isQuote (c : Char) : Bool := c = '\x27' || c = '\x22'

/-- One turn of the loop of `kernel_value_sanitize`. -/
def scanChar (ptr : Nat) (c : Char) (sc : Scan) : Scan :=
  if isBlank c then sc
  else if isQuote c then
    if sc.startIdx.isSome then { sc with endIdx := some ptr, qcnt := sc.qcnt + 1 }
    else { sc with startIdx := some (ptr + 1), qcnt := sc.qcnt + 1 }
  else if sc.startIdx.isNone then { sc with startIdx := some ptr }
  else sc

/-- The loop of `kernel_value_sanitize`; the string ends where the list does. -/
def scanLoop : Nat → List Char → Scan → Scan × Nat
  | ptr, [], sc => (sc, ptr)
  | ptr, c :: cs, sc =>
    if sc.endIdx.isSome ∧ sc.startIdx.isSome then (sc, ptr)
    else scanLoop (ptr + 1) cs (scanChar ptr c sc)

/-- `kernel_value_sanitize`: the value between the quotes. What is around it is
overwritten with zeros, so the string ends at `end_idx`. -/
def kernelValueSanitize (value : List Char) : Outcome (Except Errno (List Char)) := do
  ukAssert (value ≠ [])
  let (sc, ptr) := scanLoop 0 value ⟨none, none, 0⟩
  let endIdx := sc.endIdx.getD ptr
  if sc.qcnt = 1 then return .error .einval
  else
    match sc.startIdx with
    | some startIdx => return .ok ((value.drop startIdx).take (endIdx - startIdx))
    | none => return .ok value

section

variable {σ : Type}

/-- One turn of the loop of `uk_libparam_parse` behind `kernel_arg_fetch`: look the
parameter up and set it. -/
def assign (sections : List UkLibSection) (argsSet : UkParam → List Char → σ → σ)
    (pargs : ParamArgs) (st : σ) : Outcome σ :=
  match kernelLibFetch sections pargs with
  | none => .ok st
  | some sec =>
    match kernelParseArg pargs sec with
    | none => .ok st
    | some param => do
        match ← kernelValueSanitize pargs.value with
        | .error _ => return st
        | .ok value => return argsSet param value st

/-- The words that end the parsing with a message. -/
def haltWords : List (List Char) :=
  ["-h".toList, "--help".toList, "-V".toList, "--version".toList]

/-- The loop of `uk_libparam_parse` over the words that are left; `none` after a call of
`ukplat_halt`. -/
def parseLoop (sections : List UkLibSection) (argsSet : UkParam → List Char → σ → σ) :
    Nat → List Word → σ → Outcome (Option σ)
  | _, [], st => .ok (some st)
  | 0, _ :: _, _ => .error .divergence
  | fuel + 1, arg :: args, st =>
    if arg.chars ∈ haltWords then .ok none
    else do
      match ← kernelArgFetch (arg :: args) with
      | (.error _, argsRead) =>
        parseLoop sections argsSet fuel ((arg :: args).drop argsRead) st
      | (.ok pargs, argsRead) => do
          let st ← assign sections argsSet pargs st
          parseLoop sections argsSet fuel ((arg :: args).drop argsRead) st

/-- What `uk_libparam_parse` leaves: the parameters, `argv` and the returned index. -/
structure Parsed (σ : Type) where
  state : σ
  argv : List Word
  ret : Nat

/-- `uk_libparam_parse`; `none` after a call of `ukplat_halt`. Each turn of its loop takes
a word, so as many turns as there are words are enough. -/
def ukLibparamParse (sections : List UkLibSection) (argsSet : UkParam → List Char → σ → σ)
    (progname : Word) (argv : List Word) (st : σ) : Outcome (Option (Parsed σ)) :=
  match kernelArgRangeFetch argv with
  | none => .ok (some ⟨st, argv, 0⟩)
  | some keindex => do
      match ← parseLoop sections argsSet keindex (argv.take keindex) st with
      | none => return none
      | some st => return some ⟨st, argv.set keindex progname, keindex + 1⟩

end

/-! ### Assignments and their spellings -/

def Plain (s : List Char) : Prop := ∀ c ∈ s, c ≠ '=' ∧ isQuote c = false ∧ isBlank c = false

instance (s : List Char) : Decidable (Plain s) :=
  List.decidableBAll (fun c => c ≠ '=' ∧ isQuote c = false ∧ isBlank c = false) s

def reservedWords : List (List Char) := libArgSep :: haltWords

/-- The parameters that are registered. A parameter has the name of its library, a dot and its own
name; a library of several files has a section for each, with the same parameters. -/
structure Registry where
  sections : List UkLibSection
  identifier : ∀ s ∈ sections, '.' ∉ s.libName
  qualified : ∀ s ∈ sections, ∀ p ∈ s.params, ∃ own, p.name = s.libName ++ '.' :: own
  same : ∀ s ∈ sections, ∀ t ∈ sections, s.libName = t.libName → s.params = t.params
  unique : ∀ s ∈ sections, ∀ p ∈ s.params, ∀ q ∈ s.params, p.name = q.name → p = q

def Registry.Has (reg : Registry) (p : UkParam) : Prop := ∃ s ∈ reg.sections, p ∈ s.params

/-- An assignment of a value to a registered parameter. -/
structure Assignment (reg : Registry) where
  param : UkParam
  value : List Char
  registered : reg.Has param
  plain_name : Plain param.name
  plain_value : Plain value
  nonempty : value ≠ []
  name_free : param.name ∉ reservedWords
  value_free : value ∉ reservedWords

/-- **The four spellings** of an assignment, as words of `argv`. -/
inductive Spelled (name value : List Char) : List Word → Prop
  | joined {w : Word} : w.chars = name ++ '=' :: value → Spelled name value [w]
  | valueApart {w v : Word} : w.chars = name ++ ['='] → v.chars = value → Spelled name value [w, v]
  | nameApart {n w : Word} : n.chars = name → w.chars = '=' :: value → Spelled name value [n, w]
  | apart {n e v : Word} : n.chars = name → e.chars = ['='] → v.chars = value →
      Spelled name value [n, e, v]

/-! ### Finding the equals sign -/

variable {name value s : List Char} {ws rest : List Word} {c : Char}

theorem strchr_of_notMem (h : c ∉ s) : strchr s c = none :=
  idxOf?_eq_none_iff.mpr h

theorem strchr_append {t : List Char} (h : c ∉ s) : strchr (s ++ c :: t) c = some s.length := by
  unfold strchr
  induction s with
  | nil => simp [idxOf?_cons]
  | cons d s ih =>
    rw [mem_cons, not_or] at h
    simp [idxOf?_cons, Ne.symm h.1, ih h.2]

theorem strrchr_of_notMem (h : c ∉ s) : strrchr s c = none := by
  unfold strrchr
  rw [idxOf?_eq_none_iff.mpr (by simpa using h)]
  rfl

theorem strrchr_append {t : List Char} (h : c ∉ t) : strrchr (s ++ c :: t) c = some s.length := by
  have hrev : (s ++ c :: t).reverse = t.reverse ++ c :: s.reverse := by simp
  unfold strrchr
  rw [hrev, show (t.reverse ++ c :: s.reverse).idxOf? c = some t.reverse.length from
    strchr_append (by simpa using h)]
  simp

theorem Plain.notMem (h : Plain name) : '=' ∉ name := fun hmem => (h _ hmem).1 rfl

/-! ### Fetching one assignment -/

/-- What `kernel_arg_fetch` has to find. -/
structure Fetched (name value : List Char) (pargs : ParamArgs) : Prop where
  param_eq : pargs.param.take pargs.paramLen = name
  paramLen_eq : pargs.paramLen = name.length
  value_eq : pargs.value = value
  valueLen_eq : pargs.valueLen = value.length

theorem Fetched.stop {st : Fetch} {i : Nat} (h : Fetched name value st.pargs)
    (hname : name ≠ []) (hvalue : value ≠ []) : fetchLoop i rest st = .ok (.ok st, i) := by
  have hp : st.pargs.paramLen ≠ 0 := h.paramLen_eq ▸ (length_pos_of_ne_nil hname).ne'
  have hv : st.pargs.valueLen ≠ 0 := h.valueLen_eq ▸ (length_pos_of_ne_nil hvalue).ne'
  cases rest with
  | nil => rfl
  | cons arg args =>
    unfold fetchLoop
    rw [if_neg (by simp [hp, hv])]

theorem fetchLoop_cons {i : Nat} {arg : Word} {st st' : Fetch}
    (hmore : st.pargs.valueLen = 0 ∨ st.pargs.paramLen = 0)
    (h : fetchWord i arg.chars st = .ok (.ok st')) :
    fetchLoop i (arg :: rest) st = fetchLoop (i + 1) rest st' := by
  rw [fetchLoop, if_pos hmore, h]
  rfl

section

variable {i k : Nat} {pargs : ParamArgs} {ptr : Nat × Nat} {arg : List Char}

theorem fetchWord_name (hname : '=' ∉ name) :
    fetchWord i name ⟨pargs, none, none⟩ =
      .ok (.ok ⟨{ pargs with param := name, paramLen := name.length }, none, none⟩) := by
  unfold fetchWord
  simp only [strchr_of_notMem hname, Option.map_none, Option.isSome_none, Bool.false_eq_true,
    false_and, if_false]

theorem fetchWord_value (hvalue : '=' ∉ value) :
    fetchWord i value ⟨pargs, some ptr, some k⟩ =
      .ok (.ok ⟨{ pargs with value := value, valueLen := value.length }, some ptr, some k⟩) := by
  unfold fetchWord
  simp only [strrchr_of_notMem hvalue, Option.map_none, Option.isSome_none, Bool.false_eq_true,
    false_and, and_false, if_false]

theorem fetchWord_equals (i : Nat) (st : Fetch) (name : List Char) (hname : '=' ∉ name)
    (hvalue : '=' ∉ value) (hptr : st.equalsPtr = none) (hequals : st.equals = none)
    (harg : arg = name ++ '=' :: value) :
    fetchWord i arg st = if 1 < arg.length ∧ name.length = arg.length - 1 then
        .ok (.ok ⟨{ st.pargs with param := arg, paramLen := arg.length - 1 },
          some (i, name.length), some i⟩)
      else if 1 < arg.length ∧ name.length = 0 then
        .ok (.ok ⟨{ st.pargs with value := arg.drop 1, valueLen := arg.length - 1 },
          some (i, name.length), some i⟩)
      else if arg.length = 1 then .ok (.ok ⟨st.pargs, some (i, name.length), some i⟩)
      else
        .ok (.ok ⟨⟨arg, name.length, arg.drop (name.length + 1), arg.length - (name.length + 1)⟩,
          some (i, name.length), some i⟩) := by
  subst harg
  unfold fetchWord
  rw [strchr_append hname, strrchr_append hvalue, hptr, hequals]
  simp only [Option.map_some, ne_eq, not_true_eq_false, and_false, if_false, false_and]

end

theorem fetchLoop_spelled (rest : List Word) (h : Spelled name value ws) (hname : '=' ∉ name)
    (hvalue : '=' ∉ value) (hn : name ≠ []) (hv : value ≠ []) :
    ∃ st, fetchLoop 0 (ws ++ rest) ⟨⟨[], 0, [], 0⟩, none, none⟩ = fetchLoop ws.length rest st ∧
      Fetched name value st.pargs := by
  have hnpos := length_pos_of_ne_nil hn
  have hvpos := length_pos_of_ne_nil hv
  cases h with
  | joined hw =>
    have hstep := fetchWord_equals 0 ⟨⟨[], 0, [], 0⟩, none, none⟩ name hname hvalue rfl rfl hw
    have hlen := congrArg List.length hw
    simp only [length_append, length_cons] at hlen
    rw [if_neg (by omega), if_neg (by omega), if_neg (by omega)] at hstep
    refine ⟨_, fetchLoop_cons (.inl rfl) hstep, ?_, rfl, ?_, ?_⟩
    · simp [hw]
    · simp [hw]
    show _ - _ = _
    omega
  | valueApart hw hv' =>
    have hstep := fetchWord_equals 0 ⟨⟨[], 0, [], 0⟩, none, none⟩ name hname not_mem_nil rfl rfl hw
    have hlen := congrArg List.length hw
    simp only [length_append, length_cons, length_nil] at hlen
    rw [if_pos (by omega)] at hstep
    refine ⟨_, (fetchLoop_cons (.inl rfl) hstep).trans
      (fetchLoop_cons (.inl rfl) (fetchWord_value (hv' ▸ hvalue))), ?_, ?_, hv', ?_⟩
    · simp [hw]
    · show _ - 1 = _
      omega
    · exact congrArg List.length hv'
  | nameApart hn' hw =>
    have hstep := fetchWord_equals 1 ⟨⟨name, name.length, [], 0⟩, none, none⟩ []
      not_mem_nil hvalue rfl rfl hw
    have hlen := congrArg List.length hw
    simp only [length_cons] at hlen
    rw [if_neg (by simp; omega), if_pos (by simp; omega)] at hstep
    refine ⟨_, (fetchLoop_cons (.inl rfl) (by rw [hn', fetchWord_name hname])).trans
      (fetchLoop_cons (.inl rfl) hstep), ?_, rfl, ?_, ?_⟩
    · exact take_length
    · simp [hw]
    show _ - 1 = _
    omega
  | apart hn' he hv' =>
    have hstep := fetchWord_equals 1 ⟨⟨name, name.length, [], 0⟩, none, none⟩ []
      not_mem_nil not_mem_nil rfl rfl he
    have hlen := congrArg List.length he
    simp only [length_cons, length_nil] at hlen
    rw [if_neg (by omega), if_neg (by omega), if_pos hlen] at hstep
    refine ⟨_, (fetchLoop_cons (.inl rfl) (by rw [hn', fetchWord_name hname])).trans
      ((fetchLoop_cons (.inl rfl) hstep).trans
        (fetchLoop_cons (.inl rfl) (fetchWord_value (hv' ▸ hvalue)))), ?_, rfl, hv', ?_⟩
    · exact take_length
    · exact congrArg List.length hv'

/-- **One assignment.** `kernel_arg_fetch` takes the words of the first assignment and no
others. -/
theorem kernelArgFetch_spelled (rest : List Word) (h : Spelled name value ws)
    (hname : '=' ∉ name) (hvalue : '=' ∉ value) (hn : name ≠ []) (hv : value ≠ []) :
    ∃ pargs, kernelArgFetch (ws ++ rest) = .ok (.ok pargs, ws.length) ∧
      Fetched name value pargs := by
  obtain ⟨st, hloop, hst⟩ := fetchLoop_spelled rest h hname hvalue hn hv
  refine ⟨st.pargs, ?_, hst⟩
  have hlen : st.pargs.valueLen ≠ 0 := hst.valueLen_eq ▸ (length_pos_of_ne_nil hv).ne'
  unfold kernelArgFetch
  rw [hloop, hst.stop hn hv]
  exact if_neg fun hno => hlen hno.2

/-! ### Looking the parameter up -/

theorem Registry.fetch (reg : Registry) {p : UkParam} {pargs : ParamArgs} (hp : reg.Has p)
    (h : Fetched p.name value pargs) :
    ∃ sec, kernelLibFetch reg.sections pargs = some sec ∧ kernelParseArg pargs sec = some p := by
  obtain ⟨s, hs, hps⟩ := hp
  obtain ⟨own, hown⟩ := reg.qualified s hs p hps
  -- The name goes up to the first dot, since a library name has none.
  have hdot : strchr (pargs.param.take pargs.paramLen) '.' = some s.libName.length := by
    rw [h.param_eq, hown]
    exact strchr_append (reg.identifier s hs)
  have hpre : pargs.param.take s.libName.length = s.libName := by
    have hle : s.libName.length ≤ pargs.paramLen := by
      rw [h.paramLen_eq, hown]
      simp
    have htake : (pargs.param.take pargs.paramLen).take s.libName.length = s.libName := by
      rw [h.param_eq, hown]
      simp
    rwa [take_take, Nat.min_eq_left hle] at htake
  have hfind : ∃ t, kernelLibFetch reg.sections pargs = some t ∧ t ∈ reg.sections ∧
      t.libName = s.libName := by
    unfold kernelLibFetch
    rw [hdot]
    simp only [hpre]
    cases ht : reg.sections.find? fun t =>
        t.libName.length = s.libName.length && s.libName = t.libName with
    | none => exact absurd (find?_eq_none.mp ht s hs) (by simp)
    | some t =>
      have hpt := find?_some ht
      simp only [Bool.and_eq_true, decide_eq_true_eq] at hpt
      exact ⟨t, rfl, mem_of_find?_eq_some ht, hpt.2.symm⟩
  obtain ⟨t, ht, hmem, hlib⟩ := hfind
  refine ⟨t, ht, ?_⟩
  have hpt : p ∈ t.params := reg.same t hmem s hs hlib ▸ hps
  unfold kernelParseArg
  rw [h.param_eq, h.paramLen_eq]
  cases hq : t.params.find? fun q => q.name.length = p.name.length && q.name = p.name with
  | none => exact absurd (find?_eq_none.mp hq p hpt) (by simp)
  | some q =>
    have hname := find?_some hq
    simp only [Bool.and_eq_true, decide_eq_true_eq] at hname
    rw [reg.unique t hmem q (mem_of_find?_eq_some hq) p hpt hname.2]

theorem scanLoop_plain {ptr k : Nat} (h : Plain s) :
    scanLoop ptr s ⟨some k, none, 0⟩ = (⟨some k, none, 0⟩, ptr + s.length) := by
  induction s generalizing ptr with
  | nil => rfl
  | cons c s ih =>
    obtain ⟨hc, hs⟩ := forall_mem_cons.mp h
    have hchar : scanChar ptr c ⟨some k, none, 0⟩ = ⟨some k, none, 0⟩ := by
      simp [scanChar, hc.2.1, hc.2.2]
    rw [scanLoop, if_neg (by simp), hchar, ih hs, length_cons]
    congr 1
    omega

theorem kernelValueSanitize_plain (h : Plain value) (hne : value ≠ []) :
    kernelValueSanitize value = .ok (.ok value) := by
  obtain ⟨c, s, rfl⟩ := exists_cons_of_ne_nil hne
  obtain ⟨hc, hs⟩ := forall_mem_cons.mp h
  have hchar : scanChar 0 c ⟨none, none, 0⟩ = ⟨some 0, none, 0⟩ := by
    simp [scanChar, hc.2.1, hc.2.2]
  have hscan : scanLoop 0 (c :: s) ⟨none, none, 0⟩ = (⟨some 0, none, 0⟩, 0 + 1 + s.length) := by
    rw [scanLoop, if_neg (by simp), hchar, scanLoop_plain hs]
  unfold kernelValueSanitize
  rw [ukAssert_pos hne, hscan]
  have hlen : 0 + 1 + s.length = (c :: s).length := by
    rw [length_cons]
    omega
  simp only [Outcome.ok_bind, Option.getD_none, hlen, Nat.zero_ne_one, if_false, drop_zero,
    Nat.sub_zero, take_length]
  rfl

/-! ### The whole command line -/

theorem Spelled.free (h : Spelled name value ws) (hname : name ∉ reservedWords)
    (hvalue : value ∉ reservedWords) : ∀ w ∈ ws, w.chars ∉ reservedWords := by
  have hequals : ∀ s ∈ reservedWords, '=' ∉ s := by decide
  cases h with
  | joined hw =>
    simp only [forall_mem_singleton]
    exact fun hmem => hequals _ hmem (by simp [hw])
  | valueApart hw hv =>
    simp only [forall_mem_cons, not_mem_nil, false_implies, implies_true, and_true]
    exact ⟨fun hmem => hequals _ hmem (by simp [hw]), hv ▸ hvalue⟩
  | nameApart hn hw =>
    simp only [forall_mem_cons, not_mem_nil, false_implies, implies_true, and_true]
    exact ⟨hn ▸ hname, fun hmem => hequals _ hmem (by simp [hw])⟩
  | apart hn he hv =>
    simp only [forall_mem_cons, not_mem_nil, false_implies, implies_true, and_true]
    exact ⟨hn ▸ hname, fun hmem => hequals _ hmem (by simp [he]), hv ▸ hvalue⟩

theorem Spelled.exists_cons (h : Spelled name value ws) : ∃ w ws', ws = w :: ws' := by
  cases h <;> exact ⟨_, _, rfl⟩

section

variable {σ : Type} {reg : Registry} {argsSet : UkParam → List Char → σ → σ} {st : σ}

def Assignment.Spells (a : Assignment reg) (ws : List Word) : Prop :=
  Spelled a.param.name a.value ws

def Assignment.make (argsSet : UkParam → List Char → σ → σ) (st : σ) (a : Assignment reg) : σ :=
  argsSet a.param a.value st

theorem Assignment.name_ne_nil (a : Assignment reg) : a.param.name ≠ [] := by
  obtain ⟨s, hs, hp⟩ := a.registered
  obtain ⟨own, hown⟩ := reg.qualified s hs a.param hp
  simp [hown]

theorem Assignment.assign_eq (a : Assignment reg) {pargs : ParamArgs}
    (h : Fetched a.param.name a.value pargs) :
    assign reg.sections argsSet pargs st = .ok (a.make argsSet st) := by
  obtain ⟨sec, hsec, hparam⟩ := reg.fetch a.registered h
  unfold assign
  simp only [hsec, hparam, h.value_eq, kernelValueSanitize_plain a.plain_value a.nonempty]
  rfl

theorem parseLoop_step (a : Assignment reg) (h : a.Spells ws) (fuel : Nat) :
    parseLoop reg.sections argsSet (fuel + 1) (ws ++ rest) st =
      parseLoop reg.sections argsSet fuel rest (a.make argsSet st) := by
  obtain ⟨pargs, hfetch, hpargs⟩ := kernelArgFetch_spelled rest h a.plain_name.notMem
    a.plain_value.notMem a.name_ne_nil a.nonempty
  have hfree := Spelled.free h a.name_free a.value_free
  obtain ⟨w, ws', rfl⟩ := Spelled.exists_cons h
  have hhalt : w.chars ∉ haltWords := fun hmem =>
    hfree w mem_cons_self (mem_cons_of_mem _ hmem)
  rw [cons_append] at hfetch ⊢
  rw [parseLoop, if_neg hhalt, hfetch]
  simp only [Outcome.ok_bind, a.assign_eq hpargs]
  rw [← cons_append, drop_left]

theorem parseLoop_spelled {as : List (Assignment reg)} {words : List (List Word)}
    (h : List.Forall₂ Assignment.Spells as words) {fuel : Nat}
    (hfuel : words.flatten.length ≤ fuel) :
    parseLoop reg.sections argsSet fuel words.flatten st =
      .ok (some (as.foldl (Assignment.make argsSet) st)) := by
  induction h generalizing fuel st with
  | nil => cases fuel <;> rfl
  | @cons a ws as words ha _ ih =>
    obtain ⟨w, ws', rfl⟩ := Spelled.exists_cons ha
    simp only [flatten_cons, length_append, length_cons] at hfuel
    obtain ⟨fuel, rfl⟩ : ∃ n, fuel = n + 1 := ⟨fuel - 1, by omega⟩
    rw [flatten_cons, parseLoop_step a ha, ih (by omega), foldl_cons]

theorem kernelArgRangeFetch_spelled {as : List (Assignment reg)} {words : List (List Word)}
    (h : List.Forall₂ Assignment.Spells as words) {sep : Word} (hsep : sep.chars = libArgSep)
    (app : List Word) :
    kernelArgRangeFetch (words.flatten ++ sep :: app) = some words.flatten.length := by
  have hfree : ∀ w ∈ words.flatten, w.chars ≠ libArgSep := by
    induction h with
    | nil => simp
    | @cons a ws as words ha _ ih =>
      intro w hw
      rw [flatten_cons, mem_append] at hw
      rcases hw with hw | hw
      · intro heq
        exact Spelled.free ha a.name_free a.value_free w hw (heq ▸ mem_cons_self)
      · exact ih w hw
  unfold kernelArgRangeFetch
  rw [findIdx?_append, findIdx?_eq_none_iff.mpr (by simpa using hfree)]
  simp [findIdx?_cons, hsep]

/-- **Library parameters.** Whatever the spellings, `uk_libparam_parse` makes the assignments in
order and nothing else, puts the program name in the place of `--` and returns the index behind it.
-/
theorem uk_libparam_parse_assigns (argsSet : UkParam → List Char → σ → σ) (st : σ)
    {as : List (Assignment reg)} {words : List (List Word)}
    (h : List.Forall₂ Assignment.Spells as words) {sep : Word} (hsep : sep.chars = libArgSep)
    (progname : Word) (app : List Word) :
    ukLibparamParse reg.sections argsSet progname (words.flatten ++ sep :: app) st = .ok (some
        { state := as.foldl (Assignment.make argsSet) st
          argv := words.flatten ++ progname :: app
          ret := words.flatten.length + 1 }) := by
  unfold ukLibparamParse
  simp only [kernelArgRangeFetch_spelled h hsep app, take_left,
    parseLoop_spelled h (Nat.le_refl _), Outcome.ok_bind, set_append_right,
    Nat.le_refl, Nat.sub_self, set_cons_zero]
  rfl

/-- A library with two parameters. -/
def sampleRegistry : Registry where
  sections := [⟨"netdev".toList, [⟨"netdev.ip".toList, 0x1000⟩, ⟨"netdev.gw".toList, 0x1010⟩]⟩]
  identifier := by decide
  qualified := by
    simp only [forall_mem_singleton, forall_mem_cons]
    exact ⟨⟨"ip".toList, by decide⟩, ⟨"gw".toList, by decide⟩⟩
  same := by simp
  unique := by decide

/-- An assignment to a parameter of that library. -/
def sampleAssignment (k : Fin 2) (value : List Char) (plain : Plain value) (nonempty : value ≠ [])
    (free : value ∉ reservedWords) : Assignment sampleRegistry where
  param := if k = 0 then ⟨"netdev.ip".toList, 0x1000⟩ else ⟨"netdev.gw".toList, 0x1010⟩
  value := value
  registered := by
    refine ⟨_, mem_singleton_self _, ?_⟩
    split <;> simp
  plain_name := by
    split
    · decide
    · decide
  plain_value := plain
  nonempty := nonempty
  name_free := by
    split
    · decide
    · decide
  value_free := free

/-- Two assignments, the first one in three words, and an argument of the application. -/
theorem uk_libparam_parse_assigns_two :
    ∃ out, ukLibparamParse sampleRegistry.sections (fun p v log => (p.addr, v) :: log)
        ⟨"app".toList, by decide, by decide⟩
        [⟨"netdev.ip".toList, by decide, by decide⟩, ⟨['='], by decide, by decide⟩,
          ⟨"10.0.0.2".toList, by decide, by decide⟩,
          ⟨"netdev.gw=10.0.0.1".toList, by decide, by decide⟩,
          ⟨libArgSep, by decide, by decide⟩, ⟨"-v".toList, by decide, by decide⟩] [] =
        .ok (some out) ∧
      out.ret = 5 ∧
      out.state = [(0x1010, "10.0.0.1".toList), (0x1000, "10.0.0.2".toList)] := by
  have hip : (sampleAssignment 0 "10.0.0.2".toList (by decide) (by decide) (by decide)).Spells
      [⟨"netdev.ip".toList, by decide, by decide⟩, ⟨['='], by decide, by decide⟩,
        ⟨"10.0.0.2".toList, by decide, by decide⟩] := .apart rfl rfl rfl
  have hgw : (sampleAssignment 1 "10.0.0.1".toList (by decide) (by decide) (by decide)).Spells
      [⟨"netdev.gw=10.0.0.1".toList, by decide, by decide⟩] := .joined rfl
  have hsep : (⟨libArgSep, by decide, by decide⟩ : Word).chars = libArgSep := rfl
  exact ⟨_, uk_libparam_parse_assigns _ [] (.cons hip (.cons hgw .nil)) hsep
    ⟨"app".toList, by decide, by decide⟩ [⟨"-v".toList, by decide, by decide⟩], rfl, rfl⟩

end

end Unikraft.Uklibparam
