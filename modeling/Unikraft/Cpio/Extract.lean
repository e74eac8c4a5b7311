import Unikraft.Cpio.Format

/-!
# An archive is unpacked

Extraction comes to `installAll`, the calls for the entries in order; `readSection_entry` is the
step and `cpioLoop_entries` the run along the archive.

The format does not have the conditions of `Entry.Extractable`: sizes from `2 ^ 31` on are lost, an
entry named like the trailer ends the archive, a directory `.` is left out, and only the permission
bits of a mode are used.
-/

namespace Unikraft.Cpio

open Lib Outcome List EntryKind

/-! ### What extraction comes to -/

section

variable {σ : Type} (api : FileApi σ)

def joinPath (mountLoc name : Str) : Str :=
  mountLoc ++ (if mountLoc.getLast? = some 0x2f then [] else [0x2f]) ++ name

/-- The calls for one entry, if all of them succeed and all bytes are written. -/
def install (mountLoc : Str) (e : Entry) (s : σ) : Option σ :=
  let path := joinPath mountLoc e.name
  match e.kind with
  | .dir =>
    let (ret, s) := api.mkdir s path e.mode
    if 0 ≤ ret then some s else none
  | .file data =>
    let (fd, s) := api.openCreat s path
    let (written, s) := api.write s fd data
    let (changed, s) := api.chmod s path e.mode
    let (closed, s) := api.close s fd
    if 0 ≤ fd ∧ written = data.length ∧ 0 ≤ changed ∧ 0 ≤ closed then some s else none

def installAll (mountLoc : Str) : List Entry → σ → Option σ
  | [], s => some s
  | e :: entries, s => (install api mountLoc e s).bind (installAll mountLoc entries)

/-- An entry for which something is made. -/
structure Entry.Made (e : Entry) : Prop where
  not_trailer : e.name ≠ trailerName
  not_dot : e.kind = .dir → e.name ≠ dotName
  namesize_small : e.name.length + 1 < 2 ^ 31
  filesize_small : e.kind.data.length < 2 ^ 31

/-- What the format allows and `cpio_extract` cannot do: see the module text. -/
structure Entry.Extractable (e : Entry) : Prop extends e.Made where
  mode_small : e.mode < 0o1000

/-- The entry with the permission bits of its mode. -/
def Entry.perm (e : Entry) : Entry :=
  { e with mode := e.mode % 0o1000, mode_lt := (Nat.mod_lt _ (by decide)).trans (by decide) }

theorem Entry.Extractable.perm_eq {e : Entry} (h : e.Extractable) : e.perm = e := by
  simp only [Entry.perm, Nat.mod_eq_of_lt h.mode_small]

variable {api} {mountLoc : Str} {e : Entry} {s s' : σ} {r : Image} {header fuel : Nat}
  {upper : Bool}

theorem absolutePath_eq (hmalloc : ∀ n, api.malloc n = true) (hmount : mountLoc ≠ [])
    (name : Str) : absolutePath api mountLoc name = .ok (some (joinPath mountLoc name)) := by
  rw [absolutePath, joinPath, getLast?_eq_some_getLast hmount]
  simp [hmalloc]

/-! ### The mode of an entry -/

variable {mode : Nat}

theorem bits_add_type (kind : EntryKind) (hmode : mode < 0o10000) :
    (kind.bits + mode) &&& fileTypeMask = kind.bits := by
  -- all modes, in two digits
  have hall : ∀ hi lo : Fin 64,
      (directoryBits + (64 * hi + lo)) &&& fileTypeMask = directoryBits ∧
        (fileBits + (64 * hi + lo)) &&& fileTypeMask = fileBits := by
    decide +kernel
  have hthis := hall ⟨mode / 64, by omega⟩ ⟨mode % 64, by omega⟩
  rw [Nat.div_add_mod] at hthis
  cases kind with
  | dir => exact hthis.1
  | file data => exact hthis.2

theorem bits_add_perm (kind : EntryKind) (mode : Nat) :
    (kind.bits + mode) &&& 0o777 = mode % 0o1000 := by
  have hmod := Nat.and_two_pow_sub_one_eq_mod (kind.bits + mode) 9
  have hbits : kind.bits % 2 ^ 9 = 0 := by
    cases kind <;> simp [bits, directoryBits, fileBits]
  rw [show (0o777 : Nat) = 2 ^ 9 - 1 from rfl, hmod]
  omega

/-! ### One record -/

theorem bytesWritten_eq {n : Nat} (hn : n < 2 ^ 31) : bytesWritten n = n := by
  unfold bytesWritten toInt
  omega

variable {data : List UInt8}

theorem writeLoop_all {fd : Int} {loc : Nat} (hat : r.At loc data) (hne : data ≠ [])
    (hsmall : data.length < 2 ^ 31) (hloc : loc < 2 ^ 64)
    (hwrite : (api.write s fd data).1 = data.length) :
    writeLoop api r fd loc (fuel + 1) data.length 0 s = .ok (none, (api.write s fd data).2) := by
  have hpos : 0 < data.length := length_pos_iff.mpr hne
  have hread : r.read (addU64 loc (toSize 0)) data.length = some data := by
    rw [show toSize 0 = 0 from rfl, addU64_eq hloc]
    exact hat.read hne
  have hsub : subU32 data.length (data.length : Int).toNat = 0 := by
    unfold subU32
    omega
  rw [writeLoop, if_pos hpos, hread, access_some, ok_bind]
  simp only [hwrite, bytesWritten_eq hsmall, hsub]
  rw [if_neg (by omega)]
  cases fuel <;> rfl

theorem extractFile_eq {path : Str} {mode namesize : Nat}
    (hat : r.At (align4 (addU64 (addU64 header headerSize) namesize)) data) (hne : data ≠ [])
    (hsmall : data.length < 2 ^ 31) (hlast : r.last < 2 ^ 64) (hfd : 0 ≤ (api.openCreat s path).1)
    (hwrite : (api.write (api.openCreat s path).2 (api.openCreat s path).1 data).1 = data.length)
    (hclose : 0 ≤ (api.close (api.chmod (api.write (api.openCreat s path).2
      (api.openCreat s path).1 data).2 path (mode &&& 0o777)).2 (api.openCreat s path).1).1) :
    extractFile api (fuel + 1) r header r.last path mode data.length namesize s =
      .ok (none, (api.close (api.chmod (api.write (api.openCreat s path).2
        (api.openCreat s path).1 data).2 path (mode &&& 0o777)).2 (api.openCreat s path).1).2) := by
  have hend := hat.le_last hne
  have hpos := length_pos_iff.mpr hne
  rw [extractFile]
  simp only [if_neg (Int.not_lt.mpr hfd)]
  rw [addU64_eq (by omega), if_neg (by omega), writeLoop_all hat hne hsmall (by omega) hwrite,
    ok_bind]
  simp only [if_neg (Int.not_lt.mpr hclose)]
  rfl

theorem extractDir_eq {path : Str} (hdot : r.strEq (filename header) dotName = some false)
    (hret : 0 ≤ (api.mkdir s path (mode &&& 0o777)).1) :
    extractDir api r header path mode s =
      .ok (none, (api.mkdir s path (mode &&& 0o777)).2) := by
  rw [extractDir, hdot, access_some, ok_bind]
  simp only [Bool.false_eq_true, if_false, if_neg (Int.not_lt.mpr hret)]
  rfl

theorem dataLocation_eq {namesize : Nat} (h4 : 4 ∣ header)
    (hroom : header + (headerSize + namesize) + 3 < 2 ^ 64) :
    align4 (addU64 (addU64 header headerSize) namesize) =
      header + (headerSize + namesize) + (pad (headerSize + namesize)).length := by
  have hsum : addU64 (addU64 header headerSize) namesize = header + (headerSize + namesize) := by
    rw [addU64_eq (by omega : header + headerSize < 2 ^ 64), addU64_eq (by omega)]
    omega
  rw [hsum, align4_eq hroom, pad_add h4]

theorem nextHeader_eq {info : HeaderInfo} {name : Str} (h4 : 4 ∣ header)
    (hroom : header + (encodeRecord upper info mode name data).length + 3 < 2 ^ 64) :
    nextHeader header data.length (name.length + 1) =
      header + (encodeRecord upper info mode name data).length := by
  rw [encodeRecord_length] at hroom ⊢
  have h4' : 4 ∣ header + (headerSize + (name.length + 1)) +
      (pad (headerSize + (name.length + 1))).length := by
    rw [pad_length]
    omega
  rw [nextHeader, dataLocation_eq h4 (by omega), addU64_eq (by omega), align4_eq (by omega),
    pad_add h4']
  omega

theorem extract_dir_entry (hname : ∃ rest, r.At (header + headerSize) (e.name ++ 0 :: rest))
    (he : e.Made) (hheader : header + headerSize < 2 ^ 64) (hkind : e.kind = .dir)
    (hinst : install api mountLoc e.perm s = some s') :
    extractDir api r header (joinPath mountLoc e.name) (e.kind.bits + e.mode) s =
      .ok (none, s') := by
  obtain ⟨rest, hname⟩ := hname
  have hdot : r.strEq (filename header) dotName = some false := by
    rw [filename, addU64_eq hheader, hname.strEq e.name_free (by decide)]
    exact congrArg some (decide_eq_false (he.not_dot hkind))
  have hperm := bits_add_perm e.kind e.mode
  simp only [install, Entry.perm, hkind] at hinst
  split at hinst
  · rename_i hret
    cases hinst
    rw [extractDir_eq hdot (by rwa [hperm]), hperm]
  · cases hinst

theorem extract_file_entry (fuel : Nat)
    (hdata : r.At (align4 (addU64 (addU64 header headerSize) (e.name.length + 1))) data)
    (he : e.Made) (hlast : r.last < 2 ^ 64) (hkind : e.kind = .file data)
    (hinst : install api mountLoc e.perm s = some s') :
    extractFile api (fuel + 1) r header r.last (joinPath mountLoc e.name) (e.kind.bits + e.mode)
      data.length (e.name.length + 1) s = .ok (none, s') := by
  have hne : data ≠ [] := fun hnil => e.nonempty (by rw [hkind, hnil])
  have hsmall : data.length < 2 ^ 31 := by
    have := he.filesize_small
    rwa [hkind] at this
  have hperm := bits_add_perm e.kind e.mode
  simp only [install, Entry.perm, hkind] at hinst
  split at hinst
  · rename_i hret
    cases hinst
    obtain ⟨hfd, hwrite, -, hclose⟩ := hret
    rw [extractFile_eq hdata hne hsmall hlast hfd hwrite (by rwa [hperm]), hperm]
  · cases hinst

theorem extractEntry_eq (hrec : RecordAt r header upper (e.kind.bits + e.mode) e.name e.kind.data)
    (he : e.Made) (h4 : 4 ∣ header) (hlast : r.last < 2 ^ 64)
    (hroom : header + (headerSize + (e.name.length + 1)) + 3 < 2 ^ 64)
    (hinst : install api mountLoc e.perm s = some s') :
    extractEntry api (fuel + 1) r header r.last (joinPath mountLoc e.name)
      (e.kind.bits + e.mode) e.kind.data.length (e.name.length + 1) s = .ok (none, s') := by
  have htype := bits_add_type e.kind e.mode_lt
  unfold extractEntry
  cases hkind : e.kind with
  | dir =>
    have hcall := extract_dir_entry hrec.nameAt he (by omega) hkind hinst
    rw [hkind] at htype hcall
    rw [if_neg (by simp [data]), isDir, htype, if_pos (by simp [bits])]
    exact hcall
  | file data =>
    have hdata := hrec.dataAt
    rw [← dataLocation_eq h4 hroom, hkind] at hdata
    have hcall := extract_file_entry fuel hdata he hlast hkind hinst
    have hne : data ≠ [] := fun hnil => e.nonempty (by rw [hkind, hnil])
    rw [hkind] at htype hcall
    rw [isFile, htype, if_pos (by simp [EntryKind.bits, EntryKind.data, hne])]
    exact hcall

theorem readSection_parsed (hmalloc : ∀ n, api.malloc n = true) (hmount : mountLoc ≠ [])
    {name : Str} (hrec : RecordAt r header upper mode name data) (hfree : 0 ∉ name)
    (htrailer : name ≠ trailerName) (hheader : header + headerSize < 2 ^ 64) :
    readSection api fuel r header (some mountLoc) r.last s = (do
      let mode ← strhex8ToU32 r (header + 14)
      let filesize ← strhex8ToU32 r (header + 54)
      let namesize ← strhex8ToU32 r (header + 94)
      if r.last < header + headerSize then return (.malformedFile, 0, s)
      else
        let (error, s) ←
          extractEntry api fuel r header r.last (joinPath mountLoc name) mode filesize namesize s
        match error with
        | some e => return (e, 0, s)
        | none => return (.success, nextHeader header filesize namesize, s)) := by
  obtain ⟨rest, hname⟩ := hrec.nameAt
  have htrail : r.strEq (filename header) trailerName = some false := by
    rw [filename, addU64_eq hheader, hname.strEq hfree (by decide)]
    exact congrArg some (decide_eq_false htrailer)
  have hstring : r.readString (filename header) = some name := by
    rw [filename, addU64_eq hheader]
    exact hname.readString hfree
  rw [readSection, htrail, hrec.magicAt, hstring, addU64_eq hheader]
  simp only [access_some, ok_bind, absolutePath_eq hmalloc hmount]
  rfl

theorem mode_bits_lt (e : Entry) : e.kind.bits + e.mode < 2 ^ 31 := by
  have := e.mode_lt
  cases e.kind <;> simp only [bits, directoryBits, fileBits] <;> omega

/-- **One record**, if its sizes can be read; the next header is the end of the record. -/
theorem readSection_next (hmalloc : ∀ n, api.malloc n = true) (hmount : mountLoc ≠ [])
    (htrailer : e.name ≠ trailerName) (hnamesize : e.name.length + 1 < 2 ^ 31)
    (hfilesize : e.kind.data.length < 2 ^ 31) (hat : r.At header (encodeEntry upper e))
    (h4 : 4 ∣ header) (hlast : r.last < 2 ^ 64)
    (hroom : header + (encodeEntry upper e).length + 3 < r.last)
    (hentry : extractEntry api fuel r header r.last (joinPath mountLoc e.name)
      (e.kind.bits + e.mode) e.kind.data.length (e.name.length + 1) s = .ok (none, s')) :
    readSection api fuel r header (some mountLoc) r.last s =
      .ok (.success, header + (encodeEntry upper e).length, s') := by
  have hrec := RecordAt.of_at hat
  have hlen : (encodeEntry upper e).length = headerSize + (e.name.length + 1) +
      (pad (headerSize + (e.name.length + 1))).length +
        (e.kind.data.length + (pad e.kind.data.length).length) := encodeRecord_length
  rw [readSection_parsed hmalloc hmount hrec e.name_free htrailer (by omega),
    strhex8ToU32_small hrec.modeAt (mode_bits_lt e), strhex8ToU32_small hrec.filesizeAt hfilesize,
    strhex8ToU32_small hrec.namesizeAt hnamesize]
  simp only [ok_bind]
  rw [if_neg (by omega), hentry, ok_bind]
  have hnext : nextHeader header e.kind.data.length (e.name.length + 1) =
      header + (encodeEntry upper e).length := nextHeader_eq h4 (by
        show header + (encodeEntry upper e).length + 3 < 2 ^ 64
        omega)
  simp only [hnext]
  rfl

/-- **One record makes one entry**, with the permission bits of its mode. -/
theorem readSection_entry (hmalloc : ∀ n, api.malloc n = true) (hmount : mountLoc ≠ [])
    (he : e.Made) (hat : r.At header (encodeEntry upper e)) (h4 : 4 ∣ header)
    (hlast : r.last < 2 ^ 64) (hroom : header + (encodeEntry upper e).length + 3 < r.last)
    (hinst : install api mountLoc e.perm s = some s') :
    readSection api (fuel + 1) r header (some mountLoc) r.last s =
      .ok (.success, header + (encodeEntry upper e).length, s') := by
  have hlen : (encodeEntry upper e).length = _ := encodeRecord_length
  exact readSection_next hmalloc hmount he.not_trailer he.namesize_small he.filesize_small hat h4
    hlast hroom (extractEntry_eq (.of_at hat) he h4 hlast (by omega) hinst)

/-- A directory `.` is passed over. -/
theorem readSection_dot (hmalloc : ∀ n, api.malloc n = true) (hmount : mountLoc ≠ [])
    (hkind : e.kind = .dir) (hname : e.name = dotName) (hat : r.At header (encodeEntry upper e))
    (h4 : 4 ∣ header) (hlast : r.last < 2 ^ 64)
    (hroom : header + (encodeEntry upper e).length + 3 < r.last) :
    readSection api fuel r header (some mountLoc) r.last s =
      .ok (.success, header + (encodeEntry upper e).length, s) := by
  have hlen : (encodeEntry upper e).length = _ := encodeRecord_length
  refine readSection_next hmalloc hmount (by rw [hname]; decide) (by rw [hname]; decide)
    (by rw [hkind]; decide) hat h4 hlast hroom ?_
  have htype := bits_add_type e.kind e.mode_lt
  obtain ⟨rest, hat⟩ := (RecordAt.of_at hat).nameAt
  have hdot : r.strEq (filename header) dotName = some true := by
    rw [filename, addU64_eq (by omega), hat.strEq e.name_free (by decide)]
    exact congrArg some (decide_eq_true hname)
  rw [hkind] at htype ⊢
  rw [extractEntry, if_neg (by simp [data]), isDir, htype, if_pos (by simp [bits]), extractDir,
    hdot]
  rfl

theorem readSection_trailer {info : HeaderInfo}
    (hat : r.At header (encodeRecord upper info mode trailerName data))
    (hheader : header + headerSize < 2 ^ 64) :
    readSection api fuel r header (some mountLoc) r.last s = .ok (.success, 0, s) := by
  obtain ⟨rest, hname⟩ := (RecordAt.of_at hat).nameAt
  have htrail : r.strEq (filename header) trailerName = some true := by
    rw [filename, addU64_eq hheader, hname.strEq (by decide) (by decide)]
    rfl
  rw [readSection, htrail]
  rfl

/-! ### The archive -/

theorem cpioLoop_done {error : CpioError} {last fuel : Nat} :
    cpioLoop api r (some mountLoc) last fuel error 0 s = .ok (error, s) := by
  unfold cpioLoop
  rw [if_neg (by simp)]

theorem cpioLoop_step {last next : Nat} (hheader : header ≠ 0)
    (hread : readSection api (fuel + 1) r header (some mountLoc) last s =
      .ok (.success, next, s')) :
    cpioLoop api r (some mountLoc) last (fuel + 1) .success header s =
      cpioLoop api r (some mountLoc) last fuel .success next s' := by
  conv => lhs; unfold cpioLoop
  rw [if_pos ⟨rfl, hheader⟩]
  simp only [hread, ok_bind]

variable {entries : List Entry}

theorem encodeArchive_cons {trailer : HeaderInfo} :
    encodeArchive upper (e :: entries) trailer =
      encodeEntry upper e ++ encodeArchive upper entries trailer := by
  simp [encodeArchive]

/-- There is a trailer behind the entries. -/
theorem archive_room {trailer : HeaderInfo}
    (hat : r.At header (encodeArchive upper entries trailer)) :
    header + headerSize < r.last ∧ header + 4 ≤ r.last := by
  have hlen : headerSize < (encodeArchive upper entries trailer).length := by
    simp only [encodeArchive, length_append, encodeRecord_length]
    omega
  have hend := hat.le_last (ne_nil_of_length_pos (Nat.zero_lt_of_lt hlen))
  unfold headerSize at *
  omega

/-- **Along the archive.** The entries are made one after the other. -/
theorem cpioLoop_entries (hmalloc : ∀ n, api.malloc n = true)
    (hmount : entries ≠ [] → mountLoc ≠ [])
    (hlast : r.last < 2 ^ 64) {trailer : HeaderInfo}
    (he : ∀ e ∈ entries, e.Extractable) (hat : r.At header (encodeArchive upper entries trailer))
    (h4 : 4 ∣ header) (hheader : header ≠ 0) (hfuel : entries.length < fuel)
    (hinst : installAll api mountLoc entries s = some s') :
    cpioLoop api r (some mountLoc) r.last fuel .success header s = .ok (.success, s') := by
  induction entries generalizing header s fuel with
  | nil =>
    cases hinst
    obtain ⟨fuel, rfl⟩ := Nat.exists_eq_succ_of_ne_zero (Nat.ne_of_gt hfuel)
    have hend := archive_room hat
    rw [cpioLoop_step hheader (readSection_trailer hat (by omega)), cpioLoop_done]
  | cons e entries ih =>
    obtain ⟨fuel, rfl⟩ := Nat.exists_eq_succ_of_ne_zero (Nat.ne_of_gt (Nat.zero_lt_of_lt hfuel))
    obtain ⟨s₁, hone, hrest⟩ := Option.bind_eq_some_iff.mp hinst
    rw [encodeArchive_cons] at hat
    have hend := archive_room hat.right
    obtain ⟨hfirst, he⟩ := forall_mem_cons.mp he
    rw [cpioLoop_step hheader (readSection_entry hmalloc (hmount (cons_ne_nil _ _))
      hfirst.toMade hat.left h4 hlast (by omega) (hfirst.perm_eq.symm ▸ hone))]
    refine ih (fun _ => hmount (cons_ne_nil _ _)) he hat.right
      (Nat.dvd_add h4 encodeRecord_aligned) (by omega) ?_ hrest
    rw [length_cons] at hfuel
    omega

/-- A record that is read, other than a trailer, has a place for its entry and sizes that fit an
`int`. -/
theorem readSection_fits {res : CpioError × Nat × σ} (hmalloc : ∀ n, api.malloc n = true)
    (hat : r.At header (encodeEntry upper e)) (htrailer : e.name ≠ trailerName)
    (hheader : header + headerSize < 2 ^ 64)
    (h : readSection api fuel r header (some mountLoc) r.last s = .ok res) :
    mountLoc ≠ [] ∧ e.name.length + 1 < 2 ^ 31 ∧ e.kind.data.length < 2 ^ 31 := by
  have hrec := RecordAt.of_at hat
  have hmount : mountLoc ≠ [] := by
    rintro rfl
    obtain ⟨rest, hname⟩ := hrec.nameAt
    have htrail : r.strEq (filename header) trailerName = some false := by
      rw [filename, addU64_eq hheader, hname.strEq e.name_free (by decide)]
      exact congrArg some (decide_eq_false htrailer)
    have hstring : r.readString (filename header) = some e.name := by
      rw [filename, addU64_eq hheader]
      exact hname.readString e.name_free
    rw [readSection, htrail, hrec.magicAt, hstring] at h
    cases h
  rw [readSection_parsed hmalloc hmount hrec e.name_free htrailer hheader,
    strhex8ToU32_small hrec.modeAt (mode_bits_lt e),
    strhex8ToU32_field hrec.filesizeAt e.filesize_lt,
    strhex8ToU32_field hrec.namesizeAt e.namesize_lt] at h
  obtain ⟨_, -, h⟩ := bind_ok.mp h
  obtain ⟨_, hfile, h⟩ := bind_ok.mp h
  obtain ⟨_, hname, -⟩ := bind_ok.mp h
  refine ⟨hmount, by_contra fun hbig => ?_, by_contra fun hbig => ?_⟩
  · rw [if_neg hbig] at hname
    cases hname
  · rw [if_neg hbig] at hfile
    cases hfile

theorem readSection_oversized (hmalloc : ∀ n, api.malloc n = true) (hmount : mountLoc ≠ [])
    (hat : r.At header (encodeEntry upper e)) (htrailer : e.name ≠ trailerName)
    (hheader : header + headerSize < 2 ^ 64) (hbig : 2 ^ 31 ≤ e.kind.data.length) :
    readSection api fuel r header (some mountLoc) r.last s = .error .undefinedArith := by
  have hrec := RecordAt.of_at hat
  rw [readSection_parsed hmalloc hmount hrec e.name_free htrailer hheader,
    strhex8ToU32_small hrec.modeAt (mode_bits_lt e),
    strhex8ToU32_field hrec.filesizeAt e.filesize_lt, if_neg (by omega)]
  rfl

end

/-! ### A plain file system -/

/-- A directory with its mode, or a file with its mode and bytes. -/
inductive Node
  | dir (mode : Nat)
  | file (mode : Nat) (data : List UInt8)
  deriving Repr, DecidableEq

/-- The objects in the order in which they were made, and the paths of the descriptors. -/
structure Store where
  nodes : List (Str × Node)
  fds : List Str
  deriving DecidableEq

def updateNode (path : Str) (f : Node → Node) (nodes : List (Str × Node)) : List (Str × Node) :=
  nodes.map fun entry => if entry.1 = path then (path, f entry.2) else entry

def Store.Has (s : Store) (path : Str) : Prop := path ∈ s.nodes.map Prod.fst
  deriving Decidable

def Node.append (data : List UInt8) : Node → Node
  | dir mode => .dir mode
  | file mode old => .file mode (old ++ data)

def Node.chmod (mode : Nat) : Node → Node
  | dir _ => .dir mode
  | file _ data => .file mode data

/-- A file system that makes what it is asked for: a file when it is opened first, a directory
when there is nothing at its path. -/
def storeApi : FileApi Store where
  malloc := fun _ => true
  openCreat := fun s path =>
    (s.fds.length,
      { nodes := if s.Has path then s.nodes else s.nodes ++ [(path, .file 0 [])],
        fds := s.fds ++ [path] })
  write := fun s fd data =>
    match s.fds[fd.toNat]? with
    | none => (-1, s)
    | some path => (data.length, { s with nodes := updateNode path (.append data) s.nodes })
  chmod := fun s path mode =>
    if s.Has path then (0, { s with nodes := updateNode path (.chmod mode) s.nodes }) else (-1, s)
  close := fun s _ => (0, s)
  mkdir := fun s path mode =>
    if s.Has path then (-1, s) else (0, { s with nodes := s.nodes ++ [(path, .dir mode)] })

/-- The object an entry describes. -/
def Entry.node (mountLoc : Str) (e : Entry) : Str × Node :=
  (joinPath mountLoc e.name,
    match e.kind with
    | .dir => .dir e.mode
    | .file data => .file e.mode data)

section

variable {path mountLoc : Str} {s : Store} {n : Node} {e : Entry} {entries : List Entry}

theorem updateNode_append {nodes : List (Str × Node)} (f : Node → Node)
    (h : path ∉ nodes.map Prod.fst) :
    updateNode path f (nodes ++ [(path, n)]) = nodes ++ [(path, f n)] := by
  have hold : nodes.map (fun entry => if entry.1 = path then (path, f entry.2) else entry) =
      nodes := by
    conv => rhs; rw [← map_id nodes]
    refine map_congr_left fun entry hentry => if_neg fun heq => ?_
    exact h (heq ▸ mem_map_of_mem hentry)
  rw [updateNode, map_append, hold]
  simp

theorem install_store (hnew : ¬ s.Has (joinPath mountLoc e.name)) :
    ∃ s', install storeApi mountLoc e s = some s' ∧
      s'.nodes = s.nodes ++ [e.node mountLoc] := by
  unfold install Entry.node
  cases e.kind with
  | dir => exact ⟨_, by simp [storeApi, hnew]; rfl, rfl⟩
  | file data =>
    have hopen : storeApi.openCreat s (joinPath mountLoc e.name) = ((s.fds.length : Int),
        ⟨s.nodes ++ [(joinPath mountLoc e.name, .file 0 [])],
          s.fds ++ [joinPath mountLoc e.name]⟩) := by
      simp [storeApi, hnew]
    have hwrite : storeApi.write ⟨s.nodes ++ [(joinPath mountLoc e.name, .file 0 [])],
          s.fds ++ [joinPath mountLoc e.name]⟩ s.fds.length data = ((data.length : Int),
        ⟨s.nodes ++ [(joinPath mountLoc e.name, .file 0 data)],
          s.fds ++ [joinPath mountLoc e.name]⟩) := by
      simp [storeApi, updateNode_append _ hnew, Node.append]
    have hchmod : storeApi.chmod ⟨s.nodes ++ [(joinPath mountLoc e.name, .file 0 data)],
          s.fds ++ [joinPath mountLoc e.name]⟩ (joinPath mountLoc e.name) e.mode = (0,
        ⟨s.nodes ++ [(joinPath mountLoc e.name, .file e.mode data)],
          s.fds ++ [joinPath mountLoc e.name]⟩) := by
      simp [storeApi, Store.Has, updateNode_append _ hnew, Node.chmod]
    refine ⟨⟨s.nodes ++ [(joinPath mountLoc e.name, .file e.mode data)],
      s.fds ++ [joinPath mountLoc e.name]⟩, ?_, rfl⟩
    simp only [hopen, hwrite, hchmod]
    simp [storeApi]

theorem joinPath_injective : Function.Injective (joinPath mountLoc) :=
  fun _ _ h => append_cancel_left h

theorem not_has_install {s' : Store} {e' : Entry} (hnodes : s'.nodes = s.nodes ++ [e.node mountLoc])
    (hnew : ¬ s.Has (joinPath mountLoc e'.name)) (hne : e'.name ≠ e.name) :
    ¬ s'.Has (joinPath mountLoc e'.name) := by
  intro hhas
  rw [Store.Has, hnodes, map_append, mem_append] at hhas
  rcases hhas with hold | hnode
  · exact hnew hold
  · have heq : joinPath mountLoc e'.name = joinPath mountLoc e.name := by
      simpa [Entry.node] using hnode
    exact hne (joinPath_injective heq)

theorem installAll_store (hnodup : (entries.map Entry.name).Nodup)
    (hnew : ∀ e ∈ entries, ¬ s.Has (joinPath mountLoc e.name)) :
    ∃ s', installAll storeApi mountLoc entries s = some s' ∧
      s'.nodes = s.nodes ++ entries.map (Entry.node mountLoc) := by
  induction entries generalizing s with
  | nil => exact ⟨s, rfl, by simp⟩
  | cons e entries ih =>
    obtain ⟨hhead, hrest⟩ := nodup_cons.mp hnodup
    obtain ⟨s₁, hone, hnodes⟩ := install_store (hnew e (mem_cons_self ..))
    have hnew₁ : ∀ e' ∈ entries, ¬ s₁.Has (joinPath mountLoc e'.name) := fun e' he' =>
      not_has_install hnodes (hnew e' (mem_cons_of_mem _ he')) fun heq =>
        hhead (heq ▸ mem_map_of_mem he')
    obtain ⟨s', hall, hnodes'⟩ := ih hrest hnew₁
    refine ⟨s', ?_, ?_⟩
    · rw [installAll, hone]
      exact hall
    · rw [hnodes', hnodes, append_assoc]
      rfl

end

/-! ### The result -/

/-- **What a run along the archive leaves**: at most one object for each entry, and the objects of
the entries only if all of them are extractable and there is a place for them. -/
theorem cpioLoop_store {mountLoc : Str} {r : Image} {header fuel : Nat} {upper : Bool}
    {trailer : HeaderInfo} {s s' : Store} {entries : List Entry} (hlast : r.last < 2 ^ 64)
    (hnodup : (entries.map Entry.name).Nodup)
    (hnew : ∀ e ∈ entries, ¬ s.Has (joinPath mountLoc e.name))
    (hat : r.At header (encodeArchive upper entries trailer)) (h4 : 4 ∣ header)
    (hheader : header ≠ 0)
    (h : cpioLoop storeApi r (some mountLoc) r.last fuel .success header s = .ok (.success, s')) :
    ∃ made, s'.nodes = s.nodes ++ made ∧ made.length ≤ entries.length ∧
      (made = entries.map (Entry.node mountLoc) →
        (∀ e ∈ entries, e.Extractable) ∧ (entries ≠ [] → mountLoc ≠ [])) := by
  induction entries generalizing header fuel s with
  | nil =>
    cases fuel with
    | zero =>
      rw [cpioLoop, if_pos ⟨rfl, hheader⟩] at h
      cases h
    | succ fuel =>
      have hend := archive_room hat
      rw [cpioLoop_step hheader (readSection_trailer hat (by omega)), cpioLoop_done] at h
      cases h
      exact ⟨[], (append_nil _).symm, le_rfl, fun _ =>
        ⟨fun e he => absurd he not_mem_nil, fun hne => absurd rfl hne⟩⟩
  | cons e entries ih =>
    cases fuel with
    | zero =>
      rw [cpioLoop, if_pos ⟨rfl, hheader⟩] at h
      cases h
    | succ fuel =>
    rw [encodeArchive_cons] at hat
    have hend := archive_room hat.right
    have hlen : (encodeEntry upper e).length = _ := encodeRecord_length
    have h4' : 4 ∣ header + (encodeEntry upper e).length := Nat.dvd_add h4 encodeRecord_aligned
    obtain ⟨hhead, hrest⟩ := nodup_cons.mp hnodup
    have hnew' := fun e' he' => hnew e' (mem_cons_of_mem _ he')
    by_cases htrailer : e.name = trailerName
    · -- the archive ends here
      have hat₁ := hat.left
      rw [encodeEntry, htrailer] at hat₁
      rw [cpioLoop_step hheader (readSection_trailer hat₁ (by omega)), cpioLoop_done] at h
      cases h
      exact ⟨[], (append_nil _).symm, Nat.zero_le _, fun heq => absurd heq.symm (cons_ne_nil _ _)⟩
    have hread := h
    rw [cpioLoop, if_pos ⟨rfl, hheader⟩] at hread
    obtain ⟨res, hread, -⟩ := bind_ok.mp hread
    obtain ⟨hmount, hnamesize, hfilesize⟩ :=
      readSection_fits (fun _ => rfl) hat.left htrailer (by omega) hread
    by_cases hdot : e.kind = .dir ∧ e.name = dotName
    · rw [cpioLoop_step hheader (readSection_dot (fun _ => rfl) hmount hdot.1 hdot.2 hat.left h4
        hlast (by omega))] at h
      obtain ⟨made, hnodes, hle, -⟩ := ih hrest hnew' hat.right h4' (by omega) h
      refine ⟨made, hnodes, hle.trans (Nat.le_succ _), fun hmade => ?_⟩
      rw [hmade, length_map, length_cons] at hle
      omega
    have hmade : e.Made := ⟨htrailer, fun hk hn => hdot ⟨hk, hn⟩, hnamesize, hfilesize⟩
    obtain ⟨s₁, hinst, hnodes₁⟩ := install_store (e := e.perm) (hnew e mem_cons_self)
    rw [cpioLoop_step hheader (readSection_entry (fun _ => rfl) hmount hmade hat.left h4 hlast
      (by omega) hinst)] at h
    obtain ⟨made, hnodes, hle, hall⟩ := ih hrest
      (fun e' he' => not_has_install hnodes₁ (hnew' e' he') fun heq =>
        hhead (heq ▸ mem_map_of_mem he'))
      hat.right h4' (by omega) h
    refine ⟨e.perm.node mountLoc :: made, ?_, Nat.succ_le_succ hle, fun heq => ?_⟩
    · rw [hnodes, hnodes₁, append_assoc]
      rfl
    obtain ⟨hnode, hmades⟩ := cons.inj heq
    refine ⟨forall_mem_cons.mpr ⟨⟨hmade, ?_⟩, (hall hmades).1⟩, fun _ => hmount⟩
    -- the mode has only the permission bits
    have hmode : e.mode % 0o1000 = e.mode := by
      have hsnd := congrArg Prod.snd hnode
      unfold Entry.node Entry.perm at hsnd
      cases hkind : e.kind <;> simp only [hkind] at hsnd
      · exact Node.dir.inj hsnd
      · exact (Node.file.inj hsnd).1
    omega

def sampleInfo : HeaderInfo := ⟨0, 0, 0, 1, 0, 0, 0, 0, 0, 0⟩

/-- A directory `a` and a file in it. -/
def sampleEntries : List Entry :=
  [⟨[0x61], 0o755, .dir, sampleInfo, by decide, by decide, by decide, by decide, by decide⟩,
    ⟨[0x61, 0x2f, 0x62], 0o644, .file [1, 2, 3, 4, 5], sampleInfo, by decide, by decide,
      by decide, by decide, by decide⟩]

theorem cpioExtract_oversized {e : Entry} {entries : List Entry} {mountLoc : Str}
    (hmount : mountLoc ≠ []) (htrailer : e.name ≠ trailerName)
    (hbig : 2 ^ 31 ≤ e.kind.data.length) {upper : Bool} {trailer : HeaderInfo} {r : Image}
    (hbase : 0 < r.base) (hlast : r.last < 2 ^ 64)
    (harchive : encodeArchive upper (e :: entries) trailer <+: r.bytes) (fuel : Nat) :
    cpioExtract storeApi (fuel + 1) (some mountLoc) r ⟨[], []⟩ = .error .undefinedArith := by
  have hat := r.at_base.mono harchive
  have hend := archive_room hat
  rw [encodeArchive_cons] at hat
  rw [cpioExtract, if_neg (by simp), cpioLoop, if_pos ⟨rfl, by omega⟩,
    show addU64 r.base r.bytes.length = r.last from addU64_eq hlast,
    readSection_oversized (fun _ => rfl) hmount hat.left htrailer (by omega) hbig]
  rfl

theorem last_one_entry (upper : Bool) (e : Entry) (trailer : HeaderInfo) :
    (Image.mk 0x1000 (encodeArchive upper [e] trailer)).last < 2 ^ 64 := by
  have hname := e.namesize_lt
  have hdata := e.filesize_lt
  have hentry : (encodeEntry upper e).length = _ := encodeRecord_length
  rw [pad_length, pad_length] at hentry
  have hlen : (encodeArchive upper [e] trailer).length =
      (encodeEntry upper e).length + (encodeRecord upper trailer 0 trailerName []).length := by
    simp [encodeArchive]
  rw [encodeRecord_length, pad_length, pad_length] at hlen
  simp only [Image.last, hlen, hentry, headerSize, trailerName, length_cons, length_nil]
  omega

end Unikraft.Cpio
