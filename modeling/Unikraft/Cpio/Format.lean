import Unikraft.Cpio.Cpio

/-!
# Unikraft.Cpio.Format

**The newc format**, written by `encodeArchive`, with everything it leaves free. `RecordAt` is what
the code reads where a record lies: a field is found by its index (`read_headerField`), and read
unless it is too large for an `int` (`strhex8ToU32_field`).
-/

namespace Unikraft.Cpio

open Lib List

/-! ### The format -/

def hexDigit (upper : Bool) (d : Nat) : UInt8 :=
  if d < 10 then UInt8.ofNat (0x30 + d) else UInt8.ofNat ((if upper then 0x41 else 0x61) + d - 10)

/-- The last `n` hex digits of a number. -/
def hexDigits (upper : Bool) : Nat → Nat → List UInt8
  | 0, _ => []
  | n + 1, v => hexDigit upper (v / 16 ^ n % 16) :: hexDigits upper n v

/-- The fields of a header that `cpio_extract` does not read. -/
structure HeaderInfo where
  inodeNum : Nat
  uid : Nat
  gid : Nat
  nlink : Nat
  mtime : Nat
  major : Nat
  minor : Nat
  refMajor : Nat
  refMinor : Nat
  chksum : Nat

/-- A directory or a file with its bytes. -/
inductive EntryKind
  | dir
  | file (data : List UInt8)
  deriving DecidableEq

def EntryKind.data : EntryKind → List UInt8
  | dir => []
  | file data => data

def EntryKind.bits : EntryKind → Nat
  | dir => directoryBits
  | file _ => fileBits

/-- An entry of an archive; a file is not empty, and the sizes are 32-bit numbers. -/
structure Entry where
  name : Str
  mode : Nat
  kind : EntryKind
  info : HeaderInfo
  name_free : 0 ∉ name
  mode_lt : mode < 0o10000
  nonempty : kind ≠ .file []
  namesize_lt : name.length + 1 < 2 ^ 32
  filesize_lt : kind.data.length < 2 ^ 32

def pad (n : Nat) : List UInt8 := replicate ((4 - n % 4) % 4) 0

/-- The numbers of a header, in the order of `struct cpio_header`. -/
def headerFields (info : HeaderInfo) (mode filesize namesize : Nat) : List Nat :=
  [info.inodeNum, mode, info.uid, info.gid, info.nlink, info.mtime, filesize, info.major,
    info.minor, info.refMajor, info.refMinor, namesize, info.chksum]

def encodeHeader (upper : Bool) (info : HeaderInfo) (mode filesize namesize : Nat) : List UInt8 :=
  cpioMagicNewc ++ (headerFields info mode filesize namesize).flatMap (hexDigits upper 8)

/-- A record: header and name are padded together, then the data. -/
def encodeRecord (upper : Bool) (info : HeaderInfo) (mode : Nat) (name : Str)
    (data : List UInt8) : List UInt8 :=
  encodeHeader upper info mode data.length (name.length + 1) ++
    ((name ++ 0 :: pad (headerSize + (name.length + 1))) ++ (data ++ pad data.length))

def encodeEntry (upper : Bool) (e : Entry) : List UInt8 :=
  encodeRecord upper e.info (e.kind.bits + e.mode) e.name e.kind.data

/-- An archive ends with a record that has the trailer's name. -/
def encodeArchive (upper : Bool) (entries : List Entry) (trailer : HeaderInfo) : List UInt8 :=
  entries.flatMap (encodeEntry upper) ++ encodeRecord upper trailer 0 trailerName []

/-! ### Reading a record -/

section

variable {upper : Bool} {n v header filesize namesize mode : Nat} {r : Image} {info : HeaderInfo}

@[simp] theorem hexDigits_length : (hexDigits upper n v).length = n := by
  induction n with
  | zero => rfl
  | succ n ih => rw [hexDigits, length_cons, ih]

theorem hexValue_hexDigit {d : Nat} (hd : d < 16) : hexValue (hexDigit upper d) = some d := by
  have hall : ∀ upper, ∀ d : Fin 16, hexValue (hexDigit upper d) = some (d : Nat) := by decide
  exact hall upper ⟨d, hd⟩

theorem snhexLoop_hexDigits {val : Nat} (hval : val < 2 ^ 31) :
    snhexLoop (hexDigits upper n v) val =
      if val * 16 ^ n + v % 16 ^ n < 2 ^ 31 then .ok (val * 16 ^ n + v % 16 ^ n)
      else .error .undefinedArith := by
  induction n generalizing val with
  | zero =>
    rw [hexDigits, snhexLoop, if_pos (by simpa [Nat.mod_one] using hval)]
    simp [Nat.mod_one]
  | succ n ih =>
    have hd : v / 16 ^ n % 16 < 16 := Nat.mod_lt _ (by decide)
    have hsum : val * 16 ^ (n + 1) + v % 16 ^ (n + 1) =
        (val * 16 + v / 16 ^ n % 16) * 16 ^ n + v % 16 ^ n := by
      rw [Nat.pow_succ, Nat.mod_mul]
      ring
    rw [hexDigits, snhexLoop, hexValue_hexDigit hd, hsum]
    have hone : 1 ≤ 16 ^ n := Nat.one_le_pow _ _ (by decide)
    by_cases hover : 2 ^ 31 ≤ val * 16
    · have hbig : 2 ^ 31 ≤ (val * 16 + v / 16 ^ n % 16) * 16 ^ n :=
        calc 2 ^ 31 ≤ val * 16 := hover
          _ ≤ val * 16 + v / 16 ^ n % 16 := Nat.le_add_right ..
          _ ≤ (val * 16 + v / 16 ^ n % 16) * 16 ^ n := Nat.le_mul_of_pos_right _ hone
      rw [if_pos hover, if_neg (by omega)]
    rw [if_neg hover]
    exact ih (by omega)

theorem encodeHeader_length :
    (encodeHeader upper info mode filesize namesize).length = headerSize := by
  simp [encodeHeader, headerFields, cpioMagicNewc, headerSize]

theorem read_headerField {i : Nat}
    (h : r.At header (encodeHeader upper info mode filesize namesize))
    (hi : (headerFields info mode filesize namesize)[i]? = some v) :
    r.read (header + 6 + 8 * i) 8 = some (hexDigits upper 8 v) := by
  have hfield : r.At (header + 6 + 8 * i) (hexDigits upper 8 v) :=
    Image.At.flatMap (fun _ => hexDigits_length) h.right hi
  have hread := hfield.read (ne_nil_of_length_eq_add_one hexDigits_length)
  rwa [hexDigits_length] at hread

theorem validMagic_header (h : r.At header (encodeHeader upper info mode filesize namesize)) :
    validMagic r header = .ok true := by
  have hread : r.read header 6 = some cpioMagicNewc := h.left.read (by decide)
  rw [validMagic, hread]
  rfl

theorem strhex8ToU32_field {loc : Nat} (h : r.read loc 8 = some (hexDigits upper 8 v))
    (hv : v < 2 ^ 32) :
    strhex8ToU32 r loc = if v < 2 ^ 31 then .ok v else .error .undefinedArith := by
  rw [strhex8ToU32, h, access_some, Outcome.ok_bind, snhexLoop_hexDigits (by decide),
    Nat.zero_mul, Nat.zero_add, Nat.mod_eq_of_lt (show v < 16 ^ 8 by omega)]

theorem strhex8ToU32_small {loc : Nat} (h : r.read loc 8 = some (hexDigits upper 8 v))
    (hv : v < 2 ^ 31) : strhex8ToU32 r loc = .ok v := by
  rw [strhex8ToU32_field h (by omega), if_pos hv]

/-! ### Where the parts of a record are -/

theorem pad_length : (pad n).length = (4 - n % 4) % 4 := length_replicate ..

theorem align4_eq (hv : v + 3 < 2 ^ 64) : align4 v = v + (pad v).length := by
  have halign := alignUp_two_pow (v := v) (k := 2) (by decide) hv
  rw [pad_length]
  show alignUp v 4 = _
  rw [show (4 : Nat) = 2 ^ 2 from rfl, halign]
  omega

theorem pad_add (hheader : 4 ∣ header) : (pad (header + n)).length = (pad n).length := by
  rw [pad_length, pad_length]
  omega

variable {mode : Nat} {name : Str} {data rest : List UInt8}

theorem encodeRecord_length :
    (encodeRecord upper info mode name data).length =
      headerSize + (name.length + 1) + (pad (headerSize + (name.length + 1))).length +
        (data.length + (pad data.length).length) := by
  rw [encodeRecord, length_append, encodeHeader_length]
  simp only [length_append, length_cons]
  omega

theorem encodeRecord_aligned : 4 ∣ (encodeRecord upper info mode name data).length := by
  rw [encodeRecord_length, pad_length, pad_length]
  omega

/-- What the reader meets at a record. -/
structure RecordAt (r : Image) (header : Nat) (upper : Bool) (mode : Nat) (name : Str)
    (data : List UInt8) : Prop where
  magicAt : validMagic r header = .ok true
  modeAt : r.read (header + 14) 8 = some (hexDigits upper 8 mode)
  filesizeAt : r.read (header + 54) 8 = some (hexDigits upper 8 data.length)
  namesizeAt : r.read (header + 94) 8 = some (hexDigits upper 8 (name.length + 1))
  nameAt : ∃ rest, r.At (header + headerSize) (name ++ 0 :: rest)
  dataAt : r.At (header + (headerSize + (name.length + 1)) +
    (pad (headerSize + (name.length + 1))).length) data

theorem RecordAt.of_at (h : r.At header (encodeRecord upper info mode name data)) :
    RecordAt r header upper mode name data := by
  have hheader := h.left
  have hrest := h.right
  rw [encodeHeader_length] at hrest
  refine ⟨validMagic_header hheader, read_headerField hheader (i := 1) rfl,
    read_headerField hheader (i := 6) rfl, read_headerField hheader (i := 11) rfl,
    ⟨_, hrest.left⟩, ?_⟩
  have hdata := hrest.right.left
  rw [length_append, length_cons] at hdata
  rwa [show header + (headerSize + (name.length + 1)) +
      (pad (headerSize + (name.length + 1))).length = header + headerSize +
      (name.length + ((pad (headerSize + (name.length + 1))).length + 1)) by omega]

end

end Unikraft.Cpio
