import Unikraft.Essentials
import Unikraft.Lib.Image

/-!
# Unpacking an archive (`lib/cpio/cpio.c`)

`cpio_extract` makes the directories and files of a newc archive in memory.

The memory region is an `Image`, the file system a parameter (`FileApi`). An access outside of the
region and a signed overflow in `snhex_to_int` are faults; the loops have a fuel.
-/

namespace Unikraft.Cpio

open Lib

/-- A string, without its terminating zero. -/
abbrev Str := List UInt8

/-- `enum cpio_error`, as far as it is returned. -/
inductive CpioError
  | success
  | invalidHeader
  | fileCreateFailed
  | fileWriteFailed
  | fileCloseFailed
  | mkdirFailed
  | malformedFile
  | nomem
  | noMountLocation
  deriving Repr, DecidableEq

/-- What `cpio.c` calls: the file system, and whether a size can be allocated. -/
structure FileApi (σ : Type) where
  malloc : Nat → Bool
  /-- `open(path, O_CREAT | O_RDWR)` -/
  openCreat : σ → Str → Int × σ
  write : σ → Int → List UInt8 → Int × σ
  chmod : σ → Str → Nat → Int × σ
  close : σ → Int → Int × σ
  mkdir : σ → Str → Nat → Int × σ

def access {α : Type} : Option α → Outcome α
  | some v => .ok v
  | none => .error .outOfBounds

@[simp] theorem access_some {α : Type} (v : α) : access (some v) = .ok v := rfl

/-! ### Header fields -/

/-- `CPIO_MAGIC_NEWC` -/
def cpioMagicNewc : Str := [0x30, 0x37, 0x30, 0x37, 0x30, 0x31]

/-- `CPIO_MAGIC_CRC` -/
def cpioMagicCrc : Str := [0x30, 0x37, 0x30, 0x37, 0x30, 0x32]

/-- `"TRAILER!!!"` -/
def trailerName : Str := [0x54, 0x52, 0x41, 0x49, 0x4c, 0x45, 0x52, 0x21, 0x21, 0x21]

/-- `"."` -/
def dotName : Str := [0x2e]

/-- `sizeof(struct cpio_header)` -/
def headerSize : Nat := 110

/-- `ALIGN_4` -/
def align4 (ptr : Nat) : Nat := alignUp ptr 4

/-- `valid_magic` -/
def validMagic (r : Image) (header : Nat) : Outcome Bool := do
  let magic ← access (r.read header 6)
  return magic = cpioMagicNewc || magic = cpioMagicCrc

def hexValue (c : UInt8) : Option Nat :=
  if 0x30 ≤ c ∧ c ≤ 0x39 then some (c.toNat - 0x30)
  else if 0x41 ≤ c ∧ c ≤ 0x46 then some (c.toNat - 0x41 + 10)
  else if 0x61 ≤ c ∧ c ≤ 0x66 then some (c.toNat - 0x61 + 10)
  else none

/-- The loop of `snhex_to_int`; `val` is an `int`. -/
def snhexLoop : List UInt8 → Nat → Outcome Nat
  | [], val => .ok val
  | c :: loc, val =>
    if 2 ^ 31 ≤ val * 16 then .error .undefinedArith
    else
      match hexValue c with
      | some d => snhexLoop loc (val * 16 + d)
      | none => .ok 0

/-- `strhex8_to_u32` -/
def strhex8ToU32 (r : Image) (loc : Nat) : Outcome Nat := do
  snhexLoop (← access (r.read loc 8)) 0

/-- `FILE_TYPE_MASK` -/
def fileTypeMask : Nat := 0o170000

/-- `DIRECTORY_BITS` -/
def directoryBits : Nat := 0o40000

/-- `FILE_BITS` -/
def fileBits : Nat := 0o100000

/-- `IS_FILE` -/
def isFile (mode : Nat) : Bool := mode &&& fileTypeMask = fileBits

/-- `IS_DIR` -/
def isDir (mode : Nat) : Bool := mode &&& fileTypeMask = directoryBits

/-- `filename` -/
def filename (header : Nat) : Nat := addU64 header headerSize

/-! ### Extraction -/

section

variable {σ : Type} (api : FileApi σ)

/-- `absolute_path`, which looks at the last character of the first path. -/
def absolutePath (pathToPrepend path : Str) : Outcome (Option Str) :=
  match pathToPrepend.getLast? with
  | none => .error .outOfBounds
  | some c =>
    let dirSlashIncluded := if c = 0x2f then 1 else 2
    if api.malloc (path.length + pathToPrepend.length + dirSlashIncluded) then
      .ok (some (pathToPrepend ++ (if c = 0x2f then [] else [0x2f]) ++ path))
    else .ok none

/-- Conversion of the `ssize_t` that `write` returns to the `int bytes_written`. -/
def bytesWritten (n : Int) : Int := toInt (n % 2 ^ 32).toNat

/-- The loop around `write`. -/
def writeLoop (r : Image) (fd : Int) (dataLocation : Nat) :
    Nat → Nat → Int → σ → Outcome (Option CpioError × σ)
  | 0, bytesToWrite, _, s => if 0 < bytesToWrite then .error .divergence else .ok (none, s)
  | fuel + 1, bytesToWrite, written, s =>
    if 0 < bytesToWrite then do
      let data ← access (r.read (addU64 dataLocation (toSize written)) bytesToWrite)
      let (n, s) := api.write s fd data
      if bytesWritten n < 0 then .ok (some .fileWriteFailed, s)
      else
        writeLoop r fd dataLocation fuel
          (subU32 bytesToWrite (bytesWritten n).toNat) (bytesWritten n) s
    else .ok (none, s)

/-- The branch of `read_section` for a file. -/
def extractFile (fuel : Nat) (r : Image) (header last : Nat) (path : Str)
    (mode filesize namesize : Nat) (s : σ) : Outcome (Option CpioError × σ) :=
  let (fd, s) := api.openCreat s path
  if fd < 0 then .ok (some .fileCreateFailed, s)
  else
    let dataLocation := align4 (addU64 (addU64 header headerSize) namesize)
    if last < addU64 dataLocation filesize then .ok (some .malformedFile, s)
    else do
      match ← writeLoop api r fd dataLocation fuel filesize 0 s with
      | (some e, s) => return (some e, s)
      | (none, s) =>
        -- a failed chmod is only printed
        let (_, s) := api.chmod s path (mode &&& 0o777)
        let (ret, s) := api.close s fd
        return (if ret < 0 then some .fileCloseFailed else none, s)

/-- The branch of `read_section` for a directory. -/
def extractDir (r : Image) (header : Nat) (path : Str) (mode : Nat) (s : σ) :
    Outcome (Option CpioError × σ) := do
  if ← access (r.strEq (filename header) dotName) then return (none, s)
  else
    let (ret, s) := api.mkdir s path (mode &&& 0o777)
    return (if ret < 0 then some .mkdirFailed else none, s)

/-- What `read_section` makes of a record; other types and empty files are passed over. -/
def extractEntry (fuel : Nat) (r : Image) (header last : Nat) (path : Str)
    (mode filesize namesize : Nat) (s : σ) : Outcome (Option CpioError × σ) :=
  if isFile mode && filesize ≠ 0 then
    extractFile api fuel r header last path mode filesize namesize s
  else if isDir mode then extractDir api r header path mode s
  else .ok (none, s)

/-- `next_header` -/
def nextHeader (header filesize namesize : Nat) : Nat :=
  align4 (addU64 (align4 (addU64 (addU64 header headerSize) namesize)) filesize)

/-- `read_section`: the error, the next `*header_ptr` and the state of the file system. -/
def readSection (fuel : Nat) (r : Image) (header : Nat) (mountLoc : Option Str) (last : Nat)
    (s : σ) : Outcome (CpioError × Nat × σ) := do
  if ← access (r.strEq (filename header) trailerName) then return (.success, 0, s)
  else if !(← validMagic r header) then return (.invalidHeader, 0, s)
  else
    match mountLoc with
    | none => return (.noMountLocation, 0, s)
    | some mountLoc =>
      match ← absolutePath api mountLoc (← access (r.readString (filename header))) with
      | none => return (.nomem, 0, s)
      | some path => do
          let mode ← strhex8ToU32 r (header + 14)
          let filesize ← strhex8ToU32 r (header + 54)
          let namesize ← strhex8ToU32 r (header + 94)
          if last < addU64 header headerSize then return (.malformedFile, 0, s)
          else
            let (error, s) ← extractEntry api fuel r header last path mode filesize namesize s
            match error with
            | some e => return (e, 0, s)
            | none => return (.success, nextHeader header filesize namesize, s)

/-- The loop of `cpio_extract`. -/
def cpioLoop (r : Image) (mountLoc : Option Str) (last : Nat) :
    Nat → CpioError → Nat → σ → Outcome (CpioError × σ)
  | fuel, error, header, s =>
    if error = .success ∧ header ≠ 0 then
      match fuel with
      | 0 => .error .divergence
      | fuel + 1 => do
          let (error, header, s) ← readSection api (fuel + 1) r header mountLoc last s
          cpioLoop r mountLoc last fuel error header s
    else .ok (error, s)

/-- `cpio_extract` -/
def cpioExtract (fuel : Nat) (mountLoc : Option Str) (r : Image) (s : σ) :
    Outcome (CpioError × σ) :=
  if mountLoc = none then .ok (.noMountLocation, s)
  else cpioLoop api r mountLoc (addU64 r.base r.bytes.length) fuel .success r.base s

end

end Unikraft.Cpio
