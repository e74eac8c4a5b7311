import Mathlib.Data.Finmap
import Unikraft.Basic
import Unikraft.Lib.ProbeTable
import Unikraft.Lib.Run

/-!
# The hash map of the key-value server (`server/linux_single/server.c`)

Open addressing with chains of at most `MAX_CHAIN_LENGTH` slots, plain deletion, and a table that is
doubled when it is half full or when a chain is. It represents a finite map (`Represents`) as long
as no key is put while it is in the map:

* `hashmap_put` counts every call in `size`, also one that overwrites a value;
* it takes the first slot that is free *or* has the key, so that a key can be in the table twice,
  and removing it brings the older value back.

A put returns as soon as some doubling of the table has room for all keys (`Fits`); with more keys
of one `crc32` than a chain has slots, the doublings end with an overflow of `table_size`.
-/

namespace Unikraft.Server

open Lib Outcome List Finmap Nat

/-! ### The map -/

/-- A string, without its terminating zero. -/
abbrev Key := List UInt8

/-- The return values; `MAP_FULL` is the `none` of `hashmapHash`. -/
inductive MapStatus
  /-- `MAP_MISSING`: no such element. -/
  | missing
  /-- `MAP_OMEM`: out of memory. -/
  | omem
  /-- `MAP_OK` -/
  | ok
  deriving Repr, DecidableEq

/-- `INITIAL_SIZE` -/
def initialSize : Nat := 256

/-- `MAX_CHAIN_LENGTH` -/
def maxChainLength : Nat := 8

/-- `hashmap_map`: a slot of `data` with `in_use == 0` is `none`. -/
structure HashmapMap (V : Type) where
  tableSize : Nat
  size : Int
  data : Nat → Option (Key × V)

def HashmapMap.fresh (V : Type) (tableSize : Nat) : HashmapMap V := ⟨tableSize, 0, fun _ => none⟩

/-- `hashmap_new` -/
def hashmapNew (V : Type) (calloc : Nat → Bool) : Option (HashmapMap V) :=
  if calloc initialSize then some (.fresh V initialSize) else none

/-! ### The hash of a key -/

/-- `crc32_tab` -/
def crc32Tab : Array UInt64 :=
  #[0x00000000, 0x77073096, 0xee0e612c, 0x990951ba, 0x076dc419, 0x706af48f, 0xe963a535,
    0x9e6495a3, 0x0edb8832, 0x79dcb8a4, 0xe0d5e91e, 0x97d2d988, 0x09b64c2b, 0x7eb17cbd,
    0xe7b82d07, 0x90bf1d91, 0x1db71064, 0x6ab020f2, 0xf3b97148, 0x84be41de, 0x1adad47d,
    0x6ddde4eb, 0xf4d4b551, 0x83d385c7, 0x136c9856, 0x646ba8c0, 0xfd62f97a, 0x8a65c9ec,
    0x14015c4f, 0x63066cd9, 0xfa0f3d63, 0x8d080df5, 0x3b6e20c8, 0x4c69105e, 0xd56041e4,
    0xa2677172, 0x3c03e4d1, 0x4b04d447, 0xd20d85fd, 0xa50ab56b, 0x35b5a8fa, 0x42b2986c,
    0xdbbbc9d6, 0xacbcf940, 0x32d86ce3, 0x45df5c75, 0xdcd60dcf, 0xabd13d59, 0x26d930ac,
    0x51de003a, 0xc8d75180, 0xbfd06116, 0x21b4f4b5, 0x56b3c423, 0xcfba9599, 0xb8bda50f,
    0x2802b89e, 0x5f058808, 0xc60cd9b2, 0xb10be924, 0x2f6f7c87, 0x58684c11, 0xc1611dab,
    0xb6662d3d, 0x76dc4190, 0x01db7106, 0x98d220bc, 0xefd5102a, 0x71b18589, 0x06b6b51f,
    0x9fbfe4a5, 0xe8b8d433, 0x7807c9a2, 0x0f00f934, 0x9609a88e, 0xe10e9818, 0x7f6a0dbb,
    0x086d3d2d, 0x91646c97, 0xe6635c01, 0x6b6b51f4, 0x1c6c6162, 0x856530d8, 0xf262004e,
    0x6c0695ed, 0x1b01a57b, 0x8208f4c1, 0xf50fc457, 0x65b0d9c6, 0x12b7e950, 0x8bbeb8ea,
    0xfcb9887c, 0x62dd1ddf, 0x15da2d49, 0x8cd37cf3, 0xfbd44c65, 0x4db26158, 0x3ab551ce,
    0xa3bc0074, 0xd4bb30e2, 0x4adfa541, 0x3dd895d7, 0xa4d1c46d, 0xd3d6f4fb, 0x4369e96a,
    0x346ed9fc, 0xad678846, 0xda60b8d0, 0x44042d73, 0x33031de5, 0xaa0a4c5f, 0xdd0d7cc9,
    0x5005713c, 0x270241aa, 0xbe0b1010, 0xc90c2086, 0x5768b525, 0x206f85b3, 0xb966d409,
    0xce61e49f, 0x5edef90e, 0x29d9c998, 0xb0d09822, 0xc7d7a8b4, 0x59b33d17, 0x2eb40d81,
    0xb7bd5c3b, 0xc0ba6cad, 0xedb88320, 0x9abfb3b6, 0x03b6e20c, 0x74b1d29a, 0xead54739,
    0x9dd277af, 0x04db2615, 0x73dc1683, 0xe3630b12, 0x94643b84, 0x0d6d6a3e, 0x7a6a5aa8,
    0xe40ecf0b, 0x9309ff9d, 0x0a00ae27, 0x7d079eb1, 0xf00f9344, 0x8708a3d2, 0x1e01f268,
    0x6906c2fe, 0xf762575d, 0x806567cb, 0x196c3671, 0x6e6b06e7, 0xfed41b76, 0x89d32be0,
    0x10da7a5a, 0x67dd4acc, 0xf9b9df6f, 0x8ebeeff9, 0x17b7be43, 0x60b08ed5, 0xd6d6a3e8,
    0xa1d1937e, 0x38d8c2c4, 0x4fdff252, 0xd1bb67f1, 0xa6bc5767, 0x3fb506dd, 0x48b2364b,
    0xd80d2bda, 0xaf0a1b4c, 0x36034af6, 0x41047a60, 0xdf60efc3, 0xa867df55, 0x316e8eef,
    0x4669be79, 0xcb61b38c, 0xbc66831a, 0x256fd2a0, 0x5268e236, 0xcc0c7795, 0xbb0b4703,
    0x220216b9, 0x5505262f, 0xc5ba3bbe, 0xb2bd0b28, 0x2bb45a92, 0x5cb36a04, 0xc2d7ffa7,
    0xb5d0cf31, 0x2cd99e8b, 0x5bdeae1d, 0x9b64c2b0, 0xec63f226, 0x756aa39c, 0x026d930a,
    0x9c0906a9, 0xeb0e363f, 0x72076785, 0x05005713, 0x95bf4a82, 0xe2b87a14, 0x7bb12bae,
    0x0cb61b38, 0x92d28e9b, 0xe5d5be0d, 0x7cdcefb7, 0x0bdbdf21, 0x86d3d2d4, 0xf1d4e242,
    0x68ddb3f8, 0x1fda836e, 0x81be16cd, 0xf6b9265b, 0x6fb077e1, 0x18b74777, 0x88085ae6,
    0xff0f6a70, 0x66063bca, 0x11010b5c, 0x8f659eff, 0xf862ae69, 0x616bffd3, 0x166ccf45,
    0xa00ae278, 0xd70dd2ee, 0x4e048354, 0x3903b3c2, 0xa7672661, 0xd06016f7, 0x4969474d,
    0x3e6e77db, 0xaed16a4a, 0xd9d65adc, 0x40df0b66, 0x37d83bf0, 0xa9bcae53, 0xdebb9ec5,
    0x47b2cf7f, 0x30b5ffe9, 0xbdbdf21c, 0xcabac28a, 0x53b39330, 0x24b4a3a6, 0xbad03605,
    0xcdd70693, 0x54de5729, 0x23d967bf, 0xb3667a2e, 0xc4614ab8, 0x5d681b02, 0x2a6f2b94,
    0xb40bbe37, 0xc30c8ea1, 0x5a05df1b, 0x2d02ef8d]

/-- `crc32`: `len` is an `unsigned int`. -/
def crc32 (s : Key) : UInt64 :=
  (s.take (s.length % 2 ^ 32)).foldl
    (fun crc32val c => crc32Tab.getD ((crc32val ^^^ c.toUInt64) &&& 0xff).toNat 0 ^^^
      (crc32val >>> 8)) 0

/-- The mix function and the multiplication in `hashmap_hash_int`. -/
def hashMix (key : UInt64) : UInt64 :=
  let key := key + (key <<< 12)
  let key := key ^^^ (key >>> 22)
  let key := key + (key <<< 4)
  let key := key ^^^ (key >>> 9)
  let key := key + (key <<< 10)
  let key := key ^^^ (key >>> 2)
  let key := key + (key <<< 7)
  let key := key ^^^ (key >>> 12)
  (key >>> 3) * 2654435761

/-- `hashmap_hash_int` -/
def hashmapHashInt (tableSize : Nat) (keystring : Key) : Nat :=
  (hashMix (crc32 keystring)).toNat % tableSize

variable {tableSize : Nat}

theorem hashmapHashInt_lt (h : 0 < tableSize) (k : Key) :
    hashmapHashInt tableSize k < tableSize := mod_lt _ h

section

variable {V : Type}

/-- The slots `hashmap_hash`, `hashmap_get` and `hashmap_remove` look at for a key. -/
def HashmapMap.chain (m : HashmapMap V) (key : Key) : List Nat :=
  probe m.tableSize maxChainLength (hashmapHashInt m.tableSize key)

/-- `hashmap_hash`: the slot to put a key in, or `MAP_FULL`. -/
def hashmapHash (m : HashmapMap V) (key : Key) : Option Nat :=
  if ((m.tableSize / 2 : Nat) : Int) ≤ m.size then none
  else (m.chain key).find? fun curr => (m.data curr).isNone || holdsKey m.data key curr

/-- The end of `hashmap_put`: the element is written and counted. -/
def HashmapMap.store (m : HashmapMap V) (index : Nat) (key : Key) (value : V) : HashmapMap V :=
  { m with data := Function.update m.data index (some (key, value)), size := m.size + 1 }

/-- The loop of `hashmap_rehash` over the slots of the old table. -/
def rehashLoop (put : HashmapMap V → Key → V → Outcome (MapStatus × HashmapMap V)) :
    List (Option (Key × V)) → HashmapMap V → Outcome (MapStatus × HashmapMap V)
  | [], m => .ok (.ok, m)
  | none :: rest, m => rehashLoop put rest m
  | some e :: rest, m => do
      let (status, m) ← put m e.1 e.2
      if status ≠ .ok then .ok (status, m) else rehashLoop put rest m

/-- `hashmap_rehash`: `table_size` is an `int`. -/
def hashmapRehash (calloc : Nat → Bool)
    (put : HashmapMap V → Key → V → Outcome (MapStatus × HashmapMap V)) (m : HashmapMap V) :
    Outcome (MapStatus × HashmapMap V) :=
  if 2 ^ 31 ≤ 2 * m.tableSize then .error .undefinedArith
  else if calloc (2 * m.tableSize) = false then .ok (.omem, m)
  else rehashLoop put ((List.range m.tableSize).map m.data) (.fresh V (2 * m.tableSize))

/-- `hashmap_put`, which calls itself through `hashmap_rehash`. -/
def hashmapPut (calloc : Nat → Bool) :
    Nat → HashmapMap V → Key → V → Outcome (MapStatus × HashmapMap V)
  | fuel, m, key, value =>
    match hashmapHash m key, fuel with
    | some index, _ => .ok (.ok, m.store index key value)
    | none, 0 => .error .divergence
    | none, fuel + 1 => do
        let (status, m) ← hashmapRehash calloc (hashmapPut calloc fuel) m
        if status = .omem then .ok (.omem, m) else hashmapPut calloc fuel m key value

/-- The table cannot be doubled more often than this before its size overflows. -/
def putFuel : Nat := 23

/-- `hashmap_get`, with the value written to `*arg`. -/
def hashmapGet (m : HashmapMap V) (key : Key) : MapStatus × Option V :=
  match (m.chain key).find? (holdsKey m.data key) with
  | some curr => (.ok, (m.data curr).map Prod.snd)
  | none => (.missing, none)

/-- `hashmap_remove` -/
def hashmapRemove (m : HashmapMap V) (key : Key) : MapStatus × HashmapMap V :=
  match (m.chain key).find? (holdsKey m.data key) with
  | some curr => (.ok, { m with data := Function.update m.data curr none, size := m.size - 1 })
  | none => (.missing, m)

/-- `hashmap_length` -/
def hashmapLength : Option (HashmapMap V) → Int
  | some m => m.size
  | none => 0

end

/-! ### The finite map it represents -/

section

variable {V : Type} {m m' : HashmapMap V} {f : Finmap fun _ : Key => V} {k : Key} {v : V} {i : Nat}

/-- The table holds each key of `f` with its value, once and on its chain, and `size` is the
number of keys. -/
structure Represents (m : HashmapMap V) (f : Finmap fun _ : Key => V) : Prop where
  big : initialSize ≤ m.tableSize
  small : m.tableSize < 2 ^ 31
  table : ProbeTable (hashmapHashInt m.tableSize) m.tableSize maxChainLength m.data
  size : m.size = f.keys.card
  lookup : ∀ k v, (k, v) ∈ entries m.tableSize m.data ↔ f.lookup k = some v

theorem Represents.hash_lt (h : Represents m f) (k : Key) :
    hashmapHashInt m.tableSize k < m.tableSize :=
  hashmapHashInt_lt (lt_of_lt_of_le (by decide) h.big) k

theorem Represents.notMem (h : Represents m f) (hk : k ∉ f) (v : V) :
    (k, v) ∉ entries m.tableSize m.data := by
  rw [h.lookup, lookup_eq_none.mpr hk]
  simp

theorem Represents.mem_of_data (h : Represents m f) (hi : i < m.tableSize)
    (hdata : m.data i = some (k, v)) : f.lookup k = some v :=
  (h.lookup k v).mp ⟨i, hi, hdata⟩

theorem Represents.fresh (hbig : initialSize ≤ tableSize)
    (hsmall : tableSize < 2 ^ 31) : Represents (.fresh V tableSize) ∅ where
  big := hbig
  small := hsmall
  table := ProbeTable.empty
  size := rfl
  lookup := by
    intro k v
    rw [HashmapMap.fresh, entries_empty, lookup_empty]
    simp

theorem Represents.free_of_hash (h : Represents m f) (hk : k ∉ f)
    (hhash : hashmapHash m k = some i) : i ∈ m.chain k ∧ m.data i = none := by
  unfold hashmapHash at hhash
  split at hhash
  · cases hhash
  have hmem : i ∈ m.chain k := mem_of_find?_eq_some hhash
  refine ⟨hmem, ?_⟩
  have hslot := find?_some hhash
  rcases Bool.or_eq_true_iff.mp hslot with hnone | hkey
  · exact Option.isNone_iff_eq_none.mp hnone
  obtain ⟨v, hv⟩ := holdsKey_iff.mp hkey
  exact absurd ⟨i, probe_lt (h.hash_lt k) hmem, hv⟩ (h.notMem hk v)

theorem card_keys_insert (hk : k ∉ f) (v : V) : (f.insert k v).keys.card = f.keys.card + 1 := by
  have hkeys : (f.insert k v).keys = insert k f.keys := by
    ext k'
    rw [Finmap.mem_keys, Finmap.mem_insert, Finset.mem_insert, Finmap.mem_keys]
  rw [hkeys, Finset.card_insert_of_notMem (fun hmem => hk (Finmap.mem_keys.mp hmem))]

theorem Represents.store (h : Represents m f) (hk : k ∉ f) (hi : i ∈ m.chain k)
    (hfree : m.data i = none) : Represents (m.store i k v) (f.insert k v) where
  big := h.big
  small := h.small
  table := h.table.insert hi (h.notMem hk)
  size := by
    rw [card_keys_insert hk, HashmapMap.store, h.size]
    rfl
  lookup := by
    intro k' w
    rw [HashmapMap.store, entries_insert (probe_lt (h.hash_lt k) hi) hfree, Set.mem_insert_iff,
      h.lookup]
    by_cases hkk : k' = k
    · subst hkk
      rw [lookup_insert, lookup_eq_none.mpr hk]
      simp [eq_comm]
    rw [lookup_insert_of_ne f hkk]
    simp [hkk]

/-! ### Looking up and removing -/

theorem Represents.get (h : Represents m f) (k : Key) :
    hashmapGet m k = match f.lookup k with
      | some v => (.ok, some v)
      | none => (.missing, none) := by
  unfold hashmapGet
  cases hfind : (m.chain k).find? (holdsKey m.data k) with
  | some i =>
    obtain ⟨hi, v, hv⟩ := mem_entries_of_find (h.hash_lt k) hfind
    rw [h.mem_of_data hi hv]
    simp [hv]
  | none =>
    have hnone : f.lookup k = none := by
      refine Option.eq_none_iff_forall_ne_some.mpr fun v hv => ?_
      exact h.table.notMem_of_find hfind v ((h.lookup k v).mpr hv)
    rw [hnone]

theorem Represents.remove (h : Represents m f) (k : Key) :
    (hashmapRemove m k).1 = (if k ∈ f then .ok else .missing) ∧
      Represents (hashmapRemove m k).2 (f.erase k) := by
  unfold hashmapRemove
  cases hfind : (m.chain k).find? (holdsKey m.data k) with
  | some i =>
    obtain ⟨hi, v, hv⟩ := mem_entries_of_find (h.hash_lt k) hfind
    have hmem : k ∈ f := mem_of_lookup_eq_some (h.mem_of_data hi hv)
    refine ⟨(if_pos hmem).symm, h.big, h.small, h.table.erase i, ?_, ?_⟩
    · have hkeys : k ∈ f.keys := mem_keys.mpr hmem
      have hpos := Finset.card_pos.mpr ⟨k, hkeys⟩
      rw [keys_erase, Finset.card_erase_of_mem hkeys]
      show m.size - 1 = _
      rw [h.size]
      omega
    intro k' w
    rw [mem_entries_erase h.table hi hv, h.lookup]
    by_cases hkk : k' = k
    · subst hkk
      simp [lookup_erase]
    rw [lookup_erase_ne hkk]
    simp [hkk]
  | none =>
    have hmem : k ∉ f := by
      intro hmem
      obtain ⟨v, hv⟩ := Option.isSome_iff_exists.mp (lookup_isSome.mpr hmem)
      exact h.table.notMem_of_find hfind v ((h.lookup k v).mpr hv)
    have herase : f.erase k = f := by
      refine ext_lookup fun k' => ?_
      by_cases hkk : k' = k
      · rw [hkk, lookup_erase, lookup_eq_none.mpr hmem]
      · rw [lookup_erase_ne hkk]
    rw [herase]
    exact ⟨(if_neg hmem).symm, h⟩

/-! ### Putting a new key -/

/-- What a put of a new key is to do when it returns. -/
def PutsNew (put : HashmapMap V → Key → V → Outcome (MapStatus × HashmapMap V)) : Prop :=
  ∀ m f k v status m', Represents m f → k ∉ f → put m k v = .ok (status, m') →
    status = .ok ∧ Represents m' (f.insert k v)

def KeysDiffer (a b : Option (Key × V)) : Prop :=
  ∀ e e', a = some e → b = some e' → e.1 ≠ e'.1

theorem Represents.keysDiffer (h : Represents m f) :
    ((List.range m.tableSize).map m.data).Pairwise KeysDiffer := by
  refine pairwise_map.mpr (List.Pairwise.imp_of_mem ?_ pairwise_lt_range)
  intro i j hi hj hlt e e' he he' hkey
  have hij := h.table.unique i j e e' (mem_range.mp hi) (mem_range.mp hj) he he' hkey
  omega

theorem some_mem_slots {k : Key} {v : V} :
    some (k, v) ∈ (List.range m.tableSize).map m.data ↔ (k, v) ∈ entries m.tableSize m.data := by
  simp only [mem_map, mem_range, mem_entries]

theorem lookup_insert_new (hk : k ∉ f) {k' : Key} {w : V} :
    (f.insert k v).lookup k' = some w ↔ f.lookup k' = some w ∨ (k', w) = (k, v) := by
  by_cases hkk : k' = k
  · subst hkk
    rw [lookup_insert, lookup_eq_none.mpr hk]
    simp [eq_comm]
  rw [lookup_insert_of_ne f hkk]
  simp [hkk]

theorem notMem_insert_of_differ {e : Key × V} {rest : List (Option (Key × V))}
    (hdiffer : ∀ b ∈ rest, KeysDiffer (some e) b) (hnew : ∀ e', some e' ∈ rest → e'.1 ∉ f) :
    ∀ e', some e' ∈ rest → e'.1 ∉ f.insert e.1 e.2 := by
  intro e' he' hmem
  rcases mem_insert.mp hmem with heq | hmem
  · exact hdiffer _ he' e e' rfl rfl heq.symm
  · exact hnew e' he' hmem

variable {put : HashmapMap V → Key → V → Outcome (MapStatus × HashmapMap V)} {status : MapStatus}

theorem rehashLoop_represents (hput : PutsNew put) {slots : List (Option (Key × V))}
    (h : Represents m f) (hdiffer : slots.Pairwise KeysDiffer)
    (hnew : ∀ e, some e ∈ slots → e.1 ∉ f) (hloop : rehashLoop put slots m = .ok (status, m')) :
    status = .ok ∧ ∃ g, Represents m' g ∧
      ∀ k v, g.lookup k = some v ↔ f.lookup k = some v ∨ some (k, v) ∈ slots := by
  induction slots generalizing m f with
  | nil =>
    cases hloop
    exact ⟨rfl, f, h, fun k v => by simp⟩
  | cons slot rest ih =>
    obtain ⟨hhead, hrest⟩ := pairwise_cons.mp hdiffer
    have hnewRest : ∀ e, some e ∈ rest → e.1 ∉ f := fun e he => hnew e (mem_cons_of_mem _ he)
    cases slot with
    | none =>
      obtain ⟨hstatus, g, hg, hlookup⟩ := ih h hrest hnewRest hloop
      refine ⟨hstatus, g, hg, fun k v => ?_⟩
      rw [hlookup]
      simp
    | some e =>
      have hk : e.1 ∉ f := hnew e (mem_cons_self ..)
      obtain ⟨⟨status₁, m₁⟩, hone, hloop⟩ := bind_ok.mp hloop
      obtain ⟨rfl, hm₁⟩ := hput m f e.1 e.2 status₁ m₁ h hk hone
      obtain ⟨hstatus, g, hg, hlookup⟩ :=
        ih hm₁ hrest (notMem_insert_of_differ hhead hnewRest) hloop
      refine ⟨hstatus, g, hg, fun k v => ?_⟩
      rw [hlookup, lookup_insert_new hk]
      simp [or_assoc]

variable {calloc : Nat → Bool} {fuel : Nat}

theorem hashmapRehash_represents (hcalloc : ∀ n, calloc n = true) (hput : PutsNew put)
    (h : Represents m f) (hrehash : hashmapRehash calloc put m = .ok (status, m')) :
    status = .ok ∧ Represents m' f := by
  unfold hashmapRehash at hrehash
  rw [hcalloc] at hrehash
  split at hrehash
  · cases hrehash
  rename_i hsmall
  have hfresh : Represents (HashmapMap.fresh V (2 * m.tableSize)) ∅ :=
    Represents.fresh (Nat.le_trans h.big (by omega)) (by omega)
  obtain ⟨hstatus, g, hg, hlookup⟩ := rehashLoop_represents hput hfresh h.keysDiffer
    (fun e _ => notMem_empty) hrehash
  have hgf : g = f := by
    refine ext_lookup fun k => Option.ext fun v => ?_
    rw [hlookup, some_mem_slots, h.lookup, lookup_empty]
    simp
  exact ⟨hstatus, hgf ▸ hg⟩

theorem hashmapPut_some (hhash : hashmapHash m k = some i) :
    hashmapPut calloc fuel m k v = .ok (.ok, m.store i k v) := by
  unfold hashmapPut
  rw [hhash]

theorem hashmapPut_full_zero (hhash : hashmapHash m k = none) :
    hashmapPut calloc 0 m k v = .error .divergence := by
  unfold hashmapPut
  rw [hhash]

theorem hashmapPut_full_succ (hhash : hashmapHash m k = none) :
    hashmapPut calloc (fuel + 1) m k v =
      (hashmapRehash calloc (hashmapPut calloc fuel) m >>= fun r =>
        if r.1 = .omem then .ok (.omem, r.2) else hashmapPut calloc fuel r.2 k v) := by
  conv => lhs; unfold hashmapPut
  rw [hhash]

theorem Represents.put_some (h : Represents m f) (hk : k ∉ f)
    (hhash : hashmapHash m k = some i) (hput : hashmapPut calloc fuel m k v = .ok (status, m')) :
    status = .ok ∧ Represents m' (f.insert k v) := by
  obtain ⟨hi, hfree⟩ := h.free_of_hash hk hhash
  rw [hashmapPut_some hhash] at hput
  cases hput
  exact ⟨rfl, h.store hk hi hfree⟩

/-- **A put of a new key that returns inserts it**, through any number of nested rehashes. -/
theorem hashmapPut_represents (hcalloc : ∀ n, calloc n = true) (fuel : Nat) :
    PutsNew (V := V) (hashmapPut calloc fuel) := by
  induction fuel with
  | zero =>
    intro m f k v status m' h hk hput
    cases hhash : hashmapHash m k with
    | some i => exact h.put_some hk hhash hput
    | none =>
      rw [hashmapPut_full_zero hhash] at hput
      cases hput
  | succ fuel ih =>
    intro m f k v status m' h hk hput
    cases hhash : hashmapHash m k with
    | some i => exact h.put_some hk hhash hput
    | none =>
      rw [hashmapPut_full_succ hhash] at hput
      obtain ⟨⟨status₁, m₁⟩, hrehash, hput⟩ := bind_ok.mp hput
      obtain ⟨rfl, hm₁⟩ := hashmapRehash_represents hcalloc ih h hrehash
      exact ih m₁ f k v status m' hm₁ hk hput

/-! ### When a put returns -/

/-- A table of this size has room for these keys, in whatever order they come. -/
def HasRoom (tableSize : Nat) (keys : Finset Key) : Prop :=
  tableSize ≤ 2 ^ 30 ∧ keys.card ≤ tableSize / 2 ∧
    Spread (hashmapHashInt tableSize) tableSize maxChainLength keys
  deriving Decidable

/-- What a put is to do in a table that `j` doublings make one with room for `keys`. -/
def PutReturns (put : HashmapMap V → Key → V → Outcome (MapStatus × HashmapMap V))
    (fuel tableSize : Nat) (keys : Finset Key) : Prop :=
  ∀ (m : HashmapMap V) f k v j, Represents m f → k ∉ f → f.keys ⊆ keys → k ∈ keys → j ≤ fuel →
    m.tableSize * 2 ^ j = tableSize →
    ∃ m' j', put m k v = .ok (.ok, m') ∧ j' ≤ j ∧ m'.tableSize * 2 ^ j' = tableSize

variable {keys : Finset Key}

theorem Represents.hash_isSome (h : Represents m f) (hk : k ∉ f) (hroom : HasRoom m.tableSize keys)
    (hkeys : f.keys ⊆ keys) (hmem : k ∈ keys) : ∃ i, hashmapHash m k = some i := by
  obtain ⟨-, hcard, hspread⟩ := hroom
  have hlt : f.keys.card < keys.card := Finset.card_lt_card (Finset.ssubset_iff_subset_ne.mpr
      ⟨hkeys, fun heq => hk (mem_keys.mp (heq ▸ hmem))⟩)
  obtain ⟨i, hi, hfree⟩ := h.table.exists_free (h.hash_lt k)
    (Nat.le_trans (by decide) h.big) hspread hmem (by
      intro e he
      have hin : e.1 ∈ f := mem_of_lookup_eq_some ((h.lookup e.1 e.2).mp he)
      exact ⟨hkeys (mem_keys.mpr hin), fun heq => hk (heq ▸ hin)⟩)
  have hsize : ¬ ((m.tableSize / 2 : Nat) : Int) ≤ m.size := by
    rw [h.size]
    omega
  unfold hashmapHash
  rw [if_neg hsize]
  refine Option.isSome_iff_exists.mp (find?_isSome.mpr ⟨i, hi, ?_⟩)
  rw [hfree]
  rfl

theorem rehashLoop_returns {j : Nat} (hput : PutsNew put)
    (hreturns : PutReturns put fuel tableSize keys) {slots : List (Option (Key × V))}
    (h : Represents m f) (hdiffer : slots.Pairwise KeysDiffer)
    (hnew : ∀ e, some e ∈ slots → e.1 ∉ f) (hkeys : f.keys ⊆ keys)
    (hslots : ∀ e, some e ∈ slots → e.1 ∈ keys) (hj : j ≤ fuel)
    (hsize : m.tableSize * 2 ^ j = tableSize) :
    ∃ m' j', rehashLoop put slots m = .ok (.ok, m') ∧ j' ≤ j ∧
      m'.tableSize * 2 ^ j' = tableSize := by
  induction slots generalizing m f j with
  | nil => exact ⟨m, j, rfl, le_refl j, hsize⟩
  | cons slot rest ih =>
    obtain ⟨hhead, hrest⟩ := pairwise_cons.mp hdiffer
    have hnewRest : ∀ e, some e ∈ rest → e.1 ∉ f := fun e he => hnew e (mem_cons_of_mem _ he)
    have hslotsRest : ∀ e, some e ∈ rest → e.1 ∈ keys := fun e he => hslots e (mem_cons_of_mem _ he)
    cases slot with
    | none => exact ih h hrest hnewRest hkeys hslotsRest hj hsize
    | some e =>
      have hk : e.1 ∉ f := hnew e (mem_cons_self ..)
      have hin : e.1 ∈ keys := hslots e (mem_cons_self ..)
      obtain ⟨m₁, j₁, hone, hj₁, hsize₁⟩ := hreturns m f e.1 e.2 j h hk hkeys hin hj hsize
      obtain ⟨-, hm₁⟩ := hput m f e.1 e.2 .ok m₁ h hk hone
      have hkeys₁ : (f.insert e.1 e.2).keys ⊆ keys := by
        intro k hmem
        rcases mem_insert.mp (mem_keys.mp hmem) with rfl | hmem
        · exact hin
        · exact hkeys (mem_keys.mpr hmem)
      obtain ⟨m', j', hloop, hj', hsize'⟩ := ih hm₁ hrest
        (notMem_insert_of_differ hhead hnewRest) hkeys₁ hslotsRest (Nat.le_trans hj₁ hj) hsize₁
      refine ⟨m', j', ?_, Nat.le_trans hj' hj₁, hsize'⟩
      rw [rehashLoop, hone]
      exact hloop

/-- **A put of a new key returns** if enough doublings of the table have room for all keys. -/
theorem hashmapPut_returns (hcalloc : ∀ n, calloc n = true) (fuel : Nat)
    (hroom : HasRoom tableSize keys) :
    PutReturns (V := V) (hashmapPut calloc fuel) fuel tableSize keys := by
  induction fuel with
  | zero =>
    intro m f k v j h hk hkeys hmem hj hsize
    obtain rfl : j = 0 := by omega
    obtain rfl : m.tableSize = tableSize := by simpa using hsize
    obtain ⟨i, hi⟩ := h.hash_isSome hk hroom hkeys hmem
    exact ⟨_, 0, hashmapPut_some hi, le_refl 0, hsize⟩
  | succ fuel ih =>
    intro m f k v j h hk hkeys hmem hj hsize
    cases hhash : hashmapHash m k with
    | some i => exact ⟨_, j, hashmapPut_some hhash, le_refl j, hsize⟩
    | none =>
      cases j with
      | zero =>
        obtain rfl : m.tableSize = tableSize := by simpa using hsize
        obtain ⟨i, hi⟩ := h.hash_isSome hk hroom hkeys hmem
        rw [hhash] at hi
        cases hi
      | succ j =>
        -- the table is doubled: one doubling less is to come
        have hsize₁ : 2 * m.tableSize * 2 ^ j = tableSize := by
          rw [← hsize, pow_succ]
          ring
        have hle : 2 * m.tableSize ≤ tableSize := by
          rw [← hsize₁]
          exact Nat.le_mul_of_pos_right _ (Nat.two_pow_pos j)
        have hsmall : ¬ 2 ^ 31 ≤ 2 * m.tableSize := by
          have := hroom.1
          omega
        have hput := hashmapPut_represents (V := V) hcalloc fuel
        have hin : ∀ e, some e ∈ (List.range m.tableSize).map m.data → e.1 ∈ keys := by
          intro e he
          have hlookup := (h.lookup e.1 e.2).mp (some_mem_slots.mp he)
          exact hkeys (mem_keys.mpr (mem_of_lookup_eq_some hlookup))
        obtain ⟨m₁, j₁, hloop, hj₁, hsize₂⟩ := rehashLoop_returns hput ih
          (Represents.fresh (V := V) (Nat.le_trans h.big (by omega)) (by omega))
          h.keysDiffer (fun e _ => notMem_empty) (by simp) hin (by omega) hsize₁
        have hrehash : hashmapRehash calloc (hashmapPut calloc fuel) m = .ok (.ok, m₁) := by
          rw [hashmapRehash, if_neg hsmall, hcalloc]
          exact hloop
        obtain ⟨-, hm₁⟩ := hashmapRehash_represents hcalloc hput h hrehash
        obtain ⟨m', j', hret, hj', hsize'⟩ := ih m₁ f k v j₁ hm₁ hk hkeys hmem (by omega) hsize₂
        refine ⟨m', j', ?_, by omega, hsize'⟩
        rw [hashmapPut_full_succ hhash, hrehash]
        exact hret

/-- As long as `fuel` doublings make the size of the table overflow, a put does not run out of fuel,
and the table does not shrink. -/
def PutGrows (put : HashmapMap V → Key → V → Outcome (MapStatus × HashmapMap V))
    (fuel : Nat) : Prop :=
  ∀ m k v, m.tableSize < 2 ^ 31 → 2 ^ 31 ≤ m.tableSize * 2 ^ fuel → put m k v ≠ .error .divergence ∧
      ∀ status m', put m k v = .ok (status, m') → m.tableSize ≤ m'.tableSize ∧ m'.tableSize < 2 ^ 31

theorem rehashLoop_grows (hput : PutGrows put fuel) (slots : List (Option (Key × V)))
    (hsmall : m.tableSize < 2 ^ 31) (hfuel : 2 ^ 31 ≤ m.tableSize * 2 ^ fuel) :
    rehashLoop put slots m ≠ .error .divergence ∧
      ∀ status m', rehashLoop put slots m = .ok (status, m') →
        m.tableSize ≤ m'.tableSize ∧ m'.tableSize < 2 ^ 31 := by
  induction slots generalizing m with
  | nil =>
    refine ⟨by simp [rehashLoop], fun status m' hloop => ?_⟩
    cases hloop
    exact ⟨le_refl _, hsmall⟩
  | cons slot rest ih =>
    cases slot with
    | none => exact ih hsmall hfuel
    | some e =>
      obtain ⟨hone, hgrows⟩ := hput m e.1 e.2 hsmall hfuel
      rw [rehashLoop]
      cases hcall : put m e.1 e.2 with
      | error fault =>
        rw [hcall] at hone
        exact ⟨fun heq => hone (by simpa using heq), fun status m' heq => by cases heq⟩
      | ok r =>
        obtain ⟨status₁, m₁⟩ := r
        obtain ⟨hle, hsmall₁⟩ := hgrows status₁ m₁ hcall
        obtain ⟨hrest, hrestGrows⟩ := ih hsmall₁ (Nat.le_trans hfuel (mul_le_mul_right _ hle))
        rw [ok_bind]
        dsimp only
        split
        · refine ⟨by simp, fun status m' heq => ?_⟩
          cases heq
          exact ⟨hle, hsmall₁⟩
        refine ⟨hrest, fun status m' heq => ?_⟩
        obtain ⟨hle', hsmall'⟩ := hrestGrows status m' heq
        exact ⟨Nat.le_trans hle hle', hsmall'⟩

theorem hashmapRehash_grows (calloc : Nat → Bool) (hput : PutGrows put fuel)
    (hfuel : 2 ^ 31 ≤ m.tableSize * 2 ^ (fuel + 1)) :
    hashmapRehash calloc put m ≠ .error .divergence ∧
      ∀ status m', hashmapRehash calloc put m = .ok (status, m') →
        m.tableSize ≤ m'.tableSize ∧ m'.tableSize < 2 ^ 31 ∧
          (status ≠ .omem → 2 * m.tableSize ≤ m'.tableSize) := by
  unfold hashmapRehash
  split
  · exact ⟨by simp, fun status m' heq => by cases heq⟩
  rename_i hsmall
  split
  · refine ⟨by simp, fun status m' heq => ?_⟩
    cases heq
    exact ⟨le_refl _, by omega, fun hne => absurd rfl hne⟩
  have hfuel' : 2 ^ 31 ≤ (HashmapMap.fresh V (2 * m.tableSize)).tableSize * 2 ^ fuel := by
    calc 2 ^ 31 ≤ m.tableSize * 2 ^ (fuel + 1) := hfuel
      _ = 2 * m.tableSize * 2 ^ fuel := by rw [pow_succ]; ring
  obtain ⟨hloop, hgrows⟩ := rehashLoop_grows hput ((List.range m.tableSize).map m.data)
    (Nat.lt_of_not_le hsmall) hfuel'
  refine ⟨hloop, fun status m' heq => ?_⟩
  obtain ⟨hle, hlt⟩ := hgrows status m' heq
  have hle : 2 * m.tableSize ≤ m'.tableSize := hle
  exact ⟨by omega, hlt, fun _ => hle⟩

/-- A put returns, or the size of the table overflows: the table cannot be doubled without
end. -/
theorem hashmapPut_grows (calloc : Nat → Bool) (fuel : Nat) :
    PutGrows (V := V) (hashmapPut calloc fuel) fuel := by
  induction fuel with
  | zero =>
    intro m k v hsmall hfuel
    omega
  | succ fuel ih =>
    intro m k v hsmall hfuel
    cases hhash : hashmapHash m k with
    | some i =>
      rw [hashmapPut_some hhash]
      refine ⟨by simp, fun status m' heq => ?_⟩
      cases heq
      exact ⟨le_refl _, hsmall⟩
    | none =>
      obtain ⟨hrehash, hgrows⟩ := hashmapRehash_grows calloc ih hfuel
      rw [hashmapPut_full_succ hhash]
      cases hcall : hashmapRehash calloc (hashmapPut calloc fuel) m with
      | error fault =>
        rw [hcall] at hrehash
        exact ⟨fun heq => hrehash (by simpa using heq), fun status m' heq => by cases heq⟩
      | ok r =>
        obtain ⟨hle, hlt, hdouble⟩ := hgrows r.1 r.2 hcall
        rw [ok_bind]
        split
        · refine ⟨by simp, fun status m' heq => ?_⟩
          cases heq
          exact ⟨hle, hlt⟩
        rename_i hne
        have hfuel' : 2 ^ 31 ≤ r.2.tableSize * 2 ^ fuel := by
          calc 2 ^ 31 ≤ m.tableSize * 2 ^ (fuel + 1) := hfuel
            _ = 2 * m.tableSize * 2 ^ fuel := by rw [pow_succ]; ring
            _ ≤ r.2.tableSize * 2 ^ fuel := mul_le_mul_right _ (hdouble hne)
        obtain ⟨hput, hputGrows⟩ := ih r.2 k v hlt hfuel'
        refine ⟨hput, fun status m' heq => ?_⟩
        obtain ⟨hle', hlt'⟩ := hputGrows status m' heq
        exact ⟨Nat.le_trans hle hle', hlt'⟩

end

/-! ### Runs -/

section

variable {V : Type}

inductive HashmapCall (V : Type)
  | put (key : Key) (value : V)
  | get (key : Key)
  | remove (key : Key)
  | length

inductive HashmapReply (V : Type)
  | status (status : MapStatus)
  | value (status : MapStatus) (arg : Option V)
  | length (n : Int)
  deriving DecidableEq

/-- The map, and beside it the finite map of the calls so far. -/
structure HashmapSys (V : Type) where
  map : HashmapMap V
  contents : Finmap fun _ : Key => V

/-- One call. The value of a key is the one of its latest put, until it is removed. -/
def hashmapStep (calloc : Nat → Bool) (s : HashmapSys V) :
    HashmapCall V → Outcome (HashmapReply V × HashmapSys V)
  | .put key value => do
      let (status, map) ← hashmapPut calloc putFuel s.map key value
      .ok (.status status, ⟨map, s.contents.insert key value⟩)
  | .get key => .ok (.value (hashmapGet s.map key).1 (hashmapGet s.map key).2, s)
  | .remove key =>
    .ok (.status (hashmapRemove s.map key).1, ⟨(hashmapRemove s.map key).2, s.contents.erase key⟩)
  | .length => .ok (.length (hashmapLength (some s.map)), s)

/-- What a call returns on a finite map. -/
def HashmapCall.expected (f : Finmap fun _ : Key => V) : HashmapCall V → HashmapReply V
  | .put _ _ => .status .ok
  | .get key =>
    match f.lookup key with
    | some v => .value .ok (some v)
    | none => .value .missing none
  | .remove key => .status (if key ∈ f then .ok else .missing)
  | .length => .length f.keys.card

def PutNew (s : HashmapSys V) : HashmapCall V → Prop
  | .put key _ => key ∉ s.contents
  | _ => True

instance (s : HashmapSys V) (call : HashmapCall V) : Decidable (PutNew s call) := by
  cases call <;> unfold PutNew <;> infer_instance

/-- For a key that is put there is room in the table, or after some doublings of it. -/
def Fits (s : HashmapSys V) : HashmapCall V → Prop
  | .put key _ => ∃ j, HasRoom (s.map.tableSize * 2 ^ j) (insert key s.contents.keys)
  | _ => True

variable {calloc : Nat → Bool} {s s' : HashmapSys V} {call : HashmapCall V} {r : HashmapReply V}

theorem hashmapStep_represents (hcalloc : ∀ n, calloc n = true)
    (h : Represents s.map s.contents) (hnew : PutNew s call)
    (hstep : hashmapStep calloc s call = .ok (r, s')) :
    r = call.expected s.contents ∧ Represents s'.map s'.contents := by
  cases call with
  | put key value =>
    obtain ⟨⟨status, map⟩, hput, hstep⟩ := bind_ok.mp hstep
    obtain ⟨rfl, hmap⟩ :=
      hashmapPut_represents hcalloc putFuel s.map s.contents key value status map h hnew hput
    cases hstep
    exact ⟨rfl, hmap⟩
  | get key =>
    cases hstep
    refine ⟨?_, h⟩
    rw [h.get key, HashmapCall.expected]
    cases s.contents.lookup key <;> rfl
  | remove key =>
    obtain ⟨hstatus, hmap⟩ := h.remove key
    cases hstep
    refine ⟨?_, hmap⟩
    rw [hstatus, HashmapCall.expected]
  | length =>
    cases hstep
    refine ⟨?_, h⟩
    rw [hashmapLength, h.size, HashmapCall.expected]

theorem hashmapStep_returns (hcalloc : ∀ n, calloc n = true) (h : Represents s.map s.contents)
    (hnew : PutNew s call) (hfits : Fits s call) :
    ∃ r s', hashmapStep calloc s call = .ok (r, s') := by
  cases call with
  | put key value =>
    obtain ⟨j, hroom⟩ := hfits
    have hj : j ≤ putFuel := by
      by_contra hlt
      have hpow : 2 ^ putFuel ≤ 2 ^ j := Nat.pow_le_pow_right (by decide) (by omega)
      have hmul : 256 * 2 ^ putFuel ≤ s.map.tableSize * 2 ^ j := Nat.mul_le_mul h.big hpow
      exact absurd (Nat.le_trans hmul hroom.1) (by decide)
    obtain ⟨m', -, hput, -⟩ := hashmapPut_returns hcalloc putFuel hroom s.map s.contents key
      value j h hnew (Finset.subset_insert ..) (Finset.mem_insert_self ..) hj rfl
    refine ⟨.status .ok, ⟨m', s.contents.insert key value⟩, ?_⟩
    rw [hashmapStep, hput]
    rfl
  | get key | remove key | length => exact ⟨_, _, rfl⟩

theorem hashmapStep_ne_divergence (h : Represents s.map s.contents) :
    hashmapStep calloc s call ≠ .error .divergence := by
  cases call with
  | put key value =>
    have hfuel : 2 ^ 31 ≤ s.map.tableSize * 2 ^ putFuel := mul_le_mul_right (2 ^ putFuel) h.big
    obtain ⟨hput, -⟩ := hashmapPut_grows calloc putFuel s.map key value h.small hfuel
    rw [hashmapStep]
    cases hcall : hashmapPut calloc putFuel s.map key value with
    | error fault =>
      rw [hcall] at hput
      exact fun heq => hput (by simpa using heq)
    | ok res => simp
  | get key | remove key | length => simp [hashmapStep]

/-- **The hash map is a finite map.** In every run in which no key is put that is in the map, every
call that returns gives what the finite map gives; it returns unless no doubling of the table has
room for its key; and the doublings come to an end. -/
theorem hashmap_refines_map {V : Type} {calloc : Nat → Bool} (hcalloc : ∀ n, calloc n = true)
    {m : HashmapMap V} {s : HashmapSys V} (hmap : hashmapNew V calloc = some m)
    (hreach : Reachable (hashmapStep calloc) PutNew ⟨m, ∅⟩ s) (call : HashmapCall V)
    (hnew : PutNew s call) :
    (∀ r s', hashmapStep calloc s call = .ok (r, s') → r = call.expected s.contents) ∧
      (Fits s call → ∃ s', hashmapStep calloc s call = .ok (call.expected s.contents, s')) ∧
      hashmapStep calloc s call ≠ .error .divergence := by
  have hinit : Represents m (∅ : Finmap fun _ : Key => V) := by
    unfold hashmapNew at hmap
    rw [if_pos (hcalloc _)] at hmap
    cases hmap
    exact Represents.fresh (le_refl _) (by decide)
  have hinv : Represents s.map s.contents :=
    hreach.invariant (I := fun s => Represents s.map s.contents) hinit
      (fun s e r s' h hok hstep => (hashmapStep_represents hcalloc h hok hstep).2)
  refine ⟨fun r s' hstep => (hashmapStep_represents hcalloc hinv hnew hstep).1, ?_,
    hashmapStep_ne_divergence hinv⟩
  intro hfits
  obtain ⟨r, s', hstep⟩ := hashmapStep_returns hcalloc hinv hnew hfits
  obtain ⟨rfl, -⟩ := hashmapStep_represents hcalloc hinv hnew hstep
  exact ⟨s', hstep⟩

/-- `c` and `k` have the same home: after `c` was removed there is a free slot before the one
of `k`, and `k` is still found. -/
theorem hashmap_refines_map_hole :
    ∃ s : HashmapSys Nat,
      Reachable (hashmapStep fun _ => true) PutNew ⟨.fresh Nat initialSize, ∅⟩ s ∧
        s.contents.lookup [107] = some 2 ∧
        (∃ s', hashmapStep (fun _ => true) s (.get [107]) = .ok (.value .ok (some 2), s')) ∧
        ∃ s', hashmapStep (fun _ => true) s (.put [99] 3) = .ok (.status .ok, s') := by
  obtain ⟨s, hreach, hlookup, hsize, hkeys⟩ : ∃ s, Reachable (hashmapStep fun _ => true) PutNew
      ⟨.fresh Nat initialSize, ∅⟩ s ∧ s.contents.lookup [107] = some 2 ∧
      s.map.tableSize = 256 ∧ s.contents.keys = {[107]} :=
    Reachable.exists_of_run [.put [99] 1, .put [107] 2, .remove [99]] (by decide +kernel)
  refine ⟨s, hreach, hlookup, ?_, ?_⟩
  · have hget := (hashmap_refines_map (fun _ => rfl) rfl hreach (.get [107]) trivial).2.1 trivial
    simpa only [HashmapCall.expected, hlookup] using hget
  have hnew : PutNew s (.put [99] 3) := by
    show [99] ∉ s.contents
    rw [← Finmap.mem_keys, hkeys]
    decide
  have hfits : Fits s (.put [99] 3) := by
    refine ⟨0, ?_⟩
    rw [hsize, hkeys]
    decide +kernel
  exact (hashmap_refines_map (fun _ => rfl) rfl hreach (.put [99] 3) hnew).2.1 hfits

/-- **A key that is put again breaks the map.** Two puts of one key make a length of 2; and with a
free slot before the key, the value of the first put comes back. -/
theorem hashmap_put_again :
    (∃ s : HashmapSys Nat,
      Reachable (hashmapStep fun _ => true) (fun _ _ => True) ⟨.fresh Nat initialSize, ∅⟩ s ∧
        s.contents.keys.card = 1 ∧
        hashmapStep (fun _ => true) s .length = .ok (.length 2, s)) ∧
      ∃ s : HashmapSys Nat,
        Reachable (hashmapStep fun _ => true) (fun _ _ => True) ⟨.fresh Nat initialSize, ∅⟩ s ∧
          s.contents.lookup [107] = none ∧
          hashmapStep (fun _ => true) s (.get [107]) = .ok (.value .ok (some 2), s) := by
  constructor
  · obtain ⟨s, hs, hcard, hlength⟩ : ∃ s, Reachable (hashmapStep fun _ => true) (fun _ _ => True)
        ⟨.fresh Nat initialSize, ∅⟩ s ∧ s.contents.keys.card = 1 ∧
        hashmapLength (some s.map) = 2 :=
      Reachable.exists_of_run [.put [99] 1, .put [99] 2] (by decide +kernel)
    exact ⟨s, hs, hcard, by rw [hashmapStep, hlength]⟩
  obtain ⟨s, hs, hlookup, hget⟩ : ∃ s, Reachable (hashmapStep fun _ => true) (fun _ _ => True)
      ⟨.fresh Nat initialSize, ∅⟩ s ∧ s.contents.lookup [107] = none ∧
      hashmapGet s.map [107] = (.ok, some 2) :=
    Reachable.exists_of_run [.put [99] 1, .put [107] 2, .remove [99], .put [107] 3, .remove [107]]
      (by decide +kernel)
  exact ⟨s, hs, hlookup, by rw [hashmapStep, hget]⟩

end

end Unikraft.Server
