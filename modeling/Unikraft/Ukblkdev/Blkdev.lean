import Mathlib.Data.List.Nodup
import Unikraft.Basic
import Unikraft.Lib.Run

/-!
# The ids of block devices (`lib/ukblkdev/blkdev.c`)

The id of a device is the number of devices that are registered before it; a device that is
unregistered lowers this number, also when others with larger ids are still there.
-/

namespace Unikraft.Ukblkdev

open Lib Function List

variable {D : Type} [DecidableEq D]

/-- `blkdev_count`, `uk_blkdev_list` and the `id` behind the `_data` pointers, which stay where they
are when the data is freed. -/
structure Blkdevs (D : Type) where
  blkdevCount : Nat
  ukBlkdevList : List D
  dataId : D → Option Nat

def ukBlkdevDrvRegister (s : Blkdevs D) (dev : D) (alloc : Bool) : Outcome (Int × Blkdevs D) := do
  ukAssert (s.dataId dev = none)
  if alloc then
    .ok (s.blkdevCount, {
      blkdevCount := (s.blkdevCount + 1) % 2 ^ 16
      ukBlkdevList := s.ukBlkdevList ++ [dev]
      dataId := update s.dataId dev (some s.blkdevCount) })
  else .ok (-Errno.enomem.code, s)

/-- The data of a device that is not registered any more has been freed. -/
def ukBlkdevDrvUnregister (s : Blkdevs D) (dev : D) : Outcome (Int × Blkdevs D) := do
  ukAssert (s.dataId dev ≠ none)
  if dev ∈ s.ukBlkdevList then
    .ok (0, { s with
      ukBlkdevList := s.ukBlkdevList.erase dev
      blkdevCount := (s.blkdevCount + (2 ^ 16 - 1)) % 2 ^ 16 })
  else .error .useAfterFree

def ukBlkdevGet (s : Blkdevs D) (id : Nat) : Option D :=
  s.ukBlkdevList.find? fun blkdev => s.dataId blkdev = some id

inductive BlkdevCall (D : Type)
  | register (dev : D) (alloc : Bool)
  | unregister (dev : D)

def blkdevStep (s : Blkdevs D) : BlkdevCall D → Outcome (Int × Blkdevs D)
  | .register dev alloc => ukBlkdevDrvRegister s dev alloc
  | .unregister dev => ukBlkdevDrvUnregister s dev

/-- There are fewer than `2 ^ 16` devices, and the one registered last is unregistered first. -/
def LastFirst (s : Blkdevs D) : BlkdevCall D → Prop
  | .register _ _ => s.ukBlkdevList.length + 1 < 2 ^ 16
  | .unregister dev => s.ukBlkdevList.getLast? = some dev

instance (s : Blkdevs D) (call : BlkdevCall D) : Decidable (LastFirst s call) := by
  cases call <;> dsimp only [LastFirst] <;> infer_instance

def noBlkdevs : Blkdevs D := ⟨0, [], fun _ => none⟩

/-- The ids are the places in the list. -/
structure BlkdevsOk (s : Blkdevs D) : Prop where
  ids : s.ukBlkdevList.map s.dataId = (range s.blkdevCount).map some
  small : s.blkdevCount < 2 ^ 16

variable {s s' : Blkdevs D}

omit [DecidableEq D] in
theorem BlkdevsOk.nodup (h : BlkdevsOk s) : (s.ukBlkdevList.map s.dataId).Nodup := by
  rw [h.ids]
  exact nodup_range.map (Option.some_injective _)

omit [DecidableEq D] in
theorem BlkdevsOk.length (h : BlkdevsOk s) : s.ukBlkdevList.length = s.blkdevCount := by
  simpa using congrArg List.length h.ids

theorem BlkdevsOk.step (h : BlkdevsOk s) {call : BlkdevCall D} (hcall : LastFirst s call) {r : Int}
    (hs : blkdevStep s call = .ok (r, s')) : BlkdevsOk s' := by
  cases call with
  | register dev alloc =>
    obtain ⟨_, hnone, hs⟩ := Outcome.bind_ok.mp hs
    rw [LastFirst, h.length] at hcall
    cases alloc with
    | false =>
      cases hs
      exact h
    | true =>
      cases hs
      -- the ids of the others are not changed
      have hold : s.ukBlkdevList.map (update s.dataId dev (some s.blkdevCount)) =
          s.ukBlkdevList.map s.dataId := by
        refine map_congr_left fun d hd => update_of_ne ?_ _ _
        rintro rfl
        have hmem := mem_map_of_mem (f := s.dataId) hd
        rw [of_ukAssert hnone, h.ids] at hmem
        simp at hmem
      constructor <;> simp only [Nat.mod_eq_of_lt hcall]
      · rw [map_append, hold, h.ids, range_succ, map_append]
        simp
      · exact hcall
  | unregister dev =>
    obtain ⟨front, hlist⟩ := getLast?_eq_some_iff.mp hcall
    obtain ⟨_, -, hs⟩ := Outcome.bind_ok.mp hs
    rw [if_pos (by simp [hlist])] at hs
    cases hs
    have hnot : dev ∉ front := by
      have hnodup := h.nodup.of_map
      rw [hlist] at hnodup
      exact fun hmem => (nodup_append.mp hnodup).2.2 dev hmem dev mem_cons_self rfl
    have hids := h.ids
    have hsmall := h.small
    have hcount : s.blkdevCount = front.length + 1 := by rw [← h.length, hlist, length_append]; rfl
    have hmod : (front.length + 1 + (2 ^ 16 - 1)) % 2 ^ 16 = front.length := by omega
    rw [hlist, hcount, range_succ, map_append, map_append] at hids
    constructor <;> simp only [hcount, hmod]
    · rw [hlist, erase_append_right _ hnot, erase_cons_head, append_nil]
      exact append_inj_left hids (by simp)
    · omega

/-- The id behind a `_data` pointer stays, since a device is not registered a second time. -/
theorem blkdevStep_dataId {call : BlkdevCall D} {r : Int} {dev : D} {id : Nat}
    (hs : blkdevStep s call = .ok (r, s')) (hid : s.dataId dev = some id) :
    s'.dataId dev = some id := by
  cases call with
  | register d alloc =>
    obtain ⟨_, hnone, hs⟩ := Outcome.bind_ok.mp hs
    cases alloc with
    | false =>
      cases hs
      exact hid
    | true =>
      cases hs
      have hne : dev ≠ d := by
        rintro rfl
        simp [of_ukAssert hnone] at hid
      exact (update_of_ne hne _ _).trans hid
  | unregister d =>
    obtain ⟨_, -, hs⟩ := Outcome.bind_ok.mp hs
    split_ifs at hs
    cases hs
    exact hid

omit [DecidableEq D] in
theorem BlkdevsOk.get (h : BlkdevsOk s) {dev : D} (hdev : dev ∈ s.ukBlkdevList) {id : Nat}
    (hid : s.dataId dev = some id) : ukBlkdevGet s id = some dev := by
  cases hfind : ukBlkdevGet s id with
  | none => exact absurd hid (by simpa using find?_eq_none.mp hfind dev hdev)
  | some d =>
    have hd : s.dataId d = some id := by simpa using find?_some hfind
    rw [inj_on_of_nodup_map h.nodup (mem_of_find?_eq_some hfind) hdev (hd.trans hid.symm)]

/-- **Ids identify devices**: the registered devices have different ids, and an id that none of them
has finds none. What a registration returns is the id of the device from then on, and finds the
device as long as it is registered. -/
theorem uk_blkdev_ids (hs : Reachable blkdevStep LastFirst noBlkdevs s) :
    (s.ukBlkdevList.map s.dataId).Nodup ∧
      (∀ id, (∀ dev ∈ s.ukBlkdevList, s.dataId dev ≠ some id) → ukBlkdevGet s id = none) ∧
      ∀ dev r s₁, LastFirst s (.register dev true) →
        ukBlkdevDrvRegister s dev true = .ok (r, s₁) → dev ∈ s₁.ukBlkdevList ∧
        ∀ s₂, Reachable blkdevStep LastFirst s₁ s₂ → ∃ id : Nat, r = id ∧
          s₂.dataId dev = some id ∧ (dev ∈ s₂.ukBlkdevList → ukBlkdevGet s₂ id = some dev) := by
  have h : BlkdevsOk s := hs.invariant ⟨rfl, Nat.two_pow_pos 16⟩ fun _ _ _ _ h hok => h.step hok
  refine ⟨h.nodup, fun id hid => ?_, fun dev r s₁ hok heq => ?_⟩
  · exact find?_eq_none.mpr fun dev hdev => by simpa using hid dev hdev
  have hok₁ : BlkdevsOk s₁ := h.step hok heq
  obtain ⟨_, -, heq⟩ := Outcome.bind_ok.mp heq
  cases heq
  refine ⟨mem_append_right _ mem_cons_self, fun s₂ hs₂ => ⟨s.blkdevCount, rfl, ?_⟩⟩
  have hlater : BlkdevsOk s₂ ∧ s₂.dataId dev = some s.blkdevCount := by
    refine hs₂.invariant (I := fun t => BlkdevsOk t ∧ t.dataId dev = some s.blkdevCount)
      ⟨hok₁, update_self ..⟩ ?_
    rintro t e r t' ⟨ht, hid⟩ hok hstep
    exact ⟨ht.step hok hstep, blkdevStep_dataId hstep hid⟩
  exact ⟨hlater.2, fun hdev => hlater.1.get hdev hlater.2⟩

/-- The second of two devices is unregistered, and device 2 gets its id and is found with it. -/
theorem uk_blkdev_ids_three : ∃ s s₁ : Blkdevs Nat,
    Reachable blkdevStep LastFirst noBlkdevs s ∧ s.ukBlkdevList = [0] ∧
      ukBlkdevDrvRegister s 2 true = .ok (1, s₁) ∧ ukBlkdevGet s₁ 1 = some 2 := by
  obtain ⟨s, hs, hlist, s₁, hreg⟩ : ∃ s : Blkdevs Nat, Reachable blkdevStep LastFirst noBlkdevs s ∧
      s.ukBlkdevList = [0] ∧ ∃ s₁, ukBlkdevDrvRegister s 2 true = .ok (1, s₁) := by
    refine Reachable.exists_of_run [.register 0 true, .register 1 true, .unregister 1]
      ⟨_, rfl, rfl, _, rfl⟩
  obtain ⟨hmem, hlater⟩ := (uk_blkdev_ids hs).2.2 2 1 s₁ (by simp [LastFirst, hlist]) hreg
  obtain ⟨id, hid, -, hget⟩ := hlater s₁ .refl
  obtain rfl : id = 1 := by omega
  exact ⟨s, s₁, hs, hlist, hreg, hget hmem⟩

/-- The first of two devices is unregistered: a third one has the id of the second, and the id
finds the second. -/
theorem uk_blkdev_ids_repeat :
    (runEvents blkdevStep (fun _ _ => True) (noBlkdevs : Blkdevs Nat) [.register 0 true,
      .register 1 true, .unregister 0, .register 2 true]).map
        (fun s => (s.ukBlkdevList, s.dataId 1, s.dataId 2, ukBlkdevGet s 1)) =
      some ([1, 2], some 1, some 1, some 1) := by
  decide

end Unikraft.Ukblkdev
