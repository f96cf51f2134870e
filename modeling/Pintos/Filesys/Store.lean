import Pintos.Basis.Holding
import Pintos.Filesys.Filesys

/-!
# Sectors and their holders

The file system as its callers know it: a `Store` says which sectors are used, which
files there are, by the sectors of their inodes, and which slots of the root directory
name them. A file holds the sector of its inode and the sectors of its data; `reserved`
are sectors that were allocated and do not belong to a file yet, or not any more.

The store is `Ok` when no sector is held twice and what is held is used. Sectors can be
allocated and freed, they can become a file and stop being one, and slots can be set and
cleared, and the store stays `Ok`. What the functions of the file system do to their state
is one of these, or a sequence of them (`Pintos.Filesys.Represents`).
-/

namespace Pintos.Filesys

open Function

/-- The sectors that are allocated for the data. -/
def InodeDisk.extent (data : InodeDisk) : Set ℕ := Set.Ico data.start (data.start + bytesToSectors data.length)

/-- The sectors of a file, with its inode in sector `x`. -/
def region (x : ℕ) (data : InodeDisk) : Set ℕ := insert x data.extent

/-- Which sectors are used, and what for. -/
@[ext] structure Store where
  /-- The sectors that are not free. -/
  used : Set ℕ
  /-- The sectors that were allocated and belong to no file. -/
  reserved : Set ℕ
  /-- The files, by the sectors of their inodes. -/
  files : ℕ → Option InodeDisk
  /-- The slots of the root directory that are in use: the names, and the sectors of the inodes. -/
  slots : ℕ → Option (List UInt8 × ℕ)

namespace Store

/-- Who has which sectors: the file with its inode in sector `x`, or nobody. -/
def held (A : Store) : Option ℕ → Set ℕ
  | none => A.reserved
  | some x => (A.files x).elim ∅ (region x)

/-- **No sector is held twice.** -/
structure Ok (A : Store) : Prop where
  /-- The sectors are held once, and used. -/
  sound : Sound A.used A.held
  /-- An inode is not among its data. -/
  own : ∀ x data, A.files x = some data → x ∉ data.extent
  /-- A slot names a file, and neither the free map nor the directory. -/
  named : ∀ k name x, A.slots k = some (name, x) → x ≠ 0 ∧ x ≠ 1 ∧ A.files x ≠ none
  /-- A file is named once. -/
  once : ∀ k l name name' x, A.slots k = some (name, x) → A.slots l = some (name', x) → k = l

/-- Sectors are allocated. -/
def take (A : Store) (r : Set ℕ) : Store := { A with used := A.used ∪ r, reserved := A.reserved ∪ r }

/-- Reserved sectors are freed. -/
def free (A : Store) (r : Set ℕ) : Store := { A with used := A.used \ r, reserved := A.reserved \ r }

/-- Reserved sectors become a file. -/
def create (A : Store) (x : ℕ) (data : InodeDisk) : Store :=
  { A with reserved := A.reserved \ region x data, files := update A.files x (some data) }

/-- The sectors of a file become reserved sectors. -/
def remove (A : Store) (x : ℕ) (data : InodeDisk) : Store :=
  { A with reserved := A.reserved ∪ region x data, files := update A.files x none }

/-- A slot is set or cleared. -/
def setSlot (A : Store) (k : ℕ) (v : Option (List UInt8 × ℕ)) : Store :=
  { A with slots := update A.slots k v }

/-- No slot names the file. -/
def Unnamed (A : Store) (x : ℕ) : Prop := ∀ k name, A.slots k ≠ some (name, x)

/-- No slot has the name. -/
def Absent (A : Store) (name : List UInt8) : Prop := ∀ l y, A.slots l ≠ some (name, y)

/-- Slot `l` is the first with the name, and has inode `x`. -/
def First (A : Store) (name : List UInt8) (l x : ℕ) : Prop :=
  A.slots l = some (name, x) ∧ ∀ i < l, ∀ y, A.slots i ≠ some (name, y)

variable {A : Store} {x : ℕ} {data : InodeDisk} {r : Set ℕ}

theorem held_some (h : A.files x = some data) : A.held (some x) = region x data := by
  simp [held, h]

section

variable (h : A.Ok)
include h

theorem Ok.region_subset (hx : A.files x = some data) : region x data ⊆ A.used := by
  have := h.sound.used (some x)
  rwa [held_some hx] at this

section

variable {y : ℕ} {data' : InodeDisk} (hx : A.files x = some data) (hy : A.files y = some data')
include hx hy

theorem Ok.disjoint (hne : x ≠ y) : Disjoint (region x data) (region y data') := by
  have := h.sound.disjoint (some x) (some y) fun he => hne (Option.some.inj he)
  rwa [held_some hx, held_some hy] at this

theorem Ok.notMem_extent : x ∉ data'.extent := by
  obtain rfl | hxy := eq_or_ne x y
  · exact h.own x data' hy
  · intro hmem
    exact Set.disjoint_left.mp (h.disjoint hx hy hxy) (Set.mem_insert x _) (Set.mem_insert_of_mem y hmem)

end

theorem Ok.disjoint_reserved (hx : A.files x = some data) : Disjoint (region x data) A.reserved := by
  have := h.sound.disjoint (some x) none nofun
  rwa [held_some hx] at this

theorem Ok.files_eq_none (hx : x ∈ A.reserved) : A.files x = none := by
  cases hfile : A.files x with
  | none => rfl
  | some data => exact absurd hx (Set.disjoint_left.mp (h.disjoint_reserved hfile) (Set.mem_insert x _))

theorem Ok.take (hfree : Disjoint r A.used) : (A.take r).Ok := by
  refine ⟨?_, h.own, h.named, h.once⟩
  have hheld : (A.take r).held = update A.held none (A.held none ∪ r) := by
    funext k
    cases k <;> simp [held, Store.take]
  rw [hheld]
  exact h.sound.take none hfree

theorem Ok.free (hr : r ⊆ A.reserved) : (A.free r).Ok := by
  refine ⟨?_, h.own, h.named, h.once⟩
  have hheld : (A.free r).held = update A.held none (A.held none \ r) := by
    funext k
    cases k <;> simp [held, Store.free]
  rw [hheld]
  exact h.sound.free none hr

theorem Ok.create (hr : region x data ⊆ A.reserved) (hown : x ∉ data.extent) : (A.create x data).Ok := by
  have hnone := h.files_eq_none (hr (Set.mem_insert x _))
  refine ⟨?_, fun y d hy => ?_, fun k name y hk => ?_, h.once⟩
  · have hheld : (A.create x data).held = update (update A.held none (A.held none \ region x data))
        (some x) (A.held (some x) ∪ region x data) := by
      funext k
      cases k with
      | none => simp [held, Store.create]
      | some y =>
        obtain rfl | hy := eq_or_ne y x
        · simp [held, Store.create, hnone]
        · simp [held, Store.create, hy]
    rw [hheld]
    exact h.sound.give nofun hr
  · obtain ⟨rfl, ⟨⟩⟩ | ⟨-, hy⟩ := update_cases hy
    exacts [hown, h.own y d hy]
  · obtain ⟨h0, h1, hfile⟩ := h.named k name y hk
    refine ⟨h0, h1, ?_⟩
    have hyx : y ≠ x := fun he => hfile (he ▸ hnone)
    simpa [Store.create, hyx] using hfile

theorem Ok.remove (hx : A.files x = some data) (hname : A.Unnamed x) :
    (A.remove x data).Ok := by
  refine ⟨?_, fun y d hy => ?_, fun k name y hk => ?_, h.once⟩
  · have hheld : (A.remove x data).held = update (update A.held (some x)
        (A.held (some x) \ region x data)) none (A.held none ∪ region x data) := by
      funext k
      cases k with
      | none => simp [held, Store.remove]
      | some y =>
        obtain rfl | hy := eq_or_ne y x
        · simp [held, Store.remove, hx]
        · simp [held, Store.remove, hy]
    rw [hheld]
    refine h.sound.give nofun ?_
    rw [held_some hx]
  · obtain ⟨-, ⟨⟩⟩ | ⟨-, hy⟩ := update_cases hy
    exact h.own y d hy
  · obtain ⟨h0, h1, hfile⟩ := h.named k name y hk
    have hyx : y ≠ x := fun he => hname k name (he ▸ hk)
    exact ⟨h0, h1, by simpa [Store.remove, hyx] using hfile⟩

theorem Ok.link (k : ℕ) (name : List UInt8) (h0 : x ≠ 0) (h1 : x ≠ 1) (hx : A.files x ≠ none)
    (hname : A.Unnamed x) : (A.setSlot k (some (name, x))).Ok := by
  refine ⟨h.sound, h.own, fun l name' y hl => ?_, fun l m name₁ name₂ y hl hm => ?_⟩
  · obtain ⟨-, ⟨⟩⟩ | ⟨-, hl⟩ := update_cases hl
    exacts [⟨h0, h1, hx⟩, h.named l name' y hl]
  · obtain ⟨hlk, ⟨⟩⟩ | ⟨-, hl⟩ := update_cases hl <;> obtain ⟨hmk, ⟨⟩⟩ | ⟨-, hm⟩ := update_cases hm
    · rw [hlk, hmk]
    · exact absurd hm (hname m name₂)
    · exact absurd hl (hname l name₁)
    · exact h.once l m name₁ name₂ y hl hm

end

theorem slots_unlink {k l : ℕ} {v : List UInt8 × ℕ} (hl : (A.setSlot k none).slots l = some v) :
    l ≠ k ∧ A.slots l = some v :=
  (update_cases hl).resolve_left (by simp)

theorem Ok.unlink (h : A.Ok) (k : ℕ) : (A.setSlot k none).Ok :=
  ⟨h.sound, h.own, fun l name y hl => h.named l name y (slots_unlink hl).2,
    fun l m name name' y hl hm => h.once l m name name' y (slots_unlink hl).2 (slots_unlink hm).2⟩

theorem Ok.unnamed_of_unlink (h : A.Ok) {k : ℕ} {name : List UInt8} (hk : A.slots k = some (name, x)) :
    (A.setSlot k none).Unnamed x := by
  intro l name' hl
  obtain ⟨hlk, hl⟩ := slots_unlink hl
  exact hlk (h.once l k name' name x hl hk)

theorem Ok.free_take (h : A.Ok) (hr : Disjoint r A.used) : (A.take r).free r = A := by
  have hres : Disjoint r A.reserved := hr.mono_right (h.sound.used none)
  refine Store.ext ?_ ?_ rfl rfl
  · show (A.used ∪ r) \ r = A.used
    rw [Set.union_sdiff_right, hr.symm.sdiff_eq_left]
  · show (A.reserved ∪ r) \ r = A.reserved
    rw [Set.union_sdiff_right, hres.symm.sdiff_eq_left]

theorem Ok.free_remove_create (h : A.Ok) (hr : Disjoint r A.used) (hx : x ∈ r)
    (hd : Disjoint data.extent (A.used ∪ r)) :
    ((((A.take r).take data.extent).create x data).remove x data).free r = A.take data.extent := by
  have hnone : A.files x = none := by
    cases hfile : A.files x with
    | none => rfl
    | some d => exact absurd (h.region_subset hfile (Set.mem_insert x _)) (Set.disjoint_left.mp hr hx)
  have hdr := (Set.disjoint_union_right.mp hd).2
  have hfree : ∀ u : Set ℕ, Disjoint r u → (u ∪ r ∪ data.extent) \ r = u ∪ data.extent := by
    intro u hu
    rw [Set.union_right_comm, Set.union_sdiff_right]
    exact (Set.disjoint_union_left.mpr ⟨hu.symm, hdr⟩).sdiff_eq_left
  refine Store.ext (hfree A.used hr) ?_ ?_ rfl
  · show ((A.reserved ∪ r ∪ data.extent) \ region x data ∪ region x data) \ r = A.reserved ∪ data.extent
    have hregion : region x data ⊆ A.reserved ∪ r ∪ data.extent :=
      Set.insert_subset (.inl (.inr hx)) Set.subset_union_right
    rw [Set.sdiff_union_self, Set.union_eq_left.mpr hregion, hfree A.reserved (hr.mono_right (h.sound.used none))]
  · show update (update A.files x (some data)) x none = A.files
    rw [update_idem, ← hnone, update_eq_self]

end Store

end Pintos.Filesys
