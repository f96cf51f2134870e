import Pintos.Filesys.InodeFlat
import Pintos.Filesys.Store

/-!
# The state of the file system as a store

`Rep s A refs` says that the state `s` of the file system is the store `A`: the free map
has the used sectors, the inodes of the files are on the disk, the directory has the
slots, and the open inodes are copies of inodes on the disk. `refs` are the references to
open inodes that somebody has, each with the sector it was opened for.

Each section has one way in which the state changes, and says what it is in the store:
a write to the disk that leaves inodes and slots alone (`Rep.write`), sectors that are
marked or unmarked (`Rep.take`, `Rep.free`), a file that comes and goes (`Rep.create`,
`Rep.remove`), a slot that is written (`Rep.setSlot`), and what happens to the table of
open inodes.
-/

namespace Pintos.Filesys

open Function InodeTable Lib Memory

/-! ### What was handed out -/

/-- The sectors that are handed out, after what the log says; `free_map_init` takes two. -/
def handedOut : List Event → Set ℕ
  | [] => {FREE_MAP_SECTOR, ROOT_DIR_SECTOR}
  | .allocate sector cnt :: log => handedOut log ∪ Set.Ico sector (sector + cnt)
  | .release sector cnt :: log => handedOut log \ Set.Ico sector (sector + cnt)

/-- **No sector is handed out twice**: what is handed out was not, and what is taken back was. -/
def HandedOutOnce : List Event → Prop
  | [] => True
  | .allocate sector cnt :: log => Disjoint (Set.Ico sector (sector + cnt)) (handedOut log) ∧ HandedOutOnce log
  | .release sector cnt :: log => Set.Ico sector (sector + cnt) ⊆ handedOut log ∧ HandedOutOnce log

/-! ### The relation -/

/-- The inode of a file is in sector `x`, and its data are on the disk. -/
structure OnDisk (d : Disk) (x : ℕ) (data : InodeDisk) : Prop where
  /-- The sector can be accessed. -/
  accessible : d.Accessible x
  /-- The inode is there. -/
  decode : decodeInode d.bytes (512 * x) = data
  /-- The sectors of the data can be accessed. -/
  holds : d.Holds data
  /-- All that was allocated for them is on the disk. -/
  inside : data.start + bytesToSectors data.length ≤ d.capacity
  /-- The length is an `off_t`. -/
  small : data.length < 2 ^ 31

def fileBytes (d : Disk) (data : InodeDisk) : Bytes := fun j => d.bytes (512 * data.start + j)

/-- The table of open inodes, with the references to them. -/
def Fs.table (s : Fs) (refs : List (ℕ × ℕ)) : Table ℕ :=
  { heap := s.inodes, next := s.next, openInodes := s.openInodes, found := fun _ => none, refs := refs }

/-- **The state is the store.** -/
structure Rep (s : Fs) (A : Store) (refs : List (ℕ × ℕ)) : Prop where
  /-- No sector is held twice. -/
  ok : A.Ok
  /-- The list and the counts of the open inodes. -/
  table : TableOk (s.table refs)
  /-- There is a bit for each sector. -/
  size : s.freeMap.bitCnt = s.disk.capacity
  /-- The bits of the used sectors are set. -/
  used : ∀ i, i ∈ A.used ↔ i < s.freeMap.bitCnt ∧ s.freeMap.bit i = true
  /-- They are the sectors that were handed out. -/
  handed : handedOut s.log = A.used
  /-- No sector was handed out twice. -/
  once : HandedOutOnce s.log
  files : ∀ x data, A.files x = some data → OnDisk s.disk x data
  /-- The free map fits its file. -/
  freeMap : ∀ data, A.files 0 = some data → data.length = byteCnt s.freeMap.bitCnt
  dir : ∀ data, A.files 1 = some data → data.length = 320 ∧ ∀ k < 16, slot (fileBytes s.disk data) k = A.slots k
  /-- No other slots are in use, and the names are short. -/
  slots : ∀ k name x, A.slots k = some (name, x) → k < 16 ∧ name.length ≤ NAME_MAX
  /-- An open inode is a copy of the inode of a file, and nobody denies writes. -/
  inodes : ∀ a i, s.inodes a = .live i → A.files i.sector = some i.data ∧ i.denyWriteCnt = 0
  /-- A removed file has no name. -/
  removed : ∀ a i, s.inodes a = .live i → i.removed = true →
    i.sector ≠ 0 ∧ i.sector ≠ 1 ∧ A.Unnamed i.sector
  /-- A reference is to the inode it was opened for. -/
  refs : ∀ x a i, (x, a) ∈ refs → s.inodes a = .live i → i.sector = x

section

variable {s : Fs} {A : Store} {refs : List (ℕ × ℕ)} {x a : ℕ} {data : InodeDisk}

section

variable (h : Rep s A refs)
include h

theorem Rep.reframe (mem : ℕ → Option Bytes) (file : Option File) :
    Rep { s with mem := mem, freeMapFile := file } A refs :=
  ⟨h.ok, h.table, h.size, h.used, h.handed, h.once, h.files, h.freeMap, h.dir, h.slots, h.inodes, h.removed, h.refs⟩

theorem Rep.inode_of_ref (href : (x, a) ∈ refs) :
    ∃ i, s.inodes a = .live i ∧ i.sector = x ∧ A.files x = some i.data ∧ i.denyWriteCnt = 0 := by
  obtain ⟨i, hi⟩ := h.table.refs (x, a) href
  have hx := h.refs x a i href hi
  obtain ⟨hfile, hdeny⟩ := h.inodes a i hi
  exact ⟨i, hi, hx, hx ▸ hfile, hdeny⟩

theorem Rep.lt_capacity {i : ℕ} (hi : i ∈ A.used) : i < s.disk.capacity := by
  rw [← h.size]
  exact ((h.used i).mp hi).1

theorem Rep.group {i cnt : ℕ} (hle : i + cnt ≤ s.disk.capacity)
    (hfree : ∀ k, i ≤ k → k < i + cnt → k ∉ A.used) : s.freeMap.Group cnt false i := by
  have hle' : i + cnt ≤ s.freeMap.bitCnt := h.size.symm ▸ hle
  refine ⟨hle', fun k hk hk' => ?_⟩
  cases hbit : s.freeMap.bit k with
  | false => rfl
  | true => exact absurd ((h.used k).mpr ⟨by omega, hbit⟩) (hfree k hk hk')

/-- The order of the references does not matter. -/
theorem Rep.perm {refs' : List (ℕ × ℕ)} (hperm : refs.Perm refs') : Rep s A refs' :=
  ⟨h.ok, h.table.perm hperm, h.size, h.used, h.handed, h.once, h.files, h.freeMap, h.dir, h.slots, h.inodes, h.removed,
    fun y b i hr => h.refs y b i (hperm.mem_iff.mpr hr)⟩

end

/-! ### Writing to the disk -/

theorem decodeInode_eq {m m' : Bytes} {b : ℕ} (h : ∀ j < 8, m (a + j) = m' (b + j)) :
    decodeInode m a = decodeInode m' b := by
  unfold decodeInode
  rw [word_eq fun j hj => h j (by omega), word_eq (a := a + 4) (b := b + 4) fun j hj => ?_]
  have := h (4 + j) (by omega)
  rwa [← Nat.add_assoc, ← Nat.add_assoc] at this

variable {d : Disk}

/-- The inode of a file stays when its sector does. -/
theorem OnDisk.congr {d' : Disk} (h : OnDisk d x data) (hcap : d'.capacity = d.capacity)
    (hbytes : ∀ a, a / 512 = x → d'.bytes a = d.bytes a) : OnDisk d' x data := by
  refine ⟨⟨by rw [hcap]; exact h.accessible.1, h.accessible.2⟩, ?_, h.holds.congr hcap,
    by rw [hcap]; exact h.inside, h.small⟩
  rw [← h.decode]
  exact decodeInode_eq fun j hj => hbytes _ (by omega)

/-- **A write that leaves inodes and slots alone** is nothing to the store; `T` are the sectors
that are written. -/
theorem Rep.write (h : Rep s A refs) (T : Set ℕ) (hcap : d.capacity = s.disk.capacity)
    (hbytes : ∀ a, a / 512 ∉ T → d.bytes a = s.disk.bytes a) (hinode : ∀ x data, A.files x = some data → x ∉ T)
    (hdir : ∀ data, A.files 1 = some data → data.start ∉ T) : Rep { s with disk := d } A refs := by
  refine ⟨h.ok, h.table, h.size.trans hcap.symm, h.used, h.handed, h.once, ?_, h.freeMap, ?_, h.slots, h.inodes,
    h.removed, h.refs⟩
  · intro x data hx
    exact (h.files x data hx).congr hcap fun a ha => hbytes a (ha ▸ hinode x data hx)
  · intro data h1
    obtain ⟨hlen, hslots⟩ := h.dir data h1
    refine ⟨hlen, fun k hk => ?_⟩
    rw [← hslots k hk]
    refine entrySlot_congr fun j hj => hbytes _ ?_
    rw [show (512 * data.start + (20 * k + j)) / 512 = data.start by omega]
    exact hdir data h1

/-! ### Marking sectors -/

variable {b : Bitmap} {start cnt : ℕ}

section

variable (h : Rep s A refs)
include h

section

variable (hcnt : b.bitCnt = s.freeMap.bitCnt)
include hcnt

/-- **Sectors are marked and handed out.** -/
theorem Rep.take (hbit : b.bit = fill s.freeMap.bit start true cnt) (hgroup : s.freeMap.Group cnt false start) :
    Disjoint (Set.Ico start (start + cnt)) A.used ∧
      Rep { s with freeMap := b, log := .allocate start cnt :: s.log } (A.take (Set.Ico start (start + cnt))) refs := by
  have hfree : Disjoint (Set.Ico start (start + cnt)) A.used := by
    refine Set.disjoint_left.mpr fun i hi hused => ?_
    have hset := ((h.used i).mp hused).2
    rw [hgroup.2 i hi.1 hi.2] at hset
    cases hset
  refine ⟨hfree, h.ok.take hfree, h.table, hcnt.trans h.size, fun i => ?_, ?_, ⟨?_, h.once⟩, h.files, ?_, h.dir, h.slots,
    h.inodes, h.removed, h.refs⟩
  · show i ∈ A.used ∪ Set.Ico start (start + cnt) ↔ i < b.bitCnt ∧ b.bit i = true
    rw [Set.mem_union, h.used, hcnt, hbit]
    have hlast := hgroup.1
    by_cases hi : start ≤ i ∧ i < start + cnt
    · rw [fill_of_mem hi.1 hi.2]
      exact ⟨fun _ => ⟨by omega, rfl⟩, fun _ => .inr hi⟩
    · rw [fill_of_notMem (by omega)]
      exact ⟨fun hor => hor.resolve_right hi, fun hold => .inl hold⟩
  · show handedOut s.log ∪ _ = A.used ∪ _
    rw [h.handed]
  · rw [h.handed]
    exact hfree
  · rw [hcnt]
    exact h.freeMap

/-- **Reserved sectors are unmarked and taken back.** -/
theorem Rep.free (hbit : b.bit = fill s.freeMap.bit start false cnt) (hr : Set.Ico start (start + cnt) ⊆ A.reserved) :
    Rep { s with freeMap := b, log := .release start cnt :: s.log } (A.free (Set.Ico start (start + cnt))) refs := by
  refine ⟨h.ok.free hr, h.table, hcnt.trans h.size, fun i => ?_, ?_, ⟨?_, h.once⟩, h.files, ?_, h.dir, h.slots,
    h.inodes, h.removed, h.refs⟩
  · show i ∈ A.used \ Set.Ico start (start + cnt) ↔ i < b.bitCnt ∧ b.bit i = true
    rw [Set.mem_sdiff, h.used, hcnt, hbit]
    by_cases hi : start ≤ i ∧ i < start + cnt
    · rw [fill_of_mem hi.1 hi.2]
      exact ⟨fun hand => absurd hi hand.2, fun hand => nomatch hand.2⟩
    · rw [fill_of_notMem (by omega)]
      exact ⟨fun hand => hand.1, fun hold => ⟨hold, hi⟩⟩
  · show handedOut s.log \ _ = A.used \ _
    rw [h.handed]
  · rw [h.handed]
    exact hr.trans (h.ok.sound.used none)
  · rw [hcnt]
    exact h.freeMap

theorem Rep.setMap (hbit : ∀ i < b.bitCnt, b.bit i = s.freeMap.bit i) : Rep { s with freeMap := b } A refs := by
  refine ⟨h.ok, h.table, hcnt.trans h.size, fun i => ?_, h.handed, h.once, h.files, ?_, h.dir, h.slots, h.inodes,
    h.removed, h.refs⟩
  · rw [h.used, ← hcnt]
    exact and_congr_right fun hi => by rw [hbit i hi]
  · rw [hcnt]
    exact h.freeMap

end

/-! ### Files -/

/-- **Reserved sectors become a file.** -/
theorem Rep.create (hr : region x data ⊆ A.reserved) (hown : x ∉ data.extent)
    (hdisk : OnDisk s.disk x data) (h0 : x = 0 → data.length = byteCnt s.freeMap.bitCnt)
    (h1 : x = 1 → data.length = 320 ∧ ∀ k < 16, slot (fileBytes s.disk data) k = A.slots k) :
    Rep s (A.create x data) refs := by
  have hnone := h.ok.files_eq_none (hr (Set.mem_insert x _))
  refine ⟨h.ok.create hr hown, h.table, h.size, h.used, h.handed, h.once, fun y d hy => ?_, fun d hd => ?_,
    fun d hd => ?_, h.slots, fun a i hi => ?_, h.removed, h.refs⟩
  · obtain ⟨rfl, ⟨⟩⟩ | ⟨-, hy⟩ := update_cases hy
    · exact hdisk
    · exact h.files y d hy
  · obtain ⟨hx, ⟨⟩⟩ | ⟨-, hd⟩ := update_cases hd
    · exact h0 hx.symm
    · exact h.freeMap d hd
  · obtain ⟨hx, ⟨⟩⟩ | ⟨-, hd⟩ := update_cases hd
    · exact h1 hx.symm
    · exact h.dir d hd
  · obtain ⟨hfile, hdeny⟩ := h.inodes a i hi
    have hne : i.sector ≠ x := fun he => by
      rw [he, hnone] at hfile
      cases hfile
    exact ⟨by simpa [Store.create, hne] using hfile, hdeny⟩

/-- **The sectors of a file become reserved sectors.** Its name is gone, and it is not open. -/
theorem Rep.remove (hx : A.files x = some data) (hname : A.Unnamed x)
    (hclosed : ∀ a i, s.inodes a = .live i → i.sector ≠ x) : Rep s (A.remove x data) refs := by
  have hcases : ∀ y d, (A.remove x data).files y = some d → A.files y = some d := fun y d hy =>
    ((update_cases hy).resolve_left (by simp)).2
  refine ⟨h.ok.remove hx hname, h.table, h.size, h.used, h.handed, h.once, fun y d hy => h.files y d (hcases y d hy),
    fun d hd => h.freeMap d (hcases 0 d hd), fun d hd => h.dir d (hcases 1 d hd), h.slots, fun a i hi => ?_, h.removed,
    h.refs⟩
  obtain ⟨hfile, hdeny⟩ := h.inodes a i hi
  exact ⟨by simpa [Store.remove, hclosed a i hi] using hfile, hdeny⟩

theorem Rep.start_mem_extent (h1 : A.files 1 = some data) : data.start ∈ data.extent := by
  have hsectors : bytesToSectors 320 = 1 := by decide
  unfold InodeDisk.extent
  rw [(h.dir data h1).1, hsectors]
  exact ⟨Nat.le_refl _, Nat.lt_succ_self _⟩

/-- **A slot is written.** -/
theorem Rep.setSlot (h1 : A.files 1 = some data) {k : ℕ} {v : Option (List UInt8 × ℕ)} (hk : k < 16)
    (hcap : d.capacity = s.disk.capacity)
    (hbytes : ∀ a, a < 512 * data.start + 20 * k ∨ 512 * data.start + 20 * k + 20 ≤ a → d.bytes a = s.disk.bytes a)
    (hslot : slot (fileBytes d data) k = v) (hshort : ∀ name x, v = some (name, x) → name.length ≤ NAME_MAX)
    (hok : (A.setSlot k v).Ok)
    (hremoved : ∀ a i, s.inodes a = .live i → i.removed = true → (A.setSlot k v).Unnamed i.sector) :
    Rep { s with disk := d } (A.setSlot k v) refs := by
  have hstart := h.start_mem_extent h1
  refine ⟨hok, h.table, h.size.trans hcap.symm, h.used, h.handed, h.once, fun y e hy => ?_, h.freeMap, fun e he => ?_,
    fun l name y hl => ?_, h.inodes, fun a i hi hrem => ?_, h.refs⟩
  · have hne : y ≠ data.start := fun he => h.ok.notMem_extent hy h1 (he ▸ hstart)
    exact (h.files y e hy).congr hcap fun a ha => hbytes a (by omega)
  · obtain rfl : data = e := Option.some.inj (h1.symm.trans he)
    obtain ⟨hlen, hslots⟩ := h.dir data h1
    refine ⟨hlen, fun l hl => ?_⟩
    obtain rfl | hlk := eq_or_ne l k
    · simpa [Store.setSlot] using hslot
    · show slot (fileBytes d data) l = update A.slots k v l
      rw [update_of_ne hlk, ← hslots l hl]
      exact entrySlot_congr fun j hj => hbytes _ (by omega)
  · obtain ⟨rfl, hv⟩ | ⟨-, hl⟩ := update_cases hl
    · exact ⟨hk, hshort name y hv⟩
    · exact h.slots l name y hl
  · obtain ⟨hi0, hi1, -⟩ := h.removed a i hi hrem
    exact ⟨hi0, hi1, hremoved a i hi hrem⟩

end

/-! ### Open inodes -/

variable {i : Inode}

theorem Rep.setInode {refs' : List (ℕ × ℕ)} (h : Rep s A refs) {j : Inode} (hi : s.inodes a = .live i)
    (hsector : j.sector = i.sector) (hdata : j.data = i.data) (hdeny : j.denyWriteCnt = i.denyWriteCnt)
    (hremoved : j.removed = true → i.sector ≠ 0 ∧ i.sector ≠ 1 ∧ A.Unnamed i.sector)
    (htable : TableOk ({ s with inodes := update s.inodes a (.live j) }.table refs'))
    (hrefs : ∀ r ∈ refs', r = (i.sector, a) ∨ r ∈ refs) :
    Rep { s with inodes := update s.inodes a (.live j) } A refs' := by
  refine ⟨h.ok, htable, h.size, h.used, h.handed, h.once, h.files, h.freeMap, h.dir, h.slots, fun b k hk => ?_,
    fun b k hk hrem => ?_, fun y b k hr hk => ?_⟩
  · obtain ⟨rfl, rfl⟩ | ⟨-, hk⟩ := Cell.update_live hk
    · rw [hsector, hdata, hdeny]
      exact h.inodes b i hi
    · exact h.inodes b k hk
  · obtain ⟨rfl, rfl⟩ | ⟨-, hk⟩ := Cell.update_live hk
    · rw [hsector]
      exact hremoved hrem
    · exact h.removed b k hk hrem
  · obtain ⟨rfl, rfl⟩ | ⟨hb, hk⟩ := Cell.update_live hk
    · rw [hsector]
      obtain hr | hr := hrefs _ hr
      · exact (congrArg Prod.fst hr).symm
      · exact h.refs y b i hr hi
    · obtain hr | hr := hrefs _ hr
      · exact absurd (congrArg Prod.snd hr) hb
      · exact h.refs y b k hr hk

theorem Rep.reopen (h : Rep s A refs) (hi : s.inodes a = .live i) :
    Rep { s with inodes := update s.inodes a (.live { i with openCnt := i.openCnt + 1 }) } A
      ((i.sector, a) :: refs) := by
  refine h.setInode hi rfl rfl rfl (h.removed a i hi) ?_ fun r hr => List.mem_cons.mp hr
  refine h.table.recount (k := { i with openCnt := i.openCnt + 1 }) hi rfl ?_ ?_ ?_ ?_
  · have hcount : i.openCnt = refs.countP (·.2 == a) := h.table.count a i hi
    rw [hcount]
    simp
  · simp
  · intro b hb
    simp [Table.count, Fs.table, hb.symm]
  · intro r hr
    obtain rfl | hr := List.mem_cons.mp hr
    · exact .inl rfl
    · exact .inr hr

theorem Rep.close (h : Rep s A ((x, a) :: refs)) (hi : s.inodes a = .live i) (hcnt : i.openCnt - 1 ≠ 0) :
    Rep { s with inodes := update s.inodes a (.live { i with openCnt := i.openCnt - 1 }) } A refs := by
  have hcount : i.openCnt = ((x, a) :: refs).countP (·.2 == a) := h.table.count a i hi
  rw [List.countP_cons_of_pos (by simp)] at hcount
  refine h.setInode hi rfl rfl rfl (h.removed a i hi) ?_ fun r hr => .inr (List.mem_cons_of_mem _ hr)
  refine h.table.recount (k := { i with openCnt := i.openCnt - 1 }) hi rfl ?_ (by omega) ?_ fun r hr => .inr ?_
  · show i.openCnt - 1 = _
    omega
  · intro b hb
    simp [Table.count, Fs.table, hb.symm]
  · exact List.mem_cons_of_mem _ hr

theorem Rep.freeInode (h : Rep s A ((x, a) :: refs)) (hi : s.inodes a = .live i) (hcnt : i.openCnt - 1 = 0) :
    Rep { s with inodes := update s.inodes a .freed, openInodes := s.openInodes.erase a } A refs := by
  have hcount : i.openCnt = ((x, a) :: refs).countP (·.2 == a) := h.table.count a i hi
  rw [List.countP_cons_of_pos (by simp)] at hcount
  have hlive : ∀ b k, update s.inodes a .freed b = .live k → s.inodes b = .live k := fun _ _ hk =>
    (Cell.update_freed hk).2
  refine ⟨h.ok, ?_, h.size, h.used, h.handed, h.once, h.files, h.freeMap, h.dir, h.slots,
    fun b k hk => h.inodes b k (hlive b k hk), fun b k hk => h.removed b k (hlive b k hk),
    fun y b k hr hk => h.refs y b k (List.mem_cons_of_mem _ hr) (hlive b k hk)⟩
  refine h.table.free (a := a) (by omega) ?_ (fun r hr => List.mem_cons_of_mem _ hr) ?_
  · intro b hb
    simp [Table.count, Fs.table, hb.symm]
  · show s.inodes a ≠ .unused
    simp [hi]

/-- The state with a new open inode, of sector `x`. -/
def Fs.opened (s : Fs) (x : ℕ) (data : InodeDisk) : Fs :=
  { s with
    inodes := update s.inodes s.next (.live ⟨x, 1, false, data, 0⟩), next := s.next + 1,
    openInodes := s.next :: s.openInodes }

theorem Rep.openInode (h : Rep s A refs) (hx : A.files x = some data)
    (hclosed : ∀ a i, s.inodes a = .live i → i.sector ≠ x) :
    Rep (s.opened x data) A ((x, s.next) :: refs) := by
  refine ⟨h.ok, h.table.create (t := x) ⟨x, 1, false, data, 0⟩ rfl hclosed rfl, h.size, h.used, h.handed,
    h.once, h.files, h.freeMap, h.dir, h.slots, fun b k hk => ?_, fun b k hk hrem => ?_, fun y b k hr hk => ?_⟩
  · obtain ⟨rfl, rfl⟩ | ⟨-, hk⟩ := Cell.update_live hk
    · exact ⟨hx, rfl⟩
    · exact h.inodes b k hk
  · obtain ⟨rfl, rfl⟩ | ⟨-, hk⟩ := Cell.update_live hk
    · cases hrem
    · exact h.removed b k hk hrem
  · obtain ⟨rfl, rfl⟩ | ⟨hb, hk⟩ := Cell.update_live hk
    · obtain hr | hr := List.mem_cons.mp hr
      · exact (congrArg Prod.fst hr).symm
      · obtain ⟨k, hk⟩ := h.table.refs _ hr
        have hunused : s.inodes s.next = .unused := h.table.fresh s.next (Nat.le_refl _)
        exact absurd (hunused.symm.trans hk) nofun
    · obtain hr | hr := List.mem_cons.mp hr
      · exact absurd (congrArg Prod.snd hr) hb
      · exact h.refs y b k hr hk

theorem Rep.markRemoved (h : Rep s A refs) (hi : s.inodes a = .live i) (h0 : i.sector ≠ 0)
    (h1 : i.sector ≠ 1) (hname : A.Unnamed i.sector) :
    Rep { s with inodes := update s.inodes a (.live { i with removed := true }) } A refs := by
  refine h.setInode hi rfl rfl rfl (fun _ => ⟨h0, h1, hname⟩) ?_ fun r hr => .inr hr
  exact h.table.recount (k := { i with removed := true }) hi rfl (h.table.count a i hi) (h.table.pos a i hi)
    (fun b _ => rfl) fun r hr => .inr hr

end

end Pintos.Filesys
