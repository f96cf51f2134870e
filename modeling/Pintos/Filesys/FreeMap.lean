import Pintos.Filesys.Represents

/-!
# The free map and the inodes

What the functions of `free-map.c` and `inode.c` do to the store.

Every function ends: it returns, or it stops at a sector that the disk cannot access
(`select_sector`), which happens in `inode_create` on disks of more than `2 ^ 28` sectors. What
`malloc` returns decides which of its results it has; with memory in plenty (`Fs.Plenty`) it has the
result it is to have.

`free_map_allocate` hands out sectors that are not used (`freeMapAllocate_ends`), and
`free_map_release` takes reserved sectors back (`freeMapRelease_ends`); both write the map to its
file. `inode_create` makes a file of a reserved sector and new sectors for the data
(`inodeCreate_ends`); `inode_open` adds a reference (`inodeOpen_ends`), and `inode_close` takes one
away, and frees the sectors of a removed file with the last (`inodeClose_ends`).

`Leads` is what is true of all of them, and `Undisturbed` says that no byte of a file changes.
-/

namespace Pintos.Filesys

open Function InodeTable Lib Memory Program

/-! ### Sectors for bytes -/

variable {length : ℤ}

theorem sectors_le_bytesToSectors (h0 : 0 ≤ length) (hlt : length < 2 ^ 31) :
    (length.toNat + 511) / 512 ≤ bytesToSectors length := by
  unfold bytesToSectors
  rw [Int.bmod_def]
  split
  · rw [Int.tdiv_eq_ediv_of_nonneg (by omega)]
    omega
  · have hneg : (length + 511) % ((2 ^ 32 : ℕ) : ℤ) - ((2 ^ 32 : ℕ) : ℤ) = -(2 ^ 32 - (length + 511)) := by omega
    rw [hneg, Int.neg_tdiv, Int.tdiv_eq_ediv_of_nonneg (by omega)]
    omega

theorem length_le_bytesToSectors (h0 : 0 ≤ length) (hlt : length < 2 ^ 31) :
    length.toNat ≤ 512 * bytesToSectors length := by
  have := sectors_le_bytesToSectors h0 hlt
  omega

/-! ### What all functions do -/

/-- `malloc` will not fail. -/
def Fs.Plenty (s : Fs) : Prop := ∀ n, s.mem n ≠ none

/-- The state with the bytes of the disk changed. -/
def Fs.withBytes (s : Fs) (bytes : Bytes) : Fs := { s with disk := { s.disk with bytes := bytes } }

/-- The state after a call of `malloc`. -/
def Fs.shift (s : Fs) : Fs := { s with mem := fun n => s.mem (n + 1) }

/-- Bit `i` of the free map on the disk. -/
def mapBit (d : Disk) (data : InodeDisk) (i : ℕ) : Bool := (wordsOf (fileBytes d data) (i / 32)).getLsbD (i % 32)

/-- The free map on the disk is the free map in memory. -/
def Synced (s : Fs) (data : InodeDisk) : Prop := ∀ i < s.freeMap.bitCnt, mapBit s.disk data i = s.freeMap.bit i

/-- What is true of every function. -/
structure Leads (A : Store) (s t : Fs) : Prop where
  /-- The file of the free map stays open. -/
  file : t.freeMapFile = s.freeMapFile
  /-- The disk keeps its size. -/
  capacity : t.disk.capacity = s.disk.capacity
  /-- Memory stays in plenty. -/
  plenty : s.Plenty → t.Plenty
  /-- The free map on the disk stays up to date when there is memory. -/
  synced : ∀ data, A.files 0 = some data → s.freeMapFile ≠ none → s.Plenty → Synced s data → Synced t data

/-- No byte of a file changes, but for the file of the free map. -/
def Undisturbed (A : Store) (s t : Fs) : Prop :=
  ∀ x data, A.files x = some data → x ≠ 0 → ∀ a, a / 512 ∈ region x data → t.disk.bytes a = s.disk.bytes a

variable {s t u : Fs} {A B : Store} {refs : List (ℕ × ℕ)} {E : Panic → Prop} {x a : ℕ} {data : InodeDisk}

theorem Leads.refl (A : Store) (s : Fs) : Leads A s s := ⟨rfl, rfl, id, fun _ _ _ _ h => h⟩

theorem Leads.trans (h : Leads A s t) (h' : Leads B t u) (hmap : A.files 0 = B.files 0) : Leads A s u :=
  ⟨h'.file.trans h.file, h'.capacity.trans h.capacity, fun hp => h'.plenty (h.plenty hp),
    fun data hdata hf hp hs => h'.synced data (hmap ▸ hdata) (h.file ▸ hf) (h.plenty hp) (h.synced data hdata hf hp hs)⟩

theorem Leads.shift (A : Store) (s : Fs) : Leads A s s.shift :=
  ⟨rfl, rfl, fun hp n => hp (n + 1), fun _ _ _ _ h => h⟩

theorem Undisturbed.of_eq (h : t.disk = s.disk) : Undisturbed A s t := fun _ _ _ _ _ _ => by rw [h]

theorem Undisturbed.trans (h : Undisturbed A s t) (h' : Undisturbed B t u) (hfiles : A.files = B.files) :
    Undisturbed A s u := fun x data hx h0 a ha => (h' x data (hfiles ▸ hx) h0 a ha).trans (h x data hx h0 a ha)

theorem Rep.shift (h : Rep s A refs) : Rep s.shift A refs := h.reframe _ _

/-! ### Memory -/

section Memory

variable {β : Type} {P : β → Fs → Prop}

theorem malloc_bind {f : Option Bytes → FsM β} (h : Ends E (f (s.mem 0)) s.shift P) : Ends E (malloc >>= f) s P := h

theorem calloc_bind {f : Option Bytes → FsM β} (hnone : s.mem 0 = none → Ends E (f none) s.shift P)
    (hsome : ∀ block, Ends E (f (some block)) s.shift P) : Ends E (calloc >>= f) s P := by
  have hrun : (calloc >>= f) s = f ((s.mem 0).map fun _ _ => 0) s.shift := rfl
  unfold Ends at hnone hsome ⊢
  rw [hrun]
  cases hmem : s.mem 0 with
  | none => exact hnone hmem
  | some b => exact hsome _

theorem getInode_bind {f : Inode → FsM β} {i : Inode} (hi : s.inodes a = .live i) (h : Ends E (f i) s P) :
    Ends E (getInode a >>= f) s P := by
  have hrun : getInode a s = .ok (i, s) := by
    rw [getInode, get_bind_run, hi]
    rfl
  have hbind : (getInode a >>= f) s = (getInode a s).bind fun r => f r.1 r.2 := rfl
  unfold Ends at h ⊢
  rw [hbind, hrun]
  exact h

end Memory

/-! ### Reading and writing -/

section ReadWrite

variable {i : Inode} (hi : s.inodes a = .live i) (hholds : s.disk.Holds i.data) (buffer : Bytes) (size offset : ℕ)
include hi hholds

theorem readAt_ends : Ends E (readAt a buffer size offset) s fun r t =>
    ∃ n, Moves i.data size offset s.Plenty n ∧
      r = ((n : ℤ), copy buffer 0 (fileBytes s.disk i.data) offset n) ∧ t = s.shift := by
  obtain ⟨n, hn, hread⟩ := inodeReadAt_eq hholds (s.mem 0) buffer size offset
  refine getInode_bind hi (malloc_bind (.get_bind ?_))
  refine .lift hread ⟨n, ⟨hn.le, fun hp => hn.all (hp 0), hn.stop⟩, ?_, rfl⟩
  congr 1
  unfold copy fileBytes
  simp only [Nat.add_assoc]

theorem writeAt_ends (hdeny : i.denyWriteCnt = 0) : Ends E (writeAt a buffer size offset) s fun r t =>
    ∃ n, Moves i.data size offset s.Plenty n ∧ r = n ∧
      t = s.shift.withBytes (copy s.disk.bytes (512 * i.data.start + offset) buffer 0 n) := by
  obtain ⟨n, hn, hwrite⟩ := inodeWriteAt_eq hholds (s.mem 0) buffer size offset hdeny
  refine getInode_bind hi (malloc_bind (.get_bind ?_))
  refine .lift_bind hwrite (.set_bind (.pure ?_))
  exact ⟨n, ⟨hn.le, fun hp => hn.all (hp 0), hn.stop⟩, rfl, rfl⟩

end ReadWrite

/-! ### The file of the free map -/

/-- The file with a bitmap written to it, or the first bytes of it. -/
def Disk.withMap (d : Disk) (data : InodeDisk) (b : Bitmap) (n : ℕ) : Disk :=
  { d with bytes := copy d.bytes (512 * data.start) b.bytes 0 n }

theorem mapBit_withMap (d : Disk) (data : InodeDisk) (b : Bitmap) {i : ℕ} (hi : i < b.bitCnt) :
    mapBit (d.withMap data b (byteCnt b.bitCnt)) data i = b.bit i := by
  have hcnt := b.elemCnt_eq
  unfold mapBit Bitmap.bit
  rw [wordsOf_eq fun j hj => ?_]
  unfold fileBytes Disk.withMap
  dsimp only
  rw [copy_of_mem (by omega) (by unfold byteCnt; omega)]
  congr 1
  omega

section WriteMap

variable (h : Rep s A refs) (h0 : A.files 0 = some data)
include h h0

variable {n : ℕ}

section

variable (b : Bitmap) (hn : n ≤ data.length.toNat)
include b hn

theorem Rep.withMap_bytes {a : ℕ} (ha : a / 512 ∉ data.extent) :
    (s.disk.withMap data b n).bytes a = s.disk.bytes a := by
  have hdisk := h.files 0 data h0
  have hlen := length_le_bytesToSectors hdisk.holds.length_nonneg hdisk.small
  refine copy_of_notMem ?_
  have : ¬ (data.start ≤ a / 512 ∧ a / 512 < data.start + bytesToSectors data.length) := ha
  omega

theorem Rep.withMap :
    Rep { s with disk := s.disk.withMap data b n } A refs := by
  refine h.write data.extent rfl (fun a ha => h.withMap_bytes h0 b hn ha) ?_ ?_
  · exact fun x d hx => h.ok.notMem_extent hx h0
  · intro d h1 hmem
    exact Set.disjoint_left.mp (h.ok.disjoint h1 h0 (by decide)) (Set.mem_insert_of_mem 1 (h.start_mem_extent h1))
      (Set.mem_insert_of_mem 0 hmem)

theorem Rep.undisturbed_withMap (ht : t.disk = s.disk.withMap data b n) : Undisturbed A s t := by
  intro x d hx hx0 a ha
  rw [ht]
  refine h.withMap_bytes h0 b hn fun hmem => ?_
  exact Set.disjoint_left.mp (h.ok.disjoint hx h0 hx0) ha (Set.mem_insert_of_mem 0 hmem)

end

end WriteMap

theorem bitmapWrite_ends {b : Bitmap} {file : Option File} {f : File} {i : Inode} (hfile : file = some f)
    (hi : s.inodes f.inode = .live i)
    (hholds : s.disk.Holds i.data) (hdeny : i.denyWriteCnt = 0) (hlen : byteCnt b.bitCnt ≤ i.data.length) :
    Ends E (bitmapWrite b file) s fun r t => ∃ n ≤ i.data.length.toNat,
      (r = true → n = byteCnt b.bitCnt) ∧ (s.Plenty → r = true) ∧
      t = { s.shift with disk := s.disk.withMap i.data b n } := by
  have hcount : flatCount i.data.length.toNat (byteCnt b.bitCnt) 0 = byteCnt b.bitCnt := flatCount_of_le (by omega)
  subst hfile
  refine .bind (writeAt_ends hi hholds b.bytes (byteCnt b.bitCnt) 0 hdeny) ?_
  rintro _ t ⟨n, ⟨hn, hall, -⟩, rfl, rfl⟩
  rw [hcount] at hn hall
  refine ⟨n, by omega, fun hr => ?_, fun hp => ?_, rfl⟩
  · have : (n : ℤ) = byteCnt b.bitCnt := by simpa using hr
    omega
  · rw [hall hp]
    exact beq_self_eq_true _

/-! ### Allocating and releasing -/

/-- What was set and cleared again is as it was. -/
theorem fill_fill_of_group {b : Bitmap} {start cnt : ℕ} (h : b.Group cnt false start) :
    fill (fill b.bit start true cnt) start false cnt = b.bit := by
  funext i
  by_cases hi : start ≤ i ∧ i < start + cnt
  · rw [fill_of_mem hi.1 hi.2, h.2 i hi.1 hi.2]
  · rw [fill_of_notMem (by omega), fill_of_notMem (by omega)]

/-- **`free_map_allocate` hands out sectors that are not used**, and reserves them; it fails when
there are not so many in a row, or for want of memory. -/
theorem freeMapAllocate_ends (h : Rep s A refs) (hf : ∀ f, s.freeMapFile = some f → (0, f.inode) ∈ refs) (cnt : ℕ) :
    Ends E (freeMapAllocate cnt) s fun r t => Leads A s t ∧ Undisturbed A s t ∧ t.inodes = s.inodes ∧
      ((∃ start, r = some start ∧ start + cnt ≤ s.disk.capacity ∧ Disjoint (Set.Ico start (start + cnt)) A.used ∧
          Rep t (A.take (Set.Ico start (start + cnt))) refs ∧
          ∀ data, A.files 0 = some data → s.freeMapFile ≠ none → Synced t data) ∨
        (r = none ∧ Rep t A refs ∧ (s.Plenty → ∀ i, ¬ s.freeMap.Group cnt false i))) := by
  refine .get_bind ?_
  obtain ⟨start, b, hscan, hleast, hcnt, hbit⟩ | ⟨hscan, hnone⟩ :=
    bitmapScanAndFlip_eq cnt false (Nat.zero_le s.freeMap.bitCnt)
  case inr =>
    rw [hscan]
    exact ⟨.refl A s, .of_eq rfl, rfl, .inr ⟨rfl, h, fun _ i => hnone i (Nat.zero_le i)⟩⟩
  rw [Bool.not_false] at hbit
  have hgroup : s.freeMap.Group cnt false start := hleast.1.2
  have hlast : start + cnt ≤ s.disk.capacity := h.size ▸ hgroup.1
  rw [hscan]
  refine .set_bind ?_
  obtain hfile | ⟨f, hfile⟩ := Option.eq_none_or_eq_some s.freeMapFile
  · obtain ⟨hfree, hrep⟩ := h.take hcnt hbit hgroup
    refine .bind (R := fun r t => r = true ∧ t = { s with freeMap := b }) (by rw [hfile]; exact ⟨rfl, rfl⟩) ?_
    rintro _ _ ⟨rfl, rfl⟩
    exact ⟨⟨rfl, rfl, id, fun _ _ hne => absurd hfile hne⟩, .of_eq rfl, rfl,
      .inl ⟨start, rfl, hlast, hfree, hrep, fun _ _ hne => absurd hfile hne⟩⟩
  · obtain ⟨i, hi, -, h0, hdeny⟩ := h.inode_of_ref (hf f hfile)
    have hlen : i.data.length = byteCnt b.bitCnt := by rw [hcnt]; exact h.freeMap _ h0
    have hsave : saveFreeMap b s.freeMapFile = bitmapWrite b s.freeMapFile := by rw [hfile]; rfl
    rw [hsave]
    refine .bind (bitmapWrite_ends (s := { s with freeMap := b }) hfile hi (h.files 0 _ h0).holds hdeny hlen.ge) ?_
    rintro written t ⟨n, hn, hwritten, hplenty, rfl⟩
    have hwrite := h.withMap h0 b hn
    have hundisturbed := h.undisturbed_withMap h0 b hn (t := { s with disk := s.disk.withMap i.data b n }) rfl
    cases written with
    | true =>
      obtain ⟨hfree, hrep⟩ := hwrite.take hcnt hbit hgroup
      obtain rfl := hwritten rfl
      have hsync : ∀ data, A.files 0 = some data → ∀ k < b.bitCnt,
          mapBit (s.disk.withMap i.data b (byteCnt b.bitCnt)) data k = b.bit k := by
        intro data hdata k hk
        obtain rfl : i.data = data := Option.some.inj (h0.symm.trans hdata)
        exact mapBit_withMap s.disk i.data b hk
      exact ⟨⟨rfl, rfl, fun hp n => hp (n + 1), fun data hdata _ _ _ => hsync data hdata⟩, hundisturbed, rfl,
        .inl ⟨start, rfl, hlast, hfree, hrep.reframe _ _, fun data hdata _ => hsync data hdata⟩⟩
    | false =>
      obtain ⟨b₂, hset, hcnt₂, hbit₂⟩ := bitmapSetMultiple_eq (b := b) false (hcnt ▸ hgroup.1)
      rw [hbit, fill_fill_of_group hgroup] at hbit₂
      have hshort : ¬ s.Plenty := fun hp => nomatch hplenty hp
      rw [if_neg Bool.false_ne_true, hset]
      refine .modify_bind (.pure ⟨⟨rfl, rfl, fun hp => absurd hp hshort, fun _ _ _ hp => absurd hp hshort⟩,
        hundisturbed, rfl, .inr ⟨rfl, ?_, fun hp => absurd hp hshort⟩⟩)
      exact (hwrite.setMap (hcnt₂.trans hcnt) fun k _ => by rw [hbit₂]).reframe _ _

/-- The file of the free map is open. -/
def FileReady (s : Fs) (refs : List (ℕ × ℕ)) : Prop := ∃ f, s.freeMapFile = some f ∧ (0, f.inode) ∈ refs

/-- **`free_map_release` takes reserved sectors back.** -/
theorem freeMapRelease_ends (h : Rep s A refs) (hf : FileReady s refs) {sector cnt : ℕ}
    (hle : sector + cnt ≤ s.disk.capacity) (hr : Set.Ico sector (sector + cnt) ⊆ A.reserved) :
    Ends E (freeMapRelease sector cnt) s fun _ t => Leads A s t ∧ Undisturbed A s t ∧ t.inodes = s.inodes ∧
      Rep t (A.free (Set.Ico sector (sector + cnt))) refs := by
  have hlast : sector + cnt ≤ s.freeMap.bitCnt := h.size.symm ▸ hle
  have hgroup : s.freeMap.Group cnt true sector := by
    refine ⟨hlast, fun i hi hi' => ?_⟩
    exact ((h.used i).mp (h.ok.sound.used none (hr ⟨hi, hi'⟩))).2
  obtain ⟨r, hall, htrue⟩ := bitmapAll_eq hlast
  obtain rfl : r = true := htrue.mpr hgroup
  obtain ⟨b, hset, hcnt, hbit⟩ := bitmapSetMultiple_eq false hlast
  obtain ⟨f, hfile, href⟩ := hf
  obtain ⟨i, hi, -, h0, hdeny⟩ := h.inode_of_ref href
  have hlen : i.data.length = byteCnt b.bitCnt := by rw [hcnt]; exact h.freeMap _ h0
  refine .get_bind ?_
  rw [hall]
  rw [hset]
  refine .set_bind ?_
  refine .bind (bitmapWrite_ends (s := { s with freeMap := b, log := .release sector cnt :: s.log }) hfile hi
    (h.files 0 _ h0).holds hdeny hlen.ge) ?_
  rintro written t ⟨n, hn, hwritten, hplenty, rfl⟩
  refine .pure ⟨⟨rfl, rfl, fun hp n => hp (n + 1), ?_⟩, ?_, rfl, ?_⟩
  · intro data hdata _ hp _ k hk
    obtain rfl : i.data = data := Option.some.inj (h0.symm.trans hdata)
    obtain rfl := hwritten (hplenty hp)
    exact mapBit_withMap s.disk i.data b hk
  · exact h.undisturbed_withMap h0 b hn rfl
  · exact ((h.withMap h0 b hn).free hcnt hbit hr).reframe _ _

/-! ### Writing to reserved sectors -/

theorem Synced.congr (h : Rep s A refs) (h0 : A.files 0 = some data) (hsync : Synced s data)
    (hmap : t.freeMap = s.freeMap) (hbytes : ∀ a, a / 512 ∈ data.extent → t.disk.bytes a = s.disk.bytes a) :
    Synced t data := by
  have hdisk := h.files 0 data h0
  have hlen := length_le_bytesToSectors hdisk.holds.length_nonneg hdisk.small
  rw [h.freeMap data h0] at hlen
  have hcnt := s.freeMap.elemCnt_eq
  intro i hi
  rw [hmap] at hi ⊢
  rw [← hsync i hi]
  unfold mapBit wordsOf
  rw [word_congr fun j hj => ?_]
  refine hbytes _ ?_
  show data.start ≤ _ ∧ _ < data.start + bytesToSectors data.length
  rw [h.freeMap data h0]
  unfold byteCnt at hlen ⊢
  omega

/-- **A write to reserved sectors** disturbs nothing. -/
theorem Rep.writeReserved (h : Rep s A refs) {d : Disk} {T : Set ℕ} (hT : T ⊆ A.reserved)
    (hcap : d.capacity = s.disk.capacity) (hbytes : ∀ a, a / 512 ∉ T → d.bytes a = s.disk.bytes a) :
    Leads A s { s with disk := d } ∧ (∀ data, A.files 0 = some data → Synced s data → Synced { s with disk := d } data) ∧
      Undisturbed A s { s with disk := d } ∧ Rep { s with disk := d } A refs := by
  have hregion : ∀ x data, A.files x = some data → ∀ i ∈ region x data, i ∉ T := fun x data hx i hi hmem =>
    Set.disjoint_left.mp (h.ok.disjoint_reserved hx) hi (hT hmem)
  have hsync : ∀ data, A.files 0 = some data → Synced s data → Synced { s with disk := d } data := fun data h0 hsync =>
    hsync.congr h h0 rfl fun a ha => hbytes a (hregion 0 data h0 _ (Set.mem_insert_of_mem 0 ha))
  refine ⟨⟨rfl, hcap, id, fun data h0 _ _ => hsync data h0⟩, hsync,
    fun x data hx _ a ha => hbytes a (hregion x data hx _ ha), ?_⟩
  · refine h.write T hcap hbytes (fun x data hx => hregion x data hx x (Set.mem_insert x _)) fun data h1 => ?_
    exact hregion 1 data h1 _ (Set.mem_insert_of_mem 1 (h.start_mem_extent h1))

theorem writeSector_ends {secNo : ℕ} (hlt : secNo < s.disk.capacity) (hE : 2 ^ 28 < s.disk.capacity → E .selectSector)
    (block : Bytes) : Ends E (writeSector secNo block) s fun _ t => s.disk.Accessible secNo ∧
      t = s.withBytes (copy s.disk.bytes (512 * secNo) block 0 512) := by
  refine .get_bind ?_
  by_cases hsec : s.disk.Accessible secNo
  · exact .lift_bind (diskWrite_eq hsec block 0) ⟨hsec, rfl⟩
  · refine .lift_bind_error (if_neg hsec) (hE ?_)
    have : ¬ secNo < 2 ^ 28 := fun hlba => hsec ⟨hlt, hlba⟩
    omega

theorem writeZeros_ends (n : ℕ) : ∀ {s : Fs} {secNo : ℕ}, secNo + n ≤ s.disk.capacity →
    (2 ^ 28 < s.disk.capacity → E .selectSector) → Ends E (writeZeros n secNo) s fun _ t =>
      (∀ i < n, s.disk.Accessible (secNo + i)) ∧
      t = s.withBytes (fill s.disk.bytes (512 * secNo) 0 (512 * n)) := by
  induction n with
  | zero =>
    intro s secNo _ _
    refine .pure ⟨fun i hi => absurd hi (Nat.not_lt_zero i), ?_⟩
    rw [Nat.mul_zero, fill_zero]
    rfl
  | succ n ih =>
    intro s secNo hle hE
    refine .bind (writeSector_ends (by omega) hE _) ?_
    rintro _ t ⟨hsec, rfl⟩
    refine .mono (ih (s := s.withBytes (copy s.disk.bytes (512 * secNo) (fun _ => 0) 0 512)) ?_ hE) ?_
    · show secNo + 1 + n ≤ s.disk.capacity
      omega
    rintro _ u ⟨hrest, rfl⟩
    refine ⟨fun i hi => ?_, ?_⟩
    · cases i with
      | zero => exact hsec
      | succ i =>
        rw [Nat.add_comm i 1, ← Nat.add_assoc]
        exact hrest i (by omega)
    · have hfill : fill (copy s.disk.bytes (512 * secNo) (fun _ => 0) 0 512) (512 * (secNo + 1)) 0 (512 * n) =
          fill s.disk.bytes (512 * secNo) 0 (512 * (n + 1)) := by
        rw [Nat.mul_add 512 n 1, Nat.add_comm (512 * n), ← fill_fill_add, Nat.mul_add 512 secNo 1]
        rfl
      rw [← hfill]
      rfl

/-! ### Creating an inode -/

theorem decodeInode_encodeInode {start : ℕ} (hstart : start < 2 ^ 32) (h0 : 0 ≤ length)
    (hlt : length < 2 ^ 31) : decodeInode (encodeInode ⟨start, length⟩) 0 = ⟨start, length⟩ := by
  have hfirst : word (encodeInode ⟨start, length⟩) 0 = start := by
    unfold encodeInode
    rw [word_putWord_of_disjoint (by omega), word_putWord_of_disjoint (by omega), word_putWord hstart]
  have hsecond : word (encodeInode ⟨start, length⟩) (0 + 4) = (length % 2 ^ 32).toNat := by
    unfold encodeInode
    rw [word_putWord_of_disjoint (by omega), word_putWord (by omega)]
  have hlength : ((length % 2 ^ 32).toNat : ℤ).bmod (2 ^ 32) = length := by
    rw [Int.bmod_def, if_pos (by omega)]
    omega
  unfold decodeInode
  rw [hfirst, hsecond, hlength]

/-- **`inode_create`** writes an inode to a reserved sector and allocates sectors for the data,
which are zeros then; it fails when there are not so many sectors in a row, or for want of
memory. -/
theorem inodeCreate_ends (h : Rep s A refs) (hf : ∀ f, s.freeMapFile = some f → (0, f.inode) ∈ refs) {sector : ℕ}
    (hsec : sector ∈ A.reserved) (h0 : 0 ≤ length) (hsmall : length < 2 ^ 31)
    (hE : 2 ^ 28 < s.disk.capacity → E .selectSector) :
    Ends E (inodeCreate sector length) s fun r t => Leads A s t ∧ Undisturbed A s t ∧ t.inodes = s.inodes ∧
      ((r = true ∧ ∃ data : InodeDisk, data.length = length ∧ Disjoint data.extent A.used ∧
          Rep t (A.take data.extent) refs ∧ OnDisk t.disk sector data ∧
          (∀ a, a / 512 ∈ data.extent → t.disk.bytes a = 0) ∧
          ∀ map, A.files 0 = some map → s.freeMapFile ≠ none → Synced t map) ∨
        (r = false ∧ Rep t A refs ∧ (s.Plenty → ∀ i, ¬ s.freeMap.Group (bytesToSectors length) false i))) := by
  unfold inodeCreate
  rw [if_neg (by omega)]
  refine calloc_bind (fun hmem => ?_) fun block => ?_
  · exact ⟨.shift A s, .of_eq rfl, rfl, .inr ⟨rfl, h.shift, fun hp => absurd hmem (hp 0)⟩⟩
  refine .bind (freeMapAllocate_ends h.shift hf (bytesToSectors length)) ?_
  rintro r t ⟨hlead, hundisturbed, hinodes, ⟨start, rfl, hle, hfree, hrep, hsync⟩ | ⟨rfl, hrep, hnone⟩⟩
  case inr =>
    exact .pure ⟨(Leads.shift A s).trans hlead rfl, hundisturbed, hinodes,
      .inr ⟨rfl, hrep, fun hp => hnone fun n => hp (n + 1)⟩⟩
  have hcap : t.disk.capacity = s.disk.capacity := hlead.capacity
  have hused : sector ∈ A.used := h.ok.sound.used none hsec
  have hlt : sector < t.disk.capacity := hcap ▸ h.lt_capacity hused
  refine .bind (writeSector_ends hlt (hcap ▸ hE) _) ?_
  rintro _ _ ⟨haccess, rfl⟩
  refine .bind (writeZeros_ends (bytesToSectors length) (show _ ≤ t.disk.capacity from hcap ▸ hle) (hcap ▸ hE)) ?_
  rintro _ _ ⟨hzeros, rfl⟩
  -- The inode and the data are reserved sectors.
  have hout : sector ∉ Set.Ico start (start + bytesToSectors length) := fun hmem =>
    Set.disjoint_left.mp hfree hmem hused
  have hT : region sector ⟨start, length⟩ ⊆ (A.take (Set.Ico start (start + bytesToSectors length))).reserved := by
    refine Set.insert_subset (.inl hsec) fun i hi => .inr hi
  have hout' : sector < start ∨ start + bytesToSectors length ≤ sector := by
    have : ¬ (start ≤ sector ∧ sector < start + bytesToSectors length) := hout
    omega
  obtain ⟨hlead', hsync', hundisturbed', hrep'⟩ := hrep.writeReserved (d := { t.disk with
      bytes := fill (copy t.disk.bytes (512 * sector) (encodeInode ⟨start, length⟩) 0 512) (512 * start) 0
        (512 * bytesToSectors length) }) hT rfl fun a ha => by
    have hne : a / 512 ≠ sector := fun he => ha (Set.mem_insert_iff.mpr (.inl he))
    have hnot : ¬ (start ≤ a / 512 ∧ a / 512 < start + bytesToSectors length) := fun hmem =>
      ha (Set.mem_insert_of_mem sector hmem)
    simp only
    rw [fill_of_notMem (by omega), copy_of_notMem (by omega)]
  refine .pure ⟨((Leads.shift A s).trans hlead rfl).trans hlead' rfl,
    hundisturbed.trans hundisturbed' rfl, hinodes,
    .inl ⟨rfl, ⟨start, length⟩, rfl, hfree, hrep', ?_, ?_, fun map hmap hne => hsync' map hmap (hsync map hmap hne)⟩⟩
  · have hsectors := sectors_le_bytesToSectors h0 hsmall
    refine ⟨haccess, ?_, ⟨h0, fun i hi => hzeros i (Nat.lt_of_lt_of_le hi hsectors)⟩, hcap ▸ hle, hsmall⟩
    have hstart : start < 2 ^ 32 := by
      have := s.freeMap.fits
      have hsize := h.size
      have hle' : start + bytesToSectors length ≤ s.disk.capacity := hle
      omega
    refine (decodeInode_eq fun j hj => ?_).trans (decodeInode_encodeInode hstart h0 hsmall)
    show fill _ (512 * start) 0 _ (512 * sector + j) = _
    rw [fill_of_notMem (by omega)]
    show copy _ (512 * sector) _ 0 512 (512 * sector + j) = _
    rw [copy_of_mem (by omega) (by omega), Nat.add_sub_cancel_left]
  · intro a ha
    have : start ≤ a / 512 ∧ a / 512 < start + bytesToSectors length := ha
    exact fill_of_mem (by omega) (by omega)

/-! ### Opening and closing inodes -/

theorem OnDisk.decode_copy {d : Disk} (h : OnDisk d x data) (block : Bytes) :
    decodeInode (copy block 0 d.bytes (512 * x) 512) 0 = data := by
  rw [← h.decode]
  refine decodeInode_eq fun j hj => ?_
  rw [copy_of_mem (by omega) (by omega), Nat.zero_add, Nat.sub_zero]

theorem inodeOpen_new (hscan : scan s.inodes x s.openInodes = some none) (hE : s.disk.Accessible x ∨ E .selectSector) :
    Ends E (inodeOpen x) s fun r t => (r = none ∧ t = s.shift ∧ s.mem 0 = none) ∨
      ∃ block, r = some s.next ∧ t = s.shift.opened x (decodeInode (copy block 0 s.disk.bytes (512 * x) 512) 0) := by
  refine .get_bind ?_
  rw [hscan]
  refine malloc_bind ?_
  cases hmem : s.mem 0 with
  | none => exact .inl ⟨rfl, rfl, rfl⟩
  | some block =>
    refine .get_bind ?_
    by_cases hok : s.disk.Accessible x
    · exact .lift_bind (diskRead_eq (d := s.disk) hok block 0) (.set_bind (.pure (.inr ⟨block, rfl, rfl⟩)))
    · exact .lift_bind_error (if_neg hok) (hE.resolve_left hok)

/-- **`inode_open` adds a reference** to the open inode of a file, which is new when there was
none. -/
theorem inodeOpen_ends (h : Rep s A refs) (hx : A.files x = some data) :
    Ends E (inodeOpen x) s fun r t => Leads A s t ∧ t.disk = s.disk ∧
      ((∃ a, r = some a ∧ Rep t A ((x, a) :: refs)) ∨ (r = none ∧ Rep t A refs ∧ ¬ s.Plenty)) := by
  obtain ⟨a, -, i, hi, rfl, hscan⟩ | ⟨hclosed, hscan⟩ := scan_of_live x fun a ha => (h.table.listed a).mp ha
  · refine .get_bind ?_
    rw [show scan s.inodes _ s.openInodes = _ from hscan]
    have hcount : i.openCnt = refs.countP (·.2 == a) := h.table.count a i hi
    have hpos : 0 < refs.countP (·.2 == a) := h.table.pos a i hi
    refine getInode_bind hi ?_
    rw [if_neg (by omega)]
    exact ⟨⟨rfl, rfl, id, fun _ _ _ _ hsync => hsync⟩, rfl, .inl ⟨a, rfl, h.reopen hi⟩⟩
  · have hclosed' : ∀ a i, s.inodes a = .live i → i.sector ≠ x := fun a i hi =>
      hclosed a ((h.table.listed a).mpr ⟨i, hi⟩) i hi
    have hdisk := h.files x data hx
    refine (inodeOpen_new hscan (.inl hdisk.accessible)).mono ?_
    rintro _ _ (⟨rfl, rfl, hmem⟩ | ⟨block, rfl, rfl⟩)
    · exact ⟨.shift A s, rfl, .inr ⟨rfl, h.shift, fun hp => hp 0 hmem⟩⟩
    · rw [hdisk.decode_copy]
      exact ⟨⟨rfl, rfl, fun hp n => hp (n + 1), fun _ _ _ _ hsync => hsync⟩, rfl,
        .inl ⟨s.next, rfl, (h.openInode hx hclosed').shift⟩⟩

theorem inodeRemove_ends (h : Rep s A refs) (href : (x, a) ∈ refs) (h0 : x ≠ 0) (h1 : x ≠ 1) (hname : A.Unnamed x) :
    Ends E (inodeRemove a) s fun _ t => Leads A s t ∧ t.disk = s.disk ∧ Rep t A refs := by
  obtain ⟨i, hi, rfl, -⟩ := h.inode_of_ref href
  refine getInode_bind hi ?_
  exact ⟨⟨rfl, rfl, id, fun _ _ _ _ hsync => hsync⟩, rfl, h.markRemoved hi h0 h1 hname⟩

/-- What `inode_close` does to the store: nothing, or a file that has no name goes. -/
def Closed (A B : Store) (x : ℕ) : Prop :=
  B = A ∨ (x ≠ 0 ∧ x ≠ 1 ∧ A.Unnamed x ∧ B.files = update A.files x none ∧ B.slots = A.slots)

section

variable (h : Rep s A ((x, a) :: refs)) (hf : x = 0 ∨ x = 1 ∨ FileReady s refs)
include h hf

theorem inodeClose_cases :
    Ends E (inodeClose (some a)) s fun _ t => Leads A s t ∧
      ((t.disk = s.disk ∧ t.freeMap = s.freeMap ∧ Rep t A refs) ∨
        ∃ B : Store, x ≠ 0 ∧ x ≠ 1 ∧ A.Unnamed x ∧ B.files = update A.files x none ∧ B.slots = A.slots ∧
          Undisturbed B s t ∧ Rep t B refs) := by
  obtain ⟨i, hi, rfl, hfile, -⟩ := h.inode_of_ref List.mem_cons_self
  refine getInode_bind hi ?_
  by_cases hcnt : i.openCnt - 1 = 0
  case neg =>
    rw [if_neg hcnt]
    exact ⟨⟨rfl, rfl, id, fun _ _ _ _ hsync => hsync⟩, .inl ⟨rfl, rfl, h.close hi hcnt⟩⟩
  rw [if_pos hcnt]
  have hrep := h.freeInode hi hcnt
  refine .modify_bind ?_
  cases hrem : i.removed with
  | false => exact ⟨⟨rfl, rfl, id, fun _ _ _ _ hsync => hsync⟩, .inl ⟨rfl, rfl, hrep⟩⟩
  | true =>
    obtain ⟨h0, h1, hname⟩ := h.removed a i hi hrem
    have hf' : FileReady s refs := (hf.resolve_left h0).resolve_left h1
    have hdisk := h.files i.sector i.data hfile
    -- No other inode is open for the sector.
    have hclosed : ∀ b j, update s.inodes a .freed b = .live j → j.sector ≠ i.sector := by
      intro b j hj he
      obtain ⟨hb, hj⟩ := Cell.update_freed hj
      exact hb (h.table.sector b a j i hj hi he)
    have hgone := hrep.remove hfile hname hclosed
    have hmap : A.files 0 = (A.remove i.sector i.data).files 0 := by
      simp [Store.remove, h0.symm]
    have hsector : Set.Ico i.sector (i.sector + 1) = {i.sector} := by
      ext y
      simp only [Set.mem_Ico, Set.mem_singleton_iff]
      omega
    refine .bind (freeMapRelease_ends hgone hf' (Nat.succ_le_of_lt hdisk.accessible.1) ?_) ?_
    · rw [hsector]
      exact fun y hy => .inr (.inl hy)
    rintro _ t ⟨hlead, hundisturbed, -, ht⟩
    have hft : FileReady t refs := by
      obtain ⟨f, hfile, href⟩ := hf'
      exact ⟨f, hlead.file.trans hfile, href⟩
    refine (freeMapRelease_ends ht hft ?_ ?_).mono ?_
    · rw [hlead.capacity]
      exact hdisk.inside
    · refine fun y hy => ⟨.inr (.inr hy), ?_⟩
      rw [hsector]
      rintro rfl
      exact h.ok.own _ _ hfile hy
    · rintro _ u ⟨hlead', hundisturbed', -, hu⟩
      have hfree : Leads A s { s with inodes := update s.inodes a .freed, openInodes := s.openInodes.erase a } :=
        ⟨rfl, rfl, id, fun _ _ _ _ hsync => hsync⟩
      have hdone := hundisturbed.trans hundisturbed' rfl
      exact ⟨(hfree.trans hlead hmap).trans hlead' hmap,
        .inr ⟨((A.remove i.sector i.data).free _).free _, h0, h1, hname, rfl, rfl, hdone, hu⟩⟩

/-- **`inode_close` takes a reference away**, and frees the sectors of a removed file with the
last. -/
theorem inodeClose_ends :
    Ends E (inodeClose (some a)) s fun _ t => Leads A s t ∧ ∃ B, Closed A B x ∧ Undisturbed B s t ∧ Rep t B refs := by
  refine (inodeClose_cases h hf).mono ?_
  rintro _ t ⟨hlead, ⟨hdisk, -, hrep⟩ | ⟨B, h0, h1, hname, hfiles, hslots, hundisturbed, hrep⟩⟩
  · exact ⟨hlead, A, .inl rfl, .of_eq hdisk, hrep⟩
  · exact ⟨hlead, B, .inr ⟨h0, h1, hname, hfiles, hslots⟩, hundisturbed, hrep⟩

end

end Pintos.Filesys
