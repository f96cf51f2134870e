import Pintos.Filesys.Interface

/-!
# Formatting and starting the file system

`filesys_init` makes a free map in which the first two sectors are marked, and then, on a
disk that is to be formatted, writes the file of the free map and an empty root directory.
At the end it reads the free map from its file.

When it returns after formatting, the file system is ready and has no files but these two
(`filesysInit_format`). With memory in plenty it returns on every disk that has room for
them and that can be accessed (`filesysInit_returns`). Without formatting, on the disk of a
file system that was ready, and whose free map was up to date on the disk, it is ready
again, with the same store (`filesysInit_restart`).
-/

namespace Pintos.Filesys

open Function InodeTable Lib Memory Program

variable {s t : Fs} {A : Store} {refs : List (ℕ × ℕ)} {E : Panic → Prop} {data : InodeDisk}

/-! ### The free map at the start -/

variable {b : Bitmap}

theorem freeMapInit_eq {capacity : ℕ} {block words : Option Bytes} (h : freeMapInit capacity block words = .ok b) :
    0 < capacity ∧ b.bitCnt = capacity ∧ ∀ i < capacity, b.bit i = true ↔ i = 0 ∨ i = 1 := by
  unfold freeMapInit at h
  obtain ⟨r, hrun, ⟨b₀, rfl, hcnt, hbit⟩ | ⟨rfl, -⟩⟩ :=
    bitmapCreate_eq block (if byteCnt capacity = 0 then none else words) capacity
  case inr =>
    rw [hrun] at h
    cases h
  rw [hrun] at h
  dsimp only at h
  have hcnt₀ := b₀.elemCnt_eq
  obtain rfl | hpos := Nat.eq_zero_or_pos capacity
  · have hmark : bitmapMark b₀ FREE_MAP_SECTOR = none := if_neg (by rw [hcnt₀, hcnt]; decide)
    rw [hmark] at h
    cases h
  · obtain ⟨b₁, hmark, hcnt₁, hbit₁⟩ := bitmapMark_eq (b := b₀) (i := 0) (by rw [hcnt₀, elemIdx]; omega)
    obtain ⟨b₂, hmark', hcnt₂, hbit₂⟩ := bitmapMark_eq (b := b₁) (i := 1) (by rw [hcnt₁, hcnt₀, elemIdx]; omega)
    have hmarks : (bitmapMark b₀ FREE_MAP_SECTOR).bind (bitmapMark · ROOT_DIR_SECTOR) = some b₂ := by
      show (bitmapMark b₀ 0).bind (bitmapMark · 1) = some b₂
      rw [hmark]
      exact hmark'
    rw [hmarks] at h
    obtain rfl : b₂ = b := Except.ok.inj h
    refine ⟨hpos, hcnt₂.trans (hcnt₁.trans hcnt), fun i hi => ?_⟩
    rw [hbit₂, hbit₁]
    by_cases h1 : i = 1
    · simp [h1]
    · by_cases h0 : i = 0
      · simp [h0]
      · rw [update_of_ne h1, update_of_ne h0, hbit i hi]
        simp [h0, h1]

theorem freeMapInit_returns {capacity : ℕ} {block words : Option Bytes} (h0 : 0 < capacity)
    (hlt : capacity + 31 < 2 ^ 32) (hblock : block ≠ none) (hwords : words ≠ none) :
    ∃ b, freeMapInit capacity block words = .ok b := by
  have hbytes : byteCnt capacity ≠ 0 := by
    unfold byteCnt elemCnt
    omega
  unfold freeMapInit
  rw [if_neg hbytes]
  obtain ⟨r, hrun, ⟨b₀, rfl, hcnt, -⟩ | ⟨rfl, hnone⟩⟩ := bitmapCreate_eq block words capacity
  · have hcnt₀ := b₀.elemCnt_eq
    obtain ⟨b₁, hmark, hcnt₁, -⟩ := bitmapMark_eq (b := b₀) (i := 0) (by rw [hcnt₀, elemIdx]; omega)
    obtain ⟨b₂, hmark', -, -⟩ := bitmapMark_eq (b := b₁) (i := 1) (by rw [hcnt₁, hcnt₀, elemIdx]; omega)
    refine ⟨b₂, ?_⟩
    rw [hrun]
    dsimp only
    rw [show bitmapMark b₀ FREE_MAP_SECTOR = some b₁ from hmark, Option.bind_some,
      show bitmapMark b₁ ROOT_DIR_SECTOR = some b₂ from hmark']
  · obtain h | h | h := hnone
    · exact absurd h hblock
    · exact absurd h hwords
    · omega

/-! ### The file of the free map -/

theorem Rep.openInodes_eq_nil (h : Rep s A []) : s.openInodes = [] := by
  refine List.eq_nil_iff_forall_not_mem.mpr fun a ha => ?_
  obtain ⟨i, hi⟩ := (h.table.listed a).mp ha
  exact absurd (h.table.pos a i hi) (Nat.lt_irrefl 0)

theorem bitmapRead_ends {file : Option File} {f : File} {i : Inode} (hfile : file = some f)
    (hi : s.inodes f.inode = .live i) (hholds : s.disk.Holds i.data) (hlen : byteCnt b.bitCnt ≤ i.data.length)
    (hpos : 0 < b.bitCnt) :
    Ends E (bitmapRead b file) s fun r t => t = s.shift ∧ (s.Plenty → r.1 = true) ∧ r.2.bitCnt = b.bitCnt ∧
      (r.1 = true → ∀ k < 32 * elemCnt b.bitCnt, r.2.bit k = (decide (k < b.bitCnt) && mapBit s.disk i.data k)) := by
  have hcount : flatCount i.data.length.toNat (byteCnt b.bitCnt) 0 = byteCnt b.bitCnt := flatCount_of_le (by omega)
  subst hfile
  rw [bitmapRead, if_pos hpos]
  refine .bind (readAt_ends hi hholds b.bytes (byteCnt b.bitCnt) 0) ?_
  rintro _ _ ⟨n, ⟨hn, hall, -⟩, rfl, rfl⟩
  rw [hcount] at hn hall
  refine .pure ⟨rfl, fun hp => ?_, rfl, fun hr k hk => ?_⟩
  · rw [hall hp]
    exact beq_self_eq_true _
  · obtain rfl : n = byteCnt b.bitCnt := by
      have : (n : ℤ) = byteCnt b.bitCnt := by simpa using hr
      omega
    have helem := b.elemCnt_eq
    have hwords : wordsOf (copy b.bytes 0 (fileBytes s.disk i.data) 0 (byteCnt b.bitCnt)) (k / 32) =
        wordsOf (fileBytes s.disk i.data) (k / 32) := by
      unfold wordsOf
      rw [word_congr fun j hj => ?_]
      rw [copy_of_mem (by omega) (by unfold byteCnt; omega), Nat.zero_add, Nat.sub_zero]
    unfold Bitmap.bit mapBit
    dsimp only
    by_cases hlast : k / 32 = elemCnt b.bitCnt - 1
    · have hmask := getLsbD_lastMask b hpos hlast
      rw [← hlast, update_self, BitVec.getLsbD_and, hmask, hwords, Bool.and_comm]
    · rw [update_of_ne hlast, hwords, decide_eq_true (by omega), Bool.true_and]

/-- **A bitmap that is written to a file is read back from it**, into a bitmap of the same size,
whatever the words of the two hold after the last bit; there the bits are clear then. Only for want
of memory one of the calls fails. -/
theorem bitmap_write_read {f : File} {i : Inode} {b' : Bitmap} (hpos : 0 < b.bitCnt) (hcnt : b'.bitCnt = b.bitCnt)
    (hi : s.inodes f.inode = .live i) (hholds : s.disk.Holds i.data) (hdeny : i.denyWriteCnt = 0)
    (hlen : byteCnt b.bitCnt ≤ i.data.length) :
    ∃ written t success r u, bitmapWrite b (some f) s = .ok (written, t) ∧
      bitmapRead b' (some f) t = .ok ((success, r), u) ∧ (s.Plenty → written = true ∧ success = true) ∧
      (written = true → success = true → r.bitCnt = b.bitCnt ∧
        ∀ k < 32 * elemCnt b.bitCnt, r.bit k = (decide (k < b.bitCnt) && b.bit k)) := by
  obtain ⟨written, t, hwrite, n, -, hn, hp, rfl⟩ :=
    (bitmapWrite_ends (b := b) rfl hi hholds hdeny hlen).returns
  obtain ⟨⟨success, r⟩, u, hread, -, hp', hcnt', hbits⟩ :=
    (bitmapRead_ends (b := b') (s := { s.shift with disk := s.disk.withMap i.data b n }) rfl hi
      (hholds.congr rfl) (hcnt ▸ hlen) (hcnt ▸ hpos)).returns
  refine ⟨written, _, success, r, u, hwrite, hread, fun h => ⟨hp h, hp' fun k => h _⟩, fun hw hr => ?_⟩
  obtain rfl := hn hw
  rw [hcnt] at hcnt' hbits
  refine ⟨hcnt', fun k hk => ?_⟩
  rw [hbits hr k hk]
  by_cases hlt : k < b.bitCnt
  · rw [mapBit_withMap s.disk i.data b hlt]
  · rw [decide_eq_false hlt, Bool.false_and, Bool.false_and]

/-- A bitmap of 33 bits, with a bit after them set, in a file of 8 bytes. -/
theorem bitmap_write_read_33 :
    ∃ s t u b, s.freeMap.bit 34 = true ∧ bitmapWrite s.freeMap (some ⟨0, 0, false⟩) s = .ok (true, t) ∧
      bitmapRead s.freeMap (some ⟨0, 0, false⟩) t = .ok ((true, b), u) ∧ b.bit 2 = true ∧ b.bit 34 = false := by
  let s : Fs := { Fs.start ⟨1, fun _ => 0⟩ ⟨33, fun _ => 6, by decide⟩ (fun _ => some fun _ => 0) (fun _ => 0) [] with
    inodes := fun _ => .live ⟨0, 1, false, ⟨0, 8⟩, 0⟩ }
  have hholds : s.disk.Holds ⟨0, 8⟩ := ⟨by decide, by decide⟩
  obtain ⟨written, t, success, b, u, hwrite, hread, hp, hbits⟩ :=
    bitmap_write_read (b := s.freeMap) (s := s) (f := ⟨0, 0, false⟩)
    (by decide) (rfl : s.freeMap.bitCnt = s.freeMap.bitCnt) rfl hholds rfl (by decide)
  obtain ⟨rfl, rfl⟩ := hp fun n => Option.some_ne_none _
  obtain ⟨-, hbit⟩ := hbits rfl rfl
  refine ⟨s, t, u, b, by decide, hwrite, hread, ?_, ?_⟩
  · rw [hbit 2 (by decide)]
    decide
  · rw [hbit 34 (by decide)]
    decide

/-- `free_map_open` opens the file of the free map and reads it: the free map becomes the map `b`
that is on the disk. Only for want of memory it fails. -/
theorem freeMapOpen_ends (hcnt : b.bitCnt = s.freeMap.bitCnt) (h : Rep { s with freeMap := b } A [])
    (h0 : A.files 0 = some data) (hsync : Synced { s with freeMap := b } data) (hE : s.Plenty ∨ ∀ e, E e) :
    Ends E freeMapOpen s fun _ t => t.disk = s.disk ∧ (s.Plenty → t.Plenty) ∧ t.freeMap.bitCnt = b.bitCnt ∧
      (∀ k < b.bitCnt, t.freeMap.bit k = b.bit k) ∧
      ∃ f, t.freeMapFile = some f ∧ f.denyWrite = false ∧ Rep t A [(0, f.inode)] := by
  have hopen : s.openInodes = [] := h.openInodes_eq_nil
  have hdisk : OnDisk s.disk FREE_MAP_SECTOR data := h.files 0 data h0
  have hpos : 0 < s.freeMap.bitCnt := by
    rw [← hcnt, h.size]
    exact Nat.lt_of_le_of_lt (Nat.zero_le _) hdisk.accessible.1
  have hlen : data.length = byteCnt s.freeMap.bitCnt := hcnt ▸ h.freeMap data h0
  -- A failure is for want of memory.
  have hfail : ∀ {n}, s.mem n = none → ∀ e, E e := fun hn => hE.resolve_left fun hp => hp _ hn
  have hscan : scan s.inodes FREE_MAP_SECTOR s.openInodes = some none := by
    rw [hopen]
    rfl
  refine .bind (inodeOpen_new hscan (.inl hdisk.accessible)) ?_
  rintro _ _ (⟨rfl, rfl, hmem⟩ | ⟨block, rfl, rfl⟩)
  case inl =>
    refine .bind (R := fun r _ => r = none) ?_ ?_
    · exact calloc_bind (fun _ => rfl) fun _ => rfl
    · rintro _ u rfl
      exact hfail hmem _
  rw [hdisk.decode_copy]
  have hclosed : ∀ a i, s.inodes a = .live i → i.sector ≠ 0 := fun a i hi => by
    have ha : a ∈ s.openInodes := (h.table.listed a).mpr ⟨i, hi⟩
    rw [hopen] at ha
    cases ha
  have hrep := h.openInode h0 hclosed
  refine .bind (R := fun r t => r = some ⟨s.next, 0, false⟩ ∧ t = (s.shift.opened 0 data).shift ∨
      r = none ∧ ∀ e, E e) ?_ ?_
  · refine calloc_bind (fun hmem => ?_) fun _ => .inl ⟨rfl, rfl⟩
    have hall := hfail (n := 1) hmem
    exact .bind (Ends.trivial hall) fun _ _ _ => .inr ⟨rfl, hall⟩
  rintro _ t (⟨rfl, rfl⟩ | ⟨rfl, hall⟩)
  case inr => exact hall _
  refine .get_bind (.set_bind ?_)
  have hlive : update s.inodes s.next (.live ⟨0, 1, false, data, 0⟩) s.next = .live ⟨0, 1, false, data, 0⟩ :=
    update_self _ _ _
  refine .bind (bitmapRead_ends rfl hlive hdisk.holds hlen.ge hpos) ?_
  rintro ⟨success, freeMap⟩ _ ⟨rfl, hplenty, hcnt', hread⟩
  rw [show (s.shift.opened 0 data).shift.freeMap.bitCnt = b.bitCnt from hcnt.symm] at hcnt' hread
  have hbits : success = true → ∀ k < b.bitCnt, freeMap.bit k = b.bit k := by
    intro hr k hk
    have helem := b.elemCnt_eq
    rw [hread hr k (by omega), decide_eq_true hk, Bool.true_and]
    exact hsync k hk
  cases success with
  | false =>
    refine hE.elim (fun hp => ?_) (fun hall => hall _)
    exact absurd (hplenty fun n => hp (n + 1 + 1)) Bool.false_ne_true
  | true =>
    have hmap := hrep.setMap hcnt' (fun k hk => hbits rfl k (hcnt' ▸ hk))
    exact ⟨rfl, fun hp n => hp _, hcnt', hbits rfl, _, rfl, rfl, hmap.reframe _ _⟩

theorem freeMapCreate_ends (h : Rep s A []) (hnone : s.freeMapFile = none) (hres : 0 ∈ A.reserved)
    (hE : (s.Plenty ∧ s.disk.capacity ≤ 2 ^ 28 ∧
      ∃ i, s.freeMap.Group (bytesToSectors (byteCnt s.freeMap.bitCnt)) false i) ∨ ∀ e, E e) :
    Ends E freeMapCreate s fun _ t => t.disk.capacity = s.disk.capacity ∧ (s.Plenty → t.Plenty) ∧
      ∃ (data : InodeDisk) (f : File), data.length = byteCnt s.freeMap.bitCnt ∧ Disjoint data.extent A.used ∧
        t.freeMapFile = some f ∧ f.denyWrite = false ∧ Rep t ((A.take data.extent).create 0 data) [(0, f.inode)] := by
  have hsmall : (byteCnt s.freeMap.bitCnt : ℤ) < 2 ^ 31 := by
    have := s.freeMap.fits
    unfold byteCnt
    rw [s.freeMap.elemCnt_eq]
    omega
  -- A failure is for want of memory.
  have hfail : ¬ s.Plenty → ∀ e, E e := fun hshort => hE.resolve_left fun hand => hshort hand.1
  refine .get_bind (.bind (inodeCreate_ends h (fun f hf => absurd (hnone.symm.trans hf) nofun) hres
    (Int.natCast_nonneg _) hsmall fun hbig => hE.elim (fun hand => by omega) fun hall => hall _) ?_)
  rintro _ t ⟨hlead, -, -, ⟨rfl, data, hlen, hdisj, hrep, hon, -, -⟩ | ⟨rfl, -, hnogroup⟩⟩
  case inr =>
    refine hE.elim (fun ⟨hp, _, i, hi⟩ => absurd hi (hnogroup hp i)) fun hall => hall _
  have hused : 0 ∈ A.used := h.ok.sound.used none hres
  have hown : 0 ∉ data.extent := fun hmem => Set.disjoint_left.mp hdisj hmem hused
  have hcnt : t.freeMap.bitCnt = s.freeMap.bitCnt := by rw [hrep.size, hlead.capacity, h.size]
  have hrep := hrep.create (Set.insert_subset (.inl hres) Set.subset_union_right) hown hon
    (fun _ => by rw [hlen, hcnt]) nofun
  have h0 : ((A.take data.extent).create 0 data).files 0 = some data := by
    show update A.files 0 (some data) 0 = some data
    rw [update_self]
  refine .bind (inodeOpen_ends hrep h0) ?_
  rintro _ u ⟨hlead', -, ⟨a, rfl, hrep'⟩ | ⟨rfl, hrep', hshort⟩⟩
  case inr =>
    have hall := hfail fun hp => hshort (hlead.plenty hp)
    exact .bind (openWith_none _ hrep') fun _ _ ⟨hr, _⟩ => by rw [hr]; exact hall _
  refine .bind (openWith_ends _ hrep' (.inl rfl)) ?_
  rintro _ v ⟨hlead'', ⟨rfl, -, hrep''⟩ | ⟨rfl, hshort, -⟩⟩
  case inr =>
    exact hfail (fun hp => hshort (hlead'.plenty (hlead.plenty hp))) _
  obtain ⟨i, hi, -, hi0, hdeny⟩ := hrep''.inode_of_ref List.mem_cons_self
  obtain rfl : i.data = data := Option.some.inj (hi0.symm.trans h0)
  refine .get_bind (.set_bind (.bind (bitmapWrite_ends (s := { v with freeMapFile := some ⟨a, 0, false⟩ })
    rfl hi (hrep''.files 0 _ h0).holds hdeny (hrep''.freeMap _ h0).ge) ?_))
  rintro written _ ⟨n, hn, -, hwritten, rfl⟩
  cases written with
  | false =>
    exact hfail (fun hp => absurd (hwritten (hlead''.plenty (hlead'.plenty (hlead.plenty hp)))) Bool.false_ne_true) _
  | true =>
    refine .pure ⟨((hlead''.capacity.trans hlead'.capacity).trans hlead.capacity), fun hp n => ?_, i.data,
      ⟨a, 0, false⟩, hlen, hdisj, rfl, rfl, (hrep''.withMap h0 v.freeMap hn).reframe _ _⟩
    exact hlead''.plenty (hlead'.plenty (hlead.plenty hp)) (n + 1)

/-! ### Formatting -/

/-- The store when nothing is on the disk: two sectors are set aside. -/
def Store.initial : Store := ⟨{0, 1}, {0, 1}, fun _ => none, fun _ => none⟩

/-- The store of a formatted disk: the free map and the directory, no names. -/
structure Store.Formatted (A : Store) (mapData : InodeDisk) : Prop where
  /-- The file of the free map. -/
  map : A.files 0 = some mapData
  /-- The directory. -/
  root : ∃ data, A.files 1 = some data
  /-- No other files. -/
  files : ∀ x, x ≠ 0 → x ≠ 1 → A.files x = none
  /-- No names. -/
  slots : A.slots = fun _ => none
  /-- No other sectors are used. -/
  used : ∀ data, A.files 1 = some data → A.used ⊆ region 0 mapData ∪ region 1 data

theorem slot_of_zero {c : Bytes} {k : ℕ} (h : c (20 * k + 19) = 0) : slot c k = none := by
  unfold slot entrySlot entryInUse entry
  rw [h]
  rfl

theorem doFormat_ends (h : Rep s Store.initial []) (hnone : s.freeMapFile = none)
    (hE : (s.Plenty ∧ s.disk.capacity ≤ 2 ^ 28 ∧
      3 + bytesToSectors (byteCnt s.freeMap.bitCnt) ≤ s.disk.capacity) ∨ ∀ e, E e) :
    Ends E doFormat s fun _ t => t.disk.capacity = s.disk.capacity ∧ (s.Plenty → t.Plenty) ∧
      ∃ A map, Store.Formatted A map ∧ Synced t map ∧ Rep t A [] := by
  have hfree : ∀ k, 2 ≤ k → k ∉ Store.initial.used := fun k hk hmem => by
    obtain rfl | rfl := hmem <;> omega
  have hgroup : s.Plenty ∧ s.disk.capacity ≤ 2 ^ 28 ∧
      3 + bytesToSectors (byteCnt s.freeMap.bitCnt) ≤ s.disk.capacity → s.Plenty ∧ s.disk.capacity ≤ 2 ^ 28 ∧
      ∃ i, s.freeMap.Group (bytesToSectors (byteCnt s.freeMap.bitCnt)) false i := fun ⟨hp, hcap, hroom⟩ =>
    ⟨hp, hcap, 2, h.group (by omega) fun k hk _ => hfree k hk⟩
  refine .bind (freeMapCreate_ends h hnone (.inl rfl) (hE.imp_left hgroup)) ?_
  rintro _ t ⟨hcap, hplenty, map, f, hlen, hdisj, hfile, hdeny, hrep⟩
  have h1used : (1 : ℕ) ∈ Store.initial.used := .inr rfl
  have h1map : 1 ∉ map.extent := fun hmem => Set.disjoint_left.mp hdisj hmem h1used
  have h1res : 1 ∈ ((Store.initial.take map.extent).create 0 map).reserved :=
    ⟨.inl (.inr rfl), fun hmem => hmem.elim (by decide) h1map⟩
  have h0map : ((Store.initial.take map.extent).create 0 map).files 0 = some map := by
    show update (fun _ => none) 0 (some map) 0 = some map
    rw [update_self]
  refine .bind (inodeCreate_ends hrep (fun g hg => ?_) h1res (by decide) (by decide) fun hbig => ?_) ?_
  · obtain rfl : f = g := Option.some.inj (hfile.symm.trans hg)
    exact List.mem_cons_self
  · exact hE.elim (fun hand => by omega) fun hall => hall _
  rintro _ u ⟨hlead, -, -, ⟨rfl, data, hlen', hdisj', hrep', hon, hzero, hsync⟩ | ⟨rfl, -, hnogroup⟩⟩
  case inr =>
    obtain ⟨hp, -, hroom⟩ | hall := hE
    · have hone : bytesToSectors (16 * 20 : ℕ) = 1 := by decide
      have hother : ∀ i, 2 ≤ i → i < s.disk.capacity → i ∈ map.extent := by
        intro i hi hlt
        by_contra hmem
        refine hnogroup (hplenty hp) i (hrep.group ?_ fun k hk hk' => ?_)
        · omega
        · obtain rfl : k = i := by omega
          exact fun hused => hused.elim (hfree k hi) hmem
      have hextent : ∀ i, i ∈ map.extent ↔ map.start ≤ i ∧ i < map.start + bytesToSectors (byteCnt s.freeMap.bitCnt) := by
        intro i
        rw [← hlen]
        exact Iff.rfl
      have htwo := hother 2 (by omega) (by omega)
      have hlast := hother (2 + bytesToSectors (byteCnt s.freeMap.bitCnt)) (by omega) (by omega)
      rw [hextent] at htwo hlast
      omega
    · exact hall _
  have hown : 1 ∉ data.extent := fun hmem => Set.disjoint_left.mp hdisj' hmem (.inl h1used)
  have hstart : ∀ k < 16, slot (fileBytes u.disk data) k = none := by
    intro k hk
    refine slot_of_zero (hzero _ ?_)
    have hone : bytesToSectors (16 * 20 : ℕ) = 1 := by decide
    show data.start ≤ _ ∧ _ < data.start + bytesToSectors data.length
    rw [hlen', hone]
    omega
  have hrep' := hrep'.create (x := 1) (Set.insert_subset (.inl h1res) Set.subset_union_right) hown hon nofun
    fun _ => ⟨hlen', hstart⟩
  refine .get_bind ?_
  rw [hlead.file, hfile, fileClose_eq hdeny]
  refine (inodeClose_cases hrep' (.inl rfl)).mono ?_
  rintro _ v ⟨hlead', ⟨hdisk, hmap, hdone⟩ | ⟨-, h0, -⟩⟩
  case inr => exact absurd rfl h0
  have h1 : ((((Store.initial.take map.extent).create 0 map).take data.extent).create 1 data).files 1 = some data := by
    show update ((Store.initial.take map.extent).create 0 map).files 1 (some data) 1 = _
    rw [update_self]
  refine ⟨hlead'.capacity.trans (hlead.capacity.trans hcap), fun hp => hlead'.plenty (hlead.plenty (hplenty hp)), _, map,
    ⟨?_, ⟨data, h1⟩, fun x hx0 hx1 => ?_, rfl, fun d hd => ?_⟩, ?_, hdone⟩
  · show update ((Store.initial.take map.extent).create 0 map).files 1 (some data) 0 = _
    rw [update_of_ne (by decide), h0map]
  · show update (update (fun _ => none) 0 (some map)) 1 (some data) x = none
    rw [update_of_ne hx1, update_of_ne hx0]
  · obtain rfl : data = d := Option.some.inj (h1.symm.trans hd)
    rintro y ((hy | hy) | hy)
    · exact hy.imp (fun he => .inl he) fun he => .inl he
    · exact .inl (.inr hy)
    · exact .inr (.inr hy)
  · have hsync := hsync map h0map (by rw [hfile]; nofun)
    unfold Synced at hsync ⊢
    rw [hdisk, hmap]
    exact hsync

variable {disk : Disk}

section Start

variable {freeMap : Bitmap} (mem : ℕ → Option Bytes) (stack : Bytes) (h2 : 2 ≤ disk.capacity)
  (hcnt : freeMap.bitCnt = disk.capacity) (hbit : ∀ i < disk.capacity, freeMap.bit i = true ↔ i = 0 ∨ i = 1)
include h2 hcnt hbit

theorem rep_start : Rep (Fs.start disk freeMap mem stack []) Store.initial [] := by
  refine ⟨⟨⟨fun k l hkl => ?_, fun k => ?_⟩, nofun, nofun, nofun⟩,
    ⟨by simp [Fs.table, Fs.start], List.nodup_nil, nofun, nofun, nofun,
    nofun, fun _ _ => rfl⟩, hcnt, fun i => ?_, rfl, trivial, nofun, nofun, nofun, nofun, nofun, nofun, nofun⟩
  · cases k <;> cases l <;> simp_all [Store.held, Store.initial]
  · cases k <;> simp [Store.held, Store.initial]
  · show i = 0 ∨ i = 1 ↔ i < freeMap.bitCnt ∧ freeMap.bit i = true
    rw [hcnt]
    refine ⟨fun hi => ?_, fun hand => (hbit i hand.1).mp hand.2⟩
    have hlt : i < disk.capacity := by omega
    exact ⟨hlt, (hbit i hlt).mpr hi⟩

theorem format_ends (hE : ((∀ n, mem n ≠ none) ∧ disk.capacity ≤ 2 ^ 28 ∧
      3 + bytesToSectors (byteCnt disk.capacity) ≤ disk.capacity) ∨ ∀ e, E e) :
    Ends E (doFormat >>= fun _ => freeMapOpen) (Fs.start disk freeMap mem stack []) fun _ t =>
      t.disk.capacity = disk.capacity ∧ ((∀ n, mem n ≠ none) → t.Plenty) ∧
        ∃ A map a, Store.Formatted A map ∧ Synced t map ∧ Ready t A [(0, a)] := by
  refine .bind (doFormat_ends (rep_start mem stack h2 hcnt hbit) rfl ?_) ?_
  · rw [show (Fs.start disk freeMap mem stack []).freeMap.bitCnt = _ from hcnt]
    exact hE
  rintro _ t ⟨hcap, hplenty, A, map, hformatted, hsync, hrep⟩
  refine (freeMapOpen_ends rfl hrep hformatted.map hsync (hE.imp_left fun hand => hplenty hand.1)).mono ?_
  rintro _ u ⟨hdisk, hplenty', hcnt', hbits, f, hfile, -, hrep'⟩
  refine ⟨by rw [hdisk]; exact hcap, fun hp => hplenty' (hplenty hp), A, map, f.inode, hformatted, fun i hi => ?_,
    ⟨hrep', ⟨f, hfile, List.mem_cons_self⟩, hformatted.root⟩⟩
  rw [hcnt'] at hi
  rw [hdisk, hbits i hi]
  exact hsync i hi

end Start

theorem freeMapAllocate_none (cnt : ℕ) (h : ∀ i, ¬ s.freeMap.Group cnt false i) :
    Ends E (freeMapAllocate cnt) s fun r _ => r = none := by
  refine .get_bind ?_
  obtain ⟨start, b, -, hleast, -⟩ | ⟨hscan, -⟩ := bitmapScanAndFlip_eq cnt false (Nat.zero_le s.freeMap.bitCnt)
  · exact absurd hleast.1.2 (h start)
  · rw [hscan]
    rfl

theorem inodeCreate_none {length : ℤ} (h0 : 0 ≤ length) (h : ∀ i, ¬ s.freeMap.Group (bytesToSectors length) false i)
    (sector : ℕ) : Ends E (inodeCreate sector length) s fun r _ => r = false := by
  unfold inodeCreate
  rw [if_neg (Int.not_lt.mpr h0)]
  refine calloc_bind (fun _ => rfl) fun _ => ?_
  refine .bind (freeMapAllocate_none (s := s.shift) _ h) ?_
  rintro _ t rfl
  rfl

theorem doFormat_small (hcnt : s.freeMap.bitCnt = 1) (hbit : s.freeMap.bit 0 = true) :
    Ends (fun _ => True) doFormat s fun _ _ => False := by
  have hnone : ∀ i, ¬ s.freeMap.Group (bytesToSectors (byteCnt s.freeMap.bitCnt)) false i := by
    rintro i ⟨hle, hall⟩
    have hone : bytesToSectors (byteCnt 1 : ℕ) = 1 := by decide
    rw [hcnt, hone] at hle hall
    obtain rfl : i = 0 := by omega
    rw [hall 0 (Nat.le_refl 0) (by omega)] at hbit
    cases hbit
  refine .bind (R := fun _ _ => False) (.get_bind ?_) (fun _ _ => False.elim)
  refine .bind (inodeCreate_none (Int.natCast_nonneg _) hnone FREE_MAP_SECTOR) ?_
  rintro _ t rfl
  trivial

variable {mem : ℕ → Option Bytes}

theorem filesysInit_eq {format : Bool} {stack : Bytes} {log : List Event}
    (hb : freeMapInit disk.capacity (mem 0) (mem 1) = .ok b) :
    filesysInit format disk mem stack log =
      (((if format then doFormat else return ()) >>= fun _ => freeMapOpen : FsM Unit)
        (Fs.start disk b (fun n => mem (n + 2)) stack log)).map Prod.snd := by
  unfold filesysInit
  rw [hb]
  rfl

/-- **When a disk was formatted the file system is ready.** -/
theorem filesysInit_format {stack : Bytes} (h : filesysInit true disk mem stack [] = .ok s) :
    s.disk.capacity = disk.capacity ∧ ((∀ n, mem n ≠ none) → s.Plenty) ∧
      ∃ A map a, Store.Formatted A map ∧ Synced s map ∧ Ready s A [(0, a)] := by
  cases hb : freeMapInit disk.capacity (mem 0) (mem 1) with
  | error e =>
    unfold filesysInit at h
    rw [hb] at h
    cases h
  | ok b =>
    obtain ⟨hpos, hcnt, hbit⟩ := freeMapInit_eq hb
    rw [filesysInit_eq hb, if_pos rfl] at h
    cases hrun : (doFormat >>= fun _ => freeMapOpen : FsM Unit) (Fs.start disk b (fun n => mem (n + 2)) stack []) with
    | error e =>
      rw [hrun] at h
      cases h
    | ok r =>
      obtain ⟨⟨⟩, t⟩ := r
      rw [hrun] at h
      obtain rfl : t = s := Except.ok.inj h
      obtain h2 | h1 := Nat.lt_or_ge 1 disk.capacity
      · obtain ⟨hcap, hplenty, hrest⟩ := (format_ends (E := fun _ => True) (fun n => mem (n + 2)) stack h2 hcnt hbit
          (.inr fun _ => trivial)).of_ok hrun
        exact ⟨hcap, fun hp => hplenty fun n => hp _, hrest⟩
      · have hsmall := doFormat_small (s := Fs.start disk b (fun n => mem (n + 2)) stack []) (hcnt.trans (by omega))
          ((hbit 0 hpos).mpr (.inl rfl))
        exact ((Ends.bind (P := fun _ _ => False) hsmall fun _ _ => False.elim).of_ok hrun).elim

/-- **With memory and room a disk can be formatted.** -/
theorem filesysInit_returns (stack : Bytes) (hmem : ∀ n, mem n ≠ none)
    (hcap : disk.capacity ≤ 2 ^ 28) (hroom : 3 + bytesToSectors (byteCnt disk.capacity) ≤ disk.capacity) :
    ∃ s, filesysInit true disk mem stack [] = .ok s := by
  obtain ⟨b, hb⟩ := freeMapInit_returns (show 0 < disk.capacity by omega) (by omega) (hmem 0) (hmem 1)
  obtain ⟨-, hcnt, hbit⟩ := freeMapInit_eq hb
  obtain ⟨⟨⟩, t, hrun, -⟩ := (format_ends (fun n => mem (n + 2)) stack (by omega) hcnt hbit
    (.inl ⟨fun n => hmem _, hcap, hroom⟩)).returns
  refine ⟨t, ?_⟩
  rw [filesysInit_eq hb, if_pos rfl, hrun]
  rfl

/-- **A file system whose free map is up to date on the disk can be started again.** -/
theorem filesysInit_restart (h : Ready s A refs) (h0 : A.files 0 = some data)
    (hsync : Synced s data) (hmem : ∀ n, mem n ≠ none) (stack : Bytes) :
    ∃ t a, filesysInit false s.disk mem stack s.log = .ok t ∧ t.disk = s.disk ∧ t.Plenty ∧
      t.freeMap.bitCnt = s.freeMap.bitCnt ∧ (∀ i < s.freeMap.bitCnt, t.freeMap.bit i = s.freeMap.bit i) ∧
      Ready t A [(0, a)] := by
  have hrep := h.rep
  have hfits := s.freeMap.fits
  rw [hrep.size] at hfits
  have hpos : 0 < s.disk.capacity := Nat.lt_of_le_of_lt (Nat.zero_le _) (hrep.files 0 data h0).accessible.1
  obtain ⟨b, hb⟩ := freeMapInit_returns hpos hfits (hmem 0) (hmem 1)
  obtain ⟨-, hcnt, -⟩ := freeMapInit_eq hb
  have hstart : Rep { Fs.start s.disk b (fun n => mem (n + 2)) stack s.log with freeMap := s.freeMap } A [] :=
    ⟨hrep.ok, ⟨by simp [Fs.table, Fs.start], List.nodup_nil, nofun, nofun, nofun, nofun, fun _ _ => rfl⟩, hrep.size,
      hrep.used, hrep.handed, hrep.once, hrep.files, hrep.freeMap, hrep.dir, hrep.slots, nofun, nofun, nofun⟩
  obtain ⟨⟨⟩, t, hrun, hdisk, hplenty, hcnt', hbits, f, hfile, -, hrep'⟩ := (freeMapOpen_ends (E := fun _ => False)
    (hrep.size.trans hcnt.symm) hstart h0 hsync (.inl fun n => hmem _)).returns
  refine ⟨t, f.inode, ?_, hdisk, hplenty fun n => hmem _, hcnt', hbits, hrep', ⟨f, hfile, List.mem_cons_self⟩, h.root⟩
  rw [filesysInit_eq hb, if_neg Bool.false_ne_true]
  show Except.map Prod.snd (freeMapOpen _) = _
  rw [hrun]
  rfl

end Pintos.Filesys
