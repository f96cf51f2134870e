import Pintos.Filesys.Format

/-!
# What an inode counts

An inode counts its openers (`open_cnt`), and those of them that deny writes (`deny_write_cnt`). The
openers are the handles of files and directories; `Counted s hs deny` says that the inodes in memory
count the handles in the list `hs`, of which `deny` of each inode deny writes.

Nothing is assumed about the disk here: a directory may name any sectors, and a sector may hold no
inode. Functions that read and write the disk leave the inodes in memory alone (`Keeps`).
`inode_open`, `inode_reopen` and `inode_close` change the list of handles by one, and
`file_deny_write` and `file_allow_write` change what is denied. So the functions of `filesys.c`
leave the list as it was, or add the handle they return.

A function stops only with a panic that has nothing to do with handles (`Tolerated`): a disk with
wrong contents can cause one. While the file system starts nothing is asked of a panic.
-/

namespace Pintos.Filesys

open Memory Lib InodeTable Program

/-! ### The functions -/

def fileReopen (file : File) : FsM (Option File) := do
  fileOpen (← inodeReopen (some file.inode))

def dirReopen (dir : Dir) : FsM (Option Dir) := do
  dirOpen (← inodeReopen (some dir.inode))

def inodeDenyWrite (a : ℕ) : FsM Unit := do
  let inode ← getInode a
  if inode.denyWriteCnt + 1 ≤ inode.openCnt then setInode a { inode with denyWriteCnt := inode.denyWriteCnt + 1 }
  else throw (.halt "assertion `inode->deny_write_cnt <= inode->open_cnt' failed.")

def fileDenyWrite (file : File) : FsM File :=
  if file.denyWrite then return file
  else do
    inodeDenyWrite file.inode
    return { file with denyWrite := true }

/-- `file_read`: the number of bytes read, the buffer, and the handle. -/
def fileRead (file : File) (buffer : Bytes) (size : ℤ) : FsM (ℤ × Bytes × File) := do
  let (bytesRead, buffer) ← readAt file.inode buffer size file.pos
  return (bytesRead, buffer, { file with pos := file.pos + bytesRead })

/-- `file_write`: the number of bytes written, and the handle. -/
def fileWrite (file : File) (buffer : Bytes) (size : ℤ) : FsM (ℤ × File) := do
  let bytesWritten ← writeAt file.inode buffer size file.pos
  return (bytesWritten, { file with pos := file.pos + bytesWritten })

/-- The panics that have nothing to do with handles. -/
def Tolerated : Panic → Prop
  | .selectSector | .bitmap | .bitmapAll | .inodeCreate => True
  | _ => False

/-! ### What reading and writing does -/

/-- The inodes in memory stay as they are. -/
structure Keeps (s t : Fs) : Prop where
  inodes : t.inodes = s.inodes
  openInodes : t.openInodes = s.openInodes
  next : t.next = s.next
  freeMapFile : t.freeMapFile = s.freeMapFile

section Keeps

variable {s t u : Fs} {E : Panic → Prop} {a : ℕ} {i : Inode}

theorem Keeps.refl (s : Fs) : Keeps s s := ⟨rfl, rfl, rfl, rfl⟩

theorem Keeps.trans (h : Keeps s t) (h' : Keeps t u) : Keeps s u :=
  ⟨h'.inodes.trans h.inodes, h'.openInodes.trans h.openInodes, h'.next.trans h.next, h'.freeMapFile.trans h.freeMapFile⟩

theorem Keeps.shift (s : Fs) : Keeps s s.shift := ⟨rfl, rfl, rfl, rfl⟩

variable {buffer : Bytes} {e : Panic} {d : Disk}

theorem diskRead_error {secNo b : ℕ} (h : diskRead d secNo buffer b = .error e) : e = .selectSector := by
  unfold diskRead at h
  split at h
  · cases h
  · cases h
    rfl

theorem diskWrite_error {secNo b : ℕ} (h : diskWrite d secNo buffer b = .error e) : e = .selectSector := by
  unfold diskWrite at h
  split at h
  · cases h
  · cases h
    rfl

theorem transferLoop_bound {σ : Type} (data : InodeDisk) {pass : Chunk → ℤ → σ → Except Panic (Option σ)}
    (hpass : ∀ c done s e, pass c done s = .error e → e = .selectSector) (s : σ) (size offset done : ℤ) :
    (∀ e, transferLoop data pass s size offset done = .error e → e = .selectSector) ∧
      ∀ n t, transferLoop data pass s size offset done = .ok (n, t) → n = done ∨ offset + (n - done) ≤ data.length := by
  fun_induction transferLoop data pass s size offset done with
  | case1 | case3 | case5 =>
    refine ⟨fun e he => (by cases he), fun n t hn => .inl ?_⟩
    cases hn
    rfl
  | case2 _ _ _ _ _ _ _ e he =>
    refine ⟨fun e' he' => ?_, fun n t hn => (by cases hn)⟩
    cases he'
    exact hpass _ _ _ _ he
  | case4 _ size offset done _ c _ _ _ ih =>
    refine ⟨ih.1, fun n t hn => .inr ?_⟩
    have hle : c.chunkSize ≤ data.length - offset := by
      show (chunk data size offset).chunkSize ≤ _
      simp only [chunk]
      split_ifs <;> omega
    have := ih.2 n t hn
    omega

variable {mem : Option Bytes} {c : Chunk} {n : ℤ}

theorem readChunk_error {v : Option Bytes × Bytes} (h : readChunk d mem c n v = .error e) : e = .selectSector := by
  simp only [readChunk] at h
  split at h
  · obtain hread | ⟨b, hb⟩ := error_of_bind h
    · exact diskRead_error hread
    · cases hb
  · split at h
    · cases h
    · obtain hread | ⟨b, hb⟩ := error_of_bind h
      · exact diskRead_error hread
      · cases hb

theorem writeBlock_error {bounce : Option Bytes}
    (h : writeBlock d mem buffer c n bounce = .error e) : e = .selectSector := by
  simp only [writeBlock] at h
  split at h
  · cases h
  · split at h
    · cases h
    · split at h
      · obtain hread | ⟨b, hb⟩ := error_of_bind h
        · exact diskRead_error hread
        · cases hb
      · cases h

theorem writeChunk_error {v : Option Bytes × Disk}
    (h : writeChunk mem buffer c n v = .error e) : e = .selectSector := by
  obtain ⟨bounce, d⟩ := v
  obtain hblock | ⟨r, hr⟩ := error_of_bind h
  · exact writeBlock_error hblock
  · split at hr
    · cases hr
    · obtain hwrite | ⟨d', hd'⟩ := error_of_bind hr
      · exact diskWrite_error hwrite
      · cases hd'

theorem inodeWriteAt_error {size offset : ℤ}
    (h : inodeWriteAt d i mem buffer size offset = .error e) : e = .selectSector := by
  unfold inodeWriteAt at h
  split at h
  · cases h
  · obtain hloop | ⟨r, hr⟩ := error_of_bind h
    · exact (transferLoop_bound _ (fun _ _ _ _ => writeChunk_error) _ _ _ _).1 e hloop
    · cases hr

theorem readAt_keeps (hi : s.inodes a = .live i) (hE : E .selectSector) (buffer : Bytes) (size offset : ℤ) :
    Ends E (readAt a buffer size offset) s fun r t => Keeps s t ∧ (r.1 = 0 ∨ offset + r.1 ≤ i.data.length) := by
  refine getInode_bind hi (malloc_bind (.get_bind ?_))
  have hchunk : ∀ c n v e, readChunk s.disk (s.mem 0) c n v = .error e → e = .selectSector := fun _ _ _ _ => readChunk_error
  obtain ⟨herror, hok⟩ := transferLoop_bound i.data hchunk (none, buffer) size offset 0
  show Ends E (liftM (inodeReadAt s.disk i (s.mem 0) buffer size offset)) s.shift _
  cases hloop : transferLoop i.data (readChunk s.disk (s.mem 0)) (none, buffer) size offset 0 with
  | error e =>
    have hread : inodeReadAt s.disk i (s.mem 0) buffer size offset = .error e := by
      unfold inodeReadAt
      rw [hloop]
      rfl
    rw [hread]
    rw [herror e hloop]
    exact hE
  | ok r =>
    have hread : inodeReadAt s.disk i (s.mem 0) buffer size offset = .ok (r.1, r.2.2) := by
      unfold inodeReadAt
      rw [hloop]
      rfl
    refine .lift hread ⟨.shift s, ?_⟩
    have := hok r.1 r.2 hloop
    simpa using this

theorem writeAt_keeps (hlive : (∃ i, s.inodes a = .live i) ∨ ∀ e, E e) (hE : E .selectSector) (buffer : Bytes)
    (size offset : ℤ) : Ends E (writeAt a buffer size offset) s fun _ => Keeps s := by
  by_cases hcell : ∃ i, s.inodes a = .live i
  · obtain ⟨i, hi⟩ := hcell
    refine getInode_bind hi (malloc_bind (.get_bind ?_))
    cases hwrite : inodeWriteAt s.disk i (s.mem 0) buffer size offset with
    | ok r => exact .lift_bind hwrite (.set_bind (.pure ⟨rfl, rfl, rfl, rfl⟩))
    | error e => exact .lift_bind_error hwrite (inodeWriteAt_error hwrite ▸ hE)
  · have hall := hlive.resolve_left hcell
    have hrun : writeAt a buffer size offset s = .error .useAfterFree := by
      refine bind_run_error ?_
      rw [getInode, get_bind_run]
      cases hc : s.inodes a with
      | live i => exact absurd ⟨i, hc⟩ hcell
      | unused | freed => rfl
    unfold Ends
    rw [hrun]
    exact hall _

variable {α : Type}

section

variable (hi : s.inodes a = .live i)
include hi

/-- A function that looks at an inode in memory and asks for a block. -/
theorem getInode_malloc_run (f : Inode → Option Bytes → Fs → FsM α) :
    (do f (← getInode a) (← malloc) (← get)) s = f i (s.mem 0) s.shift s.shift := by
  have hget : getInode a s = .ok (i, s) := by
    rw [getInode, get_bind_run, hi]
    rfl
  have hmalloc : malloc s = .ok (s.mem 0, s.shift) := rfl
  exact (bind_run_ok hget).trans ((bind_run_ok hmalloc).trans (get_bind_run _ _))

theorem readAt_run {size offset : ℤ} {r : ℤ × Bytes}
    (hread : inodeReadAt s.disk i (s.mem 0) buffer size offset = .ok r) :
    readAt a buffer size offset s = .ok (r, s.shift) := by
  refine (getInode_malloc_run hi fun i mem s => liftM (inodeReadAt s.disk i mem buffer size offset)).trans ?_
  show (liftM (inodeReadAt s.disk i (s.mem 0) buffer size offset) : FsM _) s.shift = _
  rw [hread]
  rfl

theorem writeAt_run {size offset : ℤ} {r : ℤ × Disk}
    (hwrite : inodeWriteAt s.disk i (s.mem 0) buffer size offset = .ok r) :
    writeAt a buffer size offset s = .ok (r.1, { s.shift with disk := r.2 }) :=
  (getInode_malloc_run hi _).trans (lift_bind_run hwrite _ s.shift)

theorem writeAt_denied (hdeny : i.denyWriteCnt ≠ 0) (buffer : Bytes) (size offset : ℤ) :
    writeAt a buffer size offset s = .ok (0, s.shift) :=
  writeAt_run hi (if_pos hdeny)

end

theorem writeSector_keeps (hE : E .selectSector) (secNo : ℕ) (block : Bytes) :
    Ends E (writeSector secNo block) s fun _ => Keeps s := by
  refine .get_bind ?_
  by_cases hok : s.disk.Accessible secNo
  · exact .lift_bind (diskWrite_eq hok block 0) ⟨rfl, rfl, rfl, rfl⟩
  · exact .lift_bind_error (if_neg hok) hE

theorem Ends.keeps_bind {β : Type} {x : FsM α} {f : α → FsM β} (hx : Ends E x s fun _ => Keeps s)
    (hf : ∀ v t, Keeps s t → Ends E (f v) t fun _ u => Keeps t u) : Ends E (x >>= f) s fun _ u => Keeps s u :=
  Ends.bind hx fun v t ht => (hf v t ht).mono fun _ _ hu => ht.trans hu

theorem writeZeros_keeps (hE : E .selectSector) (n secNo : ℕ) :
    Ends E (writeZeros n secNo) s fun _ => Keeps s := by
  induction n generalizing s secNo with
  | zero => exact .refl s
  | succ n ih => exact Ends.keeps_bind (writeSector_keeps hE _ _) fun _ t _ => ih (secNo + 1)

/-! ### The free map -/

/-- The file of the free map is open; or nothing is asked of a panic. -/
def Backed (E : Panic → Prop) (s : Fs) : Prop := (∃ f i, s.freeMapFile = some f ∧ s.inodes f.inode = .live i) ∨ ∀ e, E e

section

variable (h : Backed E s)
include h

theorem Backed.keeps (hk : Keeps s t) : Backed E t := by
  rcases h with ⟨f, i, hf, hi⟩ | hall
  · exact .inl ⟨f, i, hk.freeMapFile.trans hf, hk.inodes ▸ hi⟩
  · exact .inr hall

theorem Backed.live {f : File} (hf : s.freeMapFile = some f) :
    (∃ i, s.inodes f.inode = .live i) ∨ ∀ e, E e := by
  rcases h with ⟨g, i, hg, hi⟩ | hall
  · cases hf.symm.trans hg
    exact .inl ⟨i, hi⟩
  · exact .inr hall

theorem bitmapWrite_keeps (hE : E .selectSector) (b : Bitmap) :
    Ends E (bitmapWrite b s.freeMapFile) s fun _ => Keeps s := by
  cases hf : s.freeMapFile with
  | none =>
    rcases h with ⟨f, i, hf', -⟩ | hall
    · cases hf.symm.trans hf'
    · exact hall _
  | some f => exact Ends.keeps_bind (writeAt_keeps (h.live hf) hE _ _ _) fun _ t _ => .refl t

theorem saveFreeMap_keeps (hE : E .selectSector) (b : Bitmap) :
    Ends E (saveFreeMap b s.freeMapFile) s fun _ => Keeps s := by
  cases hf : s.freeMapFile with
  | none => exact .refl s
  | some f => exact Ends.keeps_bind (writeAt_keeps (h.live hf) hE _ _ _) fun _ t _ => .refl t

section

variable (hE : ∀ e, Tolerated e → E e)
include hE

theorem freeMapAllocate_keeps (cnt : ℕ) :
    Ends E (freeMapAllocate cnt) s fun _ => Keeps s := by
  refine .get_bind ?_
  split
  · exact hE .bitmap trivial
  · exact .refl s
  · rename_i sector b _
    have hk : Keeps s { s with freeMap := b } := ⟨rfl, rfl, rfl, rfl⟩
    refine .set_bind (.bind (saveFreeMap_keeps (s := { s with freeMap := b }) (h.keeps hk) (hE _ trivial) b) ?_)
    intro saved t ht
    have hkt := hk.trans ht
    split
    · exact ⟨hkt.inodes, hkt.openInodes, hkt.next, hkt.freeMapFile⟩
    · split
      · exact hE .bitmap trivial
      · exact ⟨hkt.inodes, hkt.openInodes, hkt.next, hkt.freeMapFile⟩

theorem freeMapRelease_keeps (sector cnt : ℕ) :
    Ends E (freeMapRelease sector cnt) s fun _ => Keeps s := by
  refine .get_bind ?_
  split
  · exact hE .bitmap trivial
  · exact hE .bitmapAll trivial
  · split
    · exact hE .bitmap trivial
    · rename_i b _
      have hk : Keeps s { s with freeMap := b, log := .release sector cnt :: s.log } := ⟨rfl, rfl, rfl, rfl⟩
      refine .set_bind (.bind (bitmapWrite_keeps (h.keeps hk) (hE _ trivial) b) ?_)
      exact fun _ t ht => hk.trans ht

theorem inodeCreate_keeps (sector : ℕ) (length : ℤ) :
    Ends E (inodeCreate sector length) s fun _ => Keeps s := by
  unfold inodeCreate
  split
  · exact hE .inodeCreate trivial
  · refine calloc_bind (fun _ => .shift s) fun _ => ?_
    refine .bind (freeMapAllocate_keeps (h.keeps (.shift s)) hE _) ?_
    intro start t ht
    have hk := (Keeps.shift s).trans ht
    cases start with
    | none => exact hk
    | some start =>
      refine .bind (writeSector_keeps (hE _ trivial) _ _) fun _ u hu => ?_
      refine .bind (writeZeros_keeps (hE _ trivial) _ _) fun _ v hv => ?_
      exact (hk.trans hu).trans hv

end

end

/-! ### Going through a directory -/

variable {dir : Dir}

section

variable (hi : s.inodes dir.inode = .live i)
include hi

section Loops

variable (hE : E .selectSector) (fuel ofs : ℕ) (e : Bytes) (hofs : ofs ≤ i.data.length.toNat)
  (hfuel : i.data.length.toNat < ofs + 20 * fuel)
include hE hofs hfuel

theorem lookupLoop_keeps (name : List UInt8) :
    Ends E (fsOps.lookupLoop dir name fuel ofs e) s fun _ => Keeps s := by
  induction fuel generalizing s ofs e with
  | zero => omega
  | succ fuel ih =>
    refine .bind (readAt_keeps hi hE e 20 ofs) ?_
    rintro ⟨n, e'⟩ t ⟨ht, hn⟩
    dsimp only at hn ⊢
    split
    · split
      · exact ht
      · exact (ih (s := t) (ht.inodes ▸ hi) (ofs + 20) e' (by omega) (by omega)).mono fun _ u hu => ht.trans hu
    · exact ht

theorem slotLoop_keeps : Ends E (fsOps.slotLoop dir fuel ofs e) s fun _ => Keeps s := by
  induction fuel generalizing s ofs e with
  | zero => omega
  | succ fuel ih =>
    refine .bind (readAt_keeps hi hE e 20 ofs) ?_
    rintro ⟨n, e'⟩ t ⟨ht, hn⟩
    dsimp only at hn ⊢
    split
    · split
      · exact (ih (s := t) (ht.inodes ▸ hi) (ofs + 20) e' (by omega) (by omega)).mono fun _ u hu => ht.trans hu
      · exact ht
    · exact ht

end Loops

theorem rounds_keeps :
    Ends E (fsOps.rounds dir) s fun n t => n = i.data.length.toNat / 20 + 1 ∧ t = s := by
  refine .bind (R := fun n t => n = i.data.length ∧ t = s) (getInode_bind hi (.pure ⟨rfl, rfl⟩)) ?_
  rintro _ _ ⟨rfl, rfl⟩
  exact .pure ⟨rfl, rfl⟩

end

theorem uninit_keeps (s : Fs) : Ends E fsOps.uninit s fun _ t => t = s := rfl

section

variable (hi : s.inodes dir.inode = .live i) (hE : E .selectSector) (name : List UInt8)
include hi hE name

theorem lookup_keeps :
    Ends E (fsOps.lookup dir name) s fun _ => Keeps s := by
  refine .bind (rounds_keeps hi) ?_
  rintro _ _ ⟨rfl, rfl⟩
  refine .bind (uninit_keeps _) ?_
  rintro e _ rfl
  exact lookupLoop_keeps hi hE _ 0 e (Nat.zero_le _) (by omega) name

theorem dirAdd_keeps (x : ℕ) :
    Ends E (fsOps.dirAdd dir name x) s fun _ => Keeps s := by
  unfold InodeOps.dirAdd
  split
  · exact .refl s
  · refine .bind (lookup_keeps hi hE name) ?_
    intro r t ht
    cases r with
    | some r => exact ht
    | none =>
      have hi' : t.inodes dir.inode = .live i := ht.inodes ▸ hi
      refine .bind (rounds_keeps hi') ?_
      rintro _ _ ⟨rfl, rfl⟩
      refine .bind (uninit_keeps _) ?_
      rintro e _ rfl
      refine .bind (slotLoop_keeps hi' hE _ 0 e (Nat.zero_le _) (by omega)) ?_
      intro r u hu
      refine .bind (writeAt_keeps (.inl ⟨i, hu.inodes ▸ hi'⟩) hE _ _ _) fun _ v hv => ?_
      exact (ht.trans hu).trans hv

end

end Keeps

/-! ### What an inode counts -/

/-- **The counts are those of the handles**: `hs` has the inode of every handle, and `deny` says how
many handles of an inode deny writes. -/
structure Counted (s : Fs) (hs : List ℕ) (deny : ℕ → ℕ) : Prop where
  /-- The list of open inodes, and the number of openers. -/
  table : TableOk (s.table (hs.map fun a => (0, a)))
  /-- The number of openers that deny writes. -/
  denied : ∀ a i, s.inodes a = .live i → i.denyWriteCnt = deny a
  /-- They are openers. -/
  le : ∀ a, deny a ≤ hs.count a

section Counted

variable {s s₀ t : Fs} {hs hs' : List ℕ} {deny deny' : ℕ → ℕ} {E : Panic → Prop} {a : ℕ} {i j : Inode}

theorem countP_handles (hs : List ℕ) (a : ℕ) : (hs.map fun a => ((0, a) : ℕ × ℕ)).countP (·.2 == a) = hs.count a := by
  rw [List.countP_map]
  rfl

section

variable (h : Counted s hs deny)
include h

theorem Counted.live (ha : a ∈ hs) : ∃ i, s.inodes a = .live i :=
  h.table.refs (0, a) (List.mem_map.mpr ⟨a, ha, rfl⟩)

theorem Counted.count (hi : s.inodes a = .live i) : i.openCnt = hs.count a ∧ 0 < hs.count a := by
  have hcount := h.table.count a i hi
  have hpos := h.table.pos a i hi
  exact ⟨hcount.trans (congrArg _ (countP_handles hs a)), countP_handles hs a ▸ hpos⟩

theorem Counted.keeps (hk : Keeps s t) : Counted t hs deny := by
  have htable : t.table (hs.map fun a => (0, a)) = s.table (hs.map fun a => (0, a)) := by
    simp only [Fs.table, hk.inodes, hk.openInodes, hk.next]
  exact ⟨htable ▸ h.table, fun a i hi => h.denied a i (hk.inodes ▸ hi), h.le⟩

/-- The order of the handles does not matter. -/
theorem Counted.perm (hperm : hs.Perm hs') : Counted s hs' deny :=
  ⟨h.table.perm (hperm.map _), h.denied, fun a => (h.le a).trans (hperm.count_eq a).le⟩

theorem Counted.update (hi : s.inodes a = .live i) (hsector : j.sector = i.sector)
    (hcnt : j.openCnt = hs'.count a) (hpos : 0 < hs'.count a) (hother : ∀ b, b ≠ a → hs'.count b = hs.count b)
    (hdeny : j.denyWriteCnt = deny' a) (hdeny' : ∀ b, b ≠ a → deny' b = deny b) (hle : deny' a ≤ hs'.count a) :
    Counted { s with inodes := Function.update s.inodes a (.live j) } hs' deny' := by
  refine ⟨?_, fun b k hk => ?_, fun b => ?_⟩
  · refine h.table.recount (a := a) (i := i) (k := j) hi hsector ?_ ?_ (fun b hb => ?_) fun r hr => ?_
    · rw [countP_handles, hcnt]
    · rw [countP_handles]
      exact hpos
    · rw [countP_handles, hother b hb]
      exact (countP_handles hs b).symm
    · obtain ⟨b, hb, rfl⟩ := List.mem_map.mp hr
      by_cases hba : b = a
      · exact .inl hba
      · refine .inr (List.mem_map.mpr ⟨b, ?_, rfl⟩)
        rw [← List.count_pos_iff, ← hother b hba]
        exact List.count_pos_iff.mpr hb
  · obtain ⟨rfl, rfl⟩ | ⟨hb, hk⟩ := Cell.update_live hk
    · exact hdeny
    · rw [hdeny' b hb]
      exact h.denied b k hk
  · by_cases hb : b = a
    · exact hb ▸ hle
    · rw [hdeny' b hb, hother b hb]
      exact h.le b

end

theorem Counted.freed (h : Counted s (a :: hs) deny) (hi : s.inodes a = .live i) (hcnt : i.openCnt - 1 = 0)
    (hle : ∀ b, deny b ≤ hs.count b) :
    Counted { s with inodes := Function.update s.inodes a .freed, openInodes := s.openInodes.erase a } hs deny := by
  have hcount := (h.count hi).1
  rw [List.count_cons_self] at hcount
  refine ⟨?_, fun b k hk => ?_, hle⟩
  · refine h.table.free (a := a) ?_ (fun b hb => ?_) (fun r hr => List.mem_cons_of_mem _ hr) ?_
    · rw [countP_handles]
      omega
    · rw [countP_handles, Table.count]
      show _ = ((a :: hs).map fun a => ((0, a) : ℕ × ℕ)).countP (·.2 == b)
      rw [countP_handles, List.count_cons_of_ne hb.symm]
    · show s.inodes a ≠ .unused
      rw [hi]
      simp
  · exact h.denied b k (Cell.update_freed hk).2

theorem Counted.created (h : Counted s hs deny) {sector : ℕ} {data : InodeDisk}
    (hclosed : ∀ a i, s.inodes a = .live i → i.sector ≠ sector) :
    Counted (s.opened sector data) (s.next :: hs) deny := by
  have hunused : s.inodes s.next = .unused := h.table.fresh s.next (Nat.le_refl _)
  have hnot : s.next ∉ hs := fun hmem => by
    obtain ⟨i, hi⟩ := h.live hmem
    cases hunused.symm.trans hi
  refine ⟨h.table.create (t := 0) ⟨sector, 1, false, data, 0⟩ rfl hclosed rfl, fun b k hk => ?_, fun b => ?_⟩
  · obtain ⟨rfl, rfl⟩ | ⟨-, hk⟩ := Cell.update_live hk
    · have hzero := h.le s.next
      rw [List.count_eq_zero.mpr hnot] at hzero
      show (0 : ℤ) = deny s.next
      omega
    · exact h.denied b k hk
  · have := h.le b
    rw [List.count_cons]
    omega

/-- The file of the free map is one of the handles; or nothing is asked of a panic. -/
def MapOpen (E : Panic → Prop) (s : Fs) (hs : List ℕ) : Prop := (∃ f, s.freeMapFile = some f ∧ f.inode ∈ hs) ∨ ∀ e, E e

theorem MapOpen.mono (h : MapOpen E s hs) (hsub : hs ⊆ hs') : MapOpen E s hs' := by
  rcases h with ⟨f, hf, hmem⟩ | hall
  · exact .inl ⟨f, hf, hsub hmem⟩
  · exact .inr hall

/-- The handles are counted, and the file of the free map is the one of `s₀`. -/
structure CountedSince (s₀ s : Fs) (hs : List ℕ) (deny : ℕ → ℕ) : Prop extends Counted s hs deny where
  freeMapFile : s.freeMapFile = s₀.freeMapFile

theorem CountedSince.keeps (h : CountedSince s₀ s hs deny) (hk : Keeps s t) : CountedSince s₀ t hs deny :=
  ⟨h.toCounted.keeps hk, hk.freeMapFile.trans h.freeMapFile⟩

theorem MapOpen.backed (hf : MapOpen E s₀ hs) (h : CountedSince s₀ s hs deny) : Backed E s := by
  rcases hf with ⟨f, hf, hmem⟩ | hall
  · obtain ⟨i, hi⟩ := h.live hmem
    exact .inl ⟨f, i, h.freeMapFile.trans hf, hi⟩
  · exact .inr hall

/-! ### Opening and closing inodes -/

theorem inodeReopen_counted (h : CountedSince s₀ s hs deny) (ha : a ∈ hs) :
    Ends E (inodeReopen (some a)) s fun r t => r = some a ∧ CountedSince s₀ t (a :: hs) deny := by
  obtain ⟨i, hi⟩ := h.live ha
  obtain ⟨hcount, hpos⟩ := h.count hi
  have hle := h.le a
  refine getInode_bind hi ?_
  rw [if_neg (by omega)]
  refine .modify_bind (.pure ⟨rfl, h.update hi rfl ?_ ?_ (fun b hb => ?_) (h.denied a i hi) (fun _ _ => rfl) ?_,
    h.freeMapFile⟩)
  · rw [List.count_cons_self]
    show i.openCnt + 1 = _
    omega
  · rw [List.count_cons_self]
    omega
  · exact List.count_cons_of_ne hb.symm
  · rw [List.count_cons_self]
    omega

/-- **`inode_open`** makes one more handle, or fails. -/
theorem inodeOpen_counted (h : CountedSince s₀ s hs deny) (hE : E .selectSector) (sector : ℕ) :
    Ends E (inodeOpen sector) s fun r t => CountedSince s₀ t (r.toList ++ hs) deny := by
  obtain ⟨a, ha, i, hi, -, hscan⟩ | ⟨hclosed, hscan⟩ := scan_of_live sector fun a ha => (h.table.listed a).mp ha
  · refine .get_bind ?_
    rw [show scan s.inodes sector s.openInodes = _ from hscan]
    have hmem : a ∈ hs := List.count_pos_iff.mp (h.count hi).2
    refine (inodeReopen_counted h hmem).mono ?_
    rintro _ t ⟨rfl, ht⟩
    exact ht
  · have hclosed' : ∀ a i, s.inodes a = .live i → i.sector ≠ sector := fun a i hi =>
      hclosed a ((h.table.listed a).mpr ⟨i, hi⟩) i hi
    refine (inodeOpen_new hscan (.inr hE)).mono ?_
    rintro _ _ (⟨rfl, rfl, -⟩ | ⟨block, rfl, rfl⟩)
    · exact h.keeps (.shift s)
    · exact ⟨(h.toCounted.keeps (.shift s)).created hclosed', h.freeMapFile⟩

/-- **`inode_close`** takes a handle away. -/
theorem inodeClose_counted (h : CountedSince s₀ s (a :: hs) deny) (hle : ∀ b, deny b ≤ hs.count b)
    (hf : MapOpen E s₀ hs) (hE : ∀ e, Tolerated e → E e) :
    Ends E (inodeClose (some a)) s fun _ t => CountedSince s₀ t hs deny := by
  obtain ⟨i, hi⟩ := h.live List.mem_cons_self
  obtain ⟨hcount, -⟩ := h.count hi
  rw [List.count_cons_self] at hcount
  refine getInode_bind hi ?_
  split
  · rename_i hlast
    have hfreed : CountedSince s₀ _ hs deny := ⟨h.freed hi hlast hle, h.freeMapFile⟩
    have hbacked := hf.backed hfreed
    refine .modify_bind ?_
    split
    · refine .bind (freeMapRelease_keeps hbacked hE _ _) fun _ t ht => ?_
      refine (freeMapRelease_keeps (hbacked.keeps ht) hE _ _).mono fun _ u hu => ?_
      exact hfreed.keeps (ht.trans hu)
    · exact .pure hfreed
  · refine ⟨h.update hi rfl ?_ ?_ (fun b hb => ?_) (h.denied a i hi) (fun _ _ => rfl) (hle a), h.freeMapFile⟩
    · show i.openCnt - 1 = _
      omega
    · omega
    · exact (List.count_cons_of_ne hb.symm).symm

variable {o : Option ℕ}

theorem openWith_counted {make : ℕ → α} {inode : α → ℕ} (hmake : ∀ a, inode (make a) = a)
    (h : CountedSince s₀ s (o.toList ++ hs) deny) (hle : ∀ b, deny b ≤ hs.count b) (hf : MapOpen E s₀ hs)
    (hE : ∀ e, Tolerated e → E e) :
    Ends E (openWith make o) s fun r t =>
      (∀ x, r = some x → ∃ a, x = make a) ∧ CountedSince s₀ t ((r.map inode).toList ++ hs) deny := by
  have hshift := h.keeps (.shift s)
  cases o with
  | none => exact calloc_bind (fun _ => ⟨nofun, hshift⟩) fun _ => ⟨nofun, hshift⟩
  | some a =>
    refine calloc_bind (fun _ => ?_) fun _ => ?_
    · exact .bind (inodeClose_counted hshift hle hf hE) fun _ t ht => .pure ⟨nofun, ht⟩
    · refine .pure ⟨fun x hx => ⟨a, (Option.some.inj hx).symm⟩, ?_⟩
      show CountedSince s₀ s.shift (inode (make a) :: hs) deny
      rw [hmake]
      exact hshift

section

variable (h : CountedSince s₀ s (o.toList ++ hs) deny) (hle : ∀ b, deny b ≤ hs.count b)
  (hf : MapOpen E s₀ hs) (hE : ∀ e, Tolerated e → E e)
include h hle hf hE

theorem fileOpen_counted :
    Ends E (fileOpen o) s fun r t =>
      (∀ f, r = some f → f.denyWrite = false) ∧ CountedSince s₀ t ((r.map File.inode).toList ++ hs) deny := by
  refine (openWith_counted (fun _ => rfl) h hle hf hE).mono fun r t ht => ⟨fun f hr => ?_, ht.2⟩
  obtain ⟨a, rfl⟩ := ht.1 f hr
  rfl

theorem dirOpen_counted :
    Ends E (dirOpen o) s fun r t => CountedSince s₀ t ((r.map Dir.inode).toList ++ hs) deny :=
  (openWith_counted (fun _ => rfl) h hle hf hE).mono fun _ _ ht => ht.2

end

/-! ### The interface -/

section Interface

variable (hf : MapOpen E s₀ hs) (hE : ∀ e, Tolerated e → E e) (h : CountedSince s₀ s hs deny)
include hf hE h

theorem dirOpenRoot_counted :
    Ends E dirOpenRoot s fun r t => CountedSince s₀ t ((r.map Dir.inode).toList ++ hs) deny :=
  Ends.bind (inodeOpen_counted h (hE _ trivial) ROOT_DIR_SECTOR) fun _ _ ht => dirOpen_counted ht h.le hf hE

variable {file : File}

theorem fileReopen_counted (hmem : file.inode ∈ hs) : Ends E (fileReopen file) s fun r t =>
      (∀ f, r = some f → f.denyWrite = false) ∧ CountedSince s₀ t ((r.map File.inode).toList ++ hs) deny := by
  refine .bind (inodeReopen_counted h hmem) ?_
  rintro _ t ⟨rfl, ht⟩
  exact fileOpen_counted ht h.le hf hE

theorem dirReopen_counted (hmem : dir.inode ∈ hs) :
    Ends E (dirReopen dir) s fun r t => CountedSince s₀ t ((r.map Dir.inode).toList ++ hs) deny := by
  refine .bind (inodeReopen_counted h hmem) ?_
  rintro _ t ⟨rfl, ht⟩
  exact dirOpen_counted ht h.le hf hE

theorem createFile_keeps (hdir : dir.inode ∈ hs) (name : List UInt8) (initialSize : ℤ) :
    Ends E (createFile (some dir) name initialSize) s fun _ => Keeps s := by
  have hbacked := hf.backed h
  obtain ⟨i, hi⟩ := h.live hdir
  refine .bind (freeMapAllocate_keeps hbacked hE 1) ?_
  intro sector t ht
  cases sector with
  | none => exact ht
  | some sector =>
    refine .bind (inodeCreate_keeps (hbacked.keeps ht) hE sector initialSize) fun made u hu => ?_
    have hk := ht.trans hu
    split
    · refine .bind (dirAdd_keeps (hk.inodes ▸ hi) (hE _ trivial) name sector) fun _ v hv => ?_
      exact .pure (hk.trans hv)
    · exact hk

/-- **`filesys_create`** leaves the handles as they are. -/
theorem filesysCreate_counted (name : List UInt8) (initialSize : ℤ) :
    Ends E (filesysCreate name initialSize) s fun _ t => CountedSince s₀ t hs deny := by
  refine .bind (dirOpenRoot_counted hf hE h) fun dir t ht => ?_
  cases dir with
  | none => exact .pure ht
  | some dir =>
    have hf' := hf.mono (List.subset_cons_self dir.inode hs)
    refine .bind (createFile_keeps hf' hE ht List.mem_cons_self name initialSize) ?_
    rintro ⟨success, sector⟩ u hu
    have hrelease : Ends E (if ¬ success ∧ sector ≠ 0 then freeMapRelease sector 1 else return ()) u
        fun _ v => Keeps u v := by
      split
      · exact freeMapRelease_keeps (hf'.backed (ht.keeps hu)) hE sector 1
      · exact .refl u
    refine .bind hrelease fun _ v hv => ?_
    exact .bind (inodeClose_counted (ht.keeps (hu.trans hv)) h.le hf hE) fun _ w hw => .pure hw

/-- **`filesys_open`** makes a handle, or fails. -/
theorem filesysOpen_counted (name : List UInt8) :
    Ends E (filesysOpen name) s fun r t =>
      (∀ f, r = some f → f.denyWrite = false) ∧ CountedSince s₀ t ((r.map File.inode).toList ++ hs) deny := by
  refine .bind (dirOpenRoot_counted hf hE h) fun dir t ht => ?_
  cases dir with
  | none => exact fileOpen_counted (o := none) ht h.le hf hE
  | some dir =>
    obtain ⟨i, hi⟩ := ht.live List.mem_cons_self
    have hlookup : Ends E (fsOps.dirLookup dir name) t fun r u => CountedSince s₀ u (r.toList ++ dir.inode :: hs) deny := by
      refine .bind (lookup_keeps hi (hE _ trivial) name) fun r u hu => ?_
      cases r with
      | none => exact .pure (ht.keeps hu)
      | some r => exact inodeOpen_counted (ht.keeps hu) (hE _ trivial) (entrySector r.1)
    refine .bind hlookup fun o u hu => ?_
    have hsub := List.sublist_append_right o.toList hs
    have hle : ∀ b, deny b ≤ (o.toList ++ hs).count b := fun b => (h.le b).trans (hsub.count_le b)
    have hu : CountedSince s₀ u (dir.inode :: (o.toList ++ hs)) deny := ⟨hu.perm List.perm_middle, hu.freeMapFile⟩
    refine .bind (inodeClose_counted hu hle (hf.mono hsub.subset) hE) fun _ v hv => ?_
    exact fileOpen_counted hv h.le hf hE

omit hf hE in
theorem inodeRemove_counted (ha : a ∈ hs) : Ends E (inodeRemove a) s fun _ t => CountedSince s₀ t hs deny := by
  obtain ⟨i, hi⟩ := h.live ha
  obtain ⟨hcount, hpos⟩ := h.count hi
  refine getInode_bind hi ?_
  exact ⟨h.update hi rfl hcount hpos (fun _ _ => rfl) (h.denied a i hi) (fun _ _ => rfl) (h.le a), h.freeMapFile⟩

theorem dirRemove_counted (hdir : dir.inode ∈ hs) (name : List UInt8) :
    Ends E (fsOps.dirRemove dir name) s fun _ t => CountedSince s₀ t hs deny := by
  obtain ⟨i, hi⟩ := h.live hdir
  refine .bind (lookup_keeps hi (hE _ trivial) name) fun r t ht => ?_
  cases r with
  | none => exact .pure (h.keeps ht)
  | some r =>
    refine .bind (inodeOpen_counted (h.keeps ht) (hE _ trivial) (entrySector r.1)) fun o u hu => ?_
    cases o with
    | none => exact .pure hu
    | some a =>
      refine .bind (writeAt_keeps (.inl (hu.live (List.mem_cons_of_mem _ hdir))) (hE _ trivial) _ _ _) fun n v hv => ?_
      split
      · refine .bind (inodeRemove_counted (hu.keeps hv) List.mem_cons_self) fun _ w hw => ?_
        exact .bind (inodeClose_counted hw h.le hf hE) fun _ x hx => .pure hx
      · exact .bind (inodeClose_counted (hu.keeps hv) h.le hf hE) fun _ x hx => .pure hx

/-- **`filesys_remove`** leaves the handles as they are. -/
theorem filesysRemove_counted (name : List UInt8) :
    Ends E (filesysRemove name) s fun _ t => CountedSince s₀ t hs deny := by
  refine .bind (dirOpenRoot_counted hf hE h) fun dir t ht => ?_
  cases dir with
  | none => exact .pure ht
  | some dir =>
    have hf' := hf.mono (List.subset_cons_self dir.inode hs)
    refine .bind (dirRemove_counted hf' hE ht List.mem_cons_self name) fun success u hu => ?_
    exact .bind (inodeClose_counted hu h.le hf hE) fun _ v hv => .pure hv

end Interface

/-! ### Denying writes -/

/-- One handle more denies writes, if `b`. -/
def plus (deny : ℕ → ℕ) (b : Bool) (a : ℕ) : ℕ → ℕ := fun c => deny c + if b && a == c then 1 else 0

theorem plus_false (deny : ℕ → ℕ) (a : ℕ) : plus deny false a = deny := by
  funext c
  simp [plus]

theorem plus_self (deny : ℕ → ℕ) (a : ℕ) : plus deny true a a = deny a + 1 := by simp [plus]

theorem plus_of_ne (deny : ℕ → ℕ) {b : Bool} {c : ℕ} (h : c ≠ a) : plus deny b a c = deny c := by simp [plus, h.symm]

/-- **`file_allow_write`**: the handle does not deny writes any more. -/
theorem fileAllowWrite_counted (h : CountedSince s₀ s hs (plus deny file.denyWrite file.inode))
    (hmem : file.inode ∈ hs) :
    Ends E (fileAllowWrite file) s fun f t => f = { file with denyWrite := false } ∧ CountedSince s₀ t hs deny := by
  obtain ⟨a, pos, flag⟩ := file
  cases flag with
  | false =>
    exact ⟨rfl, h⟩
  | true =>
    have h : CountedSince s₀ s hs (plus deny true a) := h
    have hmem : a ∈ hs := hmem
    obtain ⟨i, hi⟩ := h.live hmem
    obtain ⟨hcount, hpos⟩ := h.count hi
    have hdeny := h.denied a i hi
    have hle := h.le a
    rw [plus_self] at hdeny hle
    have hallow : Ends E (inodeAllowWrite a) s fun _ t => CountedSince s₀ t hs deny := by
      refine getInode_bind hi ?_
      rw [if_pos (by omega)]
      refine ⟨h.update hi rfl hcount hpos (fun _ _ => rfl) ?_ (fun b hb => (plus_of_ne deny hb).symm) (by omega),
        h.freeMapFile⟩
      show i.denyWriteCnt - 1 = _
      omega
    exact .bind hallow fun _ t ht => .pure ⟨rfl, ht⟩

/-- **`file_deny_write`**: the handle denies writes. -/
theorem fileDenyWrite_counted (h : CountedSince s₀ s hs (plus deny file.denyWrite file.inode))
    (hle : deny file.inode + 1 ≤ hs.count file.inode) :
    Ends E (fileDenyWrite file) s fun f t => f = { file with denyWrite := true } ∧
      CountedSince s₀ t hs (plus deny true file.inode) := by
  obtain ⟨a, pos, flag⟩ := file
  cases flag with
  | true => exact ⟨rfl, h⟩
  | false =>
    rw [plus_false] at h
    obtain ⟨i, hi⟩ := h.live (List.count_pos_iff.mp (Nat.lt_of_lt_of_le (Nat.succ_pos _) hle))
    obtain ⟨hcount, hpos⟩ := h.count hi
    have hdeny := h.denied a i hi
    dsimp only at hcount hpos hle
    have hinode : Ends E (inodeDenyWrite a) s fun _ t => CountedSince s₀ t hs (plus deny true a) := by
      refine getInode_bind hi ?_
      rw [if_pos (by omega)]
      refine ⟨h.update hi rfl hcount hpos (fun _ _ => rfl) ?_ (fun b hb => plus_of_ne deny hb) ?_, h.freeMapFile⟩
      · show i.denyWriteCnt + 1 = _
        rw [plus_self]
        omega
      · rw [plus_self]
        exact hle
    exact .bind hinode fun _ t ht => .pure ⟨rfl, ht⟩

end Counted

/-! ### The start -/

section Start

variable {s : Fs} {E : Panic → Prop} {hs : List ℕ} {deny : ℕ → ℕ}

theorem start_counted (disk : Disk) (freeMap : Bitmap) (mem : ℕ → Option Bytes) (stack : Bytes) (log : List Event) :
    Counted (Fs.start disk freeMap mem stack log) [] fun _ => 0 :=
  ⟨⟨fun a => by simp [Fs.table, Fs.start], List.nodup_nil, fun a b i j hi => (by cases hi), fun a i hi => (by cases hi),
    fun a i hi => (by cases hi), fun r hr => (by cases hr), fun _ _ => rfl⟩,
    fun a i hi => (by cases hi), fun _ => Nat.le_refl _⟩

theorem openMap_bind {β : Type} {g : Option File → FsM β} {P : β → Fs → Prop} (h : Counted s hs deny) (hE : ∀ e, E e)
    (hnone : ∀ t, Ends E (g none) t P) (hsome : ∀ f t, f.denyWrite = false →
      Counted { t with freeMapFile := some f } (f.inode :: hs) deny → Ends E (g (some f)) t P) :
    Ends E (inodeOpen FREE_MAP_SECTOR >>= fun inode => fileOpen inode >>= g) s P := by
  have hsince : CountedSince s s hs deny := ⟨h, rfl⟩
  refine .bind (inodeOpen_counted hsince (hE _) FREE_MAP_SECTOR) fun o t ht => ?_
  refine .bind (fileOpen_counted ht h.le (.inr hE) fun e _ => hE e) fun r u hu => ?_
  cases r with
  | none => exact hnone u
  | some f => exact hsome f u (hu.1 f rfl) ⟨hu.2.table, hu.2.denied, hu.2.le⟩

section

variable (h : Counted s hs deny) (hE : ∀ e, E e)
include h hE

theorem freeMapCreate_counted :
    Ends E freeMapCreate s fun _ t =>
      ∃ f, t.freeMapFile = some f ∧ f.denyWrite = false ∧ Counted t (f.inode :: hs) deny := by
  refine .get_bind (.bind (inodeCreate_keeps (.inr hE) (fun e _ => hE e) _ _) fun made t ht => ?_)
  split
  · refine openMap_bind (h.keeps ht) hE (fun _ => hE _) fun f u hflag hopen => ?_
    refine .get_bind (.set_bind ?_)
    refine .bind (bitmapWrite_keeps (s := { u with freeMapFile := some f }) (.inr hE)
      (hE _) u.freeMap) fun saved v hv => ?_
    split
    · exact ⟨f, hv.freeMapFile, hflag, hopen.keeps hv⟩
    · exact hE _
  · exact hE _

theorem doFormat_counted : Ends E doFormat s fun _ t => Counted t hs deny := by
  refine .bind (freeMapCreate_counted h hE) ?_
  rintro _ t ⟨f, hf, hflag, ht⟩
  refine .bind (inodeCreate_keeps (.inr hE) (fun e _ => hE e) _ _) fun made u hu => ?_
  split
  · have hfu := hu.freeMapFile.trans hf
    refine .get_bind ?_
    rw [hfu]
    have hplus : CountedSince u u (f.inode :: hs) (plus deny f.denyWrite f.inode) := by
      rw [hflag, plus_false]
      exact ⟨ht.keeps hu, rfl⟩
    refine .bind (fileAllowWrite_counted hplus List.mem_cons_self) ?_
    rintro _ v ⟨rfl, hv⟩
    exact (inodeClose_counted hv h.le (.inr hE) fun e _ => hE e).mono fun _ w hw => hw.toCounted
  · exact hE _

theorem freeMapOpen_counted :
    Ends E freeMapOpen s fun _ t =>
      ∃ f, t.freeMapFile = some f ∧ f.denyWrite = false ∧ Counted t (f.inode :: hs) deny := by
  refine openMap_bind h hE (fun _ => hE _) fun f t hflag hopen => ?_
  obtain ⟨i, hi⟩ := hopen.live List.mem_cons_self
  have hread : Ends E (bitmapRead t.freeMap (some f)) { t with freeMapFile := some f } fun _ u =>
      Keeps { t with freeMapFile := some f } u := by
    by_cases hpos : 0 < t.freeMap.bitCnt
    · rw [bitmapRead, if_pos hpos]
      exact .bind (readAt_keeps hi (hE _) _ _ _) fun r u hu => .pure hu.1
    · rw [bitmapRead, if_neg hpos]
      exact .refl _
  refine .get_bind (.set_bind (.bind hread fun r u hu => .modify_bind ?_))
  split
  · have hu' := hopen.keeps hu
    exact ⟨f, hu.freeMapFile, hflag, hu'.table, hu'.denied, hu'.le⟩
  · exact hE _

end

/-- **`filesys_init`** leaves one handle, that of the free map. -/
theorem filesysInit_counted {format : Bool} {disk : Disk} {mem : ℕ → Option Bytes} {stack : Bytes} {log : List Event}
    (h : filesysInit format disk mem stack log = .ok s) :
    ∃ f, s.freeMapFile = some f ∧ f.denyWrite = false ∧ Counted s [f.inode] fun _ => 0 := by
  cases hb : freeMapInit disk.capacity (mem 0) (mem 1) with
  | error e =>
    unfold filesysInit at h
    rw [hb] at h
    cases h
  | ok b =>
    rw [filesysInit_eq hb] at h
    have hstart := start_counted disk b (fun n => mem (n + 2)) stack log
    have hformat : Ends (fun _ => True) (if format then doFormat else return ())
        (Fs.start disk b (fun n => mem (n + 2)) stack log) fun _ t => Counted t [] fun _ => 0 := by
      split
      · exact doFormat_counted hstart fun _ => trivial
      · exact hstart
    have hends := Ends.bind hformat fun _ t ht => freeMapOpen_counted ht fun _ => trivial
    cases hrun : ((if format then doFormat else return ()) >>= fun _ => freeMapOpen : FsM Unit)
        (Fs.start disk b (fun n => mem (n + 2)) stack log) with
    | error e =>
      rw [hrun] at h
      cases h
    | ok r =>
      rw [hrun] at h
      obtain rfl : r.2 = s := Except.ok.inj h
      exact hends.of_ok hrun

end Start

end Pintos.Filesys
