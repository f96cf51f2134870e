import Pintos.Filesys.Calls
import Pintos.Filesys.Counted

/-!
# Handles of files and directories

All runs of calls that make, use and close handles, and what the inodes count in them.

## The model

The file system starts with `filesys_init`, on any disk, with or without formatting. Then any calls
come, one after the other. `malloc` returns anything. The handles are what the calls returned and
was not closed yet, and the file of the free map. A call says whether it was successful; one whose
handle is not there does nothing.

## What is proved

* **`open_counts`**: an inode of the list has as many openers as there are handles on it, and no
  other inode is in the list. A call that fails leaves all counts as they were.
* **`deny_counts`**: an inode counts the handles that deny writes, which are no more than its
  openers. While there is one, a write returns 0, and leaves the disk and the handle as they were.

Both come from `Counted`, with the inodes of the handles as the list.
-/

namespace Pintos.Filesys

open Memory Lib InodeTable Program

/-! ### Runs -/

/-- The file system, and the handles that are open. -/
structure Handles where
  fs : Fs
  files : List File
  dirs : List Dir

inductive HandleCall where
  /-- `filesys_create`. -/
  | create (name : List UInt8) (initialSize : ℤ)
  | openFile (name : List UInt8)
  /-- `filesys_remove`. -/
  | remove (name : List UInt8)
  /-- `file_reopen`. -/
  | reopen (n : ℕ)
  /-- `file_close`. -/
  | close (n : ℕ)
  /-- `dir_open_root`. -/
  | openRoot
  | reopenDir (n : ℕ)
  | closeDir (n : ℕ)
  /-- `file_deny_write`. -/
  | denyWrite (n : ℕ)
  /-- `file_allow_write`. -/
  | allowWrite (n : ℕ)
  /-- `file_write`. -/
  | write (n : ℕ) (buffer : Bytes) (size : ℤ)

namespace Handles

/-- A function of the file system. -/
def onFs {α : Type} (x : FsM α) : Program Handles Panic α := fun s =>
  (x s.fs).map fun (v, fs) => (v, { s with fs := fs })

/-- Program on the file with a number, if there is one. -/
def atFile (n : ℕ) (f : File → Program Handles Panic Bool) : Program Handles Panic Bool := do
  match (← get).files[n]? with
  | none => return true
  | some file => f file

/-- Program on the directory with a number, if there is one. -/
def atDir (n : ℕ) (f : Dir → Program Handles Panic Bool) : Program Handles Panic Bool := do
  match (← get).dirs[n]? with
  | none => return true
  | some dir => f dir

/-- A new handle for the file that a function opens. -/
def newFile (x : FsM (Option File)) : Program Handles Panic Bool := do
  let file ← onFs x
  modify fun s => { s with files := file.toList ++ s.files }
  return file.isSome

/-- A new handle for the directory that a function opens. -/
def newDir (x : FsM (Option Dir)) : Program Handles Panic Bool := do
  let dir ← onFs x
  modify fun s => { s with dirs := dir.toList ++ s.dirs }
  return dir.isSome

/-- The file with a number is changed. -/
def setFile (n : ℕ) (x : FsM File) : Program Handles Panic Bool := do
  let file ← onFs x
  modify fun s => { s with files := s.files.set n file }
  return true

/-- What a call does, and whether it is successful. -/
def run : HandleCall → Program Handles Panic Bool
  | .create name initialSize => onFs (filesysCreate name initialSize)
  | .openFile name => newFile (filesysOpen name)
  | .remove name => onFs (filesysRemove name)
  | .reopen n => atFile n fun file => newFile (fileReopen file)
  | .close n => atFile n fun file => do
    onFs (fileClose (some file))
    modify fun s => { s with files := s.files.eraseIdx n }
    return true
  | .openRoot => newDir dirOpenRoot
  | .reopenDir n => atDir n fun dir => newDir (dirReopen dir)
  | .closeDir n => atDir n fun dir => do
    onFs (dirClose (some dir))
    modify fun s => { s with dirs := s.dirs.eraseIdx n }
    return true
  | .denyWrite n => atFile n fun file => setFile n (fileDenyWrite file)
  | .allowWrite n => atFile n fun file => setFile n (fileAllowWrite file)
  | .write n buffer size => atFile n fun file => setFile n do return (← fileWrite file buffer size).2

/-- All runs, from any disk. -/
def system : System Handles HandleCall where
  init s := (∃ format disk mem stack log, filesysInit format disk mem stack log = .ok s.fs) ∧ s.files = [] ∧ s.dirs = []
  step s c :=
    match run c s with
    | .ok (_, t) => .next t
    | .error _ => .fault

/-- The handles of files, with that of the free map. -/
def openFiles (s : Handles) : List File := s.files ++ s.fs.freeMapFile.toList

/-- The inodes of all handles. -/
def inodes (s : Handles) : List ℕ := s.openFiles.map File.inode ++ s.dirs.map Dir.inode

/-- How many handles of an inode have their flag set. -/
def denying (s : Handles) (a : ℕ) : ℕ := s.openFiles.countP fun f => f.denyWrite && f.inode == a

/-- The counts are right, and the file of the free map is open. -/
structure Inv (s : Handles) : Prop where
  counted : Counted s.fs s.inodes s.denying
  map : ∃ f, s.fs.freeMapFile = some f

section Step

variable {s t : Handles} {E : Panic → Prop} {n : ℕ} {file : File} {dir : Dir}

theorem onFs_ends {α : Type} {x : FsM α} {R : α → Fs → Prop} (h : Ends E x s.fs R) :
    Ends E (onFs x) s fun r t => R r t.fs ∧ t.files = s.files ∧ t.dirs = s.dirs := by
  unfold Ends onFs at *
  cases hx : x s.fs with
  | ok r =>
    rw [hx] at h
    exact ⟨h, rfl, rfl⟩
  | error e =>
    rw [hx] at h
    exact h

theorem Inv.mapOpen (h : Inv s) (hmap : t.fs.freeMapFile = s.fs.freeMapFile) : MapOpen Tolerated s.fs t.inodes := by
  obtain ⟨f, hf⟩ := h.map
  refine .inl ⟨f, hf, List.mem_append_left _ (List.mem_map.mpr ⟨f, List.mem_append_right _ ?_, rfl⟩)⟩
  rw [hmap, hf]
  exact List.mem_cons_self

theorem Perm.files (h : s.files.Perm (file :: t.files)) (hdirs : s.dirs = t.dirs)
    (hmap : s.fs.freeMapFile = t.fs.freeMapFile) :
    s.inodes.Perm (file.inode :: t.inodes) ∧ s.denying = plus t.denying file.denyWrite file.inode := by
  have hopen : s.openFiles.Perm (file :: t.openFiles) := by
    rw [openFiles, openFiles, hmap]
    exact h.append_right _
  refine ⟨?_, ?_⟩
  · rw [inodes, inodes, hdirs]
    exact (hopen.map File.inode).append_right _
  · funext a
    rw [denying, hopen.countP_eq, List.countP_cons]
    rfl

/-- The other handles than that of one directory. -/
theorem Perm.dirs (h : s.dirs.Perm (dir :: t.dirs)) (hfiles : s.files = t.files)
    (hmap : s.fs.freeMapFile = t.fs.freeMapFile) : s.inodes.Perm (dir.inode :: t.inodes) ∧ s.denying = t.denying := by
  have hopen : s.openFiles = t.openFiles := by rw [openFiles, openFiles, hmap, hfiles]
  refine ⟨?_, ?_⟩
  · rw [inodes, inodes, hopen]
    exact ((h.map Dir.inode).append_left _).trans List.perm_middle
  · funext a
    rw [denying, denying, hopen]

theorem denying_le (s : Handles) (a : ℕ) : s.denying a ≤ s.inodes.count a := by
  have hfiles : s.denying a ≤ (s.openFiles.map File.inode).count a := by
    rw [List.count, List.countP_map]
    refine List.countP_mono_left fun f _ hf => ?_
    exact (Bool.and_eq_true _ _ ▸ hf).2
  rw [inodes, List.count_append]
  omega

theorem pick_le (s : Handles) (a : ℕ) : s.denying a + 1 ≤ (a :: s.inodes).count a := by
  rw [List.count_cons_self]
  exact Nat.succ_le_succ (denying_le s a)

/-- The handles without that of one file. -/
def eraseFile (s : Handles) (n : ℕ) : Handles := { s with files := s.files.eraseIdx n }

/-- The handles without that of one directory. -/
def eraseDir (s : Handles) (n : ℕ) : Handles := { s with dirs := s.dirs.eraseIdx n }

theorem Inv.pick (h : Inv s) (hn : s.files[n]? = some file) :
    CountedSince s.fs s.fs (file.inode :: (s.eraseFile n).inodes)
      (plus (s.eraseFile n).denying file.denyWrite file.inode) := by
  obtain ⟨hlt, hget⟩ := List.getElem?_eq_some_iff.mp hn
  have hperm : s.files.Perm (file :: s.files.eraseIdx n) := hget ▸ (List.getElem_cons_eraseIdx_perm hlt).symm
  obtain ⟨hinodes, hdenying⟩ := Perm.files (s := s) (t := s.eraseFile n) hperm rfl rfl
  exact ⟨hdenying ▸ h.counted.perm hinodes, rfl⟩

theorem Inv.pickDir (h : Inv s) (hn : s.dirs[n]? = some dir) :
    CountedSince s.fs s.fs (dir.inode :: (s.eraseDir n).inodes) (s.eraseDir n).denying := by
  obtain ⟨hlt, hget⟩ := List.getElem?_eq_some_iff.mp hn
  have hperm : s.dirs.Perm (dir :: s.dirs.eraseIdx n) := hget ▸ (List.getElem_cons_eraseIdx_perm hlt).symm
  obtain ⟨hinodes, hdenying⟩ := Perm.dirs (s := s) (t := s.eraseDir n) hperm rfl rfl
  exact ⟨hdenying ▸ h.counted.perm hinodes, rfl⟩

/-- The handles are the same. -/
structure Same (s t : Handles) : Prop where
  files : t.files = s.files
  dirs : t.dirs = s.dirs
  map : t.fs.freeMapFile = s.fs.freeMapFile

theorem Same.inodes_eq (h : Same s t) : t.inodes = s.inodes := by
  rw [inodes, inodes, openFiles, openFiles, h.files, h.dirs, h.map]

theorem Same.inv (hsame : Same s t) (hmap : ∃ f, s.fs.freeMapFile = some f)
    (hc : Counted t.fs s.inodes s.denying) : Inv t := by
  refine ⟨?_, hsame.map ▸ hmap⟩
  have hdenying : t.denying = s.denying := by
    funext a
    rw [denying, denying, openFiles, openFiles, hsame.files, hsame.map]
  rw [hsame.inodes_eq, hdenying]
  exact hc

theorem Inv.addFile (h : Inv s) (hc : CountedSince s.fs t.fs (file.inode :: s.inodes) s.denying)
    (hflag : file.denyWrite = false)
    (hfiles : t.files = file :: s.files) (hdirs : t.dirs = s.dirs) : Inv t := by
  have hperm : t.files.Perm (file :: s.files) := hfiles ▸ List.Perm.refl _
  obtain ⟨hinodes, hdenying⟩ := Perm.files (s := t) (t := s) hperm hdirs hc.freeMapFile
  rw [hflag, plus_false] at hdenying
  exact ⟨hdenying ▸ hc.perm hinodes.symm, hc.freeMapFile ▸ h.map⟩

theorem Inv.addDir (h : Inv s) (hc : CountedSince s.fs t.fs (dir.inode :: s.inodes) s.denying) (hfiles : t.files = s.files)
    (hdirs : t.dirs = dir :: s.dirs) : Inv t := by
  have hperm : t.dirs.Perm (dir :: s.dirs) := hdirs ▸ List.Perm.refl _
  obtain ⟨hinodes, hdenying⟩ := Perm.dirs (s := t) (t := s) hperm hfiles hc.freeMapFile
  exact ⟨hdenying ▸ hc.perm hinodes.symm, hc.freeMapFile ▸ h.map⟩

theorem Inv.replace (h : Inv s) (hn : n < s.files.length)
    (hc : CountedSince s.fs t.fs (file.inode :: (s.eraseFile n).inodes)
      (plus (s.eraseFile n).denying file.denyWrite file.inode))
    (hfiles : t.files = s.files.set n file) (hdirs : t.dirs = s.dirs) : Inv t := by
  have hperm : t.files.Perm (file :: s.files.eraseIdx n) := hfiles ▸ List.set_perm_cons_eraseIdx hn file
  obtain ⟨hinodes, hdenying⟩ := Perm.files (s := t) (t := s.eraseFile n) hperm hdirs hc.freeMapFile
  exact ⟨hdenying ▸ hc.perm hinodes.symm, hc.freeMapFile ▸ h.map⟩

/-- What is true after a call. -/
def After (s : Handles) (success : Bool) (t : Handles) : Prop := Inv t ∧ (success = false → Same s t)

section

variable (h : Inv s)
include h

theorem Inv.after_same (hc : CountedSince s.fs t.fs s.inodes s.denying) (hfiles : t.files = s.files)
    (hdirs : t.dirs = s.dirs) (success : Bool) : After s success t :=
  have hsame : Same s t := ⟨hfiles, hdirs, hc.freeMapFile⟩
  ⟨hsame.inv h.map hc.toCounted, fun _ => hsame⟩

theorem Inv.open_ends {x : FsM (Option File)}
    (hx : Ends Tolerated x s.fs fun r fs => (∀ f, r = some f → f.denyWrite = false) ∧
      CountedSince s.fs fs ((r.map File.inode).toList ++ s.inodes) s.denying) :
    Ends Tolerated (newFile x) s (After s) := by
  refine .bind (onFs_ends hx) ?_
  rintro (_ | file) t ⟨⟨hflag, ht⟩, hfiles, hdirs⟩
  · exact .modify_bind (.pure (h.after_same ht hfiles hdirs _))
  · exact .modify_bind (.pure ⟨h.addFile ht (hflag file rfl) (congrArg _ hfiles) hdirs, by simp⟩)

theorem Inv.openDir_ends {x : FsM (Option Dir)}
    (hx : Ends Tolerated x s.fs fun r fs => CountedSince s.fs fs ((r.map Dir.inode).toList ++ s.inodes) s.denying) :
    Ends Tolerated (newDir x) s (After s) := by
  refine .bind (onFs_ends hx) ?_
  rintro (_ | dir) t ⟨ht, hfiles, hdirs⟩
  · exact .modify_bind (.pure (h.after_same ht hfiles hdirs _))
  · exact .modify_bind (.pure ⟨h.addDir ht hfiles (congrArg _ hdirs), by simp⟩)

theorem Inv.change_ends (hn : s.files[n]? = some file) {x : FsM File}
    (hx : Ends Tolerated x s.fs fun f fs => CountedSince s.fs fs (f.inode :: (s.eraseFile n).inodes)
      (plus (s.eraseFile n).denying f.denyWrite f.inode)) :
    Ends Tolerated (setFile n x) s (After s) := by
  obtain ⟨hlt, -⟩ := List.getElem?_eq_some_iff.mp hn
  refine .bind (onFs_ends hx) ?_
  rintro f t ⟨ht, hfiles, hdirs⟩
  refine .modify_bind (.pure ⟨?_, by simp⟩)
  exact h.replace (t := { t with files := t.files.set n f }) hlt ht (by rw [hfiles]) hdirs

theorem Inv.close_ends (hn : s.files[n]? = some file) :
    Ends Tolerated (do
      onFs (fileClose (some file))
      modify fun s => { s with files := s.files.eraseIdx n }
      return true) s (After s) := by
  have hclose : Ends Tolerated (fileClose (some file)) s.fs fun _ fs =>
      CountedSince s.fs fs (s.eraseFile n).inodes (s.eraseFile n).denying := by
    refine .bind (fileAllowWrite_counted (h.pick hn) List.mem_cons_self) ?_
    rintro _ fs ⟨rfl, hallow⟩
    exact inodeClose_counted hallow (denying_le _) (h.mapOpen rfl) fun _ he => he
  refine .bind (onFs_ends hclose) ?_
  rintro _ t ⟨ht, hfiles, hdirs⟩
  have hsame : Same (s.eraseFile n) (t.eraseFile n) := ⟨congrArg (·.eraseIdx n) hfiles, hdirs, ht.freeMapFile⟩
  exact .modify_bind (.pure ⟨hsame.inv h.map ht.toCounted, by simp⟩)

theorem Inv.closeDir_ends (hn : s.dirs[n]? = some dir) :
    Ends Tolerated (do
      onFs (dirClose (some dir))
      modify fun s => { s with dirs := s.dirs.eraseIdx n }
      return true) s (After s) := by
  refine .bind (onFs_ends (inodeClose_counted (h.pickDir hn) (denying_le _) (h.mapOpen rfl) fun _ he => he)) ?_
  rintro _ t ⟨ht, hfiles, hdirs⟩
  have hsame : Same (s.eraseDir n) (t.eraseDir n) := ⟨hfiles, congrArg (·.eraseIdx n) hdirs, ht.freeMapFile⟩
  exact .modify_bind (.pure ⟨hsame.inv h.map ht.toCounted, by simp⟩)

theorem Inv.file_ends {f : File → Program Handles Panic Bool}
    (hf : ∀ file, s.files[n]? = some file → Ends Tolerated (f file) s (After s)) :
    Ends Tolerated (atFile n f) s (After s) := by
  refine .get_bind ?_
  cases hn : s.files[n]? with
  | none => exact ⟨h, by simp⟩
  | some file => exact hf file hn

theorem Inv.dir_ends {f : Dir → Program Handles Panic Bool}
    (hf : ∀ dir, s.dirs[n]? = some dir → Ends Tolerated (f dir) s (After s)) :
    Ends Tolerated (atDir n f) s (After s) := by
  refine .get_bind ?_
  cases hn : s.dirs[n]? with
  | none => exact ⟨h, by simp⟩
  | some dir => exact hf dir hn

/-- **Every call keeps the counts right**; one that fails leaves the handles as they are. -/
theorem Inv.run_ends (c : HandleCall) : Ends Tolerated (run c) s (After s) := by
  have hE : ∀ e, Tolerated e → Tolerated e := fun _ he => he
  have hf := h.mapOpen (t := s) rfl
  have hc : CountedSince s.fs s.fs s.inodes s.denying := ⟨h.counted, rfl⟩
  have hkeep : ∀ {x : FsM Bool}, Ends Tolerated x s.fs (fun _ fs => CountedSince s.fs fs s.inodes s.denying) →
      Ends Tolerated (onFs x) s (After s) := fun hx =>
    (onFs_ends hx).mono fun success t ht => h.after_same ht.1 ht.2.1 ht.2.2 success
  cases c with
  | create name initialSize => exact hkeep (filesysCreate_counted hf hE hc name initialSize)
  | remove name => exact hkeep (filesysRemove_counted hf hE hc name)
  | openFile name => exact h.open_ends (filesysOpen_counted hf hE hc name)
  | openRoot => exact h.openDir_ends (dirOpenRoot_counted hf hE hc)
  | reopen n =>
    refine h.file_ends fun file hn => h.open_ends (fileReopen_counted hf hE hc ?_)
    exact List.mem_append_left _ (List.mem_map.mpr ⟨file, List.mem_append_left _ (List.mem_of_getElem? hn), rfl⟩)
  | reopenDir n =>
    refine h.dir_ends fun dir hn => h.openDir_ends (dirReopen_counted hf hE hc ?_)
    exact List.mem_append_right _ (List.mem_map.mpr ⟨dir, List.mem_of_getElem? hn, rfl⟩)
  | close n => exact h.file_ends fun file hn => h.close_ends hn
  | closeDir n => exact h.dir_ends fun dir hn => h.closeDir_ends hn
  | denyWrite n =>
    refine h.file_ends fun file hn => h.change_ends hn ?_
    refine (fileDenyWrite_counted (h.pick hn) (pick_le _ _)).mono ?_
    rintro _ fs ⟨rfl, hfs⟩
    exact hfs
  | allowWrite n =>
    refine h.file_ends fun file hn => h.change_ends hn ?_
    refine (fileAllowWrite_counted (h.pick hn) List.mem_cons_self).mono ?_
    rintro _ fs ⟨rfl, hfs⟩
    exact (plus_false _ _).symm ▸ hfs
  | write n buffer size =>
    refine h.file_ends fun file hn => h.change_ends hn ?_
    have hpick := h.pick hn
    refine .bind (.bind (writeAt_keeps (.inl (hpick.live List.mem_cons_self)) trivial buffer size file.pos) ?_)
      fun r fs hr => .pure hr
    exact fun _ fs hfs => .pure (hpick.keeps hfs)

end

end Step

/-! ### All runs -/

variable {s : Handles}

theorem reach_inv (h : system.Reach s) : Inv s := by
  refine h.invariant (fun s hs => ?_) fun s c t hs hstep => ?_
  · obtain ⟨⟨format, disk, mem, stack, log, hinit⟩, hfiles, hdirs⟩ := hs
    obtain ⟨f, hf, hflag, hcounted⟩ := filesysInit_counted hinit
    have hinodes : s.inodes = [f.inode] := by simp [inodes, openFiles, hfiles, hdirs, hf]
    have hdenying : s.denying = fun _ => 0 := by
      funext a
      simp [denying, openFiles, hfiles, hf, hflag]
    exact ⟨hinodes ▸ hdenying ▸ hcounted, f, hf⟩
  · have hends := hs.run_ends c
    simp only [system] at hstep
    split at hstep
    · rename_i success t' hrun
      cases hstep
      exact (hends.of_ok hrun).1
    · cases hstep

/-- The number of openers of an inode in the list. -/
def openCnt (s : Handles) (a : ℕ) : Option ℤ :=
  if a ∈ s.fs.openInodes then
    match s.fs.inodes a with
    | .live i => some i.openCnt
    | _ => none
  else none

theorem Inv.openCnt_eq (h : Inv s) (a : ℕ) :
    s.openCnt a = if 0 < s.inodes.count a then some (s.inodes.count a : ℤ) else none := by
  unfold openCnt
  by_cases ha : a ∈ s.fs.openInodes
  · obtain ⟨i, hi⟩ := (h.counted.table.listed a).mp ha
    have hi : s.fs.inodes a = .live i := hi
    obtain ⟨hcount, hpos⟩ := h.counted.count hi
    rw [if_pos ha, if_pos hpos, hi, ← hcount]
  · rw [if_neg ha, if_neg]
    intro hpos
    exact ha ((h.counted.table.listed a).mpr (h.counted.live (List.count_pos_iff.mp hpos)))

theorem reach_step (h : system.Reach s) {t : Handles} {c : HandleCall} {b : Bool} (hrun : run c s = .ok (b, t)) :
    system.Reach t := by
  refine .step h (?_ : system.step s c = .next t)
  simp only [system, hrun]

theorem onFs_run {α : Type} {x : FsM α} {v : α} {fs : Fs} (h : x s.fs = .ok (v, fs)) :
    onFs x s = .ok (v, { s with fs := fs }) := by
  unfold onFs
  rw [h]
  rfl

theorem exists_named : ∃ (fs : Fs) (B : Store) (refs : List (ℕ × ℕ)) (k x : ℕ), system.Reach ⟨fs, [], []⟩ ∧ fs.Plenty ∧
    Ready fs B refs ∧ B.slots k = some ([97], x) := by
  obtain ⟨disk, mem, stack, fs, t, A, a, k, x, -, hinit, hcreate, hplenty, hready, hslots⟩ :=
    exists_file (by decide) (Int.zero_le_ofNat 1) (by decide) (by decide) (show ValidName [97] from ⟨by decide, by decide⟩)
  have hreach : system.Reach (⟨fs, [], []⟩ : Handles) := .init ⟨⟨true, disk, mem, stack, [], hinit⟩, rfl, rfl⟩
  have hreach' : system.Reach (⟨t, [], []⟩ : Handles) :=
    reach_step (c := .create [97] 1) hreach (onFs_run (s := ⟨fs, [], []⟩) hcreate)
  exact ⟨t, A, _, k, x, hreach', hplenty, hready, by rw [hslots, Function.update_self]⟩

theorem open_again {fs : Fs} {A : Store} {refs : List (ℕ × ℕ)} (h : Ready fs A refs) (hplenty : fs.Plenty)
    {name : List UInt8} (hname : (0 : UInt8) ∉ name) {k x : ℕ} (hk : A.slots k = some (name, x)) :
    ∃ a fs' refs', filesysOpen name fs = .ok (some ⟨a, 0, false⟩, fs') ∧ fs'.Plenty ∧ Ready fs' A refs' := by
  obtain ⟨r, t, hopen, hlead, -, ⟨l, y, a, rfl, -, hrep⟩ | ⟨-, -, habsent⟩⟩ :=
    (filesysOpen_ends h hname).returns
  · exact ⟨a, t, _, hopen, hlead.plenty hplenty, hrep, h.file.congr hlead (List.subset_cons_self _ _), h.root⟩
  · exact absurd hk (habsent hplenty k x)

theorem exists_denying : ∃ (s : Handles) (file : File), system.Reach s ∧ s.files = [file] ∧ file.denyWrite = true := by
  obtain ⟨t, B, refs, k, x, hreach, hplenty, hready, hk⟩ := exists_named
  obtain ⟨c, u, -, hopen, -, -⟩ := open_again hready hplenty (by decide) hk
  have hreach' : system.Reach (⟨u, [⟨c, 0, false⟩], []⟩ : Handles) :=
    reach_step (c := .openFile [97]) hreach (bind_run_ok (onFs_run (s := ⟨t, [], []⟩) hopen))
  have hinv := reach_inv hreach'
  obtain ⟨f, v, hdeny, rfl, -⟩ := (fileDenyWrite_counted (hinv.pick (n := 0) rfl)
    (pick_le _ _)).returns
  refine ⟨⟨v, [⟨c, 0, true⟩], []⟩, ⟨c, 0, true⟩, reach_step (c := .denyWrite 0) (b := true) hreach' ?_, rfl, rfl⟩
  refine (get_bind_run _ _).trans ?_
  exact bind_run_ok (onFs_run (s := ⟨u, [⟨c, 0, false⟩], []⟩) hdeny)

/-- **An inode counts its handles.** In every run, on any disk and with any failures of `malloc`:
each inode of `open_inodes` has as many openers as there are handles of files and directories on it,
which is at least one; an inode without a handle is not in the list; and every call either stops at
a panic that has nothing to do with handles or returns, and when it fails all counts are as they
were. -/
theorem open_counts (h : system.Reach s) :
    (∀ a ∈ s.fs.openInodes, ∃ i, s.fs.inodes a = .live i ∧ i.openCnt = s.inodes.count a ∧ 1 ≤ s.inodes.count a) ∧
      (∀ a, s.inodes.count a = 0 → a ∉ s.fs.openInodes) ∧
      ∀ c, Ends Tolerated (run c) s fun success t => success = false → ∀ a, t.openCnt a = s.openCnt a := by
  have hinv := reach_inv h
  refine ⟨fun a ha => ?_, fun a hzero ha => ?_, fun c => ?_⟩
  · obtain ⟨i, hi⟩ := (hinv.counted.table.listed a).mp ha
    exact ⟨i, hi, hinv.counted.count hi⟩
  · obtain ⟨i, hi⟩ := (hinv.counted.table.listed a).mp ha
    have := (hinv.counted.count hi).2
    omega
  · refine (hinv.run_ends c).mono fun success t ht hfail a => ?_
    rw [ht.1.openCnt_eq, hinv.openCnt_eq, (ht.2 hfail).inodes_eq]

theorem open_counts_opened : ∃ (s : Handles) (file : File), system.Reach s ∧ s.files = [file] ∧
    file.inode ∈ s.fs.openInodes ∧ ∃ i, s.fs.inodes file.inode = .live i ∧ i.openCnt = s.inodes.count file.inode := by
  obtain ⟨s, file, hreach, hfiles, -⟩ := exists_denying
  obtain ⟨hlisted, -, -⟩ := open_counts hreach
  have hmem : file.inode ∈ s.fs.openInodes := by
    have hinv := reach_inv hreach
    refine (hinv.counted.table.listed _).mpr (hinv.counted.live (List.mem_append_left _ (List.mem_map.mpr ⟨file, ?_, rfl⟩)))
    rw [openFiles, hfiles]
    exact List.mem_append_left _ List.mem_cons_self
  obtain ⟨i, hi, hcount, -⟩ := hlisted file.inode hmem
  exact ⟨s, file, hreach, hfiles, hmem, i, hi, hcount⟩

/-- **An inode counts the handles that deny writes.** In every run, the number is that of the
handles whose flag is set, and at most that of the openers, so that no assertion about it fails.
While it is positive, `file_write` through any handle of the inode returns 0, and nothing changes,
neither on the disk nor in the handle. -/
theorem deny_counts (h : system.Reach s) :
    (∀ a i, s.fs.inodes a = .live i → i.denyWriteCnt = s.denying a ∧ 0 ≤ i.denyWriteCnt ∧ i.denyWriteCnt ≤ i.openCnt) ∧
      (∀ c, Ends Tolerated (run c) s fun _ _ => True) ∧
      ∀ file ∈ s.openFiles, 0 < s.denying file.inode → ∀ buffer size,
        fileWrite file buffer size s.fs = .ok ((0, file), s.fs.shift) := by
  have hinv := reach_inv h
  refine ⟨fun a i hi => ?_, fun c => (hinv.run_ends c).mono fun _ _ _ => trivial, fun file hfile hpos buffer size => ?_⟩
  · have hdeny := hinv.counted.denied a i hi
    have hle := hinv.counted.le a
    have hcount := (hinv.counted.count hi).1
    omega
  · have hmem : file.inode ∈ s.inodes := List.mem_append_left _ (List.mem_map.mpr ⟨file, hfile, rfl⟩)
    obtain ⟨i, hi⟩ := hinv.counted.live hmem
    have hdeny := hinv.counted.denied _ i hi
    refine (bind_run_ok (writeAt_denied hi (by omega) buffer size file.pos)).trans ?_
    rw [Int.add_zero]
    rfl

theorem deny_counts_denied : ∃ (s : Handles) (file : File), system.Reach s ∧ s.files = [file] ∧ 0 < s.denying file.inode ∧
    ∀ buffer size, fileWrite file buffer size s.fs = .ok ((0, file), s.fs.shift) := by
  obtain ⟨s, file, hreach, hfiles, hflag⟩ := exists_denying
  obtain ⟨-, -, hwrite⟩ := deny_counts hreach
  have hmem : file ∈ s.openFiles := by
    rw [openFiles, hfiles]
    exact List.mem_append_left _ List.mem_cons_self
  have hpos : 0 < s.denying file.inode := List.countP_pos_iff.mpr ⟨file, hmem, by simp [hflag]⟩
  exact ⟨s, file, hreach, hfiles, hpos, hwrite file hmem hpos⟩

end Handles

end Pintos.Filesys
