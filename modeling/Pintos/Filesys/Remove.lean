import Pintos.Filesys.Calls

/-!
# Removing a file by a system call

`call_remove` of `userprog/syscall.c`, which `SYS_REMOVE` calls. It does not call
`filesys_remove`: it opens the file, marks its inode as removed, and returns. The entry
of the directory stays, and so does the reference that the open has taken.

**`callRemove_iff`** compares the two, in every state that a run with memory in plenty
reaches: they have the same effect exactly if no file has the name. Otherwise the name is
still there after `call_remove`, and the inode has one opener more than there are open
files, so that its sectors are never freed.
-/

namespace Pintos.Filesys

open Function InodeTable Lib Memory Program

/-- `call_remove`: whether it succeeds. -/
def callRemove (name : List UInt8) : FsM Bool := do
  match ← filesysOpen name with
  | none => return false
  | some file =>
    inodeRemove file.inode
    return true

/-- Entry `k` of the root directory, if it is in use. -/
def Fs.entry (s : Fs) (k : ℕ) : Option (List UInt8 × ℕ) := slot (fileBytes s.disk (s.inodeAt ROOT_DIR_SECTOR)) k

/-- The root directory has the name. -/
def Fs.Named (s : Fs) (name : List UInt8) : Prop := ∃ k < 16, ∃ x, s.entry k = some (name, x)

/-- The same disk, free map and open inodes. -/
structure SameEffect (t u : Fs) : Prop where
  /-- The entries of the directory are the same. -/
  entries : ∀ k < 16, t.entry k = u.entry k
  /-- The sectors are the same. -/
  disk : t.disk = u.disk
  /-- The same sectors are free. -/
  freeMap : t.freeMap = u.freeMap
  /-- The same inodes are open, with the same counts and marks. -/
  inodes : t.inodes = u.inodes
  /-- The list of them is the same. -/
  openInodes : t.openInodes = u.openInodes

variable {s t : Fs} {A B : Store} {refs : List (ℕ × ℕ)} {E : Panic → Prop} {data : InodeDisk} {name : List UInt8}

theorem SameEffect.shift (t : Fs) : SameEffect t.shift t := ⟨fun _ _ => rfl, rfl, rfl, rfl, rfl⟩

theorem Rep.entry_eq (h : Rep s A refs) (h1 : A.files 1 = some data) {k : ℕ} (hk : k < 16) : s.entry k = A.slots k := by
  have hroot : s.inodeAt ROOT_DIR_SECTOR = data := h.inodeAt_eq h1
  unfold Fs.entry
  rw [hroot]
  exact (h.dir data h1).2 k hk

theorem Rep.named_iff (h : Rep s A refs) (h1 : A.files 1 = some data) :
    s.Named name ↔ ∃ k x, A.slots k = some (name, x) := by
  constructor
  · rintro ⟨k, hk, x, hx⟩
    exact ⟨k, x, (h.entry_eq h1 hk).symm.trans hx⟩
  · rintro ⟨k, x, hx⟩
    have hk := (h.slots k name x hx).1
    exact ⟨k, hk, x, (h.entry_eq h1 hk).trans hx⟩

/-! ### A name that is not there -/

theorem fileOpen_none (s : Fs) : fileOpen none s = .ok (none, s.shift) := by
  unfold fileOpen openWith
  rfl

section

variable (h : Ready s A refs) (hplenty : s.Plenty) (hname : (0 : UInt8) ∉ name)
include h hplenty hname

/-- With memory in plenty the two functions do the same up to where the name is not found, but for
one more `calloc`. -/
theorem remove_absent (habsent : A.Absent name) :
    ∃ u, filesysRemove name s = .ok (false, u) ∧ callRemove name s = .ok (false, u.shift) := by
  obtain ⟨data, h1⟩ := h.root
  obtain ⟨r, t, hroot, hlead, hdir⟩ := (dirOpenRoot_ends h.rep h1).returns
  obtain ⟨dir, rfl, -, hrep⟩ | ⟨-, hshort, -⟩ := hdir
  case inr => exact absurd hplenty hshort
  obtain ⟨r, u, hlookup, -, -, -, -, hrep', hfound⟩ :=
    (hrep.lookup_ends h1 List.mem_cons_self hname).returns
  obtain ⟨-, k, x, -, -, hx, -⟩ | ⟨rfl, -⟩ := hfound
  case inl => exact absurd hx.1 (habsent k x)
  obtain ⟨⟨⟩, v, hclose, -⟩ := (dirClose_ends hrep').returns
  have hremove : fsOps.dirRemove dir name t = .ok (false, u) := by
    unfold InodeOps.dirRemove
    rw [bind_run_ok hlookup]
    rfl
  have hfind : fsOps.dirLookup dir name t = .ok (none, u) := by
    unfold InodeOps.dirLookup
    rw [bind_run_ok hlookup]
    rfl
  have hopen : filesysOpen name s = .ok (none, v.shift) := by
    unfold filesysOpen
    rw [bind_run_ok hroot]
    dsimp only
    rw [bind_run_ok hfind, bind_run_ok hclose]
    exact fileOpen_none v
  refine ⟨v, ?_, ?_⟩
  · unfold filesysRemove
    rw [bind_run_ok hroot]
    dsimp only
    rw [bind_run_ok hremove, bind_run_ok hclose]
    rfl
  · unfold callRemove
    rw [bind_run_ok hopen]
    rfl

/-! ### A name that is there -/

theorem filesysRemove_present {k x : ℕ}
    (hk : A.slots k = some (name, x)) :
    ∃ u, filesysRemove name s = .ok (true, u) ∧ ∃ l < 16, ∃ y, s.entry l = some (name, y) ∧ u.entry l = none := by
  obtain ⟨data, h1⟩ := h.root
  obtain ⟨b, u, hrun, -, hcases⟩ := (filesysRemove_ends h hname).returns
  obtain ⟨rfl, l, y, B, hl, hclosed, hrep⟩ | ⟨-, -, -, habsent⟩ := hcases
  case inr => exact absurd hk (habsent hplenty k x)
  have hl16 := (h.rep.slots l name y hl).1
  have hroot : B.files 1 = some data := (hclosed.files_eq (.inr rfl)).trans h1
  have hslots : B.slots l = none := by
    obtain rfl | ⟨-, -, -, -, hslots⟩ := hclosed
    · exact update_self _ _ _
    · rw [hslots]
      exact update_self _ _ _
  exact ⟨u, hrun, l, hl16, y, (h.rep.entry_eq h1 hl16).trans hl, (hrep.entry_eq hroot hl16).trans hslots⟩

/-- `call_remove` leaves the directory as it is, and an inode that is marked and has one more
reference. -/
theorem callRemove_present {k x : ℕ}
    (hk : A.slots k = some (name, x)) :
    ∃ t, callRemove name s = .ok (true, t) ∧ (∀ l < 16, t.entry l = s.entry l) ∧
      ∃ l < 16, ∃ a i, s.entry l = some (name, i.sector) ∧ t.inodes a = .live i ∧ i.removed = true ∧
        i.openCnt = refs.countP (·.2 == a) + 1 := by
  obtain ⟨data, h1⟩ := h.root
  obtain ⟨r, t, hrun, -, -, hcases⟩ := (filesysOpen_ends h hname).returns
  obtain ⟨l, y, a, rfl, ⟨hl, -⟩, hrep⟩ | ⟨-, -, habsent⟩ := hcases
  case inr => exact absurd hk (habsent hplenty k x)
  obtain ⟨i, hi, rfl, -, -⟩ := hrep.inode_of_ref List.mem_cons_self
  have hl16 := (h.rep.slots l name i.sector hl).1
  have hcount : i.openCnt = refs.countP (·.2 == a) + 1 := by
    rw [hrep.table.count a i hi]
    simp [Table.count, Fs.table]
  have hmark : inodeRemove a t =
      .ok ((), { t with inodes := update t.inodes a (.live { i with removed := true }) }) := by
    have hget : getInode a t = .ok (i, t) := by
      rw [getInode, get_bind_run, hi]
      rfl
    unfold inodeRemove
    rw [bind_run_ok hget]
    rfl
  refine ⟨{ t with inodes := update t.inodes a (.live { i with removed := true }) }, ?_, ?_, l, hl16, a,
    { i with removed := true }, (h.rep.entry_eq h1 hl16).trans hl, update_self _ _ _, rfl, hcount⟩
  · unfold callRemove
    rw [bind_run_ok hrun]
    dsimp only
    rw [bind_run_ok hmark]
    rfl
  · intro m hm
    exact (hrep.entry_eq h1 hm).trans (h.rep.entry_eq h1 hm).symm

end

/-! ### The two functions -/

variable {S : Session}

theorem Inv.countP_refs {P : Prop} {map : InodeDisk} {a : ℕ} (h : Inv P S A map a refs) (b : ℕ) :
    refs.countP (·.2 == b) = S.files.countP (·.inode == b) := by
  have hmap : ∀ (l : List (ℕ × ℕ)), l.countP (·.2 == b) = (l.map Prod.snd).countP (· == b) := fun l => by
    rw [List.countP_map]
    rfl
  rw [hmap, h.opened, List.countP_map]
  rfl

theorem remove_named (h : (calls fun mem => ∀ n, mem n ≠ none).Reach S) (hname : (0 : UInt8) ∉ name)
    (hnamed : S.fs.Named name) :
    ∃ t u, callRemove name S.fs = .ok (true, t) ∧ filesysRemove name S.fs = .ok (true, u) ∧
      (∀ k < 16, t.entry k = S.fs.entry k) ∧
      (∃ k < 16, ∃ x, S.fs.entry k = some (name, x) ∧ u.entry k = none) ∧
      ∃ k < 16, ∃ a i, S.fs.entry k = some (name, i.sector) ∧ t.inodes a = .live i ∧ i.removed = true ∧
        S.files.countP (·.inode == a) < i.openCnt := by
  obtain ⟨A, map, a, refs, hinv⟩ := inv_of_reach (P := True) (fun _ hmem _ => hmem) h
  have hplenty := (hinv.synced trivial).1
  obtain ⟨data, h1⟩ := hinv.ready.root
  obtain ⟨k, x, hk⟩ := (hinv.ready.rep.named_iff h1).mp hnamed
  obtain ⟨t, hcall, hentries, m, hm, b, i, hmi, hi, hrem, hcount⟩ := callRemove_present hinv.ready hplenty hname hk
  obtain ⟨u, hremove, hcleared⟩ := filesysRemove_present hinv.ready hplenty hname hk
  refine ⟨t, u, hcall, hremove, hentries, hcleared, m, hm, b, i, hmi, hi, hrem, ?_⟩
  have hle : refs.countP (·.2 == b) ≤ ((0, a) :: refs).countP (·.2 == b) := (List.sublist_cons_self _ _).countP_le
  rw [hcount, ← hinv.countP_refs]
  omega

/-- **`call_remove` has the effect of `filesys_remove` exactly if the directory does not have the
name.** When it has the name, both succeed, but `call_remove` leaves all the entries, and an inode
that is marked as removed and counts more openers than there are open files. -/
theorem callRemove_iff (h : (calls fun mem => ∀ n, mem n ≠ none).Reach S) (hname : (0 : UInt8) ∉ name) :
    ∃ b t b' u, callRemove name S.fs = .ok (b, t) ∧ filesysRemove name S.fs = .ok (b', u) ∧
      (b = b' ∧ SameEffect t u ↔ ¬ S.fs.Named name) ∧
      (S.fs.Named name → b = true ∧ b' = true ∧ (∀ k < 16, t.entry k = S.fs.entry k) ∧
        (∃ k < 16, ∃ x, S.fs.entry k = some (name, x) ∧ u.entry k = none) ∧
        ∃ k < 16, ∃ a i, S.fs.entry k = some (name, i.sector) ∧ t.inodes a = .live i ∧ i.removed = true ∧
          S.files.countP (·.inode == a) < i.openCnt) := by
  by_cases hnamed : S.fs.Named name
  · obtain ⟨t, u, hcall, hremove, hentries, ⟨l, hl, y, hy, hnone⟩, hleaked⟩ := remove_named h hname hnamed
    refine ⟨true, t, true, u, hcall, hremove, ?_, fun _ => ⟨rfl, rfl, hentries, ⟨l, hl, y, hy, hnone⟩, hleaked⟩⟩
    refine iff_of_false (fun hsame => ?_) (not_not.mpr hnamed)
    have hentry := hsame.2.entries l hl
    rw [hentries l hl, hy, hnone] at hentry
    cases hentry
  · obtain ⟨A, map, a, refs, hinv⟩ := inv_of_reach (P := True) (fun _ hmem _ => hmem) h
    obtain ⟨data, h1⟩ := hinv.ready.root
    have habsent : ∀ k x, A.slots k ≠ some (name, x) := fun k x hk =>
      hnamed ((hinv.ready.rep.named_iff h1).mpr ⟨k, x, hk⟩)
    obtain ⟨u, hremove, hcall⟩ := remove_absent hinv.ready (hinv.synced trivial).1 hname habsent
    exact ⟨false, u.shift, false, u, hcall, hremove, iff_of_true ⟨rfl, SameEffect.shift u⟩ hnamed,
      fun h => absurd h hnamed⟩

/-- On a disk with a file `a` no file has the name `b`, and both functions fail. -/
theorem callRemove_iff_other : ∃ S b t b' u, (calls fun mem => ∀ n, mem n ≠ none).Reach S ∧ S.fs.Named [97] ∧
    callRemove [98] S.fs = .ok (b, t) ∧ filesysRemove [98] S.fs = .ok (b', u) ∧ b = b' ∧ SameEffect t u := by
  obtain ⟨s, A, a, k, x, hreach, -, hready, hslots⟩ :=
    exists_named (show ValidName [97] from ⟨by decide, by decide⟩) (by decide)
  obtain ⟨b, t, b', u, hcall, hremove, hiff, -⟩ := callRemove_iff hreach (show (0 : UInt8) ∉ [98] by decide)
  obtain ⟨data, h1⟩ := hready.root
  have hnamed : ∀ name, s.Named name ↔ ∃ l y, update (fun _ => none) k (some ([97], x)) l = some (name, y) :=
    fun name => hslots ▸ hready.rep.named_iff h1
  refine ⟨⟨s, []⟩, b, t, b', u, hreach, (hnamed _).mpr ⟨k, x, update_self _ _ _⟩, hcall, hremove, hiff.mpr fun hother => ?_⟩
  obtain ⟨l, y, hl⟩ := (hnamed _).mp hother
  rw [update_apply] at hl
  split at hl <;> simp at hl

theorem create_named (hvalid : ValidName name) (hname : (0 : UInt8) ∉ name) :
    ∃ s : Fs, (calls fun mem => ∀ n, mem n ≠ none).Reach ⟨s, []⟩ ∧ s.Named name := by
  obtain ⟨s, A, a, k, x, hreach, -, hready, hslots⟩ := exists_named hvalid hname
  obtain ⟨data, h1⟩ := hready.root
  exact ⟨s, hreach, (hready.rep.named_iff h1).mpr ⟨k, x, by rw [hslots, update_self]⟩⟩

theorem open_named (h : (calls fun mem => ∀ n, mem n ≠ none).Reach S) (hname : (0 : UInt8) ∉ name)
    (hnamed : S.fs.Named name) : ∃ file t, filesysOpen name S.fs = .ok (some file, t) := by
  obtain ⟨A, map, a, refs, hinv⟩ := inv_of_reach (P := True) (fun _ hmem _ => hmem) h
  obtain ⟨data, h1⟩ := hinv.ready.root
  obtain ⟨k, x, hk⟩ := (hinv.ready.rep.named_iff h1).mp hnamed
  obtain ⟨r, t, hrun, -, -, ⟨l, y, b, rfl, -⟩ | ⟨-, -, habsent⟩⟩ :=
    (filesysOpen_ends hinv.ready hname).returns
  · exact ⟨_, t, hrun⟩
  · exact absurd hk (habsent (hinv.synced trivial).1 k x)

/-- **A file that `call_remove` reports as removed is still there.** It is on the disk, nobody has
it open, and `filesys_remove` clears its entry. After `call_remove` the entry is what it was, and
the inode is open. -/
theorem removed_file_stays : ∃ s t u : Fs, (calls fun mem => ∀ n, mem n ≠ none).Reach ⟨s, []⟩ ∧
    callRemove [97] s = .ok (true, t) ∧ filesysRemove [97] s = .ok (true, u) ∧ t.Named [97] ∧
    (∃ k < 16, ∃ x, t.entry k = some ([97], x) ∧ u.entry k = none) ∧
    ∃ a i, t.inodes a = .live i ∧ i.removed = true ∧ 0 < i.openCnt := by
  obtain ⟨s, hreach, k, hk, x, hx⟩ := create_named (show ValidName [97] from ⟨by decide, by decide⟩) (by decide)
  obtain ⟨t, u, hcall, hremove, hentries, ⟨l, hl, y, hy, hnone⟩, -, -, a, i, -, hi, hrem, hcount⟩ :=
    remove_named hreach (by decide) ⟨k, hk, x, hx⟩
  exact ⟨s, t, u, hreach, hcall, hremove, ⟨k, hk, x, (hentries k hk).trans hx⟩,
    ⟨l, hl, y, (hentries l hl).trans hy, hnone⟩, a, i, hi, hrem, hcount⟩

end Pintos.Filesys
