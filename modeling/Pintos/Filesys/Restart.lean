import Pintos.Filesys.Calls

/-!
# Starting again

What is on the disk is all there is: when the memory is lost after any calls and
`filesys_init` runs on the disk, without formatting it, the file system is as it was
(**`restart_same`**). There must be memory in plenty: without it the free map may not get
to its file.

What can be seen of a file system is its free map, and for each name what `inspect` finds:
the sector of the inode, the length, and the data.
-/

namespace Pintos.Filesys

open Function Memory Lib Program

/-- What can be seen of the file with a name: the sector of its inode, its length and its data. -/
def inspect (name : List UInt8) : FsM (Option (ℕ × ℤ × Bytes)) := do
  match ← filesysOpen name with
  | none => return none
  | some file =>
    let inode ← getInode file.inode
    let (_, buffer) ← fileReadAt file (fun _ => 0) inode.data.length 0
    return some (inode.sector, inode.data.length, buffer)

/-- What is to be seen, in the store: the file of the first slot with the name. -/
inductive Seen (A : Store) (d : Disk) (name : List UInt8) : Option (ℕ × ℤ × Bytes) → Prop
  /-- No slot has the name. -/
  | absent (h : ∀ l y, A.slots l ≠ some (name, y)) : Seen A d name none
  /-- The first slot that has it. -/
  | found {l x : ℕ} {data : InodeDisk} (slot : A.slots l = some (name, x))
      (first : ∀ i < l, ∀ y, A.slots i ≠ some (name, y)) (file : A.files x = some data) :
      Seen A d name (some (x, data.length, copy (fun _ => 0) 0 (fileBytes d data) 0 data.length.toNat))

variable {s : Fs} {A : Store} {refs : List (ℕ × ℕ)} {d : Disk} {name : List UInt8}

theorem Seen.unique {r r' : Option (ℕ × ℤ × Bytes)} (h : Seen A d name r) (h' : Seen A d name r') : r = r' := by
  cases h with
  | absent hnone =>
    cases h' with
    | absent => rfl
    | found hslot => exact absurd hslot (hnone _ _)
  | @found l x data hslot hfirst hfile =>
    cases h' with
    | absent hnone => exact absurd hslot (hnone _ _)
    | @found l' x' data' hslot' hfirst' hfile' =>
      obtain rfl : l = l' := by
        by_contra hne
        obtain hlt | hlt := Nat.lt_or_gt_of_ne hne
        · exact hfirst' l hlt x hslot
        · exact hfirst l' hlt x' hslot'
      obtain rfl : x = x' := (Prod.mk.inj (Option.some.inj (hslot.symm.trans hslot'))).2
      obtain rfl : data = data' := Option.some.inj (hfile.symm.trans hfile')
      rfl

/-- **`inspect` sees what is in the store.** -/
theorem inspect_ends (h : Ready s A refs) (hp : s.Plenty) (hname : (0 : UInt8) ∉ name) :
    Ends Never (inspect name) s fun r _ => Seen A s.disk name r := by
  refine .bind (filesysOpen_ends h hname) ?_
  rintro _ t ⟨hlead, hundisturbed, ⟨l, x, a, rfl, ⟨hslot, hfirst⟩, hrep⟩ | ⟨rfl, hrep, hnone⟩⟩
  case inr => exact .pure (.absent (hnone hp))
  obtain ⟨i, hi, rfl, hfile, -⟩ := hrep.inode_of_ref List.mem_cons_self
  have hdisk := hrep.files i.sector i.data hfile
  have hlen : i.data.length = (i.data.length.toNat : ℤ) := (Int.toNat_of_nonneg hdisk.holds.length_nonneg).symm
  refine getInode_bind hi ?_
  rw [hlen]
  refine .bind (readAt_ends hi hdisk.holds (fun _ => 0) i.data.length.toNat 0) ?_
  rintro _ _ ⟨n, hn, rfl, rfl⟩
  have hcount : flatCount i.data.length.toNat i.data.length.toNat 0 = i.data.length.toNat := Nat.min_self _
  obtain rfl : n = i.data.length.toNat := (hn.all (hlead.plenty hp)).trans hcount
  have hdata : copy (fun _ => 0) 0 (fileBytes t.disk i.data) 0 i.data.length.toNat =
      copy (fun _ => 0) 0 (fileBytes s.disk i.data) 0 i.data.length.toNat := by
    funext j
    unfold copy
    split
    · have hsectors := length_le_bytesToSectors hdisk.holds.length_nonneg hdisk.small
      refine hundisturbed i.sector i.data hfile (h.rep.ok.named l name _ hslot).1 _ (Set.mem_insert_of_mem _ ?_)
      show i.data.start ≤ _ ∧ _ < i.data.start + bytesToSectors i.data.length
      omega
    · rfl
  rw [hdata, ← hlen]
  exact .found hslot hfirst hfile

/-- **Nothing is lost**: after any calls, with memory in plenty, the free map on the disk is the
free map in memory, and a file system that is started again on the disk has the same free map and
the same files. -/
theorem restart_same {s : Session} (h : (calls fun mem => ∀ n, mem n ≠ none).Reach s) :
    ((s.fs.inodeAt FREE_MAP_SECTOR).length = byteCnt s.fs.freeMap.bitCnt ∧
      ∀ i < s.fs.freeMap.bitCnt, mapBit s.fs.disk (s.fs.inodeAt FREE_MAP_SECTOR) i = s.fs.freeMap.bit i) ∧
    ∀ (mem : ℕ → Option Bytes) (stack : Bytes), (∀ n, mem n ≠ none) →
      ∃ t, filesysInit false s.fs.disk mem stack s.fs.log = .ok t ∧ t.freeMap.bitCnt = s.fs.freeMap.bitCnt ∧
        (∀ i < s.fs.freeMap.bitCnt, t.freeMap.bit i = s.fs.freeMap.bit i) ∧
        ∀ name, (0 : UInt8) ∉ name → ∃ r u v, inspect name s.fs = .ok (r, u) ∧ inspect name t = .ok (r, v) := by
  obtain ⟨A, map, a, refs, hinv⟩ := inv_of_reach (P := True) (fun _ hmem _ => hmem) h
  obtain ⟨hplenty, hsync⟩ := hinv.synced trivial
  have hmap : s.fs.inodeAt FREE_MAP_SECTOR = map := hinv.ready.rep.inodeAt_eq hinv.mapFile
  refine ⟨⟨?_, ?_⟩, fun mem stack hmem => ?_⟩
  · rw [hmap]
    exact hinv.ready.rep.freeMap map hinv.mapFile
  · rw [hmap]
    exact hsync
  · obtain ⟨t, b, hinit, hdisk, hplenty', hcnt, hbits, hready⟩ :=
      filesysInit_restart hinv.ready hinv.mapFile hsync hmem stack
    refine ⟨t, hinit, hcnt, hbits, fun name hname => ?_⟩
    obtain ⟨r, u, hrun, hseen⟩ := (inspect_ends hinv.ready hplenty hname).returns
    obtain ⟨r', v, hrun', hseen'⟩ := (inspect_ends hready hplenty' hname).returns
    obtain rfl : r = r' := hseen.unique (hdisk ▸ hseen')
    exact ⟨r, u, v, hrun, hrun'⟩

/-- A file `a` is there again, and the same sectors are free. -/
theorem restart_same_file : ∃ (s t : Fs) (seen : ℕ × ℤ × Bytes) (u v : Fs),
    (calls fun mem => ∀ n, mem n ≠ none).Reach ⟨s, []⟩ ∧
    filesysInit false s.disk (fun _ => some fun _ => 0) (fun _ => 0) s.log = .ok t ∧
    (∀ i < s.freeMap.bitCnt, t.freeMap.bit i = s.freeMap.bit i) ∧
    inspect [97] s = .ok (some seen, u) ∧ inspect [97] t = .ok (some seen, v) := by
  obtain ⟨s, A, a, k, x, hreach, hplenty, hready, hslots⟩ :=
    exists_named (show ValidName [97] from ⟨by decide, by decide⟩) (by decide)
  obtain ⟨t, hinit, -, hbits, hnames⟩ := (restart_same hreach).2 (fun _ => some fun _ => 0) (fun _ => 0) nofun
  obtain ⟨r, u, v, hrun, hrun'⟩ := hnames [97] (by decide)
  have hseen := (inspect_ends hready hplenty (by decide)).of_ok hrun
  cases hseen with
  | absent hnone => exact absurd (by rw [hslots, update_self]) (hnone k x)
  | found => exact ⟨s, t, _, u, v, hreach, hinit, hbits, hrun, hrun'⟩

end Pintos.Filesys
