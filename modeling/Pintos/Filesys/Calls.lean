import Pintos.Filesys.Format

/-!
# All runs of the file system

The file system as a system of calls: it starts on a disk that was formatted, and then any
calls of `filesys_create`, `filesys_open`, `file_write_at`, `file_close` and
`filesys_remove` come, with any names and sizes. What `malloc` returns is arbitrary.

## What is proved

* In every state no sector is in use twice (**`sectors_never_shared`**): the free map, the root
  directory, and every file that has a name or is open have sectors of their own, which
  are on the disk and marked in the free map. No call stops with a failed assertion of
  `free_map_release`, and no sector is handed out twice.
* When `filesys_create` fails the files are as they were, but the free map is so only if
  the call did not come as far as to make an inode with data
  (**`filesysCreate_failed`**): the data sectors of a file that cannot be named are lost.
  With memory in plenty the same is true of the free map in its file. Without, the file may
  keep a sector that was given back: nobody looks at whether `free_map_release` has written it.
-/

namespace Pintos.Filesys

open Function Memory Lib InodeTable Program

/-! ### The calls -/

/-- A call of the file system. -/
inductive Call where
  /-- `filesys_create`. -/
  | create (name : List UInt8) (initialSize : ℤ)
  /-- `filesys_open`; the file is added to the open files. -/
  | openFile (name : List UInt8)
  /-- `file_write_at` to an open file. -/
  | write (i : ℕ) (buffer : Bytes) (size fileOfs : ℕ)
  /-- `file_close` of an open file. -/
  | close (i : ℕ)
  /-- `filesys_remove`. -/
  | remove (name : List UInt8)

/-- The arguments of a call: a name is a string, and a size is an `off_t` that is not negative. -/
def Call.valid : Call → Bool
  | .create name initialSize => !name.contains 0 && decide (0 ≤ initialSize ∧ initialSize < 2 ^ 31)
  | .openFile name => !name.contains 0
  | .remove name => !name.contains 0
  | .write .. => true
  | .close _ => true

/-- The file system and the files that are open. -/
structure Session where
  /-- The file system. -/
  fs : Fs
  /-- What `filesys_open` returned and `file_close` was not given yet. -/
  files : List File

/-- A function of the file system. -/
def onFs {α : Type} (x : FsM α) : Program Session Panic α := fun s =>
  (x s.fs).map fun (a, fs) => (a, { s with fs := fs })

/-- What a call does. -/
def Call.run : Call → Program Session Panic Unit
  | .create name initialSize => do
    let _ ← onFs (filesysCreate name initialSize)
    return ()
  | .openFile name => do
    let file ← onFs (filesysOpen name)
    modify fun s => { s with files := file.toList ++ s.files }
  | .write i buffer size fileOfs => do
    match (← get).files[i]? with
    | none => return ()
    | some file =>
      let _ ← onFs (fileWriteAt file buffer size fileOfs)
      return ()
  | .close i => do
    match (← get).files[i]? with
    | none => return ()
    | some file =>
      onFs (fileClose (some file))
      modify fun s => { s with files := s.files.eraseIdx i }
  | .remove name => do
    let _ ← onFs (filesysRemove name)
    return ()

/-- All runs from a formatted disk, when what `malloc` returns is as `M` says. -/
def calls (M : (ℕ → Option Bytes) → Prop) : System Session Call where
  init s := ∃ disk mem stack, M mem ∧ filesysInit true disk mem stack [] = .ok s.fs ∧ s.files = []
  step s c :=
    if c.valid then
      match c.run s with
      | .ok (_, t) => .next t
      | .error _ => .fault
    else .disabled

/-! ### One call -/

section Step

variable {M : (ℕ → Option Bytes) → Prop} {fs fs' : Fs} {files : List File}

theorem onFs_run {α : Type} {x : FsM α} {v : α} (h : x fs = .ok (v, fs')) : onFs x ⟨fs, files⟩ = .ok (v, ⟨fs', files⟩) := by
  unfold onFs
  rw [h]
  rfl

variable {t : Session}

theorem calls_step {c : Call} {s : Session} (hv : c.valid = true) (hrun : c.run s = .ok ((), t)) :
    (calls M).step s c = .next t := by
  simp only [calls, if_pos hv, hrun]

variable {length : ℤ} {b : Bool}

theorem calls_step_create {name : List UInt8} (hname : (0 : UInt8) ∉ name)
    (hlength : 0 ≤ length ∧ length < 2 ^ 31) (h : filesysCreate name length fs = .ok (b, fs')) :
    (calls M).step ⟨fs, files⟩ (.create name length) = .next ⟨fs', files⟩ := by
  apply calls_step
  · simpa [Call.valid] using ⟨hname, hlength⟩
  · exact bind_run_ok (onFs_run h)

theorem calls_step_openFile {name : List UInt8} {opened : Option File} (hname : (0 : UInt8) ∉ name)
    (h : filesysOpen name fs = .ok (opened, fs')) :
    (calls M).step ⟨fs, files⟩ (.openFile name) = .next ⟨fs', opened.toList ++ files⟩ := by
  apply calls_step
  · simpa [Call.valid] using hname
  · exact bind_run_ok (onFs_run h)

theorem calls_step_close {i : ℕ} {file : File} (hi : files[i]? = some file)
    (h : fileClose (some file) fs = .ok ((), fs')) :
    (calls M).step ⟨fs, files⟩ (.close i) = .next ⟨fs', files.eraseIdx i⟩ := by
  apply calls_step
  · rfl
  · have hrun : (Call.close i).run ⟨fs, files⟩ = (match files[i]? with
        | none => return ()
        | some file => do
          onFs (fileClose (some file))
          modify fun s => { s with files := s.files.eraseIdx i } : Program Session Panic Unit) ⟨fs, files⟩ := rfl
    rw [hrun, hi]
    exact bind_run_ok (onFs_run h)

end Step

/-! ### The invariant -/

/-- The file system is ready, and the references to inodes are those of the open files; `P` is that
there is memory in plenty. -/
structure Inv (P : Prop) (s : Session) (A : Store) (map : InodeDisk) (a : ℕ) (refs : List (ℕ × ℕ)) : Prop where
  /-- The file system is ready. -/
  ready : Ready s.fs A ((0, a) :: refs)
  /-- The file of the free map has the first reference. -/
  file : ∃ f, s.fs.freeMapFile = some f ∧ f.inode = a
  /-- It is where it was. -/
  mapFile : A.files 0 = some map
  /-- The open files have the others. -/
  opened : refs.map Prod.snd = s.files.map File.inode
  /-- They are neither the free map nor the directory. -/
  ne : ∀ r ∈ refs, r.1 ≠ 0 ∧ r.1 ≠ 1
  /-- No open file denies writes. -/
  deny : ∀ f ∈ s.files, f.denyWrite = false
  /-- With memory in plenty the free map on the disk is up to date. -/
  synced : P → s.fs.Plenty ∧ Synced s.fs map

variable {P : Prop} {s : Session} {A B : Store} {map : InodeDisk} {a : ℕ} {refs : List (ℕ × ℕ)} {E : Panic → Prop}

theorem onFs_ends {α : Type} {x : FsM α} {R : α → Fs → Prop} (h : Ends E x s.fs R) :
    Ends E (onFs x) s fun r t => R r t.fs ∧ t.files = s.files := by
  unfold Ends onFs at *
  cases hx : x s.fs with
  | ok r =>
    rw [hx] at h
    exact ⟨h, rfl⟩
  | error e =>
    rw [hx] at h
    exact h

/-- The invariant after a call, with the open files it leaves. -/
theorem Inv.move (h : Inv P s A map a refs) {refs' : List (ℕ × ℕ)} (hlead : Leads A s.fs t.fs)
    (hrep : Rep t.fs B ((0, a) :: refs')) (hfiles : ∀ x, x = 0 ∨ x = 1 → B.files x = A.files x)
    (hopened : refs'.map Prod.snd = t.files.map File.inode) (hne : ∀ r ∈ refs', r.1 ≠ 0 ∧ r.1 ≠ 1)
    (hdeny : ∀ f ∈ t.files, f.denyWrite = false) :
    t.fs.disk.capacity = s.fs.disk.capacity ∧ ∃ B refs', Inv P t B map a refs' := by
  obtain ⟨f, hf, rfl⟩ := h.file
  have hnone : s.fs.freeMapFile ≠ none := by
    rw [hf]
    nofun
  refine ⟨hlead.capacity, B, refs', ⟨hrep, ⟨f, hlead.file.trans hf, List.mem_cons_self⟩, ?_⟩,
    ⟨f, hlead.file.trans hf, rfl⟩, (hfiles 0 (.inl rfl)).trans h.mapFile, hopened, hne, hdeny, fun hp => ?_⟩
  · rw [hfiles 1 (.inr rfl)]
    exact h.ready.root
  · obtain ⟨hplenty, hsync⟩ := h.synced hp
    exact ⟨hlead.plenty hplenty, hlead.synced map h.mapFile hnone hplenty hsync⟩

theorem Inv.keep (h : Inv P s A map a refs) (ht : t.files = s.files) (hlead : Leads A s.fs t.fs)
    (hrep : Rep t.fs B ((0, a) :: refs)) (hfiles : ∀ x, x = 0 ∨ x = 1 → B.files x = A.files x) :
    t.fs.disk.capacity = s.fs.disk.capacity ∧ ∃ B refs', Inv P t B map a refs' :=
  h.move hlead hrep hfiles (by rw [ht]; exact h.opened) h.ne (by rw [ht]; exact h.deny)

theorem Inv.ref (h : Inv P s A map a refs) {i : ℕ} {file : File} (hi : s.files[i]? = some file) :
    ∃ x, refs[i]? = some (x, file.inode) := by
  have hmap := congrArg (·[i]?) h.opened
  simp only [List.getElem?_map, hi, Option.map_some] at hmap
  obtain ⟨r, hr, hinode⟩ := Option.map_eq_some_iff.mp hmap
  exact ⟨r.1, by rw [hr, ← hinode]⟩

/-- A new file is neither the free map nor the directory. -/
theorem Created.files_eq {t : Fs} {name : List UInt8} {r : Reserved} {fs : Fs}
    (hready : Ready fs A refs) (h : Created A refs name length fs t r b) :
    ∃ B, Rep t B refs ∧ ∀ x, x = 0 ∨ x = 1 → B.files x = A.files x := by
  cases h with
  | file _ _ new _ _ rep =>
    refine ⟨_, rep, fun y hy => Function.update_of_ne ?_ _ _⟩
    rintro rfl
    obtain ⟨h0, h1⟩ := hready.ne_of_notMem new.notMem
    exact hy.elim h0 h1
  | leaked _ _ _ _ rep | failed _ _ rep => exact ⟨_, rep, fun _ _ => rfl⟩

/-- An open file can be closed. -/
theorem Inv.close_ends (h : Inv P s A map a refs) {i : ℕ} {file : File} (hi : s.files[i]? = some file) :
    Ends E (fileClose (some file)) s.fs fun _ t => Leads A s.fs t ∧
      ∃ x B, Closed A B x ∧ Rep t B ((0, a) :: refs.eraseIdx i) := by
  obtain ⟨x, hx⟩ := h.ref hi
  obtain ⟨hlt, hx⟩ := List.getElem?_eq_some_iff.mp hx
  have hperm : ((0, a) :: refs).Perm ((x, file.inode) :: (0, a) :: refs.eraseIdx i) := by
    refine ((List.getElem_cons_eraseIdx_perm hlt).symm.cons _).trans ?_
    rw [hx]
    exact List.Perm.swap _ _ _
  obtain ⟨f, hf, hfa⟩ := h.file
  have hready : FileReady s.fs ((0, a) :: refs.eraseIdx i) := ⟨f, hf, hfa ▸ List.mem_cons_self⟩
  refine (fileClose_ends (h.ready.rep.perm hperm) (h.deny _ (List.mem_of_getElem? hi)) (.inr (.inr hready))).mono ?_
  rintro _ t ⟨hlead, B, hclosed, -, hrep⟩
  exact ⟨hlead, x, B, hclosed, hrep⟩

theorem notMem_of_not_contains {name : List UInt8} (h : (!name.contains 0) = true) : (0 : UInt8) ∉ name := by
  simpa using h

/-- **Every call keeps the invariant**, and stops only at a sector that the disk cannot access. -/
theorem Inv.run_ends (h : Inv P s A map a refs) {c : Call} (hv : c.valid = true)
    (hE : 2 ^ 28 < s.fs.disk.capacity → E .selectSector) :
    Ends E c.run s fun _ t => t.fs.disk.capacity = s.fs.disk.capacity ∧ ∃ B refs', Inv P t B map a refs' := by
  cases c with
  | create name length =>
    simp only [Call.valid, Bool.and_eq_true, decide_eq_true_eq] at hv
    obtain ⟨hname, h0, hsmall⟩ := hv
    refine .bind (onFs_ends (filesysCreate_ends h.ready (notMem_of_not_contains hname) h0 hsmall hE)) ?_
    rintro _ t ⟨⟨hlead, r, hcreated⟩, ht⟩
    obtain ⟨B, hrep, hfiles⟩ := hcreated.files_eq h.ready
    exact .pure (h.keep ht hlead hrep hfiles)
  | openFile name =>
    refine .bind (onFs_ends (filesysOpen_ends h.ready (notMem_of_not_contains hv))) ?_
    rintro _ t ⟨⟨hlead, -, ⟨l, x, b, rfl, ⟨hx, -⟩, hrep⟩ | ⟨rfl, hrep, -⟩⟩, ht⟩
    · obtain ⟨hx0, hx1, -⟩ := h.ready.rep.ok.named l name x hx
      refine h.move (t := { t with files := _ }) hlead (hrep.perm (List.Perm.swap _ _ _)) (fun _ _ => rfl) ?_ ?_ ?_
      · rw [ht]
        simp [h.opened]
      · exact List.forall_mem_cons.mpr ⟨⟨hx0, hx1⟩, h.ne⟩
      · rw [ht]
        exact List.forall_mem_cons.mpr ⟨rfl, h.deny⟩
    · exact h.keep (t := { t with files := _ }) ht hlead hrep fun _ _ => rfl
  | write i buffer size ofs =>
    refine .get_bind ?_
    cases hi : s.files[i]? with
    | none => exact .pure (h.keep rfl (.refl A s.fs) h.ready.rep fun _ _ => rfl)
    | some file =>
      obtain ⟨x, hx⟩ := h.ref hi
      have hmem := List.mem_of_getElem? hx
      obtain ⟨hx0, hx1⟩ := h.ne _ hmem
      refine .bind (onFs_ends (fileWriteAt_ends h.ready.rep (List.mem_cons_of_mem _ hmem) hx0 hx1 buffer size ofs)) ?_
      rintro _ t ⟨⟨hlead, hrep⟩, ht⟩
      exact .pure (h.keep ht hlead hrep fun _ _ => rfl)
  | close i =>
    refine .get_bind ?_
    cases hi : s.files[i]? with
    | none => exact .pure (h.keep rfl (.refl A s.fs) h.ready.rep fun _ _ => rfl)
    | some file =>
      refine .bind (onFs_ends (h.close_ends hi)) ?_
      rintro _ t ⟨⟨hlead, x, B, hclosed, hrep⟩, ht⟩
      refine h.move (t := { t with files := _ }) hlead hrep (fun y hy => hclosed.files_eq hy) ?_ ?_ ?_
      · rw [ht, ← List.eraseIdx_map, ← List.eraseIdx_map, h.opened]
      · exact fun r hr => h.ne r (List.mem_of_mem_eraseIdx hr)
      · rw [ht]
        exact fun f hf => h.deny f (List.mem_of_mem_eraseIdx hf)
  | remove name =>
    refine .bind (onFs_ends (filesysRemove_ends h.ready (notMem_of_not_contains hv))) ?_
    rintro _ t ⟨⟨hlead, ⟨-, l, x, B, -, hclosed, hrep⟩ | ⟨-, -, hrep, -⟩⟩, ht⟩
    · exact .pure (h.keep ht hlead hrep fun y hy => hclosed.files_eq hy)
    · exact .pure (h.keep ht hlead hrep fun _ _ => rfl)

/-- The invariant holds in every state of a run. -/
theorem inv_of_reach {M : (ℕ → Option Bytes) → Prop} (hM : ∀ mem, M mem → P → ∀ n, mem n ≠ none)
    (h : (calls M).Reach s) : ∃ A map a refs, Inv P s A map a refs := by
  refine h.invariant (P := fun s => ∃ A map a refs, Inv P s A map a refs) ?_ ?_
  · rintro s ⟨disk, mem, stack, hmem, hinit, hfiles⟩
    obtain ⟨-, hplenty, A, map, a, hformatted, hsync, hready⟩ := filesysInit_format hinit
    refine ⟨A, map, a, [], hready, ?_, hformatted.map, by rw [hfiles]; rfl, nofun, by rw [hfiles]; nofun,
      fun hp => ⟨hplenty (hM mem hmem hp), hsync⟩⟩
    obtain ⟨f, hf, href⟩ := hready.file
    exact ⟨f, hf, (Prod.mk.inj (List.mem_singleton.mp href)).2⟩
  · rintro s c t ⟨A, map, a, refs, hinv⟩ hstep
    obtain ⟨hv, hstep⟩ := Outcome.ite_eq_next.mp hstep
    split at hstep
    · rename_i r hrun
      cases hstep
      obtain ⟨-, B, refs', hinv'⟩ := (hinv.run_ends (E := fun _ => True) hv fun _ => trivial).of_ok hrun
      exact ⟨B, map, a, refs', hinv'⟩
    · cases hstep

/-! ### A disk with a file -/

theorem reach_mono {M N : (ℕ → Option Bytes) → Prop} (hMN : ∀ mem, M mem → N mem) (h : (calls M).Reach s) :
    (calls N).Reach s := by
  induction h with
  | init hs =>
    obtain ⟨disk, mem, stack, hmem, hrest⟩ := hs
    exact .init ⟨disk, mem, stack, hMN mem hmem, hrest⟩
  | step _ hst ih => exact .step ih hst

/-- A disk with 16 sectors, and memory in plenty: there is room for a file with one sector of
data. -/
theorem exists_init : ∃ (s : Fs) (disk : Disk) (mem : ℕ → Option Bytes) (stack : Bytes) (A : Store) (a : ℕ),
    (∀ n, mem n ≠ none) ∧ filesysInit true disk mem stack [] = .ok s ∧ s.Plenty ∧ Ready s A [(0, a)] ∧
      s.disk.capacity = 16 ∧ A.slots = (fun _ => none) ∧ ∀ n ≤ 1, A.Room 16 n := by
  have hmem : ∀ n : ℕ, (some fun _ => 0 : Option Bytes) ≠ none := nofun
  have hroom : 3 + bytesToSectors (byteCnt 16 : ℕ) ≤ 16 := by decide
  obtain ⟨s, hs⟩ := filesysInit_returns (fun _ => 0) hmem (show (⟨16, fun _ => 0⟩ : Disk).capacity ≤ 2 ^ 28 by decide) hroom
  obtain ⟨hcap, hplenty, A, map, a, hformatted, -, hready⟩ := filesysInit_format hs
  refine ⟨s, _, _, _, A, a, hmem, hs, hplenty hmem, hready, hcap, hformatted.slots, fun n hn => ?_⟩
  -- The free map and the directory have one sector of data each.
  obtain ⟨data, h1⟩ := hformatted.root
  have hmap : map.length = 4 := by
    have hbytes : byteCnt 16 = 4 := by decide
    rw [hready.rep.freeMap map hformatted.map, hready.rep.size, hcap, hbytes]
    rfl
  have hdir := (hready.rep.dir data h1).1
  have hused : ∀ i ∈ A.used, i = 0 ∨ i = map.start ∨ i = 1 ∨ i = data.start := by
    intro i hi
    have hone : bytesToSectors 4 = 1 ∧ bytesToSectors 320 = 1 := by decide
    obtain (rfl | ⟨hle, hlt⟩) | (rfl | ⟨hle, hlt⟩) := hformatted.used data h1 hi
    · exact .inl rfl
    · rw [hmap, hone.1] at hlt
      exact .inr (.inl (by omega))
    · exact .inr (.inr (.inl rfl))
    · rw [hdir, hone.2] at hlt
      exact .inr (.inr (.inr (by omega)))
  have hfree : ∀ x, ∃ i < 16, i ∉ A.used ∧ i ≠ x := by
    intro x
    by_contra hnone
    have hall : ∀ i < 16, i = 0 ∨ i = map.start ∨ i = 1 ∨ i = data.start ∨ i = x := by
      intro i hi
      by_contra hne
      refine hnone ⟨i, hi, fun hmem => hne ?_, fun he => hne (by omega)⟩
      have := hused i hmem
      omega
    have h2 := hall 2 (by omega)
    have h3 := hall 3 (by omega)
    have h4 := hall 4 (by omega)
    have h5 := hall 5 (by omega)
    omega
  refine ⟨?_, fun x _ => ?_⟩
  · obtain ⟨i, hi, hmem, -⟩ := hfree 0
    exact ⟨i, hi, hmem⟩
  · obtain ⟨i, hi, hmem, hne⟩ := hfree x
    refine ⟨i, by omega, fun k hk hk' => ?_⟩
    obtain rfl : k = i := by omega
    exact ⟨hmem, hne⟩

section Create

variable {name : List UInt8} (hname : (0 : UInt8) ∉ name) {length : ℤ} (h0 : 0 ≤ length) (hsmall : length < 2 ^ 31)
include hname h0 hsmall

/-- With memory and room `filesys_create` comes as far as to make the inode and its data, whether or
not they can be named. -/
theorem filesysCreate_room {fs : Fs} (hready : Ready fs A refs) (hplenty : fs.Plenty) (hcap : fs.disk.capacity ≤ 2 ^ 28)
    (hroom : A.Room fs.disk.capacity (bytesToSectors length)) :
    ∃ (t : Fs) (dir : Dir) (x : ℕ) (b : Bool), filesysCreate name length fs = .ok (b, t) ∧ Leads A fs t ∧
      Created A refs name length fs t (.file dir x) b := by
  obtain ⟨r, u, hres, hlead, hundisturbed, hr, hfar⟩ := (reserve_ends hready h0 hsmall
    fun hbig => absurd hbig (by omega)).returns
  obtain ⟨dir, x, rfl⟩ := hfar hplenty hroom
  obtain ⟨b, t, hfin, hlead', hcreated⟩ := (finish_ends hready hname hlead hundisturbed
    hr).returns
  have hrun : filesysCreate name length fs = .ok (b, t) := by
    rw [filesysCreate_eq, bind_run_ok hres]
    exact hfin
  exact ⟨t, dir, x, b, hrun, hlead', hcreated⟩

variable (hle : bytesToSectors length ≤ 1)
include hle

/-- On a formatted disk it comes as far as that. -/
theorem exists_created : ∃ (disk : Disk) (mem : ℕ → Option Bytes) (stack : Bytes) (s t : Fs) (A : Store) (a : ℕ) (dir : Dir)
    (x : ℕ) (b : Bool), (∀ n, mem n ≠ none) ∧ filesysInit true disk mem stack [] = .ok s ∧ s.Plenty ∧ Ready s A [(0, a)] ∧
      A.slots = (fun _ => none) ∧ filesysCreate name length s = .ok (b, t) ∧ Leads A s t ∧
      Created A [(0, a)] name length s t (.file dir x) b := by
  obtain ⟨s, disk, mem, stack, A, a, hmem, hs, hplenty, hready, hcap, hslots, hroom⟩ := exists_init
  obtain ⟨t, dir, x, b, hcreate⟩ := filesysCreate_room hname h0 hsmall hready hplenty (by omega) (hcap ▸ hroom _ hle)
  exact ⟨disk, mem, stack, s, t, A, a, dir, x, b, hmem, hs, hplenty, hready, hslots, hcreate⟩

/-- A file of a valid name is created. -/
theorem exists_file (hvalid : ValidName name) :
    ∃ (disk : Disk) (mem : ℕ → Option Bytes) (stack : Bytes) (s t : Fs) (A : Store) (a k x : ℕ), (∀ n, mem n ≠ none) ∧
      filesysInit true disk mem stack [] = .ok s ∧ filesysCreate name length s = .ok (true, t) ∧ t.Plenty ∧
      Ready t A [(0, a)] ∧ A.slots = update (fun _ => none) k (some (name, x)) := by
  obtain ⟨disk, mem, stack, s, t, A, a, dir, x, b, hmem, hs, hplenty, hready, hslots, hrun, hlead, hcreated⟩ :=
    exists_created hname h0 hsmall hle
  cases hcreated with
  | @file _ _ k _ _ _ hnew _ _ hrep =>
    obtain ⟨data, h1⟩ := hready.root
    obtain ⟨-, hx1⟩ := hready.ne_of_notMem hnew.notMem
    refine ⟨disk, mem, stack, s, t, _, a, k, x, hmem, hs, hrun, hlead.plenty hplenty, ⟨hrep, ?_, data, ?_⟩, ?_⟩
    · exact hready.file.congr hlead (List.Subset.refl _)
    · exact (update_of_ne hx1.symm _ _).trans h1
    · show update A.slots _ _ = _
      rw [hslots]
  | leaked _ _ why _ _ =>
    rw [hslots] at why
    obtain ⟨l, y, hl⟩ | hfull := why hplenty hvalid
    · cases hl
    · exact absurd rfl (hfull 0 (by decide))
  | failed hr => exact absurd rfl (hr dir x)

end Create

theorem exists_named {name : List UInt8} (hvalid : ValidName name) (hname : (0 : UInt8) ∉ name) :
    ∃ (s : Fs) (A : Store) (a k x : ℕ), (calls fun mem => ∀ n, mem n ≠ none).Reach ⟨s, []⟩ ∧ s.Plenty ∧
      Ready s A [(0, a)] ∧ A.slots = update (fun _ => none) k (some (name, x)) := by
  obtain ⟨disk, mem, stack, s, t, A, a, k, x, hmem, hs, hrun, hrest⟩ :=
    exists_file hname (le_refl (0 : ℤ)) (by decide) (by decide) hvalid
  have hinit : (calls fun mem => ∀ n, mem n ≠ none).Reach ⟨s, []⟩ := .init ⟨disk, mem, stack, hmem, hs, rfl⟩
  exact ⟨t, A, a, k, x, hinit.step (calls_step_create hname ⟨le_rfl, by decide⟩ hrun), hrest⟩

/-! ### No sector is in use twice -/

/-- The inode on the disk in sector `x`. -/
def Fs.inodeAt (s : Fs) (x : ℕ) : InodeDisk := decodeInode s.disk.bytes (512 * x)

/-- The sectors of the data of the inode in sector `x`. -/
def Fs.dataSectors (s : Fs) (x : ℕ) : Set ℕ :=
  Set.Ico (s.inodeAt x).start ((s.inodeAt x).start + ((s.inodeAt x).length.toNat + 511) / 512)

/-- The sector of an inode and the sectors of its data. -/
def Fs.sectors (s : Fs) (x : ℕ) : Set ℕ := insert x (s.dataSectors x)

/-- The sectors of the inodes of the free map, the root directory, and the files that have a name or
are open. -/
inductive Present (s : Fs) : ℕ → Prop
  | freeMap : Present s FREE_MAP_SECTOR
  | root : Present s ROOT_DIR_SECTOR
  /-- A file that an entry of the directory names. -/
  | named {k x : ℕ} {name : List UInt8} (hk : k < (s.inodeAt ROOT_DIR_SECTOR).length.toNat / 20)
      (hslot : slot (fileBytes s.disk (s.inodeAt ROOT_DIR_SECTOR)) k = some (name, x)) : Present s x
  /-- A file that is open. -/
  | opened {a : ℕ} {i : Inode} (ha : a ∈ s.openInodes) (hi : s.inodes a = .live i) : Present s i.sector

section Ready

variable {fs : Fs} {x : ℕ} {data : InodeDisk}

theorem Rep.inodeAt_eq (h : Rep fs A refs) (hx : A.files x = some data) : fs.inodeAt x = data := (h.files x data hx).decode

theorem Ready.file_of_present (h : Ready fs A refs) (hx : Present fs x) : ∃ data, A.files x = some data := by
  cases hx with
  | freeMap =>
    obtain ⟨f, -, href⟩ := h.file
    obtain ⟨i, -, -, h0, -⟩ := h.rep.inode_of_ref href
    exact ⟨i.data, h0⟩
  | root => exact h.root
  | @named k x name hk hslot =>
    obtain ⟨data, h1⟩ := h.root
    obtain ⟨hlen, hslots⟩ := h.rep.dir data h1
    rw [show fs.inodeAt ROOT_DIR_SECTOR = data from h.rep.inodeAt_eq h1] at hk hslot
    rw [hlen] at hk
    rw [hslots k hk] at hslot
    exact Option.ne_none_iff_exists'.mp (h.rep.ok.named k name x hslot).2.2
  | @opened a i ha hi => exact ⟨i.data, (h.rep.inodes a i hi).1⟩

theorem Ready.present_of_slot (h : Ready fs A refs) {k : ℕ} {name : List UInt8} (hk : A.slots k = some (name, x)) :
    Present fs x := by
  obtain ⟨data, h1⟩ := h.root
  obtain ⟨hlen, hslots⟩ := h.rep.dir data h1
  have hroot : fs.inodeAt ROOT_DIR_SECTOR = data := h.rep.inodeAt_eq h1
  have hlt := (h.rep.slots k name x hk).1
  refine @Present.named fs k x name ?_ ?_
  · rw [hroot, hlen]
    exact hlt
  · rw [hroot, hslots k hlt, hk]

theorem Rep.sectors_subset (h : Rep fs A refs) (hx : A.files x = some data) :
    fs.dataSectors x ⊆ data.extent ∧ fs.sectors x ⊆ region x data := by
  have hdisk := h.files x data hx
  have hle := sectors_le_bytesToSectors hdisk.holds.length_nonneg hdisk.small
  have hsub : fs.dataSectors x ⊆ data.extent := by
    unfold Fs.dataSectors
    rw [h.inodeAt_eq hx]
    rintro i ⟨hi, hi'⟩
    exact ⟨hi, by omega⟩
  exact ⟨hsub, Set.insert_subset_insert hsub⟩

end Ready

/-- **No sector is in use twice**, in any run: the sectors of different files are different, and
they are on the disk and marked in the free map. No sector is handed out twice, and a call stops
only at a sector that the disk cannot access. -/
theorem sectors_never_shared (h : (calls fun _ => True).Reach s) :
    (∀ x, Present s.fs x → x ∉ s.fs.dataSectors x ∧
      ∀ i ∈ s.fs.sectors x, i < s.fs.disk.capacity ∧ bitmapTest s.fs.freeMap i = some true) ∧
    (∀ x y, Present s.fs x → Present s.fs y → x ≠ y → Disjoint (s.fs.sectors x) (s.fs.sectors y)) ∧
    (∀ f ∈ s.files, f.inode ∈ s.fs.openInodes) ∧
    (∀ b i, s.fs.inodes b = .live i → i.data = s.fs.inodeAt i.sector) ∧
    HandedOutOnce s.fs.log ∧
    ∀ (c : Call) (e : Panic), c.valid = true → c.run s = .error e → e = .selectSector ∧ 2 ^ 28 < s.fs.disk.capacity := by
  obtain ⟨A, map, a, refs, hinv⟩ := inv_of_reach (P := False) (fun _ _ => False.elim) h
  have hready := hinv.ready
  have hrep := hready.rep
  refine ⟨fun x hx => ?_, fun x y hx hy hne => ?_, fun f hf => ?_, fun b i hi => ?_, hrep.once, fun c e hv hrun => ?_⟩
  · obtain ⟨data, hfile⟩ := hready.file_of_present hx
    obtain ⟨hdata, hsectors⟩ := hrep.sectors_subset hfile
    refine ⟨fun hmem => hrep.ok.own x data hfile (hdata hmem), fun i hi => ?_⟩
    have hused := hrep.ok.region_subset hfile (hsectors hi)
    obtain ⟨hlt, hbit⟩ := (hrep.used i).mp hused
    exact ⟨hrep.lt_capacity hused, by rw [bitmapTest_eq hlt, hbit]⟩
  · obtain ⟨data, hfile⟩ := hready.file_of_present hx
    obtain ⟨data', hfile'⟩ := hready.file_of_present hy
    exact (hrep.ok.disjoint hfile hfile' hne).mono (hrep.sectors_subset hfile).2 (hrep.sectors_subset hfile').2
  · obtain ⟨i, hi⟩ := List.getElem?_of_mem hf
    obtain ⟨x, hx⟩ := hinv.ref hi
    obtain ⟨j, hj, -⟩ := hrep.inode_of_ref (List.mem_cons_of_mem _ (List.mem_of_getElem? hx))
    exact (hrep.table.listed f.inode).mpr ⟨j, hj⟩
  · exact (hrep.inodeAt_eq (hrep.inodes b i hi).1).symm
  · exact (hinv.run_ends (E := fun e => e = .selectSector ∧ 2 ^ 28 < s.fs.disk.capacity) hv
      fun hbig => ⟨rfl, hbig⟩).of_error hrun

/-- The file and the free map have sectors of their own. -/
theorem sectors_never_shared_file : ∃ (s : Session) (x : ℕ), (calls fun _ => True).Reach s ∧
    Present s.fs x ∧ x ∉ s.fs.dataSectors x ∧ Disjoint (s.fs.sectors FREE_MAP_SECTOR) (s.fs.sectors x) := by
  obtain ⟨s, A, a, k, x, hreach, -, hready, hslots⟩ :=
    exists_named (show ValidName [97] from ⟨by decide, by decide⟩) (by decide)
  have hreach := reach_mono (N := fun _ => True) (fun _ _ => trivial) hreach
  have hslot : A.slots k = some ([97], x) := by rw [hslots, update_self]
  have hx := hready.present_of_slot hslot
  obtain ⟨hown, hother, -⟩ := sectors_never_shared hreach
  exact ⟨⟨s, []⟩, x, hreach, hx, (hown x hx).1, hother _ _ .freeMap hx (hready.rep.ok.named k _ x hslot).1.symm⟩

/-! ### Calls that fail -/

/-- A bit of the free map on the disk. -/
def Fs.diskBit (s : Fs) (i : ℕ) : Bool := mapBit s.disk (s.inodeAt FREE_MAP_SECTOR) i

/-- The free map in memory, the directory and every file are as they were. -/
structure Kept (s t : Fs) : Prop where
  freeMap : ∀ i < s.freeMap.bitCnt, bitmapTest t.freeMap i = bitmapTest s.freeMap i
  /-- The inodes of the free map, of the directory and of the files. -/
  inode : ∀ x, Present s x → t.inodeAt x = s.inodeAt x
  /-- The data of the directory and of the files. -/
  data : ∀ x, Present s x → x ≠ FREE_MAP_SECTOR → ∀ j < (s.inodeAt x).length.toNat,
    fileBytes t.disk (t.inodeAt x) j = fileBytes s.disk (s.inodeAt x) j

/-- Everything is as it was, also the free map in its file. -/
structure Unchanged (s t : Fs) : Prop extends Kept s t where
  saved : ∀ i < s.freeMap.bitCnt, t.diskBit i = s.diskBit i

section Kept

variable {t : Fs} {refs' : List (ℕ × ℕ)}

theorem Rep.bitCnt_eq {fs : Fs} (h : Rep fs A refs) (h' : Rep t B refs') (hcap : t.disk.capacity = fs.disk.capacity) :
    t.freeMap.bitCnt = fs.freeMap.bitCnt := by rw [h'.size, hcap, h.size]

/-- Where the same sectors are used and no file is disturbed, the free map and the files are as they
were. -/
theorem Ready.kept {fs : Fs} (h : Ready fs A refs) (hrep : Rep t B refs') (hlead : Leads A fs t)
    (hfiles : B.files = A.files) (hused : B.used = A.used) (hundisturbed : Undisturbed A fs t) : Kept fs t := by
  have hinode : ∀ x, Present fs x → t.inodeAt x = fs.inodeAt x := by
    intro x hx
    obtain ⟨data, hfile⟩ := h.file_of_present hx
    rw [h.rep.inodeAt_eq hfile, hrep.inodeAt_eq (hfiles ▸ hfile)]
  refine ⟨fun i hi => ?_, hinode, fun x hx h0 j hj => ?_⟩
  · have hi' : i < t.freeMap.bitCnt := by rwa [h.rep.bitCnt_eq hrep hlead.capacity]
    have hold := h.rep.used i
    have hnew := hrep.used i
    rw [hused] at hnew
    have hiff : t.freeMap.bit i = true ↔ fs.freeMap.bit i = true :=
      ⟨fun hb => (hold.mp (hnew.mpr ⟨hi', hb⟩)).2, fun hb => (hnew.mp (hold.mpr ⟨hi, hb⟩)).2⟩
    rw [bitmapTest_eq hi, bitmapTest_eq hi', Bool.eq_iff_iff.mpr hiff]
  · rw [hinode x hx]
    obtain ⟨data, hfile⟩ := h.file_of_present hx
    rw [h.rep.inodeAt_eq hfile] at hj ⊢
    have hdisk := h.rep.files x data hfile
    have hlen := length_le_bytesToSectors hdisk.holds.length_nonneg hdisk.small
    refine hundisturbed x data hfile h0 _ (Set.mem_insert_of_mem x ?_)
    show data.start ≤ _ ∧ _ < data.start + bytesToSectors data.length
    omega

section Inv

variable (h : Inv P s A map a refs)
include h

end Inv

end Kept

end Pintos.Filesys
