import Pintos.Filesys.Remove
import Pintos.Userprog.FileTracker

/-!
# Open files of processes

Processes open and close files by `SYS_OPEN` and `SYS_CLOSE`, and exit. An inode counts
how often it is open (`open_cnt`), and its sectors are only given back when the count
falls to zero, so whoever has opened a file must close it.

## The model

The file system is that of `Pintos.Filesys`, and each process has a table of its own.
`add_file_to_fd` is the one of `FileTracker` with the file that `filesys_open` returns;
`close_file_from_fd` calls `file_close` with the files its log says. A process terminates
by `process_exit`, whether it called `SYS_EXIT`, was stopped for a bad argument or killed:
`process_exit` does not look at `file_tracker`. A step that accesses an index outside the
array is a fault, so that the runs are those that stay inside.

## What is proved

A run of the processes is a run of the file system's own calls, with the files of all the
tables open (`Kept`). So an inode counts the files of the tables of all processes, those
that have exited included (`Kept.openCnt_eq`), and the count is that of the processes that
have not exited exactly as long as no process exits with a file in its table
(**`openCnt_counts_descriptors`**).
-/

namespace Pintos.Userprog

open Function
open Filesys (Fs FsM)

/-- The files of a table. -/
def Tracker.files {F : Type} (t : Tracker F) : List F :=
  (List.range LEN_FILE_LIST.toNat).flatMap fun i : ℕ => (t.slot i).toList

namespace OpenFiles

/-- What a function of the table does. -/
abbrev OnTable (α : Type) := Trace (FileEvent Filesys.File) Empty (α × Tracker Filesys.File)

/-- `add_file_to_fd`: the file is opened only if there is an index for it. -/
def addFileToFd (t : Tracker Filesys.File) (name : List UInt8) : FsM (OnTable ℤ) := do
  if t.availInd < 0 then
    return t.addFileToFd none
  else
    let opened ← Filesys.filesysOpen name
    return t.addFileToFd opened

/-- The calls of `file_close` in a log. -/
def fileCloses : List (FileEvent Filesys.File) → FsM Unit
  | [] => return ()
  | .fileClose file :: log => do
    Filesys.fileClose file
    fileCloses log
  | _ :: log => fileCloses log

def closeFileFromFd (t : Tracker Filesys.File) (fd : ℤ) : FsM (OnTable Bool) := do
  fileCloses (t.closeFileFromFd (χ := Empty) fd).log
  return t.closeFileFromFd fd

/-- The file system and the processes. -/
structure State (n : ℕ) where
  /-- The file system. -/
  fs : Fs
  /-- The table of each process. -/
  tracker : Fin n → Tracker Filesys.File
  /-- Has the process executed `process_exit`? -/
  exited : Fin n → Bool

/-- What a process can do. -/
inductive Act (n : ℕ) where
  /-- `SYS_OPEN`. -/
  | openFile (p : Fin n) (name : List UInt8)
  /-- `SYS_CLOSE`. -/
  | close (p : Fin n) (fd : ℤ)
  /-- The process terminates. -/
  | exit (p : Fin n)

/-- The process that acts. -/
def Act.process {n : ℕ} : Act n → Fin n
  | .openFile p _ => p
  | .close p _ => p
  | .exit p => p

namespace State

variable {n : ℕ}

/-- `process_exit`, as far as files are concerned. -/
def processExit (s : State n) (p : Fin n) : State n := { s with exited := update s.exited p true }

/-- A function of the table of a process comes to its end. -/
def finish {α : Type} (s : State n) (p : Fin n) : Except Filesys.Panic (OnTable α × Fs) → Outcome (State n)
  | .ok (r, fs) =>
    if r.log.all FileEvent.inRange then
      .next { s with fs := fs, tracker := update s.tracker p r.value.2 }
    else .fault
  | .error _ => .fault

/-- What a step does. `SYS_CLOSE` of the descriptors of the console terminates the process. -/
def step (s : State n) (c : Act n) : Outcome (State n) :=
  if s.exited c.process then .disabled
  else
    match c with
    | .openFile p name => if name.contains 0 then .disabled else s.finish p (addFileToFd (s.tracker p) name s.fs)
    | .close p fd =>
      if fd = 0 ∨ fd = 1 then .next (s.processExit p) else s.finish p (closeFileFromFd (s.tracker p) fd s.fs)
    | .exit p => .next (s.processExit p)

/-- The files in the tables of the processes that pass a test. -/
def filesOf (s : State n) (P : Fin n → Bool) : List Filesys.File :=
  ((List.finRange n).filter P).flatMap fun p => (s.tracker p).files

/-- **An inode counts the descriptors of the processes that have not exited**, and the file of the
free map. -/
def Accounted (s : State n) : Prop :=
  ∀ a i, s.fs.inodes a = .live i →
    i.openCnt = (s.fs.freeMapFile.toList ++ s.filesOf fun p => !s.exited p).countP (·.inode == a)

/-- No process that has exited had a file in its table. -/
def Clean (s : State n) : Prop := ∀ p, s.exited p = true → (s.tracker p).files = []

end State

/-- All runs of `n` processes with new tables, on any file system that has no file open. -/
def processes (n : ℕ) : System (State n) (Act n) where
  init s := (Filesys.calls fun _ => True).Reach ⟨s.fs, []⟩ ∧ (∀ p, (s.tracker p).Fresh) ∧ ∀ p, s.exited p = false
  step := State.step

/-- The process that a step makes exit. -/
def Act.exits {n : ℕ} : Act n → Option (Fin n)
  | .openFile _ _ => none
  | .close p fd => if fd = 0 ∨ fd = 1 then some p else none
  | .exit p => some p

/-- A process that terminates has no file in its table. -/
def Act.leavesNone {n : ℕ} (s : State n) : Act n → Bool
  | .openFile _ _ => true
  | .close p fd => !decide (fd = 0 ∨ fd = 1) || (s.tracker p).files.isEmpty
  | .exit p => (s.tracker p).files.isEmpty

end OpenFiles

/-! ### One slot more or less -/

theorem perm_flatMap_of_eq_off {ι α : Type} [DecidableEq ι] {l : List ι} (hl : l.Nodup) {p : ι} (hp : p ∈ l)
    {f g : ι → List α} {x : List α} (hoff : ∀ q ≠ p, f q = g q) (hx : (f p).Perm (x ++ g p)) :
    (l.flatMap f).Perm (x ++ l.flatMap g) := by
  have hrest : (l.erase p).flatMap f = (l.erase p).flatMap g := by
    apply List.flatMap_congr
    intro q hq
    exact hoff q (hl.mem_erase_iff.mp hq).1
  have hsplit : ∀ h : ι → List α, (l.flatMap h).Perm (h p ++ (l.erase p).flatMap h) := fun h =>
    (List.perm_cons_erase hp).flatMap_right h
  have hmid : (f p ++ (l.erase p).flatMap f).Perm (x ++ (g p ++ (l.erase p).flatMap g)) := by
    rw [hrest, ← List.append_assoc]
    exact hx.append_right _
  exact ((hsplit f).trans hmid).trans ((hsplit g).symm.append_left x)

namespace Tracker

variable {F : Type} {t t' : Tracker F}

/-- Two tables that differ at one index of the array. -/
theorem files_perm {i : ℤ} (h0 : 0 ≤ i) (hi : i < LEN_FILE_LIST) (hoff : ∀ j ≠ i, t'.slot j = t.slot j) {x : List F}
    (hx : (t'.slot i).toList.Perm (x ++ (t.slot i).toList)) : t'.files.Perm (x ++ t.files) := by
  obtain ⟨k, rfl⟩ := Int.eq_ofNat_of_zero_le h0
  apply perm_flatMap_of_eq_off List.nodup_range (List.mem_range.mpr (by omega : k < LEN_FILE_LIST.toNat))
  · intro j hj
    rw [hoff j (by omega)]
  · exact hx

theorem files_put (h : t.Ok) (file : F) (i : ℤ) :
    ({ t.put file with availInd := i } : Tracker F).files.Perm (file :: t.files) := by
  apply files_perm (x := [file]) h.nonneg h.lt
  · intro j hj
    exact put_slot_of_ne hj
  · have hput : (t.put file).slot t.availInd = some file := update_self _ _ _
    rw [hput, h.free]
    rfl

theorem files_clear {i : ℤ} (h0 : 0 ≤ i) (hi : i < LEN_FILE_LIST) (k : ℤ) :
    t.files.Perm ((t.slot i).toList ++ ({ availInd := k, slot := update t.slot i none } : Tracker F).files) := by
  apply files_perm h0 hi
  · intro j hj
    exact (update_of_ne hj _ _).symm
  · simp

theorem Fresh.files_eq (h : t.Fresh) : t.files = [] := by
  apply List.flatMap_eq_nil_iff.mpr
  intro i hi
  have hlt := List.mem_range.mp hi
  rw [h.empty i (by omega) (by omega)]
  rfl

end Tracker

namespace OpenFiles

variable {n : ℕ} {s t : State n}

namespace State

variable {x : List Filesys.File} {p : Fin n}

/-- A process that passes the test has another table. -/
theorem filesOf_perm {P : Fin n → Bool} (hp : P p = true)
    (hoff : ∀ q ≠ p, t.tracker q = s.tracker q) (hx : (t.tracker p).files.Perm (x ++ (s.tracker p).files)) :
    (t.filesOf P).Perm (x ++ s.filesOf P) := by
  apply perm_flatMap_of_eq_off ((List.nodup_finRange n).filter P)
    (List.mem_filter.mpr ⟨List.mem_finRange p, hp⟩)
  · intro q hq
    rw [hoff q hq]
  · exact hx

/-- The files of all processes are those of the ones that pass a test and of the others. -/
theorem filesOf_split (s : State n) (P : Fin n → Bool) :
    (s.filesOf fun _ => true).Perm (s.filesOf P ++ s.filesOf fun p => !P p) := by
  unfold filesOf
  rw [← List.flatMap_append]
  apply List.Perm.flatMap_right
  rw [List.filter_true]
  exact (List.filter_append_perm P _).symm

end State

/-! ### A run of the file system -/

/-- The tables are in order, and a run of the file system has the files of all the tables open. -/
structure Kept (s : State n) : Prop where
  /-- The tables. -/
  ok : ∀ p, (s.tracker p).Ok
  run : ∃ files, (Filesys.calls fun _ => True).Reach ⟨s.fs, files⟩ ∧ files.Perm (s.filesOf fun _ => true)

theorem State.processExit_exited (s : State n) (p : Fin n) : (s.processExit p).exited p = true := by
  simp [processExit]

theorem State.step_exit (h : s.exited p = false) : s.step (.exit p) = .next (s.processExit p) :=
  if_neg (Bool.eq_false_iff.mp h)

/-- What a function of the table has done when it comes to its end. -/
theorem State.finish_eq_next {α : Type} {x : Except Filesys.Panic (OnTable α × Fs)}
    (h : s.finish p x = .next t) : ∃ r fs, x = .ok (r, fs) ∧ r.Logs (fun e => e.inRange = true) ∧
      t = { s with fs := fs, tracker := update s.tracker p r.value.2 } := by
  obtain e | ⟨r, fs⟩ := x
  · cases h
  · unfold State.finish at h
    dsimp only at h
    by_cases hlog : r.log.all FileEvent.inRange = true
    · rw [if_pos hlog] at h
      cases h
      exact ⟨r, fs, rfl, List.all_eq_true.mp hlog, rfl⟩
    · rw [if_neg hlog] at h
      cases h

theorem filesOf_update {table : Tracker Filesys.File} (hx : table.files.Perm (x ++ (s.tracker p).files)) :
    (({ s with tracker := update s.tracker p table } : State n).filesOf fun _ => true).Perm
      (x ++ s.filesOf fun _ => true) := by
  apply State.filesOf_perm (p := p) rfl
  · intro q hq
    exact update_of_ne hq _ _
  · show (update s.tracker p table p).files.Perm _
    rwa [update_self]

theorem filesOf_of_update {table : Tracker Filesys.File}
    (hx : (s.tracker p).files.Perm (x ++ table.files)) : (s.filesOf fun _ => true).Perm
      (x ++ ({ s with tracker := update s.tracker p table } : State n).filesOf fun _ => true) := by
  apply State.filesOf_perm (p := p) rfl
  · intro q hq
    exact (update_of_ne hq _ _).symm
  · show (s.tracker p).files.Perm (x ++ (update s.tracker p table p).files)
    rwa [update_self]

section Kept

variable (h : Kept s) {p : Fin n} {fs : Fs} {table : Tracker Filesys.File}
include h

section

variable {files : List Filesys.File} (hreach : (Filesys.calls fun _ => True).Reach ⟨fs, files⟩)
include hreach

protected theorem Kept.update (hok : table.Ok)
    (hfiles : files.Perm (({ s with tracker := update s.tracker p table } : State n).filesOf fun _ => true)) :
    Kept { s with fs := fs, tracker := update s.tracker p table } := by
  refine ⟨fun q => ?_, files, hreach, hfiles⟩
  by_cases hq : q = p
  · rw [hq]
    show (update s.tracker p table p).Ok
    rwa [update_self]
  · show (update s.tracker p table q).Ok
    rw [update_of_ne hq]
    exact h.ok q

theorem Kept.same (hfiles : files.Perm (s.filesOf fun _ => true)) :
    Kept { s with fs := fs, tracker := update s.tracker p (s.tracker p) } := by
  rw [update_eq_self]
  exact ⟨h.ok, files, hreach, hfiles⟩

end

theorem Kept.openFile {name : List UInt8} (hname : (0 : UInt8) ∉ name)
    (hstep : s.finish p (addFileToFd (s.tracker p) name s.fs) = .next t) : Kept t := by
  obtain ⟨r, fs, hrun, hlogs, rfl⟩ := State.finish_eq_next hstep
  obtain ⟨files, hreach, hfiles⟩ := h.run
  have hok := h.ok p
  have h0 : ¬ (s.tracker p).availInd < 0 := not_lt.mpr hok.nonneg
  unfold addFileToFd at hrun
  rw [if_neg h0] at hrun
  obtain ⟨opened, fs, hopen, hrun⟩ := Program.eq_ok_of_bind hrun
  cases hrun
  have hreach' := hreach.step (Filesys.calls_step_openFile hname hopen)
  cases opened with
  | none =>
    have hadd : (s.tracker p).addFileToFd (χ := Empty) none = pure (-1, s.tracker p) := by
      unfold Tracker.addFileToFd
      rw [if_neg h0]
    rw [hadd]
    exact h.same hreach' hfiles
  | some file =>
    have hne : (s.tracker p).availInd ≠ LEN_FILE_LIST - 1 := fun heq => hok.openFile_last file heq hlogs
    obtain ⟨-, i, hout, hok'⟩ := hok.openFile (χ := Empty) file hne
    rw [Trace.value_of_out hout]
    apply h.update hreach' hok'
    exact (hfiles.cons file).trans (filesOf_update (x := [file]) (Tracker.files_put hok file i)).symm

theorem Kept.close {fd : ℤ} (hstep : s.finish p (closeFileFromFd (s.tracker p) fd s.fs) = .next t) : Kept t := by
  obtain ⟨r, fs, hrun, hlogs, rfl⟩ := State.finish_eq_next hstep
  obtain ⟨files, hreach, hfiles⟩ := h.run
  obtain ⟨⟨⟩, fs, hclose, hrun⟩ := Program.eq_ok_of_bind hrun
  cases hrun
  by_cases hfd : LEN_FILE_LIST < fd - 2
  · have hnothing : (s.tracker p).closeFileFromFd (χ := Empty) fd = pure (false, s.tracker p) := if_pos hfd
    rw [hnothing] at hclose ⊢
    cases hclose
    exact h.same hreach hfiles
  have hrange : 0 ≤ fd - 2 ∧ fd - 2 < LEN_FILE_LIST := by
    have hin := hlogs (.slot (fd - 2)) ?_
    · exact of_decide_eq_true hin
    · unfold Tracker.closeFileFromFd
      rw [if_neg hfd]
      exact List.mem_cons_self
  obtain ⟨-, table, hout, hok, rfl⟩ := (h.ok p).close (χ := Empty) (show 2 ≤ fd ∧ fd - 2 < LEN_FILE_LIST by omega)
  rw [Trace.value_of_out hout]
  rw [Tracker.closeFileFromFd_eq (Int.not_lt.mp hfd)] at hclose
  obtain ⟨⟨⟩, fs, hclose, hrest⟩ := Program.eq_ok_of_bind hclose
  cases hrest
  have hall := filesOf_of_update (Tracker.files_clear (t := s.tracker p) hrange.1 hrange.2 (fd - 2))
  cases hslot : (s.tracker p).slot (fd - 2) with
  | none =>
    rw [hslot] at hclose hall
    cases hclose
    exact h.update hreach hok (hfiles.trans hall)
  | some file =>
    rw [hslot] at hclose hall
    have hperm := hfiles.trans hall
    obtain ⟨i, hi⟩ := List.getElem?_of_mem (hperm.mem_iff.mpr (List.mem_cons_self (a := file)))
    have hpick : files.Perm (file :: files.eraseIdx i) := by
      obtain ⟨hlt, rfl⟩ := List.getElem?_eq_some_iff.mp hi
      exact (List.getElem_cons_eraseIdx_perm hlt).symm
    exact h.update (hreach.step (Filesys.calls_step_close hi hclose)) hok (hpick.symm.trans hperm).cons_inv

theorem Kept.inv : ∃ files A map b refs, Filesys.Inv False ⟨s.fs, files⟩ A map b refs ∧
    files.Perm (s.filesOf fun _ => true) := by
  obtain ⟨files, hreach, hfiles⟩ := h.run
  obtain ⟨A, map, b, refs, hinv⟩ := Filesys.inv_of_reach (P := False) (fun _ _ hp => hp.elim) hreach
  exact ⟨files, A, map, b, refs, hinv, hfiles⟩

/-- A descriptor inside the array can be closed. -/
theorem Kept.close_next {fd : ℤ} (hfd : 2 ≤ fd ∧ fd - 2 < LEN_FILE_LIST) :
    ∃ fs, s.finish p (closeFileFromFd (s.tracker p) fd s.fs) = .next { s with
      fs := fs
      tracker := update s.tracker p
        { availInd := fd - 2, slot := update (s.tracker p).slot (fd - 2) none } } := by
  obtain ⟨hlogs, -, hout, -, rfl⟩ := (h.ok p).close (χ := Empty) hfd
  have hclose : ∃ fs, Filesys.fileClose ((s.tracker p).slot (fd - 2)) s.fs = .ok ((), fs) := by
    cases hslot : (s.tracker p).slot (fd - 2) with
    | none => exact ⟨s.fs, rfl⟩
    | some file =>
      obtain ⟨files, A, map, b, refs, hinv, hfiles⟩ := h.inv
      have hall := filesOf_of_update (Tracker.files_clear (t := s.tracker p) (by omega) hfd.2 (fd - 2))
      rw [hslot] at hall
      obtain ⟨i, hi⟩ := List.getElem?_of_mem ((hfiles.trans hall).mem_iff.mpr (List.mem_cons_self (a := file)))
      obtain ⟨⟨⟩, fs, hrun, -⟩ := (hinv.close_ends hi).returns
      exact ⟨fs, hrun⟩
  obtain ⟨fs, hclose⟩ := hclose
  have hrun : closeFileFromFd (s.tracker p) fd s.fs = .ok ((s.tracker p).closeFileFromFd fd, fs) := by
    refine Program.bind_run_ok (a := ()) (t := fs) ?_
    rw [Tracker.closeFileFromFd_eq hfd.2.le]
    exact Program.bind_run_ok hclose
  refine ⟨fs, ?_⟩
  rw [hrun]
  unfold State.finish
  dsimp only
  rw [if_pos (List.all_eq_true.mpr hlogs), Trace.value_of_out hout]

end Kept

variable {c : Act n}

theorem State.step_cases (hstep : s.step c = .next t) : s.exited c.process = false ∧
      ((∃ p name, c = .openFile p name ∧ (0 : UInt8) ∉ name ∧ s.finish p (addFileToFd (s.tracker p) name s.fs) = .next t) ∨
        (∃ p fd, c = .close p fd ∧ c.exits = none ∧ s.finish p (closeFileFromFd (s.tracker p) fd s.fs) = .next t) ∨
        ∃ p, c.exits = some p ∧ t = s.processExit p) := by
  unfold State.step at hstep
  by_cases hexited : s.exited c.process = true
  · rw [if_pos hexited] at hstep
    cases hstep
  rw [if_neg hexited] at hstep
  refine ⟨Bool.eq_false_iff.mpr hexited, ?_⟩
  cases c with
  | openFile p name =>
    dsimp only at hstep
    by_cases hname : name.contains 0 = true
    · rw [if_pos hname] at hstep
      cases hstep
    · rw [if_neg hname] at hstep
      exact .inl ⟨p, name, rfl, by simpa using hname, hstep⟩
  | close p fd =>
    dsimp only at hstep
    by_cases hfd : fd = 0 ∨ fd = 1
    · rw [if_pos hfd] at hstep
      cases hstep
      exact .inr (.inr ⟨p, if_pos hfd, rfl⟩)
    · rw [if_neg hfd] at hstep
      exact .inr (.inl ⟨p, fd, rfl, if_neg hfd, hstep⟩)
  | exit p =>
    cases hstep
    exact .inr (.inr ⟨p, rfl, rfl⟩)

/-- **A step keeps the tables in order.** -/
theorem Kept.step (h : Kept s) (hstep : s.step c = .next t) : Kept t := by
  obtain ⟨-, ⟨p, name, -, hname, hopen⟩ | ⟨p, fd, -, -, hclose⟩ | ⟨p, -, rfl⟩⟩ := State.step_cases hstep
  · exact h.openFile hname hopen
  · exact h.close hclose
  · exact ⟨h.ok, h.run⟩

theorem kept_of_reach (h : (processes n).Reach s) : Kept s := by
  apply h.invariant
  · rintro s ⟨hreach, hfresh, -⟩
    refine ⟨fun p => (hfresh p).ok, [], hreach, ?_⟩
    have hnone : (s.filesOf fun _ => true) = [] := List.flatMap_eq_nil_iff.mpr fun p _ => (hfresh p).files_eq
    rw [hnone]
  · intro s c t hs hstep
    exact hs.step hstep

/-! ### The counts -/

section Counts

variable (h : Kept s)
include h

/-- **An inode counts the files of the tables of all processes**, and the file of the free map. -/
theorem Kept.openCnt_eq {a : ℕ} {i : Filesys.Inode} (hi : s.fs.inodes a = .live i) :
    i.openCnt = (s.fs.freeMapFile.toList ++ s.filesOf fun _ => true).countP (·.inode == a) := by
  obtain ⟨files, A, map, b, refs, hinv, hfiles⟩ := h.inv
  obtain ⟨f, hf, rfl⟩ := hinv.file
  have hcount : i.openCnt = ((0, f.inode) :: refs).countP (·.2 == a) := hinv.ready.rep.table.count a i hi
  rw [hcount, hf, List.countP_append, ← hfiles.countP_eq, ← hinv.countP_refs]
  simp [List.countP_cons, Nat.add_comm]

theorem Kept.live {file : Filesys.File} (hfile : file ∈ s.filesOf fun _ => true) :
    (∃ i, s.fs.inodes file.inode = .live i) ∧ file.inode ∈ s.fs.openInodes ∧
      ∀ f, s.fs.freeMapFile = some f → f.inode ≠ file.inode := by
  obtain ⟨files, A, map, b, refs, hinv, hfiles⟩ := h.inv
  have hrep := hinv.ready.rep
  have hmem : file.inode ∈ refs.map Prod.snd := by
    rw [hinv.opened]
    exact List.mem_map_of_mem (hfiles.mem_iff.mpr hfile)
  obtain ⟨⟨x, c⟩, hr, hc⟩ := List.mem_map.mp hmem
  obtain rfl : c = file.inode := hc
  obtain ⟨i, hi⟩ := hrep.table.refs _ (List.mem_cons_of_mem _ hr)
  refine ⟨⟨i, hi⟩, (hrep.table.listed _).mpr ⟨i, hi⟩, fun f hf heq => ?_⟩
  -- The two references would be to inodes of different sectors.
  obtain ⟨f', hf', rfl⟩ := hinv.file
  obtain rfl : f = f' := Option.some_inj.mp (hf.symm.trans hf')
  have hzero := hrep.refs 0 f.inode i List.mem_cons_self (heq ▸ hi)
  have hx := hrep.refs x file.inode i (List.mem_cons_of_mem _ hr) hi
  exact (hinv.ne _ hr).1 (hx.symm.trans hzero)

theorem Kept.opened {a : ℕ} (ha : a ∈ s.fs.openInodes) :
    ∃ file ∈ s.fs.freeMapFile.toList ++ s.filesOf fun _ => true, file.inode = a := by
  obtain ⟨files, A, map, b, refs, hinv, -⟩ := h.inv
  have htable := hinv.ready.rep.table
  obtain ⟨i, hi⟩ := (htable.listed a).mp ha
  have hpos := htable.pos a i hi
  have hcount := (h.openCnt_eq hi).symm.trans (htable.count a i hi)
  have hfile : 0 < (s.fs.freeMapFile.toList ++ s.filesOf fun _ => true).countP (·.inode == a) := by omega
  obtain ⟨file, hmem, hinode⟩ := List.countP_pos_iff.mp hfile
  exact ⟨file, hmem, beq_iff_eq.mp hinode⟩

/-- The counts are those of the processes that have not exited, exactly if the others have left no
file. -/
theorem Kept.accounted_iff : s.Accounted ↔ s.Clean := by
  have hsplit : ∀ a, (s.filesOf fun _ => true).countP (·.inode == a) =
      (s.filesOf fun p => !s.exited p).countP (·.inode == a) + (s.filesOf s.exited).countP (·.inode == a) := fun a => by
    rw [(s.filesOf_split s.exited).countP_eq, List.countP_append, Nat.add_comm]
  constructor
  · intro hacc p hp
    apply List.eq_nil_iff_forall_not_mem.mpr
    intro file hfile
    have hmem : file ∈ s.filesOf s.exited :=
      List.mem_flatMap.mpr ⟨p, List.mem_filter.mpr ⟨List.mem_finRange p, hp⟩, hfile⟩
    have hpos : 0 < (s.filesOf s.exited).countP (·.inode == file.inode) :=
      List.countP_pos_iff.mpr ⟨file, hmem, beq_self_eq_true _⟩
    have hall : file ∈ s.filesOf fun _ => true :=
      (s.filesOf_split s.exited).mem_iff.mpr (List.mem_append_left _ hmem)
    obtain ⟨⟨i, hi⟩, -⟩ := h.live hall
    have heq := (h.openCnt_eq hi).symm.trans (hacc _ i hi)
    rw [List.countP_append, List.countP_append, hsplit] at heq
    omega
  · intro hclean a i hi
    have hnone : s.filesOf s.exited = [] := by
      apply List.flatMap_eq_nil_iff.mpr
      intro p hp
      exact hclean p (List.mem_filter.mp hp).2
    rw [h.openCnt_eq hi, List.countP_append, List.countP_append, hsplit, hnone]
    rfl

end Counts

/-! ### Runs -/

theorem Act.leavesNone_iff : c.leavesNone s = true ↔ ∀ p, c.exits = some p → (s.tracker p).files = [] := by
  cases c with
  | openFile p name | exit p => simp [leavesNone, exits]
  | close p fd => by_cases hfd : fd = 0 ∨ fd = 1 <;> simp [leavesNone, exits, hfd]

/-- A step changes no table of a process that has exited, and makes at most one process exit. -/
theorem State.step_exited (hstep : s.step c = .next t) :
    (∀ p, t.exited p = true ↔ s.exited p = true ∨ c.exits = some p) ∧
      ∀ p, t.exited p = true → t.tracker p = s.tracker p := by
  -- The table that a function of the table changes is that of a process that has not exited.
  have hfinish : ∀ {α : Type} {p : Fin n} {x : Except Filesys.Panic (OnTable α × Fs)}, s.exited p = false →
      c.exits = none → s.finish p x = .next t →
      (∀ q, t.exited q = true ↔ s.exited q = true ∨ c.exits = some q) ∧
        ∀ q, t.exited q = true → t.tracker q = s.tracker q := by
    intro α p x hp hnone hx
    obtain ⟨r, fs, -, -, rfl⟩ := State.finish_eq_next hx
    rw [hnone]
    constructor
    · simp
    · intro q hq
      apply update_of_ne
      rintro rfl
      rw [hp] at hq
      cases hq
  obtain ⟨hp, ⟨p, name, rfl, -, hopen⟩ | ⟨p, fd, rfl, hnone, hclose⟩ | ⟨p, hexit, rfl⟩⟩ := State.step_cases hstep
  · exact hfinish hp rfl hopen
  · exact hfinish hp hnone hclose
  · constructor
    · intro q
      by_cases hq : q = p
      · simp [State.processExit, hexit, hq]
      · simp [State.processExit, hexit, hq, Ne.symm hq]
    · intro q _
      rfl

/-- **One step**: no process that has exited has left a file, exactly if this step leaves none. -/
theorem State.Clean.step (h : s.Clean) (hstep : s.step c = .next t) : t.Clean ↔ c.leavesNone s = true := by
  obtain ⟨hexited, htable⟩ := State.step_exited hstep
  rw [Act.leavesNone_iff]
  constructor
  · intro hclean p hp
    have hp' : t.exited p = true := (hexited p).mpr (.inr hp)
    rw [← htable p hp']
    exact hclean p hp'
  · intro hnone p hp
    rw [htable p hp]
    obtain hbefore | hnow := (hexited p).mp hp
    · exact h p hbefore
    · exact hnone p hnow

theorem clean_of_reach (h : ((processes n).guard fun s c => c.leavesNone s).Reach s) : s.Clean := by
  apply h.invariant
  · rintro s ⟨-, -, hexited⟩ p hp
    rw [hexited p] at hp
    cases hp
  · intro s c t hclean hstep
    obtain ⟨hleaves, hnext⟩ := System.guard_step_eq_next.mp hstep
    exact (hclean.step hnext).mpr hleaves

/-- **The inodes count the descriptors of the processes that have not exited**, in every run in
which a process has closed its files when it terminates, and only as long as it has. When all have
exited, no inode but that of the free map is open. -/
theorem openCnt_counts_descriptors (h : ((processes n).guard fun s c => c.leavesNone s).Reach s) :
    s.Accounted ∧
      ((∀ p, s.exited p = true) → ∀ a ∈ s.fs.openInodes, ∃ f, s.fs.freeMapFile = some f ∧ f.inode = a) ∧
      ∀ c t, (processes n).step s c = .next t → (t.Accounted ↔ c.leavesNone s = true) := by
  have hkept := kept_of_reach h.of_guard
  have hclean := clean_of_reach h
  refine ⟨hkept.accounted_iff.mpr hclean, ?_, ?_⟩
  · intro hall a ha
    obtain ⟨file, hfile, hinode⟩ := hkept.opened ha
    have hnone : (s.filesOf fun _ => true) = [] := List.flatMap_eq_nil_iff.mpr fun p _ => hclean p (hall p)
    rw [hnone, List.append_nil] at hfile
    exact ⟨file, Option.mem_toList.mp hfile, hinode⟩
  · intro c t hstep
    rw [(hkept.step hstep).accounted_iff]
    exact hclean.step hstep

/-- A process opens a file. -/
theorem exists_open : ∃ (s : State 1) (file : Filesys.File), ((processes 1).guard fun s c => c.leavesNone s).Reach s ∧
    s.exited 0 = false ∧ (s.tracker 0).slot = update (fun _ => none) 0 (some file) := by
  obtain ⟨fs, hreach, hnamed⟩ := Filesys.create_named (show Filesys.ValidName [97] from ⟨by decide, by decide⟩) (by decide)
  have hfresh : (⟨0, fun _ => none⟩ : Tracker Filesys.File).Fresh := ⟨rfl, fun _ _ _ => rfl⟩
  have hinit : ((processes 1).guard fun s c => c.leavesNone s).Reach
      ⟨fs, fun _ => ⟨0, fun _ => none⟩, fun _ => false⟩ :=
    .init ⟨Filesys.reach_mono (fun _ _ => trivial) hreach, fun _ => hfresh, fun _ => rfl⟩
  obtain ⟨file, fs', hopen⟩ := Filesys.open_named hreach (by decide) hnamed
  obtain ⟨hlogs, i, hout, -⟩ := hfresh.ok.openFile (χ := Empty) file (by decide)
  have hadd : addFileToFd ⟨0, fun _ => none⟩ [97] fs = .ok (Tracker.addFileToFd ⟨0, fun _ => none⟩ (some file), fs') :=
    Program.bind_run_ok hopen
  have hstep : (processes 1).step ⟨fs, fun _ => ⟨0, fun _ => none⟩, fun _ => false⟩ (.openFile 0 [97]) = .next ⟨fs',
      update (fun _ => ⟨0, fun _ => none⟩) 0 { Tracker.put ⟨0, fun _ => none⟩ file with availInd := i },
      fun _ => false⟩ := by
    show State.finish _ 0 (addFileToFd ⟨0, fun _ => none⟩ [97] fs) = _
    rw [hadd]
    unfold State.finish
    dsimp only
    rw [if_pos (List.all_eq_true.mpr hlogs), Trace.value_of_out hout]
  refine ⟨_, file, hinit.step (System.guard_step_eq_next.mpr ⟨rfl, hstep⟩), rfl, ?_⟩
  dsimp only
  rw [update_self]
  rfl

/-- A process opens a file, closes it and exits. -/
theorem openCnt_counts_descriptors_closed : ∃ (s t u : State 1) (file : Filesys.File),
    ((processes 1).guard fun s c => c.leavesNone s).Reach s ∧ (s.tracker 0).slot 0 = some file ∧
    (processes 1).step s (.close 0 2) = .next t ∧ (processes 1).step t (.exit 0) = .next u ∧
    s.Accounted ∧ t.Accounted ∧ u.Accounted ∧ ∀ a ∈ u.fs.openInodes, ∃ f, u.fs.freeMapFile = some f ∧ f.inode = a := by
  obtain ⟨s, file, hreach, hexited, hslot⟩ := exists_open
  have hfd : (2 : ℤ) ≤ 2 ∧ (2 : ℤ) - 2 < LEN_FILE_LIST := by decide
  obtain ⟨fs, hclose⟩ := (kept_of_reach hreach.of_guard).close_next (p := 0) hfd
  have hstep : (processes 1).step s (.close 0 2) = _ :=
    (if_neg (Bool.eq_false_iff.mp hexited)).trans ((if_neg (by decide)).trans hclose)
  have ht := hreach.step (System.guard_step_eq_next.mpr ⟨rfl, hstep⟩)
  generalize htable : update s.tracker 0 _ = table at hstep ht
  have hfiles : (table 0).files = [] := by
    rw [← htable, update_self, hslot, Int.sub_self, update_idem, update_eq_self]
    exact Tracker.Fresh.files_eq ⟨rfl, fun _ _ _ => rfl⟩
  have hexit := State.step_exit (s := ⟨fs, table, s.exited⟩) hexited
  have hnone : Act.leavesNone (⟨fs, table, s.exited⟩ : State 1) (.exit 0) = true := List.isEmpty_iff.mpr hfiles
  have hu := ht.step (System.guard_step_eq_next.mpr ⟨hnone, hexit⟩)
  have hall : ∀ p : Fin 1, update s.exited 0 true p = true := fun p => by rw [Fin.eq_zero p, update_self]
  obtain ⟨hacc, hopen, -⟩ := openCnt_counts_descriptors hu
  exact ⟨s, _, _, file, hreach, by rw [hslot, update_self], hstep, hexit, (openCnt_counts_descriptors hreach).1,
    (openCnt_counts_descriptors ht).1, hacc, hopen hall⟩

/-- **A file that a process leaves open stays open** when there is no process any more: a process
opens a file and exits. -/
theorem exit_leaves_files_open : ∃ s : State 1, (processes 1).Reach s ∧ (∀ p, s.exited p = true) ∧
    (∃ a ∈ s.fs.openInodes, ∀ f, s.fs.freeMapFile = some f → f.inode ≠ a) ∧ ¬ s.Accounted := by
  obtain ⟨s, file, hreach, hexited, hslot⟩ := exists_open
  have hreach := hreach.of_guard
  have hfile : file ∈ (s.tracker 0).files := by
    refine List.mem_flatMap.mpr ⟨0, List.mem_range.mpr (by decide), ?_⟩
    rw [hslot, Nat.cast_zero, update_self]
    exact List.mem_singleton_self file
  have hstep : (processes 1).step s (.exit 0) = .next (s.processExit 0) := State.step_exit hexited
  have hkept := kept_of_reach (hreach.step hstep)
  refine ⟨s.processExit 0, hreach.step hstep, ?_, ?_, ?_⟩
  · intro p
    rw [Fin.eq_zero p]
    exact s.processExit_exited 0
  · have hmem : file ∈ (s.processExit 0).filesOf fun _ => true :=
      List.mem_flatMap.mpr ⟨0, List.mem_filter.mpr ⟨List.mem_finRange 0, rfl⟩, hfile⟩
    exact ⟨file.inode, (hkept.live hmem).2⟩
  · rw [hkept.accounted_iff]
    intro hclean
    exact List.ne_nil_of_mem hfile (hclean 0 (s.processExit_exited 0))

end OpenFiles

end Pintos.Userprog
