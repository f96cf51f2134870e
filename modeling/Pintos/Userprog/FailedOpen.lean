import Pintos.Filesys.Handles
import Pintos.Userprog.OpenFiles

/-!
# Opens that fail

`add_file_to_fd` returns `-1` in three places: when `tracker_avail_ind` is negative, when
`filesys_open` returns `NULL`, and when the loop that looks for the next index comes to
the end of the array. At the third one the file is open already, and is in the table.

## The model

The file system is in any state of a run of `Filesys.Handles`: on any disk, with any
handles of other processes open and any failures of `malloc`. The table is any table at
all, so also one of a run that has accessed an index outside the array. Only in such a run
the last index has a file, and only then the third exit is taken.

## What is proved

When `add_file_to_fd` returns `-1`, the table and the counts of all inodes are what they
were, exactly if it is not the third exit (**`failed_open_unchanged`**). After the third
exit the file is in the table, and its inode has one opener more (`addFileToFd_kept`).
-/

namespace Pintos.Userprog.OpenFiles

open Function
open Filesys (Fs Handles filesysOpen)

/-- The table and the numbers of openers are what they were. -/
structure Unchanged (h : Handles) (t : Tracker Filesys.File) (r : OnTable ℤ) (fs : Fs) : Prop where
  table : r.value.2 = t
  counts : ∀ a, { h with fs := fs }.openCnt a = h.openCnt a

variable {h : Handles} {t : Tracker Filesys.File} {name : List UInt8} {r : OnTable ℤ} {fs : Fs}

theorem addFileToFd_cases (hrun : addFileToFd t name h.fs = .ok (r, fs)) :
    (t.availInd < 0 ∧ r = pure (-1, t) ∧ fs = h.fs) ∨
      (0 ≤ t.availInd ∧ ∃ opened, filesysOpen name h.fs = .ok (opened, fs) ∧ r = t.addFileToFd opened) := by
  unfold addFileToFd at hrun
  by_cases h0 : t.availInd < 0
  · rw [if_pos h0] at hrun
    cases hrun
    exact .inl ⟨h0, if_pos h0, rfl⟩
  · rw [if_neg h0] at hrun
    obtain ⟨opened, fs, hopen, hrun⟩ := Program.eq_ok_of_bind hrun
    cases hrun
    exact .inr ⟨not_lt.mp h0, opened, hopen, rfl⟩

section

variable (hreach : Handles.system.Reach h)
include hreach

/-- `filesys_open` returns `NULL`: every inode has the openers it had. -/
theorem openCnt_of_none (hopen : filesysOpen name h.fs = .ok (none, fs)) (a : ℕ) :
    { h with fs := fs }.openCnt a = h.openCnt a := by
  have hinv := Handles.reach_inv hreach
  have hrun : Handles.run (.openFile name) h = .ok (false, { h with fs := fs }) :=
    Program.bind_run_ok (Handles.onFs_run hopen)
  obtain ⟨hafter, hsame⟩ := (hinv.run_ends (.openFile name)).of_ok hrun
  rw [hafter.openCnt_eq, hinv.openCnt_eq, (hsame rfl).inodes_eq]

theorem openCnt_of_some {file : Filesys.File}
    (hopen : filesysOpen name h.fs = .ok (some file, fs)) :
    { h with fs := fs }.openCnt file.inode = some (h.inodes.count file.inode + 1 : ℤ) := by
  have hinv := Handles.reach_inv hreach
  obtain ⟨hflag, hcounted⟩ :=
    (Filesys.filesysOpen_counted (hinv.mapOpen rfl) (fun _ he => he) ⟨hinv.counted, rfl⟩ name).of_ok hopen
  let s : Handles := { fs := fs, files := file :: h.files, dirs := h.dirs }
  have hadded : s.Inv := hinv.addFile hcounted (hflag file rfl) rfl rfl
  have hperm : s.inodes.Perm (file.inode :: h.inodes) :=
    (Handles.Perm.files (s := s) (t := h) (List.Perm.refl _) rfl hcounted.freeMapFile).1
  have hcount : s.inodes.count file.inode = h.inodes.count file.inode + 1 := by
    rw [hperm.count_eq, List.count_cons_self]
  show s.openCnt file.inode = _
  rw [hadded.openCnt_eq, hcount, if_pos (Nat.succ_pos _)]
  rfl

/-- **The third exit keeps the file**: it is in the table, and its inode has one opener more. -/
theorem addFileToFd_kept (h0 : 0 ≤ t.availInd) (hroom : ¬ t.RoomAbove) {file : Filesys.File}
    (hopen : filesysOpen name h.fs = .ok (some file, fs)) :
    (t.addFileToFd (χ := Empty) (some file)).value = (-1, { t.put file with availInd := -1 }) ∧
      { h with fs := fs }.openCnt file.inode ≠ h.openCnt file.inode := by
  constructor
  · obtain ⟨j, hout, hj, hfree, -⟩ | ⟨hout, -⟩ := Tracker.scan_cases (χ := Empty) (t.put file) (t.availInd + 1)
    · have hne : j ≠ t.availInd := by
        unfold Tracker.Ahead at hj
        omega
      rw [Tracker.put_slot_of_ne hne] at hfree
      exact absurd ⟨h0, j, hj, hfree⟩ hroom
    · rw [Tracker.addFileToFd_lost h0 hout]
      rfl
  · rw [openCnt_of_some hreach hopen, (Handles.reach_inv hreach).openCnt_eq]
    split
    · intro heq
      have := Option.some.inj heq
      omega
    · exact Option.some_ne_none _

end

/-- **An open that returns `-1` leaves the table and the counts as they were**, exactly if it does
not come to the loop, or the loop finds a free index. -/
theorem failed_open_unchanged (hreach : Handles.system.Reach h) (hrun : addFileToFd t name h.fs = .ok (r, fs)) :
    (r.value.1 = -1 → Unchanged h t r fs) ↔
      t.availInd < 0 ∨ filesysOpen name h.fs = .ok (none, fs) ∨ t.RoomAbove := by
  obtain ⟨h0, rfl, rfl⟩ | ⟨h0, opened, hopen, rfl⟩ := addFileToFd_cases hrun
  · exact iff_of_true (fun _ => ⟨rfl, fun _ => rfl⟩) (.inl h0)
  cases opened with
  | none =>
    have hadd : t.addFileToFd (χ := Empty) none = pure (-1, t) := by
      unfold Tracker.addFileToFd
      rw [if_neg (not_lt.mpr h0)]
    refine iff_of_true (fun _ => ?_) (.inr (.inl hopen))
    rw [hadd]
    exact ⟨rfl, openCnt_of_none hreach hopen⟩
  | some file =>
    by_cases hroom : t.RoomAbove
    · refine iff_of_true (fun hret => ?_) (.inr (.inr hroom))
      exact absurd hroom (Tracker.returnedFd_eq_neg_one.mp hret)
    · obtain ⟨hvalue, hcount⟩ := addFileToFd_kept hreach h0 hroom hopen
      refine iff_of_false (fun hsame => ?_) ?_
      · rw [hvalue] at hsame
        exact hcount ((hsame rfl).counts file.inode)
      · rintro (hneg | hnone | hroom')
        · exact absurd h0 (not_le.mpr hneg)
        · rw [hopen] at hnone
          cases hnone
        · exact hroom hroom'

theorem close_nothing {t : Tracker Filesys.File} (fd : ℤ) (fs : Fs) (hfd : fd - 2 ≤ LEN_FILE_LIST)
    (hnone : t.slot (fd - 2) = none) :
    closeFileFromFd t fd fs = .ok (t.closeFileFromFd fd, fs) ∧
      (t.closeFileFromFd (χ := Empty) fd).value.2 = { t with availInd := fd - 2 } := by
  constructor
  · unfold closeFileFromFd
    rw [Tracker.closeFileFromFd_eq hfd, hnone]
    rfl
  · rw [Tracker.closeFileFromFd_eq hfd, ← hnone]
    exact congrArg (Tracker.mk (fd - 2)) (update_eq_self _ _)

/-- A table that has a file at its last index, or none at all. -/
def onlyLast (file : Option Filesys.File) (k : ℤ) : Tracker Filesys.File :=
  { availInd := k, slot := update (fun _ => none) 129 file }

theorem onlyLast_slot_of_ne (file : Option Filesys.File) (k : ℤ) {i : ℤ} (hi : i ≠ 129) :
    (onlyLast file k).slot i = none := by
  simp [onlyLast, hi]

theorem onlyLast_slot_last (file : Option Filesys.File) (k : ℤ) : (onlyLast file k).slot 129 = file := by
  simp [onlyLast]

theorem onlyLast_open (file : Filesys.File) :
    ((onlyLast none 129).addFileToFd (χ := Empty) (some file)).value = (131, onlyLast (some file) 130) := by
  have hfree : ((onlyLast none 129).put file).slot 130 = none :=
    (Tracker.put_slot_of_ne (by decide)).trans (onlyLast_slot_of_ne _ _ (by decide))
  have hscan : (((onlyLast none 129).put file).scan (χ := Empty) 130).out = .ok (some 130) := by
    rw [Tracker.scan_eq_of_none hfree]
  rw [Tracker.addFileToFd_found (t := onlyLast none 129) (by decide) hscan]
  exact congrArg (fun slot => ((131 : ℤ), Tracker.mk 130 slot)) (update_idem _ _ _)

theorem onlyLast_no_room (file : Filesys.File) : ¬ (onlyLast (some file) 128).RoomAbove := by
  rintro ⟨-, i, hi, hfree⟩
  have hlen : LEN_FILE_LIST = 130 := rfl
  obtain rfl : i = 129 := by
    have : (128 : ℤ) + 1 ≤ i ∧ (i = 128 + 1 ∨ i < LEN_FILE_LIST) := hi
    omega
  exact Option.some_ne_none _ ((onlyLast_slot_last (some file) 128).symm.trans hfree)

/-- A file is opened twice. -/
theorem exists_open_twice : ∃ (fs fs' fs'' : Fs) (a b : ℕ), Handles.system.Reach ⟨fs, [], []⟩ ∧
    filesysOpen [97] fs = .ok (some ⟨a, 0, false⟩, fs') ∧ Handles.system.Reach ⟨fs', [⟨a, 0, false⟩], []⟩ ∧
    filesysOpen [97] fs' = .ok (some ⟨b, 0, false⟩, fs'') ∧
    Handles.system.Reach ⟨fs'', [⟨b, 0, false⟩, ⟨a, 0, false⟩], []⟩ := by
  obtain ⟨fs, A, refs, k, x, hreach, hplenty, hready, hk⟩ := Handles.exists_named
  obtain ⟨a, fs', refs', hopen, hplenty', hready'⟩ := Handles.open_again hready hplenty (by decide) hk
  obtain ⟨b, fs'', -, hopen', -, -⟩ := Handles.open_again hready' hplenty' (by decide) hk
  have hreach' : Handles.system.Reach ⟨fs', [⟨a, 0, false⟩], []⟩ :=
    Handles.reach_step (c := .openFile [97]) hreach (Program.bind_run_ok (Handles.onFs_run (s := ⟨fs, [], []⟩) hopen))
  exact ⟨fs, fs', fs'', a, b, hreach, hopen, hreach', hopen', Handles.reach_step (c := .openFile [97]) hreach'
    (Program.bind_run_ok (Handles.onFs_run (s := ⟨fs', [⟨a, 0, false⟩], []⟩) hopen'))⟩

/-- After the third exit the next index is `-1`: one more open fails and changes nothing. -/
theorem failed_open_unchanged_lost : ∃ (h : Handles) (t : Tracker Filesys.File) (file file' : Filesys.File) (r : OnTable ℤ)
    (fs : Fs), Handles.system.Reach h ∧ h.files = [file', file] ∧
    ((onlyLast (some file) 128).addFileToFd (χ := Empty) (some file')).value = (-1, t) ∧
    addFileToFd t [97] h.fs = .ok (r, fs) ∧ r.value.1 = -1 ∧ Unchanged h t r fs := by
  obtain ⟨fs, fs', fs'', a, b, -, -, hreach, hopen, hreach'⟩ := exists_open_twice
  obtain ⟨hvalue, -⟩ := addFileToFd_kept hreach (t := onlyLast (some ⟨a, 0, false⟩) 128) (Int.natCast_nonneg 128)
    (onlyLast_no_room _) hopen
  generalize htable : ({ (onlyLast (some ⟨a, 0, false⟩) 128).put _ with availInd := -1 } : Tracker _) = t at hvalue
  have hneg : t.availInd < 0 := htable ▸ Int.negSucc_lt_zero 0
  have hadd : t.addFileToFd (χ := Empty) none = pure (-1, t) := if_pos hneg
  have hrun : addFileToFd t [97] fs'' = .ok (t.addFileToFd none, fs'') := by
    unfold addFileToFd
    rw [if_pos hneg]
    rfl
  have hret : (t.addFileToFd (χ := Empty) none).value.1 = -1 := by rw [hadd]; rfl
  exact ⟨_, t, _, _, _, fs'', hreach', rfl, hvalue, hrun, hret,
    (failed_open_unchanged hreach' hrun).mpr (.inl hneg) hret⟩

/-- **An open returns `-1`, but the file stays open.** The process closes descriptor 131, so that
index 129 is the next one, opens a file, which is put there, closes descriptor 130, and opens the
file again. -/
theorem failed_open_kept : ∃ (fs fs' fs'' : Fs) (file : Filesys.File) (r₁ r₃ : OnTable Bool) (r₂ r₄ : OnTable ℤ),
    Handles.system.Reach ⟨fs, [], []⟩ ∧ closeFileFromFd ⟨0, fun _ => none⟩ 131 fs = .ok (r₁, fs) ∧
      addFileToFd r₁.value.2 [97] fs = .ok (r₂, fs') ∧ r₂.value.1 = 131 ∧
      closeFileFromFd r₂.value.2 130 fs' = .ok (r₃, fs') ∧
      Handles.system.Reach ⟨fs', [file], []⟩ ∧ addFileToFd r₃.value.2 [97] fs' = .ok (r₄, fs'') ∧ r₄.value.1 = -1 ∧
      r₃.value.2.slot 128 = none ∧ r₄.value.2.slot 128 ≠ none ∧
      ∃ a, Handles.openCnt ⟨fs'', [file], []⟩ a ≠ Handles.openCnt ⟨fs', [file], []⟩ a := by
  obtain ⟨fs, fs', fs'', a, b, hreach, hopen, hreach', hopen', -⟩ := exists_open_twice
  have hnew : (⟨0, fun _ => none⟩ : Tracker Filesys.File) = onlyLast none 0 :=
    congrArg (Tracker.mk 0) (update_eq_self (f := fun _ => none) (129 : ℤ)).symm
  obtain ⟨hclose, htable⟩ := close_nothing (t := onlyLast none 0) 131 fs (by decide) (onlyLast_slot_last none 0)
  obtain ⟨hclose', htable'⟩ := close_nothing (t := onlyLast (some ⟨a, 0, false⟩) 130) 130 fs' (by decide)
    (onlyLast_slot_of_ne _ _ (by decide))
  obtain ⟨hvalue, hcount⟩ := addFileToFd_kept hreach' (t := onlyLast (some ⟨a, 0, false⟩) 128) (Int.natCast_nonneg 128)
    (onlyLast_no_room _) hopen'
  have hadd : addFileToFd (onlyLast none 129) [97] fs = .ok ((onlyLast none 129).addFileToFd (some ⟨a, 0, false⟩), fs') :=
    Program.bind_run_ok hopen
  have hadd' : addFileToFd (onlyLast (some ⟨a, 0, false⟩) 128) [97] fs' =
      .ok ((onlyLast (some ⟨a, 0, false⟩) 128).addFileToFd (some ⟨b, 0, false⟩), fs'') := Program.bind_run_ok hopen'
  rw [hnew]
  refine ⟨fs, fs', fs'', ⟨a, 0, false⟩, _, (onlyLast (some ⟨a, 0, false⟩) 130).closeFileFromFd 130,
    (onlyLast none 129).addFileToFd (some ⟨a, 0, false⟩),
    (onlyLast (some ⟨a, 0, false⟩) 128).addFileToFd (some ⟨b, 0, false⟩),
    hreach, hclose, ?_, ?_, ?_, hreach', ?_, ?_, ?_, ?_, _, hcount⟩
  · rw [htable]
    exact hadd
  · rw [onlyLast_open]
  · rw [onlyLast_open]
    exact hclose'
  · rw [htable']
    exact hadd'
  · rw [hvalue]
  · rw [htable']
    exact onlyLast_slot_of_ne _ _ (by decide)
  · rw [hvalue]
    simp [Tracker.put, onlyLast]

end Pintos.Userprog.OpenFiles
