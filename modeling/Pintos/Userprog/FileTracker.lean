import Pintos.Basis.Transition
import Pintos.Userprog.Syscall

/-!
# The table of open files

Every thread has an array `file_tracker` of `LEN_FILE_LIST` pointers to open files, and
the index `tracker_avail_ind` at which the next file goes (`threads/thread.c`). A file
descriptor is an index plus 2. `add_file_to_fd` puts a file at `tracker_avail_ind` and
then looks for the next index above it whose pointer is `NULL`; `close_file_from_fd`
makes the index it clears the next one; `get_file_from_fd` reads an index.

## The model

The functions are computations with a log (`Trace`) of the indices they access and of
the functions of `file.c` they call. What is at an index that is not one of the array is
whatever the memory around it holds; the word behind the array is the lower half of
`wake_tick`. What `filesys_open` returned is an argument of `add_file_to_fd`, and a file
is any value: the table does not look at it.

## What is proved

* The next index is free and every access is inside the array, in every run that does
  not put a file at the last index, and only as long as it does not
  (**`accesses_characterised`**).
* `add_file_to_fd` refuses a file only when the table is full, exactly if the table is
  full or there is a free index above the next one (**`refuses_only_when_full`**): the
  free indices below it are not looked at.
* In a run inside the array the table is a map from descriptors to files
  (**`table_is_map`**).
-/

namespace Pintos.Userprog

open Function

/-- What the functions of the table and the system calls do with files. -/
inductive FileEvent (F : Type) where
  /-- Index `i` of `file_tracker` is read or written. -/
  | slot (i : ℤ)
  | fileClose (file : Option F)
  | fileLength (file : Option F)
  | fileRead (file : Option F) (size : ℤ)
  | fileWrite (file : Option F) (size : ℤ)
  | fileSeek (file : Option F) (newPos : ℤ)
  | fileTell (file : Option F)

/-- An access to `file_tracker` is inside the array. -/
def FileEvent.inRange {F : Type} : FileEvent F → Bool
  | .slot i => decide (0 ≤ i ∧ i < LEN_FILE_LIST)
  | _ => true

/-- The fields `tracker_avail_ind` and `file_tracker` of a thread. -/
structure Tracker (F : Type) where
  /-- The index at which the next file goes, or `-1`. -/
  availInd : ℤ
  /-- What is at each index from the start of the array. -/
  slot : ℤ → Option F

namespace Tracker

open Trace

variable {F χ : Type}

/-- The loop of `add_file_to_fd`, from index `i` on: the next index, or none when it comes to the
end of the array. The test for the end is behind the access. -/
def scan (t : Tracker F) (i : ℤ) : Trace (FileEvent F) χ (Option ℤ) := do
  emit (.slot i)
  match t.slot i with
  | none => pure (some i)
  | some _ => if LEN_FILE_LIST - 1 < i + 1 then pure none else scan t (i + 1)
termination_by (LEN_FILE_LIST - i).toNat
decreasing_by omega

/-- A file is put at the next index. -/
def put (t : Tracker F) (file : F) : Tracker F := { t with slot := update t.slot t.availInd (some file) }

/-- `add_file_to_fd`; `opened` is what `filesys_open` returns. -/
def addFileToFd (t : Tracker F) (opened : Option F) : Trace (FileEvent F) χ (ℤ × Tracker F) :=
  if t.availInd < 0 then pure (-1, t)
  else
    match opened with
    | none => pure (-1, t)
    | some file => do
      emit (.slot t.availInd)
      match ← (t.put file).scan (t.availInd + 1) with
      | some i => pure (t.availInd + 2, { t.put file with availInd := i })
      | none => pure (-1, { t.put file with availInd := -1 })

/-- `get_file_from_fd`: the index is read for the test, and again for the result. -/
def getFileFromFd (t : Tracker F) (fd : ℤ) : Trace (FileEvent F) χ (Option F) :=
  if LEN_FILE_LIST < fd - 2 then pure none
  else do
    emit (.slot (fd - 2))
    match t.slot (fd - 2) with
    | none => pure none
    | some file =>
      emit (.slot (fd - 2))
      pure (some file)

/-- The file of a descriptor has changed. -/
def setFile (t : Tracker F) (fd : ℤ) (file : F) : Tracker F := { t with slot := update t.slot (fd - 2) (some file) }

def closeFileFromFd (t : Tracker F) (fd : ℤ) : Trace (FileEvent F) χ (Bool × Tracker F) :=
  if LEN_FILE_LIST < fd - 2 then pure (false, t)
  else do
    emit (.slot (fd - 2))
    emit (.fileClose (t.slot (fd - 2)))
    emit (.slot (fd - 2))
    pure (true, { availInd := fd - 2, slot := update t.slot (fd - 2) none })

/-! ### The loop -/

variable {t : Tracker F}

theorem scan_eq_of_none {i : ℤ} (h : t.slot i = none) : t.scan (χ := χ) i = ⟨[.slot i], .ok (some i)⟩ := by
  rw [scan, h]
  rfl

theorem scan_eq_of_some {i : ℤ} (h : t.slot i ≠ none) (hi : LEN_FILE_LIST - 1 < i + 1) :
    t.scan (χ := χ) i = ⟨[.slot i], .ok none⟩ := by
  obtain ⟨file, hfile⟩ := Option.ne_none_iff_exists'.mp h
  rw [scan, hfile]
  simp only [if_pos hi]
  rfl

theorem scan_eq_next {i : ℤ} (h : t.slot i ≠ none) (hi : ¬ LEN_FILE_LIST - 1 < i + 1) :
    t.scan (χ := χ) i = ⟨.slot i :: (t.scan (χ := χ) (i + 1)).log, (t.scan (χ := χ) (i + 1)).out⟩ := by
  obtain ⟨file, hfile⟩ := Option.ne_none_iff_exists'.mp h
  rw [scan, hfile]
  simp only [if_neg hi]
  rfl

/-- The indices the loop may come to from index `i`. -/
def Ahead (i k : ℤ) : Prop := i ≤ k ∧ (k = i ∨ k < LEN_FILE_LIST)

/-- **The loop finds the first free index, or there is none.** -/
theorem scan_cases (t : Tracker F) (i : ℤ) :
    (∃ j, (t.scan (χ := χ) i).out = .ok (some j) ∧ Ahead i j ∧ t.slot j = none ∧ ∀ k, i ≤ k → k < j → t.slot k ≠ none) ∨
      ((t.scan (χ := χ) i).out = .ok none ∧ ∀ k, Ahead i k → t.slot k ≠ none) := by
  by_cases hslot : t.slot i = none
  · left
    exact ⟨i, by rw [scan_eq_of_none hslot], ⟨le_rfl, .inl rfl⟩, hslot, fun k hk hki => by omega⟩
  · by_cases hi : LEN_FILE_LIST - 1 < i + 1
    · right
      constructor
      · rw [scan_eq_of_some hslot hi]
      · intro k hk
        obtain rfl : k = i := by unfold Ahead at hk; omega
        exact hslot
    · rw [scan_eq_next hslot hi]
      obtain ⟨j, hout, hj, hfree, hfirst⟩ | ⟨hout, hfull⟩ := scan_cases t (i + 1)
      · left
        refine ⟨j, hout, by unfold Ahead at *; omega, hfree, fun k hk hkj => ?_⟩
        by_cases hki : k = i
        · rw [hki]
          exact hslot
        · exact hfirst k (by omega) hkj
      · right
        constructor
        · exact hout
        · intro k hk
          by_cases hki : k = i
          · rw [hki]
            exact hslot
          · exact hfull k (by unfold Ahead at *; omega)
termination_by (LEN_FILE_LIST - i).toNat
decreasing_by omega

/-- From an index of the array the loop stays inside the array. -/
theorem scan_logs (t : Tracker F) {i : ℤ} (h0 : 0 ≤ i) (hi : i < LEN_FILE_LIST) :
    (t.scan (χ := χ) i).Logs fun e => e.inRange = true := by
  have hhead : (FileEvent.slot i : FileEvent F).inRange = true := decide_eq_true ⟨h0, hi⟩
  by_cases hslot : t.slot i = none
  · rw [scan_eq_of_none hslot]
    simpa [logs_mk] using hhead
  · by_cases hend : LEN_FILE_LIST - 1 < i + 1
    · rw [scan_eq_of_some hslot hend]
      simpa [logs_mk] using hhead
    · rw [scan_eq_next hslot hend, logs_mk, List.forall_mem_cons]
      exact ⟨hhead, scan_logs t (by omega) (by omega)⟩
termination_by (LEN_FILE_LIST - i).toNat
decreasing_by omega

/-- The loop accesses the index it starts with. -/
theorem mem_scan_log (t : Tracker F) (i : ℤ) : FileEvent.slot i ∈ (t.scan (χ := χ) i).log := by
  rw [scan]
  exact List.mem_cons_self

theorem put_slot_of_ne {file : F} {i : ℤ} (h : i ≠ t.availInd) : (t.put file).slot i = t.slot i :=
  update_of_ne h _ _

/-! ### Opening a file -/

section Open

variable {t : Tracker F} {file : F} (h0 : 0 ≤ t.availInd)
include h0

theorem addFileToFd_found {i : ℤ} (hscan : ((t.put file).scan (χ := χ) (t.availInd + 1)).out = .ok (some i)) :
    t.addFileToFd (χ := χ) (some file) =
      ⟨.slot t.availInd :: ((t.put file).scan (χ := χ) (t.availInd + 1)).log,
        .ok (t.availInd + 2, { t.put file with availInd := i })⟩ := by
  unfold addFileToFd
  rw [if_neg (by omega)]
  dsimp only
  rw [bind_of_out hscan]
  simp

/-- The loop finds nothing: the file stays in the table, but its descriptor is not returned. -/
theorem addFileToFd_lost (hscan : ((t.put file).scan (χ := χ) (t.availInd + 1)).out = .ok none) :
    t.addFileToFd (χ := χ) (some file) =
      ⟨.slot t.availInd :: ((t.put file).scan (χ := χ) (t.availInd + 1)).log,
        .ok (-1, { t.put file with availInd := -1 })⟩ := by
  unfold addFileToFd
  rw [if_neg (by omega)]
  dsimp only
  rw [bind_of_out hscan]
  simp

theorem log_addFileToFd : (t.addFileToFd (χ := χ) (some file)).log =
    .slot t.availInd :: ((t.put file).scan (χ := χ) (t.availInd + 1)).log := by
  obtain ⟨j, hout, -⟩ | ⟨hout, -⟩ := scan_cases (χ := χ) (t.put file) (t.availInd + 1)
  · rw [addFileToFd_found h0 hout]
  · rw [addFileToFd_lost h0 hout]

end Open

/-! ### The descriptors -/

/-- The file that a descriptor stands for. -/
def binding (t : Tracker F) (fd : ℤ) : Option F := if 2 ≤ fd ∧ fd - 2 < LEN_FILE_LIST then t.slot (fd - 2) else none

/-- What a process can do with its table. -/
inductive Act (F : Type) where
  /-- `add_file_to_fd`. -/
  | openFile (opened : Option F)
  /-- `get_file_from_fd`. -/
  | get (fd : ℤ)
  /-- `close_file_from_fd`. -/
  | close (fd : ℤ)

/-- What it returns. -/
inductive Ret (F : Type) where
  /-- `add_file_to_fd` returns a descriptor, or `-1`. -/
  | fd (fd : ℤ)
  /-- `get_file_from_fd` returns a file, or `NULL`. -/
  | file (file : Option F)
  /-- `close_file_from_fd` returns whether the descriptor was in range. -/
  | closed (ok : Bool)

/-- What the function does. -/
def perform (t : Tracker F) : Act F → Trace (FileEvent F) Empty (Ret F × Tracker F)
  | .openFile opened => do
    let r ← t.addFileToFd opened
    pure (.fd r.1, r.2)
  | .get fd => do
    let file ← t.getFileFromFd fd
    pure (.file file, t)
  | .close fd => do
    let r ← t.closeFileFromFd fd
    pure (.closed r.1, r.2)

theorem perform_openFile {opened : Option F} {r : ℤ × Tracker F}
    (h : (t.addFileToFd (χ := Empty) opened).out = .ok r) : (t.perform (.openFile opened)).value = (.fd r.1, r.2) :=
  value_of_out (out_bind_ok h)

variable {fd : ℤ}

theorem closeFileFromFd_eq (h : fd - 2 ≤ LEN_FILE_LIST) : t.closeFileFromFd (χ := χ) fd =
    ⟨[.slot (fd - 2), .fileClose (t.slot (fd - 2)), .slot (fd - 2)],
      .ok (true, { availInd := fd - 2, slot := update t.slot (fd - 2) none })⟩ := by
  unfold closeFileFromFd
  rw [if_neg (Int.not_lt.mpr h)]
  rfl

theorem perform_close {r : Bool × Tracker F}
    (h : (t.closeFileFromFd (χ := Empty) fd).out = .ok r) : (t.perform (.close fd)).value = (.closed r.1, r.2) :=
  value_of_out (out_bind_ok h)

/-- The table of a new thread. -/
structure Fresh (t : Tracker F) : Prop where
  /-- The first index is the next one. -/
  first : t.availInd = 0
  /-- There are no files. -/
  empty : ∀ i, 0 ≤ i → i < LEN_FILE_LIST → t.slot i = none

/-- All runs of the functions of the table. -/
def table : System (Tracker F) (Act F) where
  init := Fresh
  step t a := .next (t.perform a).value.2

/-! ### A table of numbers -/

/-- A table whose files are at the indices from `a` on and below `b`. -/
def span (avail a b : ℤ) : Tracker ℕ :=
  { availInd := avail, slot := fun i => if a ≤ i ∧ i < b then some i.toNat else none }

theorem span_slot_of_mem {avail a b i : ℤ} (h : a ≤ i ∧ i < b) : (span avail a b).slot i = some i.toNat := if_pos h

theorem span_slot_of_notMem {avail a b i : ℤ} (h : ¬ (a ≤ i ∧ i < b)) : (span avail a b).slot i = none := if_neg h

theorem span_fresh : (span 0 0 0).Fresh := ⟨rfl, fun i _ _ => span_slot_of_notMem (by omega)⟩

theorem span_open_end {a b : ℤ} (h0 : 0 ≤ a) (hab : a ≤ b) :
    ((span b a b).perform (.openFile (some b.toNat))).value.2 = span (b + 1) a (b + 1) := by
  have hput : ((span b a b).put b.toNat).slot = (span (b + 1) a (b + 1)).slot := by
    funext i
    by_cases hi : i = b
    · rw [hi, span_slot_of_mem (by omega)]
      exact update_self _ _ _
    · rw [put_slot_of_ne hi]
      exact if_congr (by omega) rfl rfl
  have hfree : ((span b a b).put b.toNat).slot (b + 1) = none := by
    rw [hput]
    exact span_slot_of_notMem (by omega)
  have hscan : (((span b a b).put b.toNat).scan (χ := Empty) (b + 1)).out = .ok (some (b + 1)) := by
    rw [scan_eq_of_none hfree]
  have hadd := addFileToFd_found (t := span b a b) (by show 0 ≤ b; omega) hscan
  rw [perform_openFile (congrArg out hadd)]
  exact congrArg (Tracker.mk (b + 1)) hput

theorem span_close_first {avail a b : ℤ} (ha : a < LEN_FILE_LIST) :
    ((span avail a b).perform (.close (a + 2))).value.2 = span a (a + 1) b := by
  rw [perform_close (congrArg out (closeFileFromFd_eq (by omega)))]
  rw [Int.add_sub_cancel]
  apply congrArg (Tracker.mk a)
  funext i
  obtain rfl | hi := eq_or_ne i a
  · rw [update_self, if_neg (by omega)]
  · rw [update_of_ne hi]
    exact if_congr (by omega) rfl rfl

theorem span_open_first {a b : ℤ} (h0 : 0 ≤ a) (hab : a < b) (hb : b < LEN_FILE_LIST) :
    ((span a (a + 1) b).perform (.openFile (some a.toNat))).value.2 = span b a b := by
  have hput : ((span a (a + 1) b).put a.toNat).slot = (span b a b).slot := by
    funext i
    by_cases hi : i = a
    · rw [hi, span_slot_of_mem (by omega)]
      exact update_self _ _ _
    · rw [put_slot_of_ne hi]
      exact if_congr (by omega) rfl rfl
  have hfull : ∀ k, a ≤ k → k < b → ((span a (a + 1) b).put a.toNat).slot k ≠ none := by
    intro k hk hkb
    rw [hput, span_slot_of_mem ⟨hk, hkb⟩]
    exact Option.some_ne_none _
  have hfree : ((span a (a + 1) b).put a.toNat).slot b = none := by
    rw [hput]
    exact span_slot_of_notMem (by omega)
  obtain ⟨j, hout, hj, hnone, hfirst⟩ | ⟨-, hnone⟩ := scan_cases (χ := Empty) ((span a (a + 1) b).put a.toNat) (a + 1)
  · have hbj : ¬ b < j := fun hlt => hfirst b (by omega) hlt hfree
    have hjb : ¬ j < b := fun hlt => hfull j (by unfold Ahead at hj; omega) hlt hnone
    obtain rfl : j = b := by omega
    have hadd := addFileToFd_found (t := span a (a + 1) j) h0 hout
    rw [perform_openFile (congrArg out hadd)]
    exact congrArg (Tracker.mk j) hput
  · exact absurd hfree (hnone b (by unfold Ahead; omega))

theorem reach_span {g : Tracker ℕ → Act ℕ → Bool} (N : ℕ)
    (hg : ∀ n : ℕ, n < N → g (span n 0 n) (.openFile (some n)) = true) : (table.guard g).Reach (span N 0 N) := by
  induction N with
  | zero => exact .init span_fresh
  | succ n ih =>
    apply System.Reach.step (ih fun m hm => hg m (Nat.lt_succ_of_lt hm)) (a := .openFile (some n))
    rw [System.guard_step_eq_next]
    constructor
    · exact hg n (Nat.lt_succ_self n)
    · exact congrArg Outcome.next (span_open_end le_rfl (Int.natCast_nonneg n))

/-! ### Accesses -/

/-- `tracker_avail_ind` is `-1` or the index of a free slot of the array. -/
def AvailOk (t : Tracker F) : Prop :=
  t.availInd = -1 ∨ (0 ≤ t.availInd ∧ t.availInd < LEN_FILE_LIST ∧ t.slot t.availInd = none)

/-- The next index is free, and so is the last one. -/
structure Ok (t : Tracker F) : Prop where
  /-- The next index is one of the array. -/
  nonneg : 0 ≤ t.availInd
  /-- So it is. -/
  lt : t.availInd < LEN_FILE_LIST
  /-- There is no file at the next index. -/
  free : t.slot t.availInd = none
  /-- There is none at the last index. -/
  last : t.slot (LEN_FILE_LIST - 1) = none

theorem Fresh.ok (h : t.Fresh) : t.Ok := by
  have hlen : LEN_FILE_LIST = 130 := rfl
  have h0 := h.first
  exact ⟨by omega, by omega, h.empty _ (by omega) (by omega), h.empty _ (by omega) (by omega)⟩

theorem Ok.availOk (h : t.Ok) : t.AvailOk := .inr ⟨h.nonneg, h.lt, h.free⟩

section Ok

variable {t : Tracker F} (h : t.Ok)
include h

/-- Opening a file below the last index stays inside the array, and leaves a free index. -/
theorem Ok.openFile (file : F) (hne : t.availInd ≠ LEN_FILE_LIST - 1) :
    (t.addFileToFd (χ := χ) (some file)).Logs (fun e => e.inRange = true) ∧
      ∃ i, (t.addFileToFd (χ := χ) (some file)).out = .ok (t.availInd + 2, { t.put file with availInd := i }) ∧
        Ok { t.put file with availInd := i } := by
  have h0 := h.nonneg
  have hlt := h.lt
  have hlast : (t.put file).slot (LEN_FILE_LIST - 1) = none := (put_slot_of_ne hne.symm).trans h.last
  constructor
  · intro e he
    rw [log_addFileToFd h0] at he
    obtain rfl | he := List.mem_cons.mp he
    · exact decide_eq_true ⟨h0, hlt⟩
    · exact scan_logs _ (by omega) (by omega) e he
  · obtain ⟨i, hout, hi, hfree, -⟩ | ⟨-, hfull⟩ := scan_cases (χ := χ) (t.put file) (t.availInd + 1)
    · have hrange : 0 ≤ i ∧ i < LEN_FILE_LIST := by unfold Ahead at hi; omega
      exact ⟨i, by rw [addFileToFd_found h0 hout], hrange.1, hrange.2, hfree, hlast⟩
    · exact absurd hlast (hfull _ (by unfold Ahead; omega))

/-- Opening a file at the last index accesses the word behind the array. -/
theorem Ok.openFile_last (file : F) (heq : t.availInd = LEN_FILE_LIST - 1) :
    ¬ (t.addFileToFd (χ := χ) (some file)).Logs fun e => e.inRange = true := by
  intro hlogs
  have hin : (FileEvent.slot (t.availInd + 1) : FileEvent F).inRange = true := by
    apply hlogs
    rw [log_addFileToFd h.nonneg]
    exact List.mem_cons_of_mem _ (mem_scan_log _ _)
  have hlt : t.availInd + 1 < LEN_FILE_LIST := (of_decide_eq_true hin).2
  omega

/-- Closing a descriptor leaves a free index. -/
theorem Ok.close (hfd : 2 ≤ fd ∧ fd - 2 < LEN_FILE_LIST) :
    (t.closeFileFromFd (χ := χ) fd).Logs (fun e => e.inRange = true) ∧
      ∃ t', (t.closeFileFromFd (χ := χ) fd).out = .ok (true, t') ∧ t'.Ok ∧
        t' = { availInd := fd - 2, slot := update t.slot (fd - 2) none } := by
  have hrange : (FileEvent.slot (fd - 2) : FileEvent F).inRange = true := decide_eq_true ⟨by omega, hfd.2⟩
  rw [closeFileFromFd_eq (by omega)]
  constructor
  · intro e he
    simp only [List.mem_cons, List.not_mem_nil, or_false] at he
    obtain rfl | rfl | rfl := he
    · exact hrange
    · rfl
    · exact hrange
  · refine ⟨_, rfl, ⟨by show 0 ≤ fd - 2; omega, hfd.2, update_self _ _ _, ?_⟩, rfl⟩
    by_cases he : LEN_FILE_LIST - 1 = fd - 2
    · show update t.slot (fd - 2) none (LEN_FILE_LIST - 1) = none
      rw [he, update_self]
    · exact (update_of_ne he _ _).trans h.last

end Ok

/-- A call that opens a file, or closes a descriptor that is open. -/
def Act.proper (t : Tracker F) : Act F → Bool
  | .openFile opened => opened.isSome
  | .get _ => false
  | .close fd => (t.binding fd).isSome

/-- A call that does not put a file at the last index. -/
def Act.belowLast (t : Tracker F) : Act F → Bool
  | .openFile _ => decide (t.availInd ≠ LEN_FILE_LIST - 1)
  | _ => true

theorem range_of_binding (h : (t.binding fd).isSome = true) : 2 ≤ fd ∧ fd - 2 < LEN_FILE_LIST := by
  unfold binding at h
  split at h
  · assumption
  · cases h

/-- **One call**: it stays inside the array and leaves a free index, when it is not for the last
index. -/
theorem Ok.step (h : t.Ok) {a : Act F} (hproper : a.proper t = true) :
    ((t.perform a).Logs (fun e => e.inRange = true) ↔ a.belowLast t = true) ∧
      (a.belowLast t = true → (t.perform a).value.2.Ok) := by
  cases a with
  | get fd => cases hproper
  | openFile opened =>
    obtain ⟨file, rfl⟩ := Option.isSome_iff_exists.mp hproper
    have hlogs : (t.perform (.openFile (some file))).Logs (fun e => e.inRange = true) ↔
        (t.addFileToFd (χ := Empty) (some file)).Logs fun e => e.inRange = true := logs_bind_pure
    rw [hlogs]
    by_cases hne : t.availInd = LEN_FILE_LIST - 1
    · have hlast : (Act.openFile (some file)).belowLast t = false := by simp [Act.belowLast, hne]
      rw [hlast]
      exact ⟨iff_of_false (h.openFile_last file hne) Bool.false_ne_true, fun hb => absurd hb Bool.false_ne_true⟩
    · obtain ⟨hin, i, hout, hok⟩ := h.openFile (χ := Empty) file hne
      have hbelow : (Act.openFile (some file)).belowLast t = true := by simp [Act.belowLast, hne]
      rw [perform_openFile hout]
      exact ⟨iff_of_true hin hbelow, fun _ => hok⟩
  | close fd =>
    have hlogs : (t.perform (.close fd)).Logs (fun e => e.inRange = true) ↔
        (t.closeFileFromFd (χ := Empty) fd).Logs fun e => e.inRange = true := logs_bind_pure
    obtain ⟨hin, t', hout, hok, -⟩ := h.close (χ := Empty) (range_of_binding hproper)
    rw [hlogs, perform_close hout]
    exact ⟨iff_of_true hin rfl, fun _ => hok⟩

/-- The runs that put no file at the last index. -/
abbrev belowLast : System (Tracker F) (Act F) := table.guard fun t a => a.proper t && a.belowLast t

theorem ok_of_reach (h : belowLast.Reach t) : t.Ok := by
  apply h.invariant
  · intro t ht
    exact Fresh.ok ht
  · intro t a t' hok hstep
    obtain ⟨hguard, hnext⟩ := System.guard_step_eq_next.mp hstep
    obtain ⟨hproper, hbelow⟩ := Bool.and_eq_true_iff.mp hguard
    cases hnext
    exact (hok.step hproper).2 hbelow

/-- **The next index is free, and every access is inside the array**, in all runs that put no file
at the last index: a call for the last index accesses the word behind the array. -/
theorem accesses_characterised {t : Tracker F} (h : belowLast.Reach t) : t.AvailOk ∧ ∀ a : Act F, a.proper t = true →
      ((t.perform a).Logs (fun e => e.inRange = true) ∧ (t.perform a).value.2.AvailOk ↔ a.belowLast t = true) := by
  have hok := ok_of_reach h
  constructor
  · exact hok.availOk
  · intro a ha
    obtain ⟨hlogs, hnext⟩ := hok.step ha
    constructor
    · intro hboth
      exact hlogs.mp hboth.1
    · intro hbelow
      exact ⟨hlogs.mpr hbelow, (hnext hbelow).availOk⟩

/-- Two files are opened, and the first is closed. -/
theorem reach_closed : belowLast.Reach (span 0 1 2) := by
  have htwo : belowLast.Reach (span 2 0 2) := by
    apply reach_span 2
    decide
  exact htwo.step (a := .close 2) (System.guard_step_eq_next.mpr ⟨rfl,
    congrArg Outcome.next (span_close_first (by decide))⟩)

/-- Then another file is opened. -/
theorem accesses_characterised_closed : belowLast.Reach (span 0 1 2) ∧
    ((span 0 1 2).perform (.openFile (some 5))).Logs (fun e => e.inRange = true) ∧
      ((span 0 1 2).perform (.openFile (some 5))).value.2.AvailOk :=
  ⟨reach_closed, ((accesses_characterised reach_closed).2 (.openFile (some 5)) rfl).mpr rfl⟩

/-- **The 130th file is put at the last index**, and the word behind the array is read. -/
theorem last_index_overruns : ∃ t : Tracker ℕ, belowLast.Reach t ∧
    (Act.openFile (some 129)).proper t = true ∧
    ¬ (t.perform (.openFile (some 129))).Logs fun e => e.inRange = true := by
  have hreach : belowLast.Reach (span 129 0 129) := by
    apply reach_span 129
    intro n hn
    have hne : (n : ℤ) ≠ LEN_FILE_LIST - 1 := by
      have hlen : LEN_FILE_LIST = 130 := rfl
      omega
    exact decide_eq_true hne
  refine ⟨_, hreach, rfl, fun hlogs => ?_⟩
  exact (ok_of_reach hreach).openFile_last 129 rfl (logs_bind_pure.mp hlogs)

/-! ### A full table -/

/-- A table that has a free index behind the next one. -/
def RoomAbove (t : Tracker F) : Prop := 0 ≤ t.availInd ∧ ∃ i, Ahead (t.availInd + 1) i ∧ t.slot i = none

/-- Every index of the array has a file. -/
def Full (t : Tracker F) : Prop := ∀ i, 0 ≤ i → i < LEN_FILE_LIST → t.slot i ≠ none

/-- The descriptor that `add_file_to_fd` returns for a file that `filesys_open` has opened. -/
def returnedFd (t : Tracker F) (file : F) : ℤ := (t.addFileToFd (some file)).value.1

/-- An open file is refused when there is no free index behind the next one. -/
theorem returnedFd_eq_neg_one {file : F} : t.returnedFd file = -1 ↔ ¬ t.RoomAbove := by
  by_cases h0 : 0 ≤ t.availInd
  · have hput : ∀ k, Ahead (t.availInd + 1) k → (t.put file).slot k = t.slot k := by
      intro k hk
      exact put_slot_of_ne (by unfold Ahead at hk; omega)
    obtain ⟨j, hout, hj, hfree, -⟩ | ⟨hout, hfull⟩ := scan_cases (χ := Empty) (t.put file) (t.availInd + 1)
    · have hret : t.returnedFd file = t.availInd + 2 := by
        unfold returnedFd
        rw [addFileToFd_found h0 hout]
        rfl
      constructor
      · omega
      · intro h
        exact absurd ⟨h0, j, hj, (hput j hj).symm.trans hfree⟩ h
    · have hret : t.returnedFd file = -1 := by
        unfold returnedFd
        rw [addFileToFd_lost h0 hout]
        rfl
      constructor
      · rintro - ⟨-, k, hk, hfree⟩
        exact hfull k hk ((hput k hk).trans hfree)
      · intro
        exact hret
  · constructor
    · rintro - ⟨h, -⟩
      exact h0 h
    · intro
      unfold returnedFd addFileToFd
      rw [if_pos (by omega)]
      rfl

/-- **An open file is refused only when the table is full**, exactly if the table is full or has a
free index behind the next one. -/
theorem refuses_only_when_full (t : Tracker F) (file : F) :
    (t.returnedFd file = -1 → t.Full) ↔ t.Full ∨ t.RoomAbove := by
  rw [returnedFd_eq_neg_one, imp_iff_not_or, not_not, or_comm]

/-- How many files are open. -/
def openFiles (t : Tracker F) : ℕ := ((Finset.range LEN_FILE_LIST.toNat).filter fun i : ℕ => (t.slot i).isSome).card

theorem openFiles_span_le (avail a b : ℤ) : (span avail a b).openFiles ≤ (b - a).toNat := by
  -- an index that is used is `a` and something below the length of the span
  have hused : ∀ i : ℕ, ((span avail a b).slot i).isSome → a ≤ i ∧ i < b := by
    intro i hsome
    by_contra h
    rw [span_slot_of_notMem h] at hsome
    cases hsome
  rw [← Finset.card_range (b - a).toNat]
  apply Finset.card_le_card_of_injOn fun i : ℕ => (i - a).toNat
  · intro i hi
    have hi' := hused i (Finset.mem_filter.mp hi).2
    simp only [Finset.coe_range, Set.mem_Iio]
    omega
  · intro i hi j hj hij
    have hi' := hused i (Finset.mem_filter.mp hi).2
    have hj' := hused j (Finset.mem_filter.mp hj).2
    simp only at hij
    omega

/-- A call that opens a file or closes an open descriptor, and leaves at most 128 files open. -/
def Act.few (t : Tracker F) (a : Act F) : Bool := a.proper t && decide ((t.perform a).value.2.openFiles ≤ 128)

/-- The runs of such calls. -/
abbrev fewOpen : System (Tracker ℕ) (Act ℕ) := table.guard fun t a => a.few t

section Few

variable {avail a b : ℤ}

theorem few_of_span {t : Tracker ℕ} {c : Act ℕ} (hproper : c.proper t = true)
    (ht : (t.perform c).value.2 = span avail a b) (hle : b - a ≤ 128) : c.few t = true := by
  have hcount := openFiles_span_le avail a b
  rw [Act.few, ht, hproper, Bool.true_and]
  exact decide_eq_true (by omega)

theorem few_step {t : Tracker ℕ} {c : Act ℕ} (h : fewOpen.Reach t)
    (hproper : c.proper t = true) (ht : (t.perform c).value.2 = span avail a b) (hle : b - a ≤ 128) :
    fewOpen.Reach (span avail a b) := by
  apply h.step (a := c)
  rw [System.guard_step_eq_next]
  exact ⟨few_of_span hproper ht hle, congrArg Outcome.next ht⟩

theorem few_close (h : fewOpen.Reach (span avail a b)) (h0 : 0 ≤ a) (hab : a < b)
    (hb : b ≤ LEN_FILE_LIST) (hle : b - a ≤ 128) : fewOpen.Reach (span a (a + 1) b) := by
  apply few_step h (c := .close (a + 2))
  · show ((span avail a b).binding (a + 2)).isSome = true
    unfold binding
    rw [if_pos (by omega), Int.add_sub_cancel, span_slot_of_mem (by omega)]
    rfl
  · exact span_close_first (by omega)
  · omega

theorem few_open_end (h : fewOpen.Reach (span b a b)) (h0 : 0 ≤ a) (hab : a ≤ b)
    (hle : b - a < 128) : fewOpen.Reach (span (b + 1) a (b + 1)) :=
  few_step h rfl (span_open_end h0 hab) (by omega)

end Few

/-- **A process that never has more than 128 files open cannot open a file**: after 128 files were
opened, the first three closed and three more opened, the last of them at the last index, the third
is closed, and its index is the next one. There is no free index above it, but there are three free
indices. -/
theorem refused_with_room : ∃ t : Tracker ℕ, fewOpen.Reach t ∧ t.openFiles < 128 ∧
    t.returnedFd 2 = -1 ∧ ¬ t.Full := by
  have hlen : LEN_FILE_LIST = 130 := rfl
  have hopen : fewOpen.Reach (span 128 0 128) := by
    apply reach_span 128
    intro n hn
    exact few_of_span rfl (span_open_end le_rfl (Int.natCast_nonneg n)) (by omega)
  have hone : fewOpen.Reach (span 0 1 128) :=
    few_close hopen (by omega) (by omega) (by omega) (by omega)
  have htwo : fewOpen.Reach (span 1 2 128) :=
    few_close hone (by omega) (by omega) (by omega) (by omega)
  have hthree : fewOpen.Reach (span 2 3 128) :=
    few_close htwo (by omega) (by omega) (by omega) (by omega)
  have hagain : fewOpen.Reach (span 128 2 128) :=
    few_step hthree rfl (span_open_first (by omega) (by omega) (by omega)) (by omega)
  have hnext : fewOpen.Reach (span 129 2 129) :=
    few_open_end hagain (by omega) (by omega) (by omega)
  have hlast : fewOpen.Reach (span 130 2 130) :=
    few_open_end hnext (by omega) (by omega) (by omega)
  refine ⟨span 2 3 130, few_close hlast (by omega) (by omega) (by omega) (by omega), ?_, ?_, ?_⟩
  · have := openFiles_span_le 2 3 130
    omega
  · rw [returnedFd_eq_neg_one]
    rintro ⟨-, i, ⟨hi, hi'⟩, hfree⟩
    have hle : 3 ≤ i := hi
    have hlt : i < 130 := by
      have : i = 2 + 1 ∨ i < LEN_FILE_LIST := hi'
      omega
    rw [span_slot_of_mem ⟨hle, hlt⟩] at hfree
    cases hfree
  · intro hfull
    exact hfull 0 le_rfl (by omega) (span_slot_of_notMem (by omega))

/-! ### Descriptors and files -/

/-- A call that stays inside the array, and closes only a descriptor that is open. -/
def Act.inside (t : Tracker F) (a : Act F) : Bool :=
  (t.perform a).log.all FileEvent.inRange &&
    match a with
    | .close fd => (t.binding fd).isSome
    | _ => true

/-- What a call does to a map from descriptors to files. -/
inductive MapStep (m : ℤ → Option F) : Act F → Ret F → (ℤ → Option F) → Prop where
  /-- A file gets a descriptor that had none, and nothing else changes. -/
  | opened {file : F} {fd : ℤ} : 2 ≤ fd → m fd = none →
      MapStep m (.openFile (some file)) (.fd fd) (update m fd (some file))
  /-- There was no file to open. -/
  | failed : MapStep m (.openFile none) (.fd (-1)) m
  /-- The file of a descriptor is found. -/
  | got {fd : ℤ} : MapStep m (.get fd) (.file (m fd)) m
  /-- A descriptor loses its file. -/
  | closed {fd : ℤ} {file : F} : m fd = some file → MapStep m (.close fd) (.closed true) (update m fd none)

/-- The maps that runs reach. -/
inductive MapReach : (ℤ → Option F) → Prop where
  /-- No descriptor has a file. -/
  | empty : MapReach fun _ => none
  /-- One more call. -/
  | step {m m' : ℤ → Option F} {a : Act F} {r : Ret F} : MapReach m → MapStep m a r m' → MapReach m'

section Map

variable {t : Tracker F}

theorem binding_of_ne {t' : Tracker F} (fd' : ℤ) (h : ∀ i, i ≠ fd' - 2 → t'.slot i = t.slot i) (hne : fd ≠ fd') :
    t'.binding fd = t.binding fd := by
  unfold binding
  rw [h (fd - 2) (by omega)]

theorem binding_put (h0 : 0 ≤ t.availInd) (hlt : t.availInd < LEN_FILE_LIST) (file : F) (i : ℤ) :
    binding { t.put file with availInd := i } = update t.binding (t.availInd + 2) (some file) := by
  funext fd
  by_cases hfd : fd = t.availInd + 2
  · subst hfd
    unfold binding
    rw [update_self, if_pos (by omega), Int.add_sub_cancel]
    exact update_self _ _ _
  · rw [update_of_ne hfd]
    apply binding_of_ne (t.availInd + 2) _ hfd
    intro j hj
    exact put_slot_of_ne (by omega)

theorem binding_close (fd : ℤ) :
    binding { availInd := fd - 2, slot := update t.slot (fd - 2) none } = update t.binding fd none := by
  funext fd'
  obtain rfl | hfd := eq_or_ne fd' fd
  · unfold binding
    rw [update_self]
    split
    · exact update_self _ _ _
    · rfl
  · rw [update_of_ne hfd]
    apply binding_of_ne fd _ hfd
    intro j hj
    exact update_of_ne hj _ _

theorem getFileFromFd_out (h : (t.getFileFromFd (χ := χ) fd).Logs fun e => e.inRange = true) :
    (t.getFileFromFd (χ := χ) fd).out = .ok (t.binding fd) := by
  unfold getFileFromFd binding at *
  by_cases hbig : LEN_FILE_LIST < fd - 2
  · rw [if_pos hbig, if_neg (by omega)]
    rfl
  · rw [if_neg hbig] at h ⊢
    have hin : (FileEvent.slot (fd - 2) : FileEvent F).inRange = true := (logs_emit_bind.mp h).1
    have hrange := of_decide_eq_true hin
    rw [if_pos (by omega), emit_bind]
    cases t.slot (fd - 2) with
    | none | some file => rfl

/-- **One call inside the array** is a step of the map, and leaves a free index. -/
theorem Ok.mapStep (h : t.Ok) {a : Act F} (hin : a.inside t = true) :
    (t.perform a).value.2.Ok ∧
      MapStep t.binding a (t.perform a).value.1 (t.perform a).value.2.binding := by
  obtain ⟨hall, hclose⟩ := Bool.and_eq_true_iff.mp hin
  have hlogs : (t.perform a).Logs fun e => e.inRange = true := List.all_eq_true.mp hall
  cases a with
  | openFile opened =>
    cases opened with
    | none =>
      have hout : (t.addFileToFd (χ := Empty) none).out = .ok (-1, t) := by
        unfold addFileToFd
        rw [if_neg (by have := h.nonneg; omega)]
        rfl
      rw [perform_openFile hout]
      exact ⟨h, .failed⟩
    | some file =>
      have hne : t.availInd ≠ LEN_FILE_LIST - 1 := by
        intro heq
        exact h.openFile_last file heq (logs_bind_pure.mp hlogs)
      obtain ⟨-, i, hout, hok⟩ := h.openFile (χ := Empty) file hne
      rw [perform_openFile hout]
      constructor
      · exact hok
      · rw [binding_put h.nonneg h.lt]
        apply MapStep.opened
        · have := h.nonneg
          omega
        · unfold binding
          rw [Int.add_sub_cancel, h.free, ite_self]
  | get fd =>
    have hout := getFileFromFd_out (logs_bind_pure.mp hlogs)
    have hval : (t.perform (.get fd)).value = (.file (t.binding fd), t) := value_of_out (out_bind_ok hout)
    rw [hval]
    exact ⟨h, .got⟩
  | close fd =>
    obtain ⟨file, hfile⟩ := Option.isSome_iff_exists.mp hclose
    obtain ⟨-, t', hout, hok, rfl⟩ := h.close (χ := Empty) (range_of_binding hclose)
    rw [perform_close hout]
    constructor
    · exact hok
    · rw [binding_close]
      exact .closed hfile

theorem Fresh.binding_eq (h : t.Fresh) : t.binding = fun _ => none := by
  funext fd
  unfold binding
  split
  · exact h.empty _ (by omega) (by omega)
  · rfl

/-- **The table is a map from descriptors to files**, in every run inside the array: the run of the
table is a run of the map, and every call is a step of the map. -/
theorem table_is_map (h : (table.guard fun t a => a.inside t).Reach t) :
    MapReach t.binding ∧ ∀ a : Act F, a.inside t = true →
      MapStep t.binding a (t.perform a).value.1 (t.perform a).value.2.binding := by
  have hrun : t.Ok ∧ MapReach t.binding := by
    apply h.invariant (P := fun t => t.Ok ∧ MapReach t.binding)
    · intro t ht
      have hfresh : t.Fresh := ht
      exact ⟨hfresh.ok, hfresh.binding_eq ▸ .empty⟩
    · intro t a t' ht hstep
      obtain ⟨hin, hnext⟩ := System.guard_step_eq_next.mp hstep
      cases hnext
      obtain ⟨hok, hmap⟩ := ht.1.mapStep hin
      exact ⟨hok, .step ht.2 hmap⟩
  constructor
  · exact hrun.2
  · intro a hin
    exact (hrun.1.mapStep hin).2

end Map

theorem reach_inside {t : Tracker F} (h : belowLast.Reach t) :
    (table.guard fun t a => a.inside t).Reach t := by
  induction h with
  | init ht => exact .init ht
  | @step t t' a hreach hstep ih =>
    obtain ⟨hguard, hnext⟩ := System.guard_step_eq_next.mp hstep
    obtain ⟨hproper, hbelow⟩ := Bool.and_eq_true_iff.mp hguard
    refine ih.step (System.guard_step_eq_next.mpr ⟨Bool.and_eq_true_iff.mpr ⟨?_, ?_⟩, hnext⟩)
    · exact List.all_eq_true.mpr (((ok_of_reach hreach).step hproper).1.mpr hbelow)
    · cases a with
      | close fd => exact hproper
      | openFile | get => rfl

/-- Of two files the first is closed: descriptor 3 has its file, and another file gets a
descriptor. -/
theorem table_is_map_closed : MapReach (span 0 1 2).binding ∧ (span 0 1 2).binding 3 = some 1 ∧
    MapStep (span 0 1 2).binding (.openFile (some 5)) ((span 0 1 2).perform (.openFile (some 5))).value.1
      ((span 0 1 2).perform (.openFile (some 5))).value.2.binding := by
  have hlogs : ((span 0 1 2).perform (.openFile (some 5))).Logs fun e => e.inRange = true :=
    ((ok_of_reach reach_closed).step rfl).1.mpr rfl
  obtain ⟨hmap, hstep⟩ := table_is_map (reach_inside reach_closed)
  exact ⟨hmap, rfl, hstep _ (Bool.and_eq_true_iff.mpr ⟨List.all_eq_true.mpr hlogs, rfl⟩)⟩

end Tracker

end Pintos.Userprog
