import Pintos.Userprog.FileTracker
import Pintos.Userprog.SyscallHandler

/-!
# System calls on open files

What `SYS_FILESIZE`, `SYS_READ`, `SYS_WRITE`, `SYS_SEEK`, `SYS_TELL` and `SYS_CLOSE` do
with a descriptor: they look it up in the `file_tracker` of the thread and call a
function of `filesys/file.c`.

## The model

The words and buffers of a call can be accessed; `Pintos.Userprog.Syscall` has what the
handler does with them, and `handler_runs` says that its calls come to what is here. The
functions of `file.c` panic when an assertion fails, and when they follow a `NULL`
pointer. A descriptor is a 32-bit word that the calls take as an `int`; `fd - 2` is an
exact difference, which is not an index of the array where the `int` would overflow.

The lookup tests the upper bound only, and allows one index too much. Three of the calls
use the file without asking whether there is one, and `SYS_SEEK` takes an unsigned
position for a signed one. **`file_calls_safe_iff`** says for which arguments and tables
nothing goes wrong.
-/

namespace Pintos.Userprog

open Trace (and_bind emit logs_emit_bind logs_pure out_bind_ok stop)

/-- A part of a system call on files. -/
abbrev FileSys := Trace (FileEvent File) End

/-! ### The functions of `file.c` -/

def fileLength (file : Option File) : FileSys ℤ := do
  emit (.fileLength file)
  match file with
  | none => stop .panic
  | some file => pure file.length

def fileTell (file : Option File) : FileSys ℤ := do
  emit (.fileTell file)
  match file with
  | none => stop .panic
  | some file => pure file.pos

def fileSeek (file : Option File) (newPos : ℤ) : FileSys File := do
  emit (.fileSeek file newPos)
  match file with
  | none => stop .panic
  | some file => if 0 ≤ newPos then pure { file with pos := newPos } else stop .panic

/-- `file_read`: the number of bytes, and the file. -/
def fileRead (file : Option File) (size : ℤ) : FileSys (ℤ × File) := do
  emit (.fileRead file size)
  match file with
  | none => stop .panic
  | some file => pure (file.transfer size, { file with pos := file.pos + file.transfer size })

/-- `file_write`: the number of bytes, and the file. -/
def fileWrite (file : Option File) (size : ℤ) : FileSys (ℤ × File) := do
  emit (.fileWrite file size)
  match file with
  | none => stop .panic
  | some file =>
    let n := if file.denyWrite then 0 else file.transfer size
    pure (n, { file with pos := file.pos + n })

/-- A system call on files, with its arguments. -/
inductive FileCall where
  | filesize (fd : BitVec 32)
  | read (fd size : BitVec 32)
  | write (fd size : BitVec 32)
  | seek (fd position : BitVec 32)
  | tell (fd : BitVec 32)
  | close (fd : BitVec 32)

namespace FileCall

variable (t : Tracker File)

/-- `call_filesize`: what it leaves in `eax`, and the table. -/
def callFilesize (fd : ℤ) : FileSys (Option ℤ × Tracker File) := do
  let file ← t.getFileFromFd fd
  let s ← fileLength file
  pure (some s, t)

def callRead (fd : ℤ) (size : BitVec 32) : FileSys (Option ℤ × Tracker File) :=
  if size = 0#32 then pure (some 0, t)
  else if fd = 0 then pure (some size.toInt, t)
  else if fd = 1 then pure (some (-1), t)
  else do
    match ← t.getFileFromFd fd with
    | none => stop (.exit (-1))
    | some file =>
      let r ← fileRead (some file) size.toInt
      pure (some r.1, t.setFile fd r.2)

def callWrite (fd : ℤ) (size : BitVec 32) : FileSys (Option ℤ × Tracker File) :=
  if fd = 1 then pure (some size.toNat, t)
  else if fd = 0 then stop (.exit (-1))
  else do
    match ← t.getFileFromFd fd with
    | none => stop (.exit (-1))
    | some file =>
      let r ← fileWrite (some file) size.toInt
      pure (some size.toInt, t.setFile fd r.2)

/-- `call_seek`; it leaves `eax` alone. -/
def callSeek (fd : ℤ) (position : BitVec 32) : FileSys (Option ℤ × Tracker File) := do
  let file ← t.getFileFromFd fd
  let file' ← fileSeek file position.toInt
  pure (none, t.setFile fd file')

def callTell (fd : ℤ) : FileSys (Option ℤ × Tracker File) := do
  let file ← t.getFileFromFd fd
  let pos ← fileTell file
  pure (some pos, t)

/-- `call_close`, past its test of the descriptor. -/
def callClose (fd : ℤ) : FileSys (Option ℤ × Tracker File) := do
  let r ← t.closeFileFromFd fd
  pure (none, r.2)

/-- A system call on files, with words and buffers that can be accessed. -/
def run : FileCall → FileSys (Option ℤ × Tracker File)
  | .filesize fd => callFilesize t fd.toInt
  | .read fd size => callRead t fd.toInt size
  | .write fd size => if size = 0#32 then pure (some 0, t) else callWrite t fd.toInt size
  | .seek fd position => callSeek t fd.toInt position
  | .tell fd => callTell t fd.toInt
  | .close fd => if fd ≠ 0#32 ∧ fd ≠ 1#32 then callClose t fd.toInt else stop (.exit (-1))

end FileCall

/-! ### From the handler to the calls -/

/-- The call that the stack of the process asks for. -/
def FileCall.ofStack (m : Machine) (esp : Addr) : SyscallNr → Option FileCall
  | .sysFilesize => some (.filesize (m.wordAt (esp + 4#32)))
  | .sysRead => some (.read (m.wordAt (esp + 4#32)) (m.wordAt (esp + 12#32)))
  | .sysWrite => some (.write (m.wordAt (esp + 4#32)) (m.wordAt (esp + 12#32)))
  | .sysSeek => some (.seek (m.wordAt (esp + 4#32)) (m.wordAt (esp + 8#32)))
  | .sysTell => some (.tell (m.wordAt (esp + 4#32)))
  | .sysClose => some (.close (m.wordAt (esp + 4#32)))
  | _ => none

/-- What the handler hands its arguments to, where that uses a descriptor. -/
def Call.onFiles (t : Tracker File) : Call → FileSys (Option ℤ × Tracker File)
  | .filesize fd => FileCall.callFilesize t fd
  | .seek fd position => FileCall.callSeek t fd position
  | .tell fd => FileCall.callTell t fd
  | .close fd => FileCall.callClose t fd
  | _ => pure (none, t)

/-- What is left in `eax` after the handler has come to its end. -/
def Result.eax (t : Tracker File) : Except End Result → Except End (Option ℤ)
  | .ok (.ret v) => .ok (some v)
  | .ok (.call c) => (c.onFiles t).out.map Prod.fst
  | .error e => .error e

/-- A buffer that can be accessed. -/
structure BufferOk (m : Machine) (write : Bool) (buffer : Addr) (size : BitVec 32) : Prop where
  /-- Its first byte passes the check. -/
  first : m.ptrOk buffer = true
  /-- Its bytes are there, and can be written. -/
  bytes : ∀ i < size.toNat, m.pd.mapped (buffer + BitVec.ofNat 32 i) = true ∧
    (write = true → m.pd.writable (buffer + BitVec.ofNat 32 i) = true)

/-- What `get_file_from_fd` returns, from whatever it reads. -/
def Tracker.lookup (t : Tracker File) (fd : ℤ) : Option File := if LEN_FILE_LIST < fd - 2 then none else t.slot (fd - 2)

theorem getFileFromFd_out_eq {χ : Type} {t : Tracker File} {fd : ℤ} :
    (t.getFileFromFd (χ := χ) fd).out = .ok (t.lookup fd) := by
  unfold Tracker.getFileFromFd Tracker.lookup
  split_ifs
  · rfl
  · rw [Trace.emit_bind]
    cases t.slot (fd - 2) <;> rfl

section Handler

variable {m : Machine} {t : Tracker File} {fd : ℤ} {buffer : Addr} {size : BitVec 32}

theorem getFileFromFd_eq (ht : t.slot = m.fileTracker) :
    (t.getFileFromFd (χ := End) fd).out = .ok (getFileFromFd m fd) := by
  rw [getFileFromFd_out_eq, Tracker.lookup, ht, getFileFromFd]

/-- A part of a buffer that can be accessed is accessed. -/
theorem touchRange_of_bufferOk {write : Bool} (h : BufferOk m write buffer size) {n i : ℕ} (hn : i + n ≤ size.toNat) :
    (touchRange m write buffer n i).out = .ok () := by
  induction n generalizing i with
  | zero => rfl
  | succ n ih =>
    obtain ⟨hmapped, hwrite⟩ := h.bytes i (by omega)
    have htouch : (touch m write (buffer + BitVec.ofNat 32 i)).out = .ok () := by
      unfold touch
      cases write with
      | false => simp [hmapped]
      | true => simp [hmapped, hwrite]
    rw [touchRange, out_bind_ok htouch]
    exact ih (by omega)

theorem toInt_toNat_le (w : BitVec 32) : w.toInt.toNat ≤ w.toNat := by
  rw [BitVec.toInt_eq_toNat_cond]
  split <;> omega

theorem transfer_le (file : File) (w : BitVec 32) : (file.transfer w.toInt).toNat ≤ w.toNat := by
  have hle := toInt_toNat_le w
  unfold File.transfer
  omega

theorem callRead_eax (ht : t.slot = m.fileTracker) (hbuf : size ≠ 0#32 → BufferOk m true buffer size) :
    Result.eax t (callRead m fd buffer size).out = (FileCall.callRead t fd size).out.map Prod.fst := by
  unfold callRead FileCall.callRead
  by_cases hsize : size = 0#32
  · rw [if_pos hsize, if_pos hsize]
    rfl
  · have hbuf := hbuf hsize
    simp only [if_neg hsize, and_bind, check_bind_out, hbuf.first, if_true, buf_bind_out hsize]
    split_ifs
    · rw [out_bind_ok (touchRange_of_bufferOk hbuf (by have := toInt_toNat_le size; omega))]
      rfl
    · rfl
    · rw [out_bind_ok (getFileFromFd_eq ht)]
      cases getFileFromFd m fd with
      | none => rfl
      | some file =>
        rw [out_bind_ok (touchRange_of_bufferOk hbuf (by have := transfer_le file size; omega))]
        rfl

theorem callWrite_eax (ht : t.slot = m.fileTracker) (hbuf : BufferOk m false buffer size) :
    Result.eax t (callWrite m fd buffer size).out = (FileCall.callWrite t fd size).out.map Prod.fst := by
  unfold callWrite FileCall.callWrite
  split_ifs
  · rw [out_bind_ok (touchRange_of_bufferOk hbuf (by omega))]
    rfl
  · rfl
  · rw [out_bind_ok (getFileFromFd_eq ht)]
    cases getFileFromFd m fd with
    | none => rfl
    | some file =>
      have hle := transfer_le file size
      rw [out_bind_ok (touchRange_of_bufferOk hbuf (by split <;> omega))]
      rfl

/-- A word that passes the check and can be read. -/
structure ArgOk (m : Machine) (a : Addr) : Prop where
  /-- Its first byte passes the check. -/
  first : m.ptrOk a = true
  /-- All its bytes are there. -/
  word : m.wordOk a = true

/-- **The handler comes to the calls on files**, when the words and the buffer of the process can be
accessed. -/
theorem handler_runs {esp : Addr} {nr : SyscallNr} {c : FileCall} (ht : t.slot = m.fileTracker)
    (hesp : m.ptrOk esp = true) (hw : m.wordOk esp = true) (hnr : SyscallNr.ofWord (m.wordAt esp) = some nr)
    (hargs : ∀ k ∈ nr.args, m.wordOk (esp + k) = true) (hc : FileCall.ofStack m esp nr = some c)
    (hread : nr = .sysRead → m.wordAt (esp + 12#32) ≠ 0#32 →
      BufferOk m true (m.wordAt (esp + 8#32)) (m.wordAt (esp + 12#32)))
    (hwrite : nr = .sysWrite → m.wordAt (esp + 12#32) ≠ 0#32 →
      BufferOk m false (m.wordAt (esp + 8#32)) (m.wordAt (esp + 12#32))) :
    Result.eax t (syscallHandler m esp).out = (c.run t).out.map Prod.fst := by
  have hout : (syscallHandler m esp).out = (dispatch m esp (some nr)).out := by
    rw [syscallHandler, check_bind_out, hesp, if_pos rfl, word_bind_out hw, hnr]
  have harg : ∀ k : ℕ, 0 < k → k < 16 → BitVec.ofNat 32 k ∈ nr.args → ArgOk m (esp + BitVec.ofNat 32 k) := by
    intro k h0 hk hmem
    exact ⟨ptrOk_of_wordOk hesp h0 hk (hargs _ hmem), hargs _ hmem⟩
  have h4 := harg 4 (by decide) (by decide)
  have h8 := harg 8 (by decide) (by decide)
  have h12 := harg 12 (by decide) (by decide)
  rw [hout]
  cases nr <;> cases hc
  case sysFilesize | sysTell =>
    have h4 := h4 (by decide)
    simp only [dispatch, sysFilesize, sysTell, oneWord, check_bind_out, h4.first, if_true, word_bind_out h4.word]
    rfl
  case sysSeek =>
    have h4 := h4 (by decide)
    have h8 := h8 (by decide)
    simp only [dispatch, sysSeek, and_bind, check_bind_out, h4.first, h8.first, if_true, word_bind_out h4.word,
      word_bind_out h8.word]
    rfl
  case sysRead =>
    have h4 := h4 (by decide)
    have h8 := h8 (by decide)
    have h12 := h12 (by decide)
    simp only [dispatch, sysRead, and_bind, check_bind_out, h4.first, h8.first, h12.first, if_true,
      word_bind_out h4.word, word_bind_out h8.word, word_bind_out h12.word]
    exact callRead_eax ht (hread rfl)
  case sysWrite =>
    have h4 := h4 (by decide)
    have h8 := h8 (by decide)
    have h12 := h12 (by decide)
    simp only [dispatch, sysWrite, FileCall.run, and_bind, Trace.bind_assoc, check_bind_out, h4.first, h12.first, if_true,
      word_bind_out h12.word]
    by_cases hsize : m.wordAt (esp + 12#32) = 0#32
    · rw [if_neg (not_not.mpr hsize), if_pos hsize]
      rfl
    · have hbuf := hwrite rfl hsize
      simp only [if_pos hsize, if_neg hsize, check_bind_out, h8.first, if_true, word_bind_out h8.word, hbuf.first,
        buf_bind_out hsize, word_bind_out h4.word, word_bind_out h12.word]
      exact callWrite_eax ht hbuf
  case sysClose =>
    have h4 := h4 (by decide)
    simp only [dispatch, callClose, FileCall.run, and_bind, Trace.bind_assoc, Trace.pure_bind, check_bind_out, h4.first,
      if_true, word_bind_out h4.word]
    by_cases h0 : m.wordAt (esp + 4#32) = 0#32
    · simp [h0]
      rfl
    · by_cases h1 : m.wordAt (esp + 4#32) = 1#32
      · simp [h1, word_bind_out h4.word]
        rfl
      · simp [h0, h1, word_bind_out h4.word]
        rfl

end Handler

/-- `SYS_TELL` of descriptor 2, whose file is at position 5. -/
theorem handler_runs_tell : Result.eax ⟨1, fun _ => some ⟨9, 5, false⟩⟩
    (syscallHandler ⟨onePage, stackOf 11#32 2#32 0#32 0#32,
      fun _ => some ⟨9, 5, false⟩⟩ 0x08048000#32).out = .ok (some 5) :=
  (handler_runs rfl (by decide) (by decide) (by decide : _ = some .sysTell)
    (fun k hk => by rw [List.mem_singleton.mp hk]; decide) rfl nofun nofun).trans rfl

/-! ### What can go wrong -/

/-- An access inside the array, or a call of a function of `file.c` that does not panic. -/
def FileEvent.Safe {F : Type} : FileEvent F → Prop
  | .slot i => 0 ≤ i ∧ i < LEN_FILE_LIST
  | .fileClose _ => True
  | .fileLength file => file ≠ none
  | .fileRead file _ => file ≠ none
  | .fileWrite file _ => file ≠ none
  | .fileSeek file newPos => file ≠ none ∧ 0 ≤ newPos
  | .fileTell file => file ≠ none

/-- A system call that comes to its end, and does nothing wrong on the way. -/
def FileSys.Fine {α : Type} (x : FileSys α) : Prop := x.Logs FileEvent.Safe ∧ x.out ≠ .error .panic

section Rules

variable {α β : Type} {x : FileSys α} {f : α → FileSys β}

theorem fine_pure (a : α) : FileSys.Fine (pure a) := ⟨logs_pure a, by simp⟩

theorem fine_exit (v : ℤ) : FileSys.Fine (stop (.exit v) : FileSys α) := ⟨Trace.logs_stop _, by simp⟩

theorem fine_emit {e : FileEvent File} {f : Unit → FileSys β} :
    FileSys.Fine (emit e >>= f) ↔ e.Safe ∧ FileSys.Fine (f ()) := by
  unfold FileSys.Fine
  rw [logs_emit_bind, and_assoc]
  exact Iff.rfl

theorem fine_bind {a : α} (h : x.out = .ok a) : FileSys.Fine (x >>= f) ↔ x.Logs FileEvent.Safe ∧ FileSys.Fine (f a) := by
  unfold FileSys.Fine
  rw [Trace.logs_bind, h, out_bind_ok h, and_assoc]
  simp

theorem fine_bind_pure {g : α → β} : FileSys.Fine (x >>= fun a => pure (g a)) ↔ FileSys.Fine x := by
  unfold FileSys.Fine
  rw [Trace.logs_bind_pure]
  apply and_congr_right
  cases hx : x.out with
  | ok a => simp [out_bind_ok hx]
  | error e => simp [Trace.out_bind_error hx]

variable {file : Option File} {size newPos : ℤ}

theorem fileLength_fine : FileSys.Fine (fileLength file) ↔ file ≠ none := by
  unfold fileLength
  rw [fine_emit]
  cases file <;> simp [FileEvent.Safe, fine_pure]

theorem fileTell_fine : FileSys.Fine (fileTell file) ↔ file ≠ none := by
  unfold fileTell
  rw [fine_emit]
  cases file <;> simp [FileEvent.Safe, fine_pure]

theorem fileSeek_fine : FileSys.Fine (fileSeek file newPos) ↔ file ≠ none ∧ 0 ≤ newPos := by
  unfold fileSeek
  rw [fine_emit]
  cases file <;> simp +contextual [FileEvent.Safe, fine_pure]

theorem fileRead_fine (file : File) : FileSys.Fine (fileRead (some file) size) :=
  fine_emit.mpr ⟨Option.some_ne_none file, fine_pure _⟩

theorem fileWrite_fine (file : File) : FileSys.Fine (fileWrite (some file) size) :=
  fine_emit.mpr ⟨Option.some_ne_none file, fine_pure _⟩

end Rules

/-! ### Looking up a descriptor -/

section Lookup

variable {χ : Type} {t : Tracker File} {fd : ℤ}

theorem slot_safe {F : Type} : (FileEvent.slot (fd - 2) : FileEvent F).Safe ↔ 2 ≤ fd ∧ fd - 2 < LEN_FILE_LIST := by
  rw [FileEvent.Safe]
  omega

/-- The descriptors that are looked up inside the array. -/
theorem getFileFromFd_safe :
    (t.getFileFromFd (χ := χ) fd).Logs FileEvent.Safe ↔ 2 ≤ fd ∧ fd ≠ LEN_FILE_LIST + 2 := by
  unfold Tracker.getFileFromFd
  split_ifs with hbig
  · have hlen : LEN_FILE_LIST = 130 := rfl
    exact iff_of_true (logs_pure _) (by omega)
  · rw [logs_emit_bind, slot_safe]
    refine ⟨fun h => by omega, fun h => ⟨by omega, ?_⟩⟩
    cases t.slot (fd - 2) with
    | none => exact logs_pure _
    | some file => exact logs_emit_bind.mpr ⟨slot_safe.mpr (by omega), logs_pure _⟩

variable {β : Type}

theorem fine_getFileFromFd {f : Option File → FileSys β} :
    FileSys.Fine (t.getFileFromFd fd >>= f) ↔ (2 ≤ fd ∧ fd ≠ LEN_FILE_LIST + 2) ∧ FileSys.Fine (f (t.lookup fd)) := by
  rw [fine_bind getFileFromFd_out_eq, getFileFromFd_safe]

/-- Inside the array a descriptor is looked up as it is bound. -/
theorem lookup_eq_binding (h : 2 ≤ fd ∧ fd ≠ LEN_FILE_LIST + 2) : t.lookup fd = t.binding fd := by
  unfold Tracker.lookup Tracker.binding
  by_cases hbig : LEN_FILE_LIST < fd - 2
  · rw [if_pos hbig, if_neg (by omega)]
  · rw [if_neg hbig, if_pos (by omega)]

theorem range_of_binding_ne_none (h : t.binding fd ≠ none) : 2 ≤ fd ∧ fd ≠ LEN_FILE_LIST + 2 := by
  have hrange := Tracker.range_of_binding (Option.isSome_iff_ne_none.mpr h)
  omega

theorem fine_needs_file {f : Option File → FileSys β} {P : Prop}
    (hf : ∀ file, FileSys.Fine (f file) ↔ file ≠ none ∧ P) :
    FileSys.Fine (t.getFileFromFd fd >>= f) ↔ t.binding fd ≠ none ∧ P := by
  rw [fine_getFileFromFd, hf]
  constructor
  · rintro ⟨hfd, hfile, hP⟩
    rw [lookup_eq_binding hfd] at hfile
    exact ⟨hfile, hP⟩
  · rintro ⟨hfile, hP⟩
    have hfd := range_of_binding_ne_none hfile
    rw [lookup_eq_binding hfd]
    exact ⟨hfd, hfile, hP⟩

theorem fine_or_exits {f : Option File → FileSys β} (hfine : ∀ file, FileSys.Fine (f file)) :
    FileSys.Fine (t.getFileFromFd fd >>= f) ↔ 2 ≤ fd ∧ fd ≠ LEN_FILE_LIST + 2 := by
  rw [fine_getFileFromFd]
  exact and_iff_left (hfine _)

end Lookup

namespace FileCall

variable {t : Tracker File} {fd : ℤ}

theorem callFilesize_fine : FileSys.Fine (callFilesize t fd) ↔ t.binding fd ≠ none := by
  rw [callFilesize, fine_needs_file (P := True), and_true]
  intro file
  rw [fine_bind_pure, fileLength_fine, and_true]

theorem callTell_fine : FileSys.Fine (callTell t fd) ↔ t.binding fd ≠ none := by
  rw [callTell, fine_needs_file (P := True), and_true]
  intro file
  rw [fine_bind_pure, fileTell_fine, and_true]

theorem callSeek_fine {position : BitVec 32} :
    FileSys.Fine (callSeek t fd position) ↔ t.binding fd ≠ none ∧ 0 ≤ position.toInt := by
  rw [callSeek, fine_needs_file]
  intro file
  rw [fine_bind_pure, fileSeek_fine]

theorem callRead_fine {size : BitVec 32} :
    FileSys.Fine (callRead t fd size) ↔ size = 0#32 ∨ 0 ≤ fd ∧ fd ≠ LEN_FILE_LIST + 2 := by
  have hlen : LEN_FILE_LIST = 130 := rfl
  unfold callRead
  split_ifs with hsize h0 h1
  · exact iff_of_true (fine_pure _) (.inl hsize)
  · exact iff_of_true (fine_pure _) (by omega)
  · exact iff_of_true (fine_pure _) (by omega)
  · rw [or_iff_right hsize, fine_or_exits]
    · omega
    · rintro (_ | file)
      · exact fine_exit _
      · exact fine_bind_pure.mpr (fileRead_fine file)

theorem callWrite_fine {size : BitVec 32} : FileSys.Fine (callWrite t fd size) ↔ 0 ≤ fd ∧ fd ≠ LEN_FILE_LIST + 2 := by
  have hlen : LEN_FILE_LIST = 130 := rfl
  unfold callWrite
  split_ifs with h1 h0
  · exact iff_of_true (fine_pure _) (by omega)
  · exact iff_of_true (fine_exit _) (by omega)
  · rw [fine_or_exits]
    · omega
    · rintro (_ | file)
      · exact fine_exit _
      · exact fine_bind_pure.mpr (fileWrite_fine file)

theorem callClose_fine : FileSys.Fine (callClose t fd) ↔ 2 ≤ fd ∧ fd ≠ LEN_FILE_LIST + 2 := by
  have hlen : LEN_FILE_LIST = 130 := rfl
  rw [callClose, fine_bind_pure, Tracker.closeFileFromFd]
  split_ifs with hbig
  · exact iff_of_true (fine_pure _) (by omega)
  · rw [fine_emit, fine_emit, fine_emit, slot_safe]
    exact ⟨fun h => by omega, fun h => ⟨by omega, trivial, by omega, fine_pure _⟩⟩

/-- The arguments with which a call does nothing wrong: the calls that need a file have an open
descriptor, a position is not negative, and a descriptor is not negative and not that of the word
behind the array. -/
def Accepted (t : Tracker File) : FileCall → Prop
  | .filesize fd => t.binding fd.toInt ≠ none
  | .read fd size => size = 0#32 ∨ 0 ≤ fd.toInt ∧ fd.toInt ≠ LEN_FILE_LIST + 2
  | .write fd size => size = 0#32 ∨ 0 ≤ fd.toInt ∧ fd.toInt ≠ LEN_FILE_LIST + 2
  | .seek fd position => t.binding fd.toInt ≠ none ∧ 0 ≤ position.toInt
  | .tell fd => t.binding fd.toInt ≠ none
  | .close fd => 0 ≤ fd.toInt ∧ fd.toInt ≠ LEN_FILE_LIST + 2

/-- **A system call on files does nothing wrong exactly if its arguments are accepted**: it accesses
`file_tracker` inside the array, calls no function of `file.c` without a file or with a negative
position, and does not panic. -/
theorem file_calls_safe_iff (t : Tracker File) (c : FileCall) :
    ((run t c).Logs FileEvent.Safe ∧ (run t c).out ≠ .error .panic) ↔ c.Accepted t := by
  show FileSys.Fine (run t c) ↔ _
  cases c with
  | filesize fd => exact callFilesize_fine
  | read fd size => exact callRead_fine
  | write fd size =>
    unfold run Accepted
    by_cases hsize : size = 0#32
    · simp only [if_pos hsize]
      exact iff_of_true (fine_pure _) (.inl hsize)
    · simp only [if_neg hsize]
      rw [callWrite_fine, or_iff_right hsize]
  | seek fd position => exact callSeek_fine
  | tell fd => exact callTell_fine
  | close fd =>
    unfold run Accepted
    have hlen : LEN_FILE_LIST = 130 := rfl
    have h0 : fd = 0#32 ↔ fd.toInt = 0 := by rw [← BitVec.toInt_inj]; rfl
    have h1 : fd = 1#32 ↔ fd.toInt = 1 := by rw [← BitVec.toInt_inj]; rfl
    by_cases hfd : fd ≠ 0#32 ∧ fd ≠ 1#32
    · simp only [if_pos hfd]
      rw [callClose_fine]
      rw [Ne, Ne, h0, h1] at hfd
      omega
    · simp only [if_neg hfd]
      rw [Ne, Ne, h0, h1] at hfd
      exact iff_of_true (fine_exit _) (by omega)

/-- **A process can panic the kernel**: by asking for the length of a file that is not open, by
setting the position of an open file to `2 ^ 31`, and it can make the kernel read in front of the
array. -/
theorem file_calls_panic :
    (run ⟨0, fun _ => none⟩ (.filesize 2#32)).out = .error .panic ∧
    (run ⟨1, fun i => if i = 0 then some ⟨0, 0, false⟩ else none⟩ (.seek 2#32 0x80000000#32)).out = .error .panic ∧
    .slot (-3) ∈ (run ⟨0, fun _ => none⟩ (.read 0xffffffff#32 1#32)).log := by
  exact ⟨rfl, rfl, List.mem_singleton_self _⟩

end FileCall

end Pintos.Userprog
