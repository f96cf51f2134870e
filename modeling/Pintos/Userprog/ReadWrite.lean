import Pintos.Filesys.Counted
import Pintos.Userprog.FileCalls

/-!
# Reading and writing through a descriptor

`SYS_READ` and `SYS_WRITE` go from the descriptor to `file_read` and `file_write`, and from
there to the bytes of the file on the disk. `call_read` returns what `file_read` returns.
`call_write` drops what `file_write` returns and returns the size it was asked for.

## The model

The calls have a buffer that can be accessed, and any contents of it. The file is open: its
inode is in memory, and its sectors are on the disk. `malloc` returns anything for the
bounce buffer of the inode. What is left in `eax` is a word, which the process takes for an
`int`; a call that ends the process returns nothing.

## What is proved

* `call_read` returns the number of bytes it reads, and the position advances by it
  (`read_returns`).
* `call_write` returns the number of bytes it writes, and the position advances by what it
  returns, exactly if writes are not denied, all the bytes are in the file, and there is a
  bounce buffer or none is needed (**`write_returns_iff`**).
* With a bounce buffer both do what `FileCall` says, where files have no bytes
  (`callRead_view`, `callWrite_view`).
-/

namespace Pintos.Userprog.ReadWrite

open Filesys (Fs FsM Inode contents overwrite flatCount inodeReadAt inodeWriteAt)
open Memory

/-! ### The calls -/

/-- `call_read`, of a buffer that can be written: `eax`, the buffer and the table; `keys` is what
`input_getc` returns. -/
def callRead (t : Tracker Filesys.File) (fd : ℤ) (keys buffer : Bytes) (size : BitVec 32) :
    FsM (Option (BitVec 32 × Bytes × Tracker Filesys.File)) :=
  if size = 0#32 then return some (0#32, buffer, t)
  else if fd = 0 then return some (size, copy buffer 0 keys 0 size.toInt.toNat, t)
  else if fd = 1 then return some (BitVec.ofInt 32 (-1), buffer, t)
  else
    match (t.getFileFromFd (χ := Empty) fd).value with
    | none => return none
    | some file => do
      let (bytesRead, buffer, file) ← Filesys.fileRead file buffer size.toInt
      return some (BitVec.ofInt 32 bytesRead, buffer, t.setFile fd file)

/-- `call_write`, of a buffer that can be read: `eax` and the table. -/
def callWrite (t : Tracker Filesys.File) (fd : ℤ) (buffer : Bytes) (size : BitVec 32) :
    FsM (Option (BitVec 32 × Tracker Filesys.File)) :=
  if fd = 1 then return some (size, t)
  else if fd = 0 then return none
  else
    match (t.getFileFromFd (χ := Empty) fd).value with
    | none => return none
    | some file => do
      let sizeBuffer := size.toInt
      let (_, file) ← Filesys.fileWrite file buffer sizeBuffer
      return some (BitVec.ofInt 32 sizeBuffer, t.setFile fd file)

/-! ### The functions of the file -/

/-- All bytes of a write are stored: writes are not denied, the bytes are in the file, and there is
a bounce buffer or the bytes are those of whole sectors. -/
def Whole (fs : Fs) (i : Inode) (pos size : ℤ) : Prop :=
  i.denyWriteCnt = 0 ∧ pos + size ≤ i.data.length ∧ (fs.mem 0 ≠ none ∨ 512 ∣ pos ∧ 512 ∣ size)

/-- `n` bytes of the buffer are stored at the position of the file, and nothing else of the disk has
changed. -/
structure Stored (fs : Fs) (i : Inode) (pos : ℤ) (buffer : Bytes) (n : ℕ) (fs' : Fs) : Prop where
  file : contents fs'.disk i.data = overwrite (contents fs.disk i.data) buffer pos.toNat n
  /-- The rest of the disk. -/
  rest : ∀ a, a < 512 * i.data.start + pos.toNat ∨ 512 * i.data.start + pos.toNat + n ≤ a →
    fs'.disk.bytes a = fs.disk.bytes a

theorem stored_none (fs fs' : Fs) (i : Inode) (pos : ℤ) (buffer : Bytes) (hdisk : fs'.disk = fs.disk) :
    Stored fs i pos buffer 0 fs' := by
  refine ⟨?_, fun a _ => by rw [hdisk]⟩
  rw [hdisk]
  funext k
  exact (if_neg (by omega)).symm

section File

variable {fs : Fs} {file : Filesys.File} {i : Inode} (hi : fs.inodes file.inode = .live i)
  (hholds : fs.disk.Holds i.data) (hpos : 0 ≤ file.pos)
include hi hholds hpos

/-- **`file_write`** stores the first bytes of the buffer at the position, which it advances by
their number. It stores all of them exactly if that is possible. -/
theorem fileWrite_stored (buffer : Bytes) (size : ℤ) : ∃ (n : ℕ) (fs' : Fs),
    Filesys.fileWrite file buffer size fs = .ok (((n : ℤ), { file with pos := file.pos + n }), fs') ∧
      Stored fs i file.pos buffer n fs' ∧ (0 < size → (n = size ↔ Whole fs i file.pos size)) ∧
      (fs.mem 0 ≠ none → n = if i.denyWriteCnt ≠ 0 then 0 else flatCount i.data.length.toNat size.toNat file.pos.toNat) := by
  have hrun : ∀ {r : ℤ × Filesys.Disk}, inodeWriteAt fs.disk i (fs.mem 0) buffer size file.pos = .ok r →
      Filesys.fileWrite file buffer size fs =
        .ok ((r.1, { file with pos := file.pos + r.1 }), { fs.shift with disk := r.2 }) := fun hwrite =>
    Program.bind_run_ok (Filesys.writeAt_run hi hwrite)
  by_cases hdeny : i.denyWriteCnt = 0
  case neg =>
    refine ⟨0, _, hrun (if_pos hdeny), stored_none _ _ _ _ _ rfl, fun hsize => ?_, fun _ => (if_pos hdeny).symm⟩
    exact iff_of_false (by omega) fun hwhole => hdeny hwhole.1
  obtain hsize | hsize := Int.lt_or_le 0 size
  case inr =>
    have hwrite : inodeWriteAt fs.disk i (fs.mem 0) buffer size file.pos = .ok (0, fs.disk) := by
      unfold inodeWriteAt
      rw [if_neg (not_not.mpr hdeny), Filesys.transferLoop, dif_neg (by omega)]
      rfl
    refine ⟨0, _, hrun hwrite, stored_none _ _ _ _ _ rfl, fun h => by omega, fun _ => ?_⟩
    unfold flatCount
    split_ifs <;> omega
  obtain ⟨a, pos, flag⟩ := file
  lift pos to ℕ using hpos
  lift size to ℕ using hsize.le
  obtain ⟨n, ⟨hn, hall, -⟩, hwrite⟩ := Filesys.inodeWriteAt_eq hholds (fs.mem 0) buffer size pos hdeny
  have hiff := Filesys.inodeWriteAt_all_iff buffer hholds hdeny (Int.natCast_pos.mp hsize) hwrite
  refine ⟨n, _, hrun hwrite, ⟨Filesys.contents_copy fs.disk i.data buffer pos n, fun _ ha => copy_of_notMem ha⟩,
    fun _ => hiff.trans ?_, fun hmem => (hall hmem).trans (if_neg (not_not.mpr hdeny)).symm⟩
  have hle : pos + size ≤ i.data.length.toNat ↔ (pos + size : ℤ) ≤ i.data.length := by omega
  have hdvd : 512 ∣ pos ∧ 512 ∣ size ↔ (512 : ℤ) ∣ pos ∧ (512 : ℤ) ∣ size := by omega
  rw [hle, hdvd]
  exact (and_iff_right hdeny).symm

theorem fileRead_copied (buffer : Bytes) (size : ℤ) : ∃ n : ℕ, (n : ℤ) ≤ i.data.length ∧
    (fs.mem 0 ≠ none → n = flatCount i.data.length.toNat size.toNat file.pos.toNat) ∧
    Filesys.fileRead file buffer size fs = .ok (((n : ℤ),
      copy buffer 0 fs.disk.bytes (512 * i.data.start + file.pos.toNat) n,
      { file with pos := file.pos + n }), fs.shift) := by
  have hrun : ∀ {r : ℤ × Bytes}, inodeReadAt fs.disk i (fs.mem 0) buffer size file.pos = .ok r →
      Filesys.fileRead file buffer size fs = .ok ((r.1, r.2, { file with pos := file.pos + r.1 }), fs.shift) := fun hread =>
    Program.bind_run_ok (Filesys.readAt_run hi hread)
  have hlen := hholds.length_nonneg
  obtain hsize | hsize := Int.lt_or_le 0 size
  case inr =>
    have hread : inodeReadAt fs.disk i (fs.mem 0) buffer size file.pos = .ok (0, buffer) := by
      unfold inodeReadAt
      rw [Filesys.transferLoop, dif_neg (by omega)]
      rfl
    refine ⟨0, hlen, fun _ => ?_, hrun hread⟩
    unfold flatCount
    omega
  obtain ⟨a, pos, flag⟩ := file
  lift pos to ℕ using hpos
  lift size to ℕ using hsize.le
  obtain ⟨n, ⟨hn, hall, -⟩, hread⟩ := Filesys.inodeReadAt_eq hholds (fs.mem 0) buffer size pos
  refine ⟨n, ?_, hall, hrun hread⟩
  unfold flatCount at hn
  omega

end File

/-! ### What the calls return -/

section Calls

variable {fs : Fs} {t : Tracker Filesys.File} {fd : ℤ} {file : Filesys.File} {i : Inode} (hfd : fd ≠ 0 ∧ fd ≠ 1)
  (hfile : (t.getFileFromFd (χ := Empty) fd).value = some file) (hi : fs.inodes file.inode = .live i)
  (hholds : fs.disk.Holds i.data) (hlen : i.data.length < 2 ^ 31) (hpos : 0 ≤ file.pos) {size : BitVec 32}
  (hsize : size ≠ 0#32)
include hfd hfile hi hholds hlen hpos hsize

omit hi hholds hlen hpos hsize in
theorem callWrite_run {buffer : Bytes} {r : ℤ × Filesys.File} {fs' : Fs}
    (hwrite : Filesys.fileWrite file buffer size.toInt fs = .ok (r, fs')) :
    callWrite t fd buffer size fs = .ok (some (BitVec.ofInt 32 size.toInt, t.setFile fd r.2), fs') := by
  unfold callWrite
  rw [if_neg hfd.2, if_neg hfd.1, hfile]
  exact Program.bind_run_ok hwrite

theorem callRead_run (keys buffer : Bytes) : ∃ n : ℕ,
    (fs.mem 0 ≠ none → n = flatCount i.data.length.toNat size.toInt.toNat file.pos.toNat) ∧
      (BitVec.ofInt 32 n).toInt = n ∧ callRead t fd keys buffer size fs = .ok (some (BitVec.ofInt 32 n,
        copy buffer 0 fs.disk.bytes (512 * i.data.start + file.pos.toNat) n,
        t.setFile fd { file with pos := file.pos + n }), fs.shift) := by
  obtain ⟨n, hn, hall, hread⟩ := fileRead_copied hi hholds hpos buffer size.toInt
  refine ⟨n, hall, ?_, ?_⟩
  · rw [BitVec.toInt_ofInt]
    exact Int.bmod_eq_of_le (by omega) (by omega)
  · unfold callRead
    rw [if_neg hsize, if_neg hfd.1, if_neg hfd.2, hfile]
    exact Program.bind_run_ok hread

/-- **`SYS_READ` returns the number of bytes it reads**, and the position advances by it. With a
bounce buffer these are as many as the size and the file allow. -/
theorem read_returns (keys buffer : Bytes) : ∃ (n : ℕ) (eax : BitVec 32) (buffer' : Bytes),
    callRead t fd keys buffer size fs = .ok (some (eax, buffer',
    t.setFile fd { file with pos := file.pos + n }), fs.shift) ∧
      buffer' = copy buffer 0 fs.disk.bytes (512 * i.data.start + file.pos.toNat) n ∧ eax.toInt = n ∧
      (fs.mem 0 ≠ none → n = flatCount i.data.length.toNat size.toInt.toNat file.pos.toNat) := by
  obtain ⟨n, hall, heax, hrun⟩ := callRead_run hfd hfile hi hholds hlen hpos hsize keys buffer
  exact ⟨n, _, _, hrun, rfl, heax, hall⟩

/-- **`SYS_WRITE` returns the number of bytes it stores, and the position advances by what it
returns**, exactly if all bytes can be stored. What it returns is the size that it was given. -/
theorem write_returns_iff (buffer : Bytes) : ∃ (n : ℕ) (fs' : Fs) (eax : BitVec 32) (file' : Filesys.File),
    Filesys.fileWrite file buffer size.toInt fs = .ok (((n : ℤ), file'), fs') ∧ Stored fs i file.pos buffer n fs' ∧
      callWrite t fd buffer size fs = .ok (some (eax, t.setFile fd file'), fs') ∧
      (eax.toInt = n ∧ file'.pos = file.pos + eax.toInt ↔ Whole fs i file.pos size.toNat) := by
  obtain ⟨n, fs', hwrite, hstored, hall, -⟩ := fileWrite_stored hi hholds hpos buffer size.toInt
  refine ⟨n, fs', BitVec.ofInt 32 size.toInt, _, hwrite, hstored, callWrite_run hfd hfile hwrite, ?_⟩
  rw [BitVec.ofInt_toInt]
  have hcond := BitVec.toInt_eq_toNat_cond size
  have hne : size.toNat ≠ 0 := fun h => hsize (BitVec.eq_of_toNat_eq h)
  by_cases hsmall : 2 * size.toNat < 2 ^ 32
  · rw [if_pos hsmall] at hcond
    rw [hcond] at hall ⊢
    rw [← hall (by omega)]
    dsimp only
    omega
  · -- as an `off_t` the size is negative
    refine iff_of_false (fun h => ?_) fun hwhole => ?_
    · omega
    · have := hwhole.2.1
      omega

section View

/-- An open file without its bytes. -/
def view (i : Inode) (file : Filesys.File) : File := ⟨i.data.length, file.pos, i.denyWriteCnt ≠ 0⟩

variable {u : Tracker File} (hu : u.lookup fd = some (view i file)) (hmem : fs.mem 0 ≠ none) (buffer : Bytes)
include hu hmem

theorem callRead_view (keys : Bytes) : ∃ eax buffer' file',
    callRead t fd keys buffer size fs = .ok (some (eax, buffer', t.setFile fd file'), fs.shift) ∧
      (FileCall.callRead u fd size).out = .ok (some eax.toInt, u.setFile fd (view i file')) := by
  obtain ⟨n, hall, heax, hrun⟩ := callRead_run hfd hfile hi hholds hlen hpos hsize keys buffer
  refine ⟨_, _, _, hrun, ?_⟩
  have hn : (view i file).transfer size.toInt = n := by
    rw [hall hmem]
    unfold view File.transfer flatCount
    dsimp only
    omega
  unfold FileCall.callRead
  rw [if_neg hsize, if_neg hfd.1, if_neg hfd.2, Trace.out_bind_ok getFileFromFd_out_eq, hu, heax, ← hn]
  rfl

omit hlen hsize in
theorem callWrite_view : ∃ eax file' fs', callWrite t fd buffer size fs = .ok (some (eax, t.setFile fd file'), fs') ∧
    (FileCall.callWrite u fd size).out = .ok (some eax.toInt, u.setFile fd (view i file')) := by
  obtain ⟨n, fs', hwrite, -, -, hall⟩ := fileWrite_stored hi hholds hpos buffer size.toInt
  refine ⟨_, _, _, callWrite_run hfd hfile hwrite, ?_⟩
  have hn : (if (view i file).denyWrite then 0 else (view i file).transfer size.toInt) = n := by
    rw [hall hmem]
    simp only [view, File.transfer, flatCount, decide_eq_true_eq]
    split_ifs <;> omega
  unfold FileCall.callWrite
  rw [if_neg hfd.2, if_neg hfd.1, Trace.out_bind_ok getFileFromFd_out_eq, hu, BitVec.ofInt_toInt, ← hn]
  rfl

end View

end Calls

/-- A file of 10 bytes in the second sector of a disk. -/
def tenBytes : Fs :=
  { disk := ⟨2, fun _ => 0⟩, freeMap := ⟨0, fun _ => 0, by decide⟩, freeMapFile := none,
    inodes := fun _ => .live ⟨0, 1, false, ⟨1, 10⟩, 0⟩, openInodes := [0], next := 1, mem := fun _ => some fun _ => 0,
    stack := fun _ => 0, log := [] }

theorem tenBytes_holds : tenBytes.disk.Holds ⟨1, 10⟩ := by
  refine ⟨by decide, fun k hk => ?_⟩
  obtain rfl : k = 0 := Nat.lt_one_iff.mp hk
  decide

/-- It is open as descriptor 2. -/
def tenOpen (pos : ℤ) : Tracker Filesys.File := { availInd := 1, slot := fun _ => some ⟨0, pos, false⟩ }

/-- Four bytes are asked for, and the two that are left are read. -/
theorem read_returns_end : ∃ (eax : BitVec 32) (buffer' : Bytes) (t' : Tracker Filesys.File),
    callRead (tenOpen 8) 2 (fun _ => 0) (fun _ => 7) 4#32 tenBytes = .ok (some (eax, buffer', t'), tenBytes.shift) ∧
      eax.toInt = 2 := by
  have hfile : ((tenOpen 8).getFileFromFd (χ := Empty) 2).value = some ⟨0, 8, false⟩ := rfl
  have hlive : tenBytes.inodes (⟨0, 8, false⟩ : Filesys.File).inode = .live ⟨0, 1, false, ⟨1, 10⟩, 0⟩ := rfl
  obtain ⟨n, eax, buffer', hrun, -, heax, hn⟩ := read_returns (by decide) hfile hlive tenBytes_holds (by decide) (by decide)
    (by decide : 4#32 ≠ 0#32) (fun _ => 0) fun _ => 7
  obtain rfl : n = 2 := (hn (Option.some_ne_none _)).trans (by decide)
  exact ⟨eax, buffer', _, hrun, heax⟩

/-- Four bytes are written to the first half of the file. -/
theorem write_returns_iff_half : ∃ (fs' : Fs) (eax : BitVec 32) (t' : Tracker Filesys.File),
    callWrite (tenOpen 0) 2 (fun _ => 7) 4#32 tenBytes = .ok (some (eax, t'), fs') ∧ eax.toInt = 4 ∧
      Stored tenBytes ⟨0, 1, false, ⟨1, 10⟩, 0⟩ 0 (fun _ => 7) 4 fs' := by
  have hfile : ((tenOpen 0).getFileFromFd (χ := Empty) 2).value = some ⟨0, 0, false⟩ := rfl
  have hlive : tenBytes.inodes (⟨0, 0, false⟩ : Filesys.File).inode = .live ⟨0, 1, false, ⟨1, 10⟩, 0⟩ := rfl
  have hsize : 4#32 ≠ 0#32 := by decide
  obtain ⟨n, fs', eax, file', hwrite, hstored, hcall, hiff⟩ := write_returns_iff (by decide) hfile hlive tenBytes_holds
    (by decide) le_rfl hsize fun _ => 7
  have heax : eax = 4#32 := by
    have hrun := Except.ok.inj (hcall.symm.trans (Program.bind_run_ok hwrite))
    exact congrArg Prod.fst (Option.some.inj (congrArg Prod.fst hrun))
  obtain ⟨hn, -⟩ := hiff.mpr ⟨rfl, by decide, .inl (Option.some_ne_none _)⟩
  obtain rfl : n = 4 := by
    rw [heax] at hn
    exact Int.ofNat_inj.mp hn.symm
  exact ⟨fs', eax, _, hcall, hn, hstored⟩

/-- **`SYS_WRITE` says that four bytes are written when two are.** The position is 8, and the length
is 10. -/
theorem write_returns_too_much : ∃ (fs' : Fs) (file' : Filesys.File),
    Filesys.fileWrite ⟨0, 8, false⟩ (fun _ => 7) 4 tenBytes = .ok ((2, file'), fs') ∧ file'.pos = 10 ∧
      Stored tenBytes ⟨0, 1, false, ⟨1, 10⟩, 0⟩ 8 (fun _ => 7) 2 fs' ∧
      callWrite (tenOpen 8) 2 (fun _ => 7) 4#32 tenBytes = .ok (some (4#32, (tenOpen 8).setFile 2 file'), fs') := by
  have hlive : tenBytes.inodes (⟨0, 8, false⟩ : Filesys.File).inode = .live ⟨0, 1, false, ⟨1, 10⟩, 0⟩ := rfl
  obtain ⟨n, fs', hwrite, hstored, -, hn⟩ := fileWrite_stored hlive tenBytes_holds (by decide) (fun _ => 7) 4
  obtain rfl : n = 2 := (hn (Option.some_ne_none _)).trans (by decide)
  exact ⟨fs', _, hwrite, rfl, hstored, Program.bind_run_ok hwrite⟩

end Pintos.Userprog.ReadWrite
