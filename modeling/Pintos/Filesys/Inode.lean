import Mathlib.Algebra.Group.Int.Defs
import Pintos.Basis.Memory

/-!
# Inode input and output

A file's bytes lie in consecutive sectors of the disk. `inode_read_at` and
`inode_write_at` (`filesys/inode.c`) go through them sector by sector: a full
sector is transferred directly, a part of one through a bounce buffer.

## The model

The bytes of the disk are one memory, sector `s` at addresses `512 * s` to
`512 * s + 511` (`DISK_SECTOR_SIZE` is 512). An access outside the disk fails an
assertion of `select_sector` (`devices/disk.c`).

`off_t` and `int` are integers, with the division of C, which truncates; sector
numbers are naturals below `2 ^ 32`. The two functions have the same loop around
two different bodies: `transferLoop` is the loop, a recursion whose arguments are
the local variables, and `readChunk` and `writeChunk` are the bodies. A null
`bounce` is `none`; `mem` is what `malloc` returns for it: `none`, or a block with
arbitrary contents.

The semaphores around the loops do nothing when no other thread is about. What
they are for is the subject of `Pintos.Filesys.InodeSync`.
-/

namespace Pintos.Filesys

open Memory

/-- The assertions and panics of the file system, and what breaks the machine. -/
inductive Panic where
  /-- `ASSERT (sec_no < d->capacity)` or `ASSERT (sec_no < (1UL << 28))` of `select_sector`. -/
  | selectSector
  /-- An assertion of `bitmap.c`, or an access outside the words of a bitmap. -/
  | bitmap
  /-- `ASSERT (bitmap_all (free_map, sector, cnt))` of `free_map_release`. -/
  | bitmapAll
  /-- `ASSERT (length >= 0)` of `inode_create`. -/
  | inodeCreate
  /-- `ASSERT (inode->open_cnt != 0)` of `inode_reopen`. -/
  | inodeReopen
  /-- An assertion of `inode_allow_write`. -/
  | inodeAllowWrite
  /-- `PANIC`, with its message. -/
  | halt (message : String)
  /-- An access through a null pointer. -/
  | nullPointer
  /-- An access to an inode that was freed. -/
  | useAfterFree
  /-- A loop that does not end within its bound. -/
  | diverges
  deriving DecidableEq

/-! ### The disk -/

structure Disk where
  /-- The number of sectors. -/
  capacity : ℕ
  /-- The bytes of all sectors, one after the other. -/
  bytes : Bytes

/-- The assertions of `select_sector`. -/
def Disk.Accessible (d : Disk) (secNo : ℕ) : Prop := secNo < d.capacity ∧ secNo < 2 ^ 28

instance (d : Disk) (secNo : ℕ) : Decidable (d.Accessible secNo) := inferInstanceAs (Decidable (_ ∧ _))

/-- Read sector `secNo` to address `a` of `buffer`. -/
def diskRead (d : Disk) (secNo : ℕ) (buffer : Bytes) (a : ℕ) : Except Panic Bytes :=
  if d.Accessible secNo then .ok (copy buffer a d.bytes (512 * secNo) 512) else .error .selectSector

/-- Write sector `secNo` from address `a` of `buffer`. -/
def diskWrite (d : Disk) (secNo : ℕ) (buffer : Bytes) (a : ℕ) : Except Panic Disk :=
  if d.Accessible secNo then .ok { d with bytes := copy d.bytes (512 * secNo) buffer a 512 }
  else .error .selectSector

section

variable {d : Disk} {secNo : ℕ} (h : d.Accessible secNo) (buffer : Bytes) (a : ℕ)
include h buffer a

theorem diskRead_eq :
    diskRead d secNo buffer a = .ok (copy buffer a d.bytes (512 * secNo) 512) := if_pos h

theorem diskWrite_eq :
    diskWrite d secNo buffer a = .ok { d with bytes := copy d.bytes (512 * secNo) buffer a 512 } := if_pos h

end

/-! ### Inodes -/

/-- `struct inode_disk`: what an inode says about its data. -/
structure InodeDisk where
  /-- The first data sector. -/
  start : ℕ
  /-- The size of the file in bytes. -/
  length : ℤ
  deriving DecidableEq

/-- `struct inode`: an open inode in memory. -/
structure Inode where
  /-- The sector of the inode itself. -/
  sector : ℕ
  /-- The number of openers. -/
  openCnt : ℤ
  /-- The file is deleted when its last opener closes it. -/
  removed : Bool
  /-- What was read from the inode's sector. -/
  data : InodeDisk
  /-- The number of openers that deny writes. -/
  denyWriteCnt : ℤ
  deriving DecidableEq

/-- The sector that holds the byte at `pos`, in the arithmetic of `uint32_t`. -/
def byteToSector (data : InodeDisk) (pos : ℤ) : ℕ :=
  if pos < data.length then ((data.start + pos.tdiv 512) % 2 ^ 32).toNat else 2 ^ 32 - 1

/-- What one passage of a loop works on. -/
structure Chunk where
  sectorIdx : ℕ
  /-- The first byte in the sector. -/
  sectorOfs : ℤ
  /-- The bytes of the sector from there on. -/
  sectorLeft : ℤ
  /-- The number of bytes to transfer. -/
  chunkSize : ℤ
  deriving DecidableEq

/-- The head of both loops. -/
def chunk (data : InodeDisk) (size offset : ℤ) : Chunk :=
  let sectorOfs := offset.tmod 512
  let inodeLeft := data.length - offset
  let sectorLeft := 512 - sectorOfs
  let minLeft := if inodeLeft < sectorLeft then inodeLeft else sectorLeft
  { sectorIdx := byteToSector data offset
    sectorOfs := sectorOfs
    sectorLeft := sectorLeft
    chunkSize := if size < minLeft then size else minLeft }

/-- The loop of `inode_read_at` and `inode_write_at`: `pass` transfers one chunk, from or to
position `done` of the caller's buffer, and is `none` when it breaks off. The result is the number
of bytes transferred. -/
def transferLoop {σ : Type} (data : InodeDisk) (pass : Chunk → ℤ → σ → Except Panic (Option σ)) (s : σ)
    (size offset done : ℤ) : Except Panic (ℤ × σ) :=
  if _hsize : 0 < size then
    let c := chunk data size offset
    if _hchunk : c.chunkSize ≤ 0 then .ok (done, s)
    else
      match pass c done s with
      | .error e => .error e
      | .ok none => .ok (done, s)
      | .ok (some s) => transferLoop data pass s (size - c.chunkSize) (offset + c.chunkSize) (done + c.chunkSize)
  else .ok (done, s)
termination_by size.toNat
decreasing_by
  have hpos : ¬ (chunk data size offset).chunkSize ≤ 0 := _hchunk
  omega

/-! ### Reading -/

/-- Transfer a chunk to the caller's buffer. The variables of the loop are `bounce` and the
buffer. -/
def readChunk (d : Disk) (mem : Option Bytes) (c : Chunk) (bytesRead : ℤ) :
    Option Bytes × Bytes → Except Panic (Option (Option Bytes × Bytes))
  | (bounce, buffer) =>
    if c.sectorOfs = 0 ∧ c.chunkSize = 512 then do
      let buffer ← diskRead d c.sectorIdx buffer bytesRead.toNat
      return some (bounce, buffer)
    else
      match bounce.or mem with
      | none => return none
      | some b => do
        let b ← diskRead d c.sectorIdx b 0
        return some (some b, copy buffer bytesRead.toNat b c.sectorOfs.toNat c.chunkSize.toNat)

/-- `inode_read_at`: the number of bytes read, and the caller's buffer. -/
def inodeReadAt (d : Disk) (inode : Inode) (mem : Option Bytes) (buffer : Bytes) (size offset : ℤ) :
    Except Panic (ℤ × Bytes) := do
  let (bytesRead, _, buffer) ← transferLoop inode.data (readChunk d mem) (none, buffer) size offset 0
  return (bytesRead, buffer)

/-! ### Writing -/

/-- The block that goes to the sector of a chunk, and `bounce`. -/
def writeBlock (d : Disk) (mem : Option Bytes) (buffer : Bytes) (c : Chunk) (bytesWritten : ℤ)
    (bounce : Option Bytes) : Except Panic (Option (Option Bytes × Bytes)) :=
  if c.sectorOfs = 0 ∧ c.chunkSize = 512 then
    return some (bounce, fun i => buffer (bytesWritten.toNat + i))
  else
    match bounce.or mem with
    | none => return none
    | some b => do
      -- The rest of the sector is kept; a sector without a rest starts from zeros.
      let b ← if 0 < c.sectorOfs ∨ c.chunkSize < c.sectorLeft then diskRead d c.sectorIdx b 0
        else pure (fill b 0 0 512)
      let b := copy b c.sectorOfs.toNat buffer bytesWritten.toNat c.chunkSize.toNat
      return some (some b, b)

/-- Transfer a chunk from the caller's buffer. The variables of the loop are `bounce` and the
disk. -/
def writeChunk (mem : Option Bytes) (buffer : Bytes) (c : Chunk) (bytesWritten : ℤ) :
    Option Bytes × Disk → Except Panic (Option (Option Bytes × Disk))
  | (bounce, d) => do
    match ← writeBlock d mem buffer c bytesWritten bounce with
    | none => return none
    | some (bounce, block) => return some (bounce, ← diskWrite d c.sectorIdx block 0)

/-- `inode_write_at`: the number of bytes written, and the disk. -/
def inodeWriteAt (d : Disk) (inode : Inode) (mem : Option Bytes) (buffer : Bytes) (size offset : ℤ) :
    Except Panic (ℤ × Disk) :=
  if inode.denyWriteCnt ≠ 0 then .ok (0, d)
  else do
    let (bytesWritten, _, d) ← transferLoop inode.data (writeChunk mem buffer) (none, d) size offset 0
    return (bytesWritten, d)

end Pintos.Filesys
