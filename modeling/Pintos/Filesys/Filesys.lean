import Pintos.Filesys.Directory
import Pintos.Filesys.InodeTable
import Pintos.Lib.Bitmap

/-!
# The file system

The functions of `filesys/`: the free map, which has a bit for each sector of the disk
and is kept in a file of its own (`free-map.c`), inodes (`inode.c`), open files
(`file.c`), the root directory (`directory.c`), and what the rest of the kernel calls
(`filesys.c`).

## The model

A function is a program on the state `Fs`. Calls come one after the other, so the locks
do nothing and are left out. A failed assertion, a `PANIC` and an access through a bad
pointer stop the program.

* `mem` is what `malloc` and `calloc` return in the future: a block with arbitrary
  contents, or `none`. A call of `inode_read_at` or `inode_write_at` takes the block for
  its bounce buffer from it at the beginning. `stack` is what a local variable holds before
  it is set.
* A `struct inode` has an address; addresses are not used twice, and an inode that was
  freed must not be used. A `struct file` or `struct dir` is a value that its owner has.
* The functions of `directory.c` that go through a directory are in
  `Pintos.Filesys.Directory`; here they are given the functions of `inode.c`.
* `log` records what `free_map_allocate` hands out and `free_map_release` takes back. No
  function looks at it.
-/

namespace Pintos.Filesys

open Function Lib Memory

structure File where
  /-- The file's inode. -/
  inode : ℕ
  /-- The current position. -/
  pos : ℤ
  /-- Has `file_deny_write` been called? -/
  denyWrite : Bool
  deriving DecidableEq

/-- What the free map hands out and takes back. -/
inductive Event where
  /-- `free_map_allocate` returns `cnt` sectors from `sector` on. -/
  | allocate (sector cnt : ℕ)
  /-- `free_map_release` takes them back. -/
  | release (sector cnt : ℕ)
  deriving DecidableEq

/-- The state of the file system. -/
structure Fs where
  /-- `filesys_disk`. -/
  disk : Disk
  freeMap : Bitmap
  freeMapFile : Option File
  /-- The memory of the inodes. -/
  inodes : ℕ → Cell Inode
  openInodes : List ℕ
  /-- The address of the next inode that is allocated. -/
  next : ℕ
  /-- What `malloc` returns in the future. -/
  mem : ℕ → Option Bytes
  /-- What local variables hold before they are set. -/
  stack : Bytes
  /-- What the free map did, the last first. -/
  log : List Event

/-- A function of the file system. -/
abbrev FsM := Program Fs Panic

def FREE_MAP_SECTOR : ℕ := 0

def ROOT_DIR_SECTOR : ℕ := 1

/-! ### Memory -/

/-- `malloc`, of a size that is not 0. -/
def malloc : FsM (Option Bytes) := do
  let s ← get
  set { s with mem := fun n => s.mem (n + 1) }
  return s.mem 0

def calloc : FsM (Option Bytes) := do
  return (← malloc).map fun _ _ => 0

def getInode (a : ℕ) : FsM Inode := do
  match (← get).inodes a with
  | .live inode => return inode
  | .unused => throw .useAfterFree
  | .freed => throw .useAfterFree

def setInode (a : ℕ) (inode : Inode) : FsM Unit :=
  modify fun s => { s with inodes := update s.inodes a (.live inode) }

/-! ### Reading and writing -/

/-- `inode_read_at` of an inode in memory: the number of bytes, and the buffer. -/
def readAt (a : ℕ) (buffer : Bytes) (size offset : ℤ) : FsM (ℤ × Bytes) := do
  let inode ← getInode a
  let mem ← malloc
  let s ← get
  inodeReadAt s.disk inode mem buffer size offset

/-- `inode_write_at` of an inode in memory. -/
def writeAt (a : ℕ) (buffer : Bytes) (size offset : ℤ) : FsM ℤ := do
  let inode ← getInode a
  let mem ← malloc
  let s ← get
  let (bytesWritten, disk) ← inodeWriteAt s.disk inode mem buffer size offset
  set { s with disk := disk }
  return bytesWritten

/-- `disk_write` of a block. -/
def writeSector (secNo : ℕ) (block : Bytes) : FsM Unit := do
  let s ← get
  let disk ← diskWrite s.disk secNo block 0
  set { s with disk := disk }

def fileReadAt (file : File) (buffer : Bytes) (size fileOfs : ℤ) : FsM (ℤ × Bytes) := readAt file.inode buffer size fileOfs

def fileWriteAt (file : File) (buffer : Bytes) (size fileOfs : ℤ) : FsM ℤ := writeAt file.inode buffer size fileOfs

/-! ### The free map -/

def bitmapWrite (b : Bitmap) : Option File → FsM Bool
  | none => throw .nullPointer
  | some file => do
    let size : ℤ := byteCnt b.bitCnt
    return (← fileWriteAt file b.bytes size 0) == size

/-- `bitmap_read`: whether it succeeds, and the bitmap. -/
def bitmapRead (b : Bitmap) : Option File → FsM (Bool × Bitmap)
  | none => throw .nullPointer
  | some file =>
    if 0 < b.bitCnt then do
      let size : ℤ := byteCnt b.bitCnt
      let (bytesRead, buffer) ← fileReadAt file b.bytes size 0
      let last := elemCnt b.bitCnt - 1
      let bits := wordsOf buffer
      return (bytesRead == size, { b with bits := update bits last (bits last &&& lastMask b) })
    else return (true, b)

/-- `free_map_file == NULL || bitmap_write (free_map, free_map_file)`. -/
def saveFreeMap (b : Bitmap) : Option File → FsM Bool
  | none => return true
  | some file => bitmapWrite b (some file)

/-- `free_map_allocate`: the first sector. -/
def freeMapAllocate (cnt : ℕ) : FsM (Option ℕ) := do
  let s ← get
  match bitmapScanAndFlip s.freeMap 0 cnt false with
  | none => throw .bitmap
  | some (none, _) => return none
  | some (some sector, b) =>
    set { s with freeMap := b }
    if ← saveFreeMap b s.freeMapFile then
      modify fun s => { s with log := .allocate sector cnt :: s.log }
      return some sector
    else
      match bitmapSetMultiple b sector cnt false with
      | none => throw .bitmap
      | some b =>
        modify fun s => { s with freeMap := b }
        return none

def freeMapRelease (sector cnt : ℕ) : FsM Unit := do
  let s ← get
  match bitmapAll s.freeMap sector cnt with
  | none => throw .bitmap
  | some false => throw .bitmapAll
  | some true =>
    match bitmapSetMultiple s.freeMap sector cnt false with
    | none => throw .bitmap
    | some b =>
      set { s with freeMap := b, log := .release sector cnt :: s.log }
      let _ ← bitmapWrite b s.freeMapFile
      return ()

/-! ### Inodes -/

/-- `bytes_to_sectors`, in the arithmetic of `int`. -/
def bytesToSectors (size : ℤ) : ℕ := (((size + 511).bmod (2 ^ 32)).tdiv 512 % 2 ^ 32).toNat

def INODE_MAGIC : ℕ := 0x494e4f44

/-- A `struct inode_disk` as bytes. -/
def encodeInode (data : InodeDisk) : Bytes :=
  putWord (putWord (putWord (fun _ => 0) 0 data.start) 4 (data.length % 2 ^ 32).toNat) 8 INODE_MAGIC

/-- A `struct inode_disk` from its bytes. -/
def decodeInode (m : Bytes) (a : ℕ) : InodeDisk := ⟨word m a, (word m (a + 4) : ℤ).bmod (2 ^ 32)⟩

/-- The loop that writes zeros to the data sectors. -/
def writeZeros : (n secNo : ℕ) → FsM Unit
  | 0, _ => return ()
  | n + 1, secNo => do
    writeSector secNo fun _ => 0
    writeZeros n (secNo + 1)

def inodeCreate (sector : ℕ) (length : ℤ) : FsM Bool :=
  if length < 0 then throw .inodeCreate
  else do
    match ← calloc with
    | none => return false
    | some _ =>
      let sectors := bytesToSectors length
      match ← freeMapAllocate sectors with
      | none => return false
      | some start =>
        writeSector sector (encodeInode ⟨start, length⟩)
        writeZeros sectors start
        return true

def inodeReopen : Option ℕ → FsM (Option ℕ)
  | none => return none
  | some a => do
    let inode ← getInode a
    if inode.openCnt = 0 then throw .inodeReopen
    else
      setInode a { inode with openCnt := inode.openCnt + 1 }
      return some a

def inodeOpen (sector : ℕ) : FsM (Option ℕ) := do
  let s ← get
  match InodeTable.scan s.inodes sector s.openInodes with
  | none => throw .useAfterFree
  | some (some a) => inodeReopen (some a)
  | some none =>
    match ← malloc with
    | none => return none
    | some block =>
      let s ← get
      let data ← diskRead s.disk sector block 0
      set
        { s with
          inodes := update s.inodes s.next (.live ⟨sector, 1, false, decodeInode data 0, 0⟩)
          next := s.next + 1
          openInodes := s.next :: s.openInodes }
      return some s.next

/-- `inode_close`. The source frees the inode last; here the releases can do nothing with it. -/
def inodeClose : Option ℕ → FsM Unit
  | none => return ()
  | some a => do
    let inode ← getInode a
    if inode.openCnt - 1 = 0 then
      modify fun s => { s with inodes := update s.inodes a .freed, openInodes := s.openInodes.erase a }
      if inode.removed then
        freeMapRelease inode.sector 1
        freeMapRelease inode.data.start (bytesToSectors inode.data.length)
      else return ()
    else setInode a { inode with openCnt := inode.openCnt - 1 }

def inodeRemove (a : ℕ) : FsM Unit := do
  let inode ← getInode a
  setInode a { inode with removed := true }

def inodeAllowWrite (a : ℕ) : FsM Unit := do
  let inode ← getInode a
  if 0 < inode.denyWriteCnt ∧ inode.denyWriteCnt ≤ inode.openCnt then
    setInode a { inode with denyWriteCnt := inode.denyWriteCnt - 1 }
  else throw .inodeAllowWrite

/-! ### Files -/

/-- An object for an open inode, `make a`: when there is no inode or no memory the inode is
closed. -/
def openWith {α : Type} (make : ℕ → α) (inode : Option ℕ) : FsM (Option α) := do
  match inode, ← calloc with
  | some a, some _ => return some (make a)
  | _, _ =>
    inodeClose inode
    return none

def fileOpen : Option ℕ → FsM (Option File) := openWith fun a => ⟨a, 0, false⟩

def fileAllowWrite (file : File) : FsM File :=
  if file.denyWrite then do
    inodeAllowWrite file.inode
    return { file with denyWrite := false }
  else return file

def fileClose : Option File → FsM Unit
  | none => return ()
  | some file => do
    let file ← fileAllowWrite file
    inodeClose (some file.inode)

/-! ### The root directory -/

def dirCreate (sector entryCnt : ℕ) : FsM Bool := inodeCreate sector (entryCnt * 20 : ℕ)

def dirOpen : Option ℕ → FsM (Option Dir) := openWith fun a => ⟨a, 0⟩

def dirOpenRoot : FsM (Option Dir) := do
  dirOpen (← inodeOpen ROOT_DIR_SECTOR)

def dirClose : Option Dir → FsM Unit
  | none => return ()
  | some dir => inodeClose (some dir.inode)

/-- What the functions of `directory.c` call. -/
def fsOps : InodeOps Fs where
  readAt := readAt
  writeAt := writeAt
  inodeLength a := do return (← getInode a).data.length
  inodeOpen := inodeOpen
  inodeRemove := inodeRemove
  inodeClose := inodeClose
  uninit := do return (← get).stack

/-! ### The interface -/

/-- The part of `filesys_create` that may fail: whether it succeeded, and `inode_sector`. -/
def createFile (dir : Option Dir) (name : List UInt8) (initialSize : ℤ) : FsM (Bool × ℕ) :=
  match dir with
  | none => return (false, 0)
  | some dir => do
    match ← freeMapAllocate 1 with
    | none => return (false, 0)
    | some inodeSector =>
      if ← inodeCreate inodeSector initialSize then return (← fsOps.dirAdd dir name inodeSector, inodeSector)
      else return (false, inodeSector)

def filesysCreate (name : List UInt8) (initialSize : ℤ) : FsM Bool := do
  let dir ← dirOpenRoot
  let (success, inodeSector) ← createFile dir name initialSize
  (if ¬ success ∧ inodeSector ≠ 0 then freeMapRelease inodeSector 1 else return ())
  dirClose dir
  return success

def filesysOpen (name : List UInt8) : FsM (Option File) := do
  match ← dirOpenRoot with
  | none => fileOpen none
  | some dir =>
    let inode ← fsOps.dirLookup dir name
    dirClose (some dir)
    fileOpen inode

def filesysRemove (name : List UInt8) : FsM Bool := do
  match ← dirOpenRoot with
  | none => return false
  | some dir =>
    let success ← fsOps.dirRemove dir name
    dirClose (some dir)
    return success

/-! ### Formatting -/

/-- `free_map_init`, with what `malloc` returns. -/
def freeMapInit (capacity : ℕ) (block words : Option Bytes) : Except Panic Bitmap :=
  match bitmapCreate block (if byteCnt capacity = 0 then none else words) capacity with
  | none => .error .bitmap
  | some none => .error (.halt "bitmap creation failed--disk is too large")
  | some (some b) =>
    match (bitmapMark b FREE_MAP_SECTOR).bind (bitmapMark · ROOT_DIR_SECTOR) with
    | none => .error .bitmap
    | some b => .ok b

def freeMapCreate : FsM Unit := do
  let s ← get
  if ← inodeCreate FREE_MAP_SECTOR (byteCnt s.freeMap.bitCnt) then
    match ← fileOpen (← inodeOpen FREE_MAP_SECTOR) with
    | none => throw (.halt "can't open free map")
    | some file =>
      let s ← get
      set { s with freeMapFile := some file }
      if ← bitmapWrite s.freeMap (some file) then return () else throw (.halt "can't write free map")
  else throw (.halt "free map creation failed")

def freeMapClose : FsM Unit := do
  fileClose (← get).freeMapFile

def freeMapOpen : FsM Unit := do
  match ← fileOpen (← inodeOpen FREE_MAP_SECTOR) with
  | none => throw (.halt "can't open free map")
  | some file =>
    let s ← get
    set { s with freeMapFile := some file }
    let (success, freeMap) ← bitmapRead s.freeMap (some file)
    modify fun s => { s with freeMap := freeMap }
    if success then return () else throw (.halt "can't read free map")

def doFormat : FsM Unit := do
  freeMapCreate
  if ← dirCreate ROOT_DIR_SECTOR 16 then freeMapClose else throw (.halt "root directory creation failed")

/-- The state when no inode is open. -/
def Fs.start (disk : Disk) (freeMap : Bitmap) (mem : ℕ → Option Bytes) (stack : Bytes) (log : List Event) : Fs :=
  { disk := disk, freeMap := freeMap, freeMapFile := none, inodes := fun _ => .unused, openInodes := [], next := 0,
    mem := mem, stack := stack, log := log }

/-- `filesys_init`, on a disk and with what `malloc` returns; `log` is what the free map did
before. -/
def filesysInit (format : Bool) (disk : Disk) (mem : ℕ → Option Bytes) (stack : Bytes) (log : List Event) :
    Except Panic Fs := do
  let freeMap ← freeMapInit disk.capacity (mem 0) (mem 1)
  let (_, s) ← (do (if format then doFormat else return ()); freeMapOpen : FsM Unit)
    (Fs.start disk freeMap (fun n => mem (n + 2)) stack log)
  return s

end Pintos.Filesys
