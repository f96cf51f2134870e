import Pintos.Threads.Palloc
import Pintos.Userprog.Arguments
import Pintos.Userprog.Elf
import Pintos.Userprog.PageMap

/-!
# Loading a program

`load` with `load_segment`, `setup_stack` and `install_page`, the end of `process_exit`
(`userprog/process.c`), and `pagedir_destroy` (`userprog/pagedir.c`).

## The model

The machine has the page allocator with the memory (`Pintos.Threads.Palloc`), which is one array of
bytes: page directories, page tables and the pages of the user are pages of it. The functions of
`pagedir.c` (`Pintos.Userprog.PageTable`) see its words (`tablesOf`), and what they write is written
back (`writeTables`). A page for a page table is requested, from the page allocator, when the
directory has no entry.

`filesys_open` finds a file or not; a file has a length and bytes, and the handle has a position.
`file_read` gives at most the bytes that are left, and fewer when `inode_read_at` gets no memory for
its buffer: `readMax` is how many bytes a read can get at most, for each read another number. The
handle is a cell of memory, which an access after `file_close` would find freed. `process_activate`
and the messages are left out. The arguments are those of `Pintos.Userprog.Arguments`, on the page
that is mapped below `PHYS_BASE`; if they do not fit in it, the kernel gets a page fault and stops.

`got` and `freed` log what `palloc_get_page` returned and `palloc_free_page` was given.
-/

namespace Pintos.Userprog.Load

open Memory PageTable
open Threads (Palloc.State Palloc.Flags Palloc.Panic)

/-! ### The machine -/

/-- What stops the kernel. -/
inductive Stop where
  /-- The page allocator. -/
  | palloc (panic : Palloc.Panic)
  | assertion
  /-- An access to an address that is not mapped. -/
  | pageFault
  /-- A file is used that is not open. -/
  | notOpen
  deriving DecidableEq

/-- The page allocator, the current process and its executable. -/
structure Machine where
  /-- The page allocator, with the memory. -/
  palloc : Palloc.State
  /-- `t->pagedir`. -/
  pagedir : Option Addr
  /-- The open file, with its position. -/
  file : Cell ℕ
  /-- How often `file_read` was called. -/
  reads : ℕ
  /-- What `palloc_get_page` has returned. -/
  got : List Addr
  /-- What `palloc_free_page` was given. -/
  freed : List Addr

/-- A function of the kernel. -/
abbrev LoadM := Program Machine Stop

/-- A file; its length is an `off_t`. -/
structure Executable where
  length : ℕ
  bytes : Bytes
  le : length < 2 ^ 31

/-- What `load` depends on. -/
structure Env where
  ramPages : ℕ
  basePageDir : Addr
  /-- What `filesys_open` finds. -/
  exe : Option Executable
  /-- How many bytes a read gets at most. -/
  readMax : ℕ → ℕ

def assert (p : Prop) [Decidable p] : LoadM Unit := if p then pure () else throw .assertion

/-- A computation with assertions. -/
def check {α : Type} (x : Except Fault α) : LoadM α :=
  match x with
  | .ok a => pure a
  | .error _ => throw .assertion

def modifyMem (f : Bytes → Bytes) : LoadM Unit :=
  modify fun s => { s with palloc := { s.palloc with mem := f s.palloc.mem } }

/-! ### Pages -/

def pallocGetPage (flags : Palloc.Flags) : LoadM Addr := do
  let s ← get
  match Threads.Palloc.pallocGetMultiple flags 1 s.palloc with
  | .ok (page, palloc) =>
    let page := BitVec.ofNat 32 page
    set { s with palloc := palloc, got := if page = 0#32 then s.got else page :: s.got }
    return page
  | .error panic => throw (.palloc panic)

def pallocFreePage (page : Addr) : LoadM Unit := do
  let s ← get
  match Threads.Palloc.pallocFreeMultiple page.toNat 1 s.palloc with
  | .ok (_, palloc) => set { s with palloc := palloc, freed := page :: s.freed }
  | .error panic => throw (.palloc panic)

/-- The words of the memory. -/
def tablesOf (m : Bytes) : Mem := fun page i => BitVec.ofNat 32 (word m (page.toNat + 4 * i.toNat))

/-- The memory with other words. -/
def writeTables (m : Bytes) (t : Mem) : Bytes := fun a =>
  if a < 2 ^ 32 then
    wordBytes (t (BitVec.ofNat 32 (a / 4096 * 4096)) (BitVec.ofNat 10 (a / 4 % 1024))).toNat (a % 4)
  else m a

/-- A function of `pagedir.c`. -/
def paging {α : Type} (x : Paging α) : LoadM α := do
  let s ← get
  match x (tablesOf s.palloc.mem) with
  | .ok (a, t) =>
    modifyMem fun m => writeTables m t
    return a
  | .error _ => throw .assertion

/-- A pointer that may be null. -/
def nonNull (page : Addr) : Option Addr := if page = 0#32 then none else some page

variable (env : Env)

def pagedirCreate : LoadM (Option Addr) := do
  let pd ← pallocGetPage ⟨false, false, false⟩
  paging (PageTable.pagedirCreate env.basePageDir (nonNull pd))

/-- `pagedir_set_page`, with the page that `lookup_page` requests where there is no table. -/
def pagedirSetPage (pd upage kpage : Addr) (writable : Bool) : LoadM Bool := do
  let s ← get
  let pt ← if tablesOf s.palloc.mem pd (pdNo upage) = 0#32 then pallocGetPage ⟨false, true, false⟩ else pure 0#32
  paging (PageTable.pagedirSetPage env.ramPages env.basePageDir pd upage kpage writable (nonNull pt))

def installPage (upage kpage : Addr) (writable : Bool) : LoadM Bool := do
  match (← get).pagedir with
  | none => throw .assertion
  | some pd =>
    if (← paging (PageTable.pagedirGetPage pd upage)) = 0#32 then pagedirSetPage env pd upage kpage writable
    else return false

/-! ### The stack -/

/-- The page below `PHYS_BASE`. -/
def stackPage : Addr := PHYS_BASE - 4096#32

def setupStack : LoadM Bool := do
  let kpage ← pallocGetPage ⟨false, true, true⟩
  if kpage ≠ 0#32 then
    if ← installPage env stackPage kpage true then return true
    else
      pallocFreePage kpage
      return false
  else return false

/-- The arguments, written to the user's stack: the stack pointer. No address below `esp + 4` is
written to. -/
def setupArguments (cmdLine : List UInt8) : LoadM ℕ := do
  let s ← get
  match s.pagedir.bind fun pd => lookup (tablesOf s.palloc.mem) pd stackPage with
  | none => throw .pageFault
  | some kpage =>
    match Arguments.setupArguments (fun a => s.palloc.mem (kpage.toNat + (a - stackPage.toNat))) cmdLine with
    | none => throw .pageFault
    | some (esp, stack) =>
      if esp + 4 < stackPage.toNat then throw .pageFault
      else
        modifyMem fun m => copy m kpage.toNat stack stackPage.toNat 4096
        return esp

/-! ### The file -/

def filesysOpen : LoadM (Option Executable) := do
  match env.exe with
  | none => return none
  | some exe =>
    modify fun s => { s with file := .live 0 }
    return some exe

def fileSeek (newPos : ℤ) : LoadM Unit := do
  assert (0 ≤ newPos)
  let s ← get
  match s.file with
  | .live _ => set { s with file := .live newPos.toNat }
  | _ => throw .notOpen

/-- `file_read`: the number of bytes, and the bytes. -/
def fileRead (exe : Executable) (size : ℕ) : LoadM (ℕ × Bytes) := do
  let s ← get
  match s.file with
  | .live pos =>
    let bytesRead := min (min size (exe.length - pos)) (env.readMax s.reads)
    set { s with file := .live (pos + bytesRead), reads := s.reads + 1 }
    return (bytesRead, fun j => exe.bytes (pos + j))
  | _ => throw .notOpen

/-- `file_close`; the file is `NULL` if it was never opened. -/
def fileClose : LoadM Unit := do
  let s ← get
  match s.file with
  | .unused => return ()
  | .live _ => set { s with file := .freed }
  | .freed => throw .notOpen

/-! ### Segments -/

/-- One round of the loop of `load_segment`. -/
def loadPage (exe : Executable) (upage : Addr) (pageReadBytes : ℕ) (writable : Bool) : LoadM Bool := do
  let kpage ← pallocGetPage ⟨false, false, true⟩
  if kpage = 0#32 then return false
  else
    let (bytesRead, bytes) ← fileRead env exe pageReadBytes
    modifyMem fun m => copy m kpage.toNat bytes 0 bytesRead
    if bytesRead ≠ pageReadBytes then
      pallocFreePage kpage
      return false
    else
      modifyMem fun m => fill m (kpage.toNat + pageReadBytes) 0 (4096 - pageReadBytes)
      if ← installPage env upage kpage writable then return true
      else
        pallocFreePage kpage
        return false

/-- The loop of `load_segment`. Every round is for one page of the bytes that are left, and these
are as many as fill pages. -/
def segmentLoop (exe : Executable) (writable : Bool) : (rounds readBytes zeroBytes : ℕ) → (upage : Addr) → LoadM Bool
  | 0, _, _, _ => return true
  | rounds + 1, readBytes, zeroBytes, upage => do
    let pageReadBytes := if readBytes < 4096 then readBytes else 4096
    let pageZeroBytes := 4096 - pageReadBytes
    if ← loadPage env exe upage pageReadBytes writable then
      segmentLoop exe writable rounds (readBytes - pageReadBytes) (zeroBytes - pageZeroBytes) (upage + 4096#32)
    else return false

def loadSegment (exe : Executable) (ofs : ℤ) (upage : Addr) (readBytes zeroBytes : BitVec 32) (writable : Bool) :
    LoadM Bool := do
  assert ((readBytes + zeroBytes).toNat % 4096 = 0)
  assert (pgOfs upage = 0#32)
  assert (ofs.tmod 4096 = 0)
  fileSeek ofs
  segmentLoop env exe writable ((readBytes.toNat + zeroBytes.toNat) / 4096) readBytes.toNat zeroBytes.toNat upage

/-- A number as an `off_t`. -/
def offT (x : BitVec 32) : ℤ := x.toInt

/-- The `switch` of `load`: whether it goes on. -/
def loadHeader (exe : Executable) (phdr : Phdr) : LoadM Bool := do
  if phdr.type = PT_DYNAMIC ∨ phdr.type = PT_INTERP ∨ phdr.type = PT_SHLIB then return false
  else if phdr.type = PT_LOAD then
    if validateSegment phdr exe.length then
      loadSegment env exe (offT phdr.filePage) phdr.memPage phdr.readBytes phdr.zeroBytes phdr.writable
    else return false
  else return true

/-- The loop over the program headers, with the number of those that are left. -/
def headerLoop (exe : Executable) : (n : ℕ) → (fileOfs : ℤ) → LoadM Bool
  | 0, _ => return true
  | n + 1, fileOfs => do
    if fileOfs < 0 ∨ exe.length < fileOfs then return false
    else
      fileSeek fileOfs
      let (bytesRead, bytes) ← fileRead env exe sizeofPhdr
      if bytesRead ≠ sizeofPhdr then return false
      else if ← loadHeader env exe (Phdr.ofBytes bytes) then headerLoop exe n (fileOfs + sizeofPhdr)
      else return false

/-! ### `load` and `process_exit` -/

/-- The part of `load` with the file: the entry point. -/
def loadFile (exe : Executable) : LoadM (Option Addr) := do
  let (bytesRead, bytes) ← fileRead env exe sizeofEhdr
  let ehdr := Ehdr.ofBytes bytes
  if bytesRead ≠ sizeofEhdr ∨ ehdr.valid = false then return none
  else if ← headerLoop env exe ehdr.phnum.toNat (offT ehdr.phoff) then return some ehdr.entry
  else return none

/-- `load` before `done`: `eip` and `esp`. -/
def loadImage (cmdLine : List UInt8) : LoadM (Option (Addr × ℕ)) := do
  let pagedir ← pagedirCreate env
  modify fun s => { s with pagedir := pagedir }
  if pagedir = none then return none
  else if ← setupStack env then
    let esp ← setupArguments cmdLine
    match ← filesysOpen env with
    | none => return none
    | some exe =>
      let eip ← loadFile env exe
      return eip.map fun eip => (eip, esp)
  else return none

def load (cmdLine : List UInt8) : LoadM (Option (Addr × ℕ)) := do
  let result ← loadImage env cmdLine
  fileClose
  return result

/-- A word of a page. -/
def wordAt (page : Addr) (i : ℕ) : LoadM (BitVec 32) := do
  return tablesOf (← get).palloc.mem page (BitVec.ofNat 10 i)

/-- The inner loop of `pagedir_destroy`: the pages of a page table are freed. -/
def freeFrames (pt : Addr) : LoadM Unit :=
  forM (List.range 1024) fun i => do
    let pte ← wordAt pt i
    if pte &&& PTE_P ≠ 0#32 then pallocFreePage (← check (PageTable.pteGetPage pte))

def pagedirDestroy (pd : Addr) : LoadM Unit := do
  assert (pd ≠ env.basePageDir)
  forM (List.range 768) fun d => do
    let pde ← wordAt pd d
    if pde &&& PTE_P ≠ 0#32 then
      let pt ← check (pdeGetPt pde)
      freeFrames pt
      pallocFreePage pt
  pallocFreePage pd

/-- The end of `process_exit`, from `pd = cur->pagedir` on. -/
def processExit : LoadM Unit := do
  let s ← get
  match s.pagedir with
  | none => return ()
  | some pd =>
    set { s with pagedir := none }
    pagedirDestroy env pd

end Pintos.Userprog.Load
