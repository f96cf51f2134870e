import Mathlib.Algebra.Group.Nat.Defs
import Mathlib.Data.Fintype.Basic
import Mathlib.Data.List.Range
import Pintos.Basis.Program

/-!
# The memory allocator

`malloc_init`, `malloc`, `free`, `block_to_arena` and `arena_to_block`
(`threads/malloc.c`), on top of the page allocator (`threads/palloc.c`).

## The model

An address is a number; the page of an address is its quotient by `PGSIZE`. The state
has the headers of the arenas, which are at the start of pages, the free lists, and
the pages that `malloc` has from the page allocator. A free list is the list of the
addresses of its blocks; removing a block from a list it is not on is an error, as is
every assertion that fails. A page that is given back loses its header, since
`palloc_free_multiple` overwrites it.

What the page allocator finds is a parameter of `malloc`: any pages but those that
`malloc` has, or nothing. Other parts of the kernel take and give back pages too, so
nothing more is known of them. All pages are of the kernel pool. That `palloc.c` finds such pages is
`Palloc.Inv.malloc_get`.

Sizes are `size_t`, so they are computed modulo `2 ^ 32`. The locks of the descriptors
do nothing when the calls are made one after another.
-/

namespace Pintos.Threads.Malloc

open Program

def PGSIZE : ℕ := 4096

/-- `sizeof (struct arena)`. -/
def ARENA_SIZE : ℕ := 12

/-- `sizeof (struct block)`. -/
def BLOCK_SIZE : ℕ := 8

def ARENA_MAGIC : ℕ := 0x9a548eed

/-! ### The descriptors -/

/-- A descriptor: `struct desc`, without the free list and the lock. -/
structure Desc where
  blockSize : ℕ
  blocksPerArena : ℕ
  deriving DecidableEq

/-- The loop of `malloc_init`, with the descriptors so far and the number of entries of `descs`
left; nothing if `ASSERT (desc_cnt <= sizeof descs / sizeof *descs)` fails. -/
def initDescs (descs : List Desc) (blockSize : ℕ) : ℕ → Option (List Desc)
  | 0 => if blockSize < PGSIZE / 2 then none else some descs
  | left + 1 =>
    if blockSize < PGSIZE / 2 then
      initDescs (descs ++ [⟨blockSize, (PGSIZE - ARENA_SIZE) / blockSize⟩]) (blockSize * 2) left
    else some descs

/-- `malloc_init`: the descriptors. -/
def mallocInit : Option (List Desc) := initDescs [] 16 10

/-- What the allocator relies on: a block has room for the node of a free list, and an arena has at
least one block and room for all of them. -/
structure Table (D : List Desc) : Prop where
  /-- A block has room for a node. -/
  node : ∀ d : Fin D.length, BLOCK_SIZE ≤ (D.get d).blockSize
  pos : ∀ d : Fin D.length, 0 < (D.get d).blocksPerArena
  /-- An arena is one page. -/
  room : ∀ d : Fin D.length, ARENA_SIZE + (D.get d).blocksPerArena * (D.get d).blockSize ≤ PGSIZE

/-- The descriptors of 16, 32, ... and 1024 bytes. -/
def descs : List Desc := [⟨16, 255⟩, ⟨32, 127⟩, ⟨64, 63⟩, ⟨128, 31⟩, ⟨256, 15⟩, ⟨512, 7⟩, ⟨1024, 3⟩]

theorem mallocInit_eq : mallocInit = some descs := by decide

theorem table_of_mallocInit {D : List Desc} (h : mallocInit = some D) : Table D := by
  cases h
  exact ⟨by decide, by decide, by decide⟩

/-! ### The heap -/

variable (D : List Desc)

structure Arena where
  magic : ℕ
  /-- `desc`: nothing for a big block. -/
  desc : Option (Fin D.length)
  /-- `free_cnt`: the free blocks, or the pages of a big block. -/
  freeCnt : ℕ

/-- The memory of the allocator. -/
structure Heap where
  /-- The header at the start of a page, if there is one. -/
  arena : ℕ → Option (Arena D)
  /-- `free_list` of a descriptor. -/
  freeList : Fin D.length → List ℕ
  /-- The pages the allocator has. -/
  used : ℕ → Bool

/-- What is asserted. -/
inductive Panic where
  /-- `ASSERT (a != NULL)`. -/
  | arenaNull
  /-- `ASSERT (a->magic == ARENA_MAGIC)`. -/
  | magic
  /-- `ASSERT (a->desc == NULL || (pg_ofs (b) - sizeof *a) % a->desc->block_size == 0)`. -/
  | alignment
  /-- `ASSERT (a->desc != NULL || pg_ofs (b) == sizeof *a)`. -/
  | bigOffset
  /-- `a->desc` is dereferenced. -/
  | descNull
  /-- `ASSERT (idx < a->desc->blocks_per_arena)`. -/
  | index
  /-- `ASSERT (a->free_cnt == d->blocks_per_arena)`. -/
  | freeCnt
  /-- The list operations need an element that is there. -/
  | listElem
  /-- `ASSERT (bitmap_all (pool->used_map, page_idx, page_cnt))`. -/
  | notUsed
  deriving DecidableEq

variable {D}

/-- A function of the allocator. -/
abbrev MallocM (D : List Desc) := Program (Heap D) Panic

def assert (p : Prop) [Decidable p] (e : Panic) : MallocM D Unit := if p then pure () else throw e

/-- Access the header of the arena at a page. -/
def getArena (page : ℕ) : MallocM D (Arena D) := do
  match (← get).arena page with
  | some a => return a
  -- There is no header: the magic number is not there.
  | none => throw .magic

/-- Write the header of the arena at a page. -/
def setArena (page : ℕ) (a : Arena D) : MallocM D Unit :=
  modify fun h => { h with arena := Function.update h.arena page (some a) }

def setList (d : Fin D.length) (l : List ℕ) : MallocM D Unit :=
  modify fun h => { h with freeList := Function.update h.freeList d l }

def listPushBack (d : Fin D.length) (b : ℕ) : MallocM D Unit := do
  setList d ((← get).freeList d ++ [b])

def listPushFront (d : Fin D.length) (b : ℕ) : MallocM D Unit := do
  setList d (b :: (← get).freeList d)

def listPopFront (d : Fin D.length) : MallocM D ℕ := do
  match (← get).freeList d with
  | [] => throw .listElem
  | b :: l =>
    setList d l
    return b

def listRemove (d : Fin D.length) (b : ℕ) : MallocM D Unit := do
  let l := (← get).freeList d
  assert (b ∈ l) .listElem
  setList d (l.erase b)

/-! ### Pages -/

/-- The page of an address, `pg_round_down` as a page number. -/
def pageOf (b : ℕ) : ℕ := b / PGSIZE

def pgOfs (b : ℕ) : ℕ := b % PGSIZE

/-- The pages are none of those the allocator has; there is no page at address 0. -/
def Heap.fresh (h : Heap D) (page cnt : ℕ) : Prop :=
  page ≠ 0 ∧ (page + cnt) * PGSIZE ≤ 2 ^ 32 ∧ ∀ i < cnt, h.used (page + i) = false

instance (h : Heap D) (page cnt : ℕ) : Decidable (h.fresh page cnt) := inferInstanceAs (Decidable (_ ∧ _ ∧ _))

/-- `cnt` pages from `page` on are taken or given back. -/
def setUsed (used : ℕ → Bool) (page cnt : ℕ) (v : Bool) : ℕ → Bool :=
  fun q => if page ≤ q ∧ q < page + cnt then v else used q

/-- `palloc_get_multiple`, where `scan` is what the page allocator finds. -/
def pallocGetMultiple (scan : Option ℕ) (cnt : ℕ) : MallocM D (Option ℕ) := do
  if cnt = 0 then return none
  let h ← get
  match scan with
  | none => return none
  | some page =>
    if h.fresh page cnt then
      set { h with used := setUsed h.used page cnt true }
      return some page
    else return none

def pallocGetPage (scan : Option ℕ) : MallocM D (Option ℕ) := pallocGetMultiple scan 1

/-- `palloc_free_multiple`: the pages are overwritten. -/
def pallocFreeMultiple (page cnt : ℕ) : MallocM D Unit := do
  if page = 0 ∨ cnt = 0 then return ()
  let h ← get
  assert (∀ i < cnt, h.used (page + i) = true) .notUsed
  set { h with
    used := setUsed h.used page cnt false
    arena := fun q => if page ≤ q ∧ q < page + cnt then none else h.arena q }

def pallocFreePage (page : ℕ) : MallocM D Unit := pallocFreeMultiple page 1

/-! ### Arenas and blocks -/

/-- The address of block `i` of an arena of descriptor `d`. -/
def blockAt (d : Fin D.length) (page i : ℕ) : ℕ := page * PGSIZE + ARENA_SIZE + i * (D.get d).blockSize

/-- The block is where the arena has blocks: the last two assertions of `block_to_arena`. -/
def checkBlock (a : Arena D) (b : ℕ) : MallocM D Unit :=
  match a.desc with
  | some d => assert ((pgOfs b + 2 ^ 32 - ARENA_SIZE) % 2 ^ 32 % (D.get d).blockSize = 0) .alignment
  | none => assert (pgOfs b = ARENA_SIZE) .bigOffset

/-- `block_to_arena`: the page and the header. -/
def blockToArena (b : ℕ) : MallocM D (ℕ × Arena D) := do
  let page := pageOf b
  assert (page ≠ 0) .arenaNull
  let a ← getArena page
  assert (a.magic = ARENA_MAGIC) .magic
  checkBlock a b
  return (page, a)

def arenaToBlock (page idx : ℕ) : MallocM D ℕ := do
  assert (page ≠ 0) .arenaNull
  let a ← getArena page
  assert (a.magic = ARENA_MAGIC) .magic
  match a.desc with
  | some d =>
    assert (idx < (D.get d).blocksPerArena) .index
    return blockAt d page idx
  | none => throw .descNull

/-! ### `malloc` and `free` -/

/-- The pages of a big block: `DIV_ROUND_UP (size + sizeof *a, PGSIZE)`. -/
def bigPages (size : ℕ) : ℕ := (size + ARENA_SIZE + PGSIZE - 1) % 2 ^ 32 / PGSIZE

/-- A size that is too big for the descriptors. -/
def mallocBig (size : ℕ) (scan : Option ℕ) : MallocM D (Option ℕ) := do
  match ← pallocGetMultiple scan (bigPages size) with
  | none => return none
  | some page =>
    setArena page ⟨ARENA_MAGIC, none, bigPages size⟩
    return some (page * PGSIZE + ARENA_SIZE)

/-- A new arena: its header is written and its blocks are put on the free list. -/
def initArena (d : Fin D.length) (page : ℕ) : MallocM D Unit := do
  setArena page ⟨ARENA_MAGIC, some d, (D.get d).blocksPerArena⟩
  forM (List.range (D.get d).blocksPerArena) fun i => do
    let b ← arenaToBlock page i
    listPushBack d b

/-- Get a block from the free list. -/
def takeBlock (d : Fin D.length) : MallocM D ℕ := do
  let b ← listPopFront d
  let (page, a) ← blockToArena b
  setArena page { a with freeCnt := (a.freeCnt + 2 ^ 32 - 1) % 2 ^ 32 }
  return b

/-- A size for descriptor `d`. -/
def mallocSmall (d : Fin D.length) (scan : Option ℕ) : MallocM D (Option ℕ) := do
  if (← get).freeList d = [] then
    match ← pallocGetPage scan with
    | none => return none
    | some page =>
      initArena d page
      return some (← takeBlock d)
  else return some (← takeBlock d)

/-- `malloc`: the address of the block, or nothing for a null pointer. -/
def malloc (size : ℕ) (scan : Option ℕ) : MallocM D (Option ℕ) :=
  if size = 0 then return none
  else
    -- The smallest descriptor that satisfies the request.
    match D.findFinIdx? fun d => size ≤ d.blockSize with
    | none => mallocBig size scan
    | some d => mallocSmall d scan

/-- The arena is entirely unused: its blocks leave the free list and its page is given back. -/
def dropArena (d : Fin D.length) (page : ℕ) : MallocM D Unit := do
  forM (List.range (D.get d).blocksPerArena) fun i => do
    let b ← arenaToBlock page i
    listRemove d b
  pallocFreePage page

/-- A normal block is freed. -/
def freeSmall (d : Fin D.length) (page : ℕ) (a : Arena D) (b : ℕ) : MallocM D Unit := do
  listPushFront d b
  let cnt := (a.freeCnt + 1) % 2 ^ 32
  setArena page { a with freeCnt := cnt }
  if (D.get d).blocksPerArena ≤ cnt then
    assert (cnt = (D.get d).blocksPerArena) .freeCnt
    dropArena d page

/-- `free`; the null pointer is 0. -/
def free (p : ℕ) : MallocM D Unit := do
  if p = 0 then return ()
  let (page, a) ← blockToArena p
  match a.desc with
  | some d => freeSmall d page a p
  | none => pallocFreeMultiple page a.freeCnt

end Pintos.Threads.Malloc
