import Pintos.Basis.Memory
import Pintos.Userprog.PageTable

/-!
# Executables

The headers of an ELF executable as `load` reads them, and `validate_segment`
(`userprog/process.c`).

## The model

A header is what the bytes of the file say: words and half words with the lowest byte first, at the
offsets that the C structures give them. Only the fields that `load` looks at are here. Arithmetic
is that of `uint32_t`.

## What is proved

A segment that `validate_segment` accepts lies in the user addresses, after the first page
(`validateSegment_eq_true`). The bytes that `load` reads and those it sets to zero fill the pages
that the segment has an address in (`Valid.readBytes_add_zeroBytes`), and every address gets the
byte of the file that the header says (`Valid.file_offset`).
-/

namespace Pintos.Userprog.Load

open Memory PageTable

def PGMASK : BitVec 32 := 0xfff#32

/-! ### The model -/

/-- A half word. -/
def half (m : Bytes) (a : ℕ) : BitVec 16 := BitVec.ofNat 16 ((m a).toNat + 256 * (m (a + 1)).toNat)

/-- `struct Elf32_Ehdr`. -/
structure Ehdr where
  /-- `e_ident`. -/
  ident : Bytes
  /-- `e_type`. -/
  type : BitVec 16
  /-- `e_machine`. -/
  machine : BitVec 16
  /-- `e_version`. -/
  version : BitVec 32
  /-- `e_entry`. -/
  entry : BitVec 32
  /-- `e_phoff`. -/
  phoff : BitVec 32
  /-- `e_phentsize`. -/
  phentsize : BitVec 16
  /-- `e_phnum`. -/
  phnum : BitVec 16

/-- `struct Elf32_Phdr`. -/
structure Phdr where
  /-- `p_type`. -/
  type : BitVec 32
  /-- `p_offset`. -/
  offset : BitVec 32
  /-- `p_vaddr`. -/
  vaddr : Addr
  /-- `p_filesz`. -/
  filesz : BitVec 32
  /-- `p_memsz`. -/
  memsz : BitVec 32
  /-- `p_flags`. -/
  flags : BitVec 32
  deriving DecidableEq

/-- `sizeof (struct Elf32_Ehdr)`. -/
def sizeofEhdr : ℕ := 52

/-- `sizeof (struct Elf32_Phdr)`. -/
def sizeofPhdr : ℕ := 32

/-- A word of a header. -/
def field (b : Bytes) (a : ℕ) : BitVec 32 := BitVec.ofNat 32 (word b a)

/-- The header that the bytes are. -/
def Ehdr.ofBytes (b : Bytes) : Ehdr where
  ident := b
  type := half b 16
  machine := half b 18
  version := field b 20
  entry := field b 24
  phoff := field b 28
  phentsize := half b 42
  phnum := half b 44

/-- The program header that the bytes are. -/
def Phdr.ofBytes (b : Bytes) : Phdr where
  type := field b 0
  offset := field b 4
  vaddr := field b 8
  filesz := field b 16
  memsz := field b 20
  flags := field b 24

/-- The first bytes of `e_ident`, `"\177ELF\1\1\1"`. -/
def elfMagic : List UInt8 := [0x7f, 0x45, 0x4c, 0x46, 1, 1, 1]

/-- The checks on the header of an executable. -/
def Ehdr.valid (ehdr : Ehdr) : Bool :=
  (List.range 7).map ehdr.ident = elfMagic ∧ ehdr.type = 2#16 ∧ ehdr.machine = 3#16 ∧ ehdr.version = 1#32 ∧
    ehdr.phentsize.toNat = sizeofPhdr ∧ ehdr.phnum.toNat ≤ 1024

def PT_LOAD : BitVec 32 := 1#32

def PT_DYNAMIC : BitVec 32 := 2#32

def PT_INTERP : BitVec 32 := 3#32

def PT_SHLIB : BitVec 32 := 5#32

def PF_W : BitVec 32 := 2#32

/-- `validate_segment`, with the length of the file. -/
def validateSegment (phdr : Phdr) (fileLength : ℕ) : Bool :=
  if phdr.offset &&& PGMASK ≠ phdr.vaddr &&& PGMASK then false
  else if phdr.offset.toNat > fileLength then false
  else if phdr.memsz < phdr.filesz then false
  else if phdr.memsz = 0#32 then false
  else if isUserVaddr phdr.vaddr = false then false
  else if isUserVaddr (phdr.vaddr + phdr.memsz) = false then false
  else if phdr.vaddr + phdr.memsz < phdr.vaddr then false
  else if phdr.vaddr.toNat < 4096 then false
  else true

namespace Phdr

variable (phdr : Phdr)

def writable : Bool := phdr.flags &&& PF_W ≠ 0#32

def filePage : BitVec 32 := phdr.offset &&& ~~~PGMASK

def memPage : Addr := phdr.vaddr &&& ~~~PGMASK

def pageOffset : BitVec 32 := phdr.vaddr &&& PGMASK

/-- `ROUND_UP (x, PGSIZE)`. -/
def roundUp (x : BitVec 32) : BitVec 32 := (x + 4095#32) / 4096#32 * 4096#32

def readBytes : BitVec 32 := if 0#32 < phdr.filesz then phdr.pageOffset + phdr.filesz else 0#32

def zeroBytes : BitVec 32 :=
  if 0#32 < phdr.filesz then roundUp (phdr.pageOffset + phdr.memsz) - phdr.readBytes
  else roundUp (phdr.pageOffset + phdr.memsz)

end Phdr

/-! ### What is accepted -/

/-- What `validate_segment` makes sure of. -/
structure Valid (phdr : Phdr) (fileLength : ℕ) : Prop where
  /-- The file and the memory have the same offset in a page. -/
  offset : phdr.offset.toNat % 4096 = phdr.vaddr.toNat % 4096
  /-- The segment starts in the file. -/
  inFile : phdr.offset.toNat ≤ fileLength
  /-- The part that is read is not longer than the segment. -/
  sizes : phdr.filesz.toNat ≤ phdr.memsz.toNat
  /-- The segment is not empty. -/
  pos : 0 < phdr.memsz.toNat
  /-- It ends in the user addresses. -/
  user : phdr.vaddr.toNat + phdr.memsz.toNat < PHYS_BASE.toNat
  /-- It starts after the first page. -/
  notNull : 4096 ≤ phdr.vaddr.toNat

variable {phdr : Phdr} {fileLength : ℕ}

theorem toNat_and_PGMASK (x : BitVec 32) : (x &&& PGMASK).toNat = x.toNat % 4096 := toNat_pgOfs x

theorem toNat_and_not_PGMASK (x : BitVec 32) : (x &&& ~~~PGMASK).toNat = x.toNat / 4096 * 4096 := by
  have hsplit : (x &&& ~~~PGMASK) + (x &&& PGMASK) = x := by
    rw [BitVec.add_eq_or_of_and_eq_zero, ← BitVec.and_or_distrib_left, BitVec.or_comm,
      BitVec.or_not_self, BitVec.and_allOnes]
    rw [BitVec.and_comm x PGMASK, BitVec.and_assoc, ← BitVec.and_assoc (~~~PGMASK), BitVec.not_and_self]
    simp
  have hle : (x &&& ~~~PGMASK).toNat ≤ x.toNat := by
    exact Nat.and_le_left
  have hsum := congrArg BitVec.toNat hsplit
  rw [BitVec.toNat_add, toNat_and_PGMASK] at hsum
  omega

/-- **`validate_segment`** accepts what is valid. -/
theorem validateSegment_eq_true (h : validateSegment phdr fileLength = true) : Valid phdr fileLength := by
  unfold validateSegment at h
  split_ifs at h with hofs hfile hsizes hpos hstart hend hwrap hnull
  have hofs : phdr.offset &&& PGMASK = phdr.vaddr &&& PGMASK := not_not.mp hofs
  have hsizes : phdr.filesz.toNat ≤ phdr.memsz.toNat := Nat.le_of_not_lt hsizes
  have hwrap : phdr.vaddr.toNat ≤ (phdr.vaddr + phdr.memsz).toNat := Nat.le_of_not_lt hwrap
  have hend := isUserVaddr_iff.mp (Bool.not_eq_false _ ▸ hend)
  have hpos : phdr.memsz.toNat ≠ 0 := fun h0 => hpos (BitVec.eq_of_toNat_eq h0)
  have hmem := phdr.memsz.isLt
  rw [BitVec.toNat_add] at hwrap hend
  refine ⟨?_, by omega, hsizes, by omega, ?_, by omega⟩
  · rw [← toNat_and_PGMASK, ← toNat_and_PGMASK, hofs]
  · show _ < 0xc0000000
    omega

/-- The number of pages of a segment. -/
def Phdr.pageCnt (phdr : Phdr) : ℕ := (phdr.vaddr.toNat % 4096 + phdr.memsz.toNat + 4095) / 4096

/-- The addresses of the pages that the segment has an address in. -/
def Phdr.InPages (phdr : Phdr) (a : ℕ) : Prop :=
  a / 4096 * 4096 < phdr.vaddr.toNat + phdr.memsz.toNat ∧ phdr.vaddr.toNat < a / 4096 * 4096 + 4096

instance (phdr : Phdr) (a : ℕ) : Decidable (phdr.InPages a) := inferInstanceAs (Decidable (_ ∧ _))

variable {a : ℕ}

theorem Phdr.inPages (ha : phdr.vaddr.toNat ≤ a) (hlt : a < phdr.vaddr.toNat + phdr.memsz.toNat) : phdr.InPages a := by
  unfold Phdr.InPages
  omega

theorem Phdr.toNat_memPage (phdr : Phdr) : phdr.memPage.toNat = phdr.vaddr.toNat / 4096 * 4096 := toNat_and_not_PGMASK _

theorem Phdr.toNat_filePage (phdr : Phdr) : phdr.filePage.toNat = phdr.offset.toNat / 4096 * 4096 := toNat_and_not_PGMASK _

theorem Phdr.inPages_iff : phdr.InPages a ↔ phdr.memPage.toNat ≤ a ∧ a < phdr.memPage.toNat + 4096 * phdr.pageCnt := by
  rw [phdr.toNat_memPage]
  unfold Phdr.InPages Phdr.pageCnt
  omega

namespace Valid

variable (h : Valid phdr fileLength)
include h

theorem toNat_readBytes :
    phdr.readBytes.toNat = if 0 < phdr.filesz.toNat then phdr.vaddr.toNat % 4096 + phdr.filesz.toNat else 0 := by
  have huser : phdr.vaddr.toNat + phdr.memsz.toNat < 0xc0000000 := h.user
  have hsizes := h.sizes
  unfold Phdr.readBytes Phdr.pageOffset
  rw [apply_ite BitVec.toNat, BitVec.toNat_add, toNat_and_PGMASK, Nat.mod_eq_of_lt (by omega)]
  rfl

theorem toNat_roundUp : (Phdr.roundUp (phdr.pageOffset + phdr.memsz)).toNat = 4096 * phdr.pageCnt := by
  have huser : phdr.vaddr.toNat + phdr.memsz.toNat < 0xc0000000 := h.user
  unfold Phdr.roundUp Phdr.pageOffset Phdr.pageCnt
  rw [BitVec.toNat_mul, BitVec.toNat_udiv, BitVec.toNat_add, BitVec.toNat_add, toNat_and_PGMASK,
    show (4095#32).toNat = 4095 from rfl, show (4096#32).toNat = 4096 from rfl]
  omega

/-- **The bytes of a segment fill its pages.** -/
theorem readBytes_add_zeroBytes : phdr.readBytes.toNat + phdr.zeroBytes.toNat = 4096 * phdr.pageCnt := by
  have hround := h.toNat_roundUp
  have hread := h.toNat_readBytes
  have hsizes := h.sizes
  unfold Phdr.zeroBytes
  by_cases hpos : 0#32 < phdr.filesz
  · have hle : phdr.readBytes.toNat ≤ 4096 * phdr.pageCnt := by
      rw [hread]
      unfold Phdr.pageCnt
      split <;> omega
    rw [if_pos hpos, BitVec.toNat_sub_of_le (BitVec.le_def.mpr (hround ▸ hle)), hround]
    omega
  · have hzero : phdr.readBytes = 0#32 := if_neg hpos
    rw [if_neg hpos, hround, hzero]
    exact Nat.zero_add _

theorem end_le : phdr.memPage.toNat + 4096 * phdr.pageCnt ≤ 0xc0000000 := by
  have huser : phdr.vaddr.toNat + phdr.memsz.toNat < 0xc0000000 := h.user
  rw [phdr.toNat_memPage]
  unfold Phdr.pageCnt
  omega

theorem lt_of_inPages (ha : phdr.InPages a) : a < 0xc0000000 :=
  Nat.lt_of_lt_of_le (Phdr.inPages_iff.mp ha).2 h.end_le

theorem read_iff (ha : phdr.vaddr.toNat ≤ a) :
    a - phdr.memPage.toNat < phdr.readBytes.toNat ↔ a < phdr.vaddr.toNat + phdr.filesz.toNat := by
  rw [phdr.toNat_memPage, h.toNat_readBytes]
  split <;> omega

theorem file_offset (ha : phdr.vaddr.toNat ≤ a) :
    phdr.filePage.toNat + (a - phdr.memPage.toNat) = phdr.offset.toNat + (a - phdr.vaddr.toNat) := by
  have := h.offset
  rw [phdr.toNat_memPage, phdr.toNat_filePage]
  omega

end Valid

end Pintos.Userprog.Load
