import Mathlib.Data.BitVec

/-!
# Page directories

The two-level page tables of `userprog/pagedir.c`, `threads/pte.h` and
`threads/vaddr.h`, as far as the system calls read them: `pagedir_get_page`
translates a user address, and `PHYS_BASE` is where the kernel's addresses begin.

## The model

An address is a 32-bit word. A page directory gives for each of its 1024 indices
a page table, or none where the entry is `0`; a page table gives for each of its
1024 indices an entry, a 32-bit word. Every page that is present lies in the
physical memory that the kernel maps above `PHYS_BASE`, which is less than 1 GB;
this is a field of `PageDir`, so that the kernel address of a page never wraps
around to `NULL` (`pagedirGetPage_eq_zero`).
-/

namespace Pintos.Userprog

/-- An address, or any other word of the machine. -/
abbrev Addr := BitVec 32

/-- Where user addresses end. -/
def PHYS_BASE : Addr := 0xc0000000#32

/-- The present bit of an entry. -/
def PTE_P : BitVec 32 := 0x1#32

/-- The bit of an entry whose page can be written. -/
def PTE_W : BitVec 32 := 0x2#32

/-- The address bits of an entry. -/
def PTE_ADDR : BitVec 32 := 0xfffff000#32

def isUserVaddr (vaddr : Addr) : Bool := vaddr < PHYS_BASE

/-- Page directory index. -/
def pdNo (va : Addr) : BitVec 10 := va.extractLsb' 22 10

/-- Page table index. -/
def ptNo (va : Addr) : BitVec 10 := va.extractLsb' 12 10

/-- Offset within a page. -/
def pgOfs (va : Addr) : BitVec 32 := va &&& 0xfff#32

structure PageDir where
  /-- The page tables. -/
  pt : BitVec 10 → Option (BitVec 10 → BitVec 32)
  /-- A page that is present is in physical memory. -/
  frame : ∀ d t i, pt d = some t → t i &&& PTE_P ≠ 0#32 → (t i &&& PTE_ADDR).toNat + 0x1000 ≤ 0x40000000

/-- `lookup_page (pd, vaddr, false)`: the entry of the page of `vaddr`. -/
def lookupPage (pd : PageDir) (vaddr : Addr) : Option (BitVec 32) :=
  (pd.pt (pdNo vaddr)).map fun t => t (ptNo vaddr)

/-- `pte_get_page`: the kernel address of the page of an entry. -/
def pteGetPage (pte : BitVec 32) : Addr := (pte &&& PTE_ADDR) + PHYS_BASE

/-- What `pagedir_get_page` returns, past its assertion: the kernel address of the byte at
`uaddr`, or `NULL`. -/
def pagedirGetPage (pd : PageDir) (uaddr : Addr) : Addr :=
  match lookupPage pd uaddr with
  | some pte => if pte &&& PTE_P ≠ 0#32 then pteGetPage pte + pgOfs uaddr else 0#32
  | none => 0#32

/-- The page of `vaddr` is present: an access to it does not fault. -/
def PageDir.mapped (pd : PageDir) (vaddr : Addr) : Bool :=
  match lookupPage pd vaddr with
  | some pte => pte &&& PTE_P ≠ 0#32
  | none => false

/-- The page of `vaddr` can be written. -/
def PageDir.writable (pd : PageDir) (vaddr : Addr) : Bool :=
  match lookupPage pd vaddr with
  | some pte => pte &&& PTE_W ≠ 0#32
  | none => false

/-- A byte that the process may be given: below `PHYS_BASE` and mapped. -/
def PageDir.valid (pd : PageDir) (vaddr : Addr) : Bool := isUserVaddr vaddr && pd.mapped vaddr

variable {a : Addr}

theorem isUserVaddr_iff : isUserVaddr a = true ↔ a.toNat < 0xc0000000 := by
  simp [isUserVaddr, PHYS_BASE, BitVec.lt_def]

theorem toNat_add_ofNat {n : ℕ} (h : a.toNat + n < 2 ^ 32) : (a + BitVec.ofNat 32 n).toNat = a.toNat + n := by
  rw [BitVec.toNat_add, BitVec.toNat_ofNat]
  omega

theorem add_ofNat_succ (a : Addr) (i : ℕ) : a + BitVec.ofNat 32 (i + 1) = a + BitVec.ofNat 32 i + BitVec.ofNat 32 1 := by
  rw [BitVec.ofNat_add, BitVec.add_assoc]

theorem pgOfs_le (a : Addr) : (pgOfs a).toNat ≤ 0xfff := by
  unfold pgOfs
  exact Nat.and_le_right

theorem kernelAddr_ne_zero {pte : BitVec 32} (h : (pte &&& PTE_ADDR).toNat + 0x1000 ≤ 0x40000000) (a : Addr) :
    pteGetPage pte + pgOfs a ≠ 0#32 := by
  have hofs := pgOfs_le a
  have hbase : PHYS_BASE.toNat = 0xc0000000 := rfl
  have hnat : (pteGetPage pte + pgOfs a).toNat = (pte &&& PTE_ADDR).toNat + 0xc0000000 + (pgOfs a).toNat := by
    unfold pteGetPage
    rw [BitVec.toNat_add, BitVec.toNat_add, hbase]
    omega
  intro heq
  rw [heq, BitVec.toNat_zero] at hnat
  omega

/-- **`pagedir_get_page` returns `NULL` where nothing is mapped**, and only there. -/
theorem pagedirGetPage_eq_zero {pd : PageDir} : pagedirGetPage pd a = 0#32 ↔ pd.mapped a = false := by
  unfold pagedirGetPage PageDir.mapped
  cases hpte : lookupPage pd a with
  | none => exact iff_of_true rfl rfl
  | some pte =>
    obtain ⟨t, ht, hpte⟩ := Option.map_eq_some_iff.mp hpte
    by_cases hp : pte &&& PTE_P ≠ 0#32
    · have hframe : (pte &&& PTE_ADDR).toNat + 0x1000 ≤ 0x40000000 := hpte ▸ pd.frame _ t _ ht (hpte ▸ hp)
      simp only [if_pos hp]
      exact iff_of_false (kernelAddr_ne_zero hframe a) (by simpa using hp)
    · simp only [if_neg hp]
      exact iff_of_true trivial (by simpa using hp)

theorem PageDir.valid_iff {pd : PageDir} : pd.valid a = true ↔ isUserVaddr a = true ∧ pd.mapped a = true := by
  simp [PageDir.valid]

end Pintos.Userprog
