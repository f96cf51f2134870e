import Pintos.Basis.Program
import Pintos.Userprog.Pagedir

/-!
# Page tables in memory

The functions of `userprog/pagedir.c` on the words they read and write.
`Pintos.Userprog.Pagedir` has a page directory as a map from indices to page tables; here it is
a page of memory whose words hold the physical addresses of page tables, and these are pages
of memory too, made when the first page of their range is mapped.

## The model

The memory is given by pages: `mem p i` is the word at index `i` of the page whose kernel
address is `p`. Page directories and page tables begin at page boundaries, so that the pointers
`pd + pd_no (vaddr)` and `&pt[pt_no (vaddr)]` are a page and an index. An assertion that fails
is an error, those of `threads/pte.h` and `threads/vaddr.h` included. What `palloc_get_page`
returns is an argument. `invalidate_pagedir` only clears the translation lookaside buffer,
which is not modelled.
-/

namespace Pintos.Userprog.PageTable

open Function

/-- The words of each page, by its kernel address. -/
abbrev Mem := Addr → BitVec 10 → BitVec 32

/-- An assertion has failed. -/
inductive Fault where
  | assertion
  deriving DecidableEq

/-- A function on page tables. -/
abbrev Paging := Program Mem Fault

def assert (p : Prop) [Decidable p] : Except Fault Unit := if p then pure () else throw .assertion

/-- Read a word. -/
def load (page : Addr) (i : BitVec 10) : Paging (BitVec 32) := do
  pure ((← get) page i)

/-- The memory with a word written. -/
def Mem.set (mem : Mem) (page : Addr) (i : BitVec 10) (w : BitVec 32) : Mem :=
  update mem page (update (mem page) i w)

/-- The memory with a page of zeros. -/
def Mem.zero (mem : Mem) (page : Addr) : Mem := update mem page fun _ => 0#32

/-- Write a word. -/
def store (page : Addr) (i : BitVec 10) (w : BitVec 32) : Paging Unit := modify fun mem => mem.set page i w

/-! ### Addresses and entries -/

/-- The bit of an entry whose page user code can use. -/
def PTE_U : BitVec 32 := 0x4#32

/-- The bit of an entry whose page was accessed. -/
def PTE_A : BitVec 32 := 0x20#32

/-- The bit of an entry whose page was written. -/
def PTE_D : BitVec 32 := 0x40#32

/-- Virtual page number. -/
def pgNo (va : Addr) : BitVec 20 := va.extractLsb' 12 20

def ptov (paddr : BitVec 32) : Except Fault Addr := do
  assert (paddr < PHYS_BASE)
  pure (paddr + PHYS_BASE)

def vtop (vaddr : Addr) : Except Fault (BitVec 32) := do
  assert (PHYS_BASE ≤ vaddr)
  pure (vaddr - PHYS_BASE)

def pdeCreate (pt : Addr) : Except Fault (BitVec 32) := do
  assert (pgOfs pt = 0#32)
  let paddr ← vtop pt
  pure (paddr ||| PTE_U ||| PTE_P ||| PTE_W)

def pdeGetPt (pde : BitVec 32) : Except Fault Addr := do
  assert (pde &&& PTE_P ≠ 0#32)
  ptov (pde &&& PTE_ADDR)

def pteCreateKernel (page : Addr) (writable : Bool) : Except Fault (BitVec 32) := do
  assert (pgOfs page = 0#32)
  let paddr ← vtop page
  pure (paddr ||| PTE_P ||| (if writable then PTE_W else 0#32))

def pteCreateUser (page : Addr) (writable : Bool) : Except Fault (BitVec 32) := do
  let pte ← pteCreateKernel page writable
  pure (pte ||| PTE_U)

/-- `pte_get_page`, with the assertion of `ptov`. -/
def pteGetPage (pte : BitVec 32) : Except Fault Addr := ptov (pte &&& PTE_ADDR)

/-! ### The functions of `pagedir.c` -/

/-- `pagedir_create`: `memcpy` of `base_page_dir` to the new page. -/
def pagedirCreate (basePageDir : Addr) (palloc : Option Addr) : Paging (Option Addr) := do
  match palloc with
  | none => pure none
  | some pd =>
    modify fun mem => update mem pd (mem basePageDir)
    pure (some pd)

/-- `palloc_get_page (PAL_ZERO)`, with its result. -/
def pallocGetPageZero (palloc : Option Addr) : Paging (Option Addr) := do
  match palloc with
  | none => pure none
  | some page =>
    modify fun mem => mem.zero page
    pure (some page)

/-- `lookup_page`, past the entry of the page directory. -/
def lookupTable (pde : BitVec 32) (vaddr : Addr) : Paging (Option (Addr × BitVec 10)) := do
  let pt ← pdeGetPt pde
  pure (some (pt, ptNo vaddr))

/-- `lookup_page` where there is no page table and one is to be made. -/
def lookupNew (pd vaddr : Addr) (palloc : Option Addr) : Paging (Option (Addr × BitVec 10)) := do
  match ← pallocGetPageZero palloc with
  | none => pure none
  | some pt =>
    let new ← pdeCreate pt
    store pd (pdNo vaddr) new
    lookupTable (← load pd (pdNo vaddr)) vaddr

/-- `lookup_page`: a pointer to the entry of the page of `vaddr`, or `NULL`. -/
def lookupPage (pd vaddr : Addr) (create : Bool) (palloc : Option Addr) : Paging (Option (Addr × BitVec 10)) := do
  assert (pd ≠ 0#32)
  assert (create = false ∨ isUserVaddr vaddr = true)
  let pde ← load pd (pdNo vaddr)
  if pde = 0#32 then
    if create then lookupNew pd vaddr palloc else pure none
  else lookupTable pde vaddr

def pagedirSetPage (ramPages : ℕ) (basePageDir pd upage kpage : Addr) (writable : Bool) (palloc : Option Addr) :
    Paging Bool := do
  assert (pgOfs upage = 0#32)
  assert (pgOfs kpage = 0#32)
  assert (isUserVaddr upage = true)
  let paddr ← vtop kpage
  assert (paddr.toNat / 4096 < ramPages)
  assert (pd ≠ basePageDir)
  match ← lookupPage pd upage true palloc with
  | none => pure false
  | some (pt, i) =>
    let old ← load pt i
    assert (old &&& PTE_P = 0#32)
    let pte ← pteCreateUser kpage writable
    store pt i pte
    pure true

def pagedirGetPage (pd uaddr : Addr) : Paging Addr := do
  assert (isUserVaddr uaddr = true)
  match ← lookupPage pd uaddr false none with
  | none => pure 0#32
  | some (pt, i) =>
    let pte ← load pt i
    if pte &&& PTE_P ≠ 0#32 then
      let page ← pteGetPage pte
      pure (page + pgOfs uaddr)
    else pure 0#32

def pagedirClearPage (pd upage : Addr) : Paging Unit := do
  assert (pgOfs upage = 0#32)
  assert (isUserVaddr upage = true)
  match ← lookupPage pd upage false none with
  | none => pure ()
  | some (pt, i) =>
    let pte ← load pt i
    if pte &&& PTE_P ≠ 0#32 then store pt i (pte &&& ~~~PTE_P) else pure ()

/-- Set or clear a flag in the entry of a page. -/
def setFlag (flag : BitVec 32) (pd vpage : Addr) (value : Bool) : Paging Unit := do
  match ← lookupPage pd vpage false none with
  | none => pure ()
  | some (pt, i) =>
    let pte ← load pt i
    store pt i (if value then pte ||| flag else pte &&& ~~~flag)

def pagedirSetDirty (pd vpage : Addr) (dirty : Bool) : Paging Unit := setFlag PTE_D pd vpage dirty

def pagedirSetAccessed (pd vpage : Addr) (accessed : Bool) : Paging Unit := setFlag PTE_A pd vpage accessed

/-! ### `paging_init` -/

/-- The rest of the loop of `paging_init`, `n` pages from `page` on. `palloc page` is what
`palloc_get_page` returns for the table that `page` needs, `text` says which addresses are
those of the kernel's code. -/
def pagingLoop (pd : Addr) (palloc : ℕ → Addr) (text : Addr → Bool) : ℕ → ℕ → Addr → Paging Unit
  | 0, _, _ => pure ()
  | n + 1, page, pt => do
    let vaddr ← ptov (BitVec.ofNat 32 (page * 4096))
    let pde ← load pd (pdNo vaddr)
    let table ← if pde = 0#32 then do
        modify fun mem => mem.zero (palloc page)
        let new ← pdeCreate (palloc page)
        store pd (pdNo vaddr) new
        pure (palloc page)
      else pure pt
    let pte ← pteCreateKernel vaddr (!text vaddr)
    store table (ptNo vaddr) pte
    pagingLoop pd palloc text n (page + 1) table

/-- `paging_init`, with the page of `base_page_dir`. -/
def pagingInit (ramPages : ℕ) (basePageDir : Addr) (palloc : ℕ → Addr) (text : Addr → Bool) : Paging Unit := do
  modify fun mem => mem.zero basePageDir
  pagingLoop basePageDir palloc text ramPages 0 0#32

/-! ### Bits -/

theorem toNat_pgOfs (a : Addr) : (pgOfs a).toNat = a.toNat % 4096 := by
  unfold pgOfs
  exact Nat.and_two_pow_sub_one_eq_mod a.toNat 12

variable {a : Addr}

theorem pgOfs_eq_zero_iff : pgOfs a = 0#32 ↔ a.toNat % 4096 = 0 := by
  rw [← toNat_pgOfs, BitVec.toNat_eq]
  rfl

theorem toNat_pdNo (a : Addr) : (pdNo a).toNat = a.toNat / 4194304 := by
  simp [pdNo, BitVec.extractLsb'_toNat, Nat.shiftRight_eq_div_pow]
  omega

theorem toNat_ptNo (a : Addr) : (ptNo a).toNat = a.toNat / 4096 % 1024 := by
  simp [ptNo, BitVec.extractLsb'_toNat, Nat.shiftRight_eq_div_pow]

theorem toNat_pgNo (a : Addr) : (pgNo a).toNat = a.toNat / 4096 := by
  simp [pgNo, BitVec.extractLsb'_toNat, Nat.shiftRight_eq_div_pow]
  omega

/-- A page number is an index of the page directory and one of a page table. -/
theorem pgNo_eq_iff {b : Addr} : pgNo a = pgNo b ↔ pdNo a = pdNo b ∧ ptNo a = ptNo b := by
  rw [BitVec.toNat_eq, BitVec.toNat_eq, BitVec.toNat_eq, toNat_pgNo, toNat_pgNo, toNat_pdNo, toNat_pdNo, toNat_ptNo,
    toNat_ptNo]
  omega

theorem pdNo_user (h : isUserVaddr a = true) : (pdNo a).toNat < 768 := by
  have ha := isUserVaddr_iff.mp h
  rw [toNat_pdNo]
  omega

theorem and_addr {x : BitVec 32} (h : pgOfs x = 0#32) : x &&& PTE_ADDR = x := by
  have hsplit : x &&& PTE_ADDR ||| pgOfs x = x := by
    unfold pgOfs PTE_ADDR
    rw [← BitVec.and_or_distrib_left, show (0xfffff000#32 ||| 0xfff#32 : BitVec 32) = BitVec.allOnes 32 by decide,
      BitVec.and_allOnes]
  rw [h, BitVec.or_zero] at hsplit
  exact hsplit

/-! ### Pages and entries -/

/-- The kernel address of a page of RAM. -/
structure IsPage (ramPages : ℕ) (p : Addr) : Prop where
  /-- It is the start of a page. -/
  aligned : pgOfs p = 0#32
  /-- It is in the kernel's part. -/
  kernel : PHYS_BASE ≤ p
  inRam : (p - PHYS_BASE).toNat / 4096 < ramPages

instance (ramPages : ℕ) (p : Addr) : Decidable (IsPage ramPages p) :=
  decidable_of_iff (pgOfs p = 0#32 ∧ PHYS_BASE ≤ p ∧ (p - PHYS_BASE).toNat / 4096 < ramPages)
    ⟨fun h => ⟨h.1, h.2.1, h.2.2⟩, fun h => ⟨h.aligned, h.kernel, h.inRam⟩⟩

/-- An entry that points to a page, whatever its other flags are. -/
structure Points (e : BitVec 32) (p : Addr) : Prop where
  /-- The entry is present. -/
  present : e &&& PTE_P ≠ 0#32
  addr : e &&& PTE_ADDR = p - PHYS_BASE

theorem assert_of {p : Prop} [Decidable p] (h : p) : assert p = .ok () := if_pos h

section Pages

variable {ramPages : ℕ} {p q : Addr} {e : BitVec 32}

section

variable (h : IsPage ramPages p)
include h

theorem IsPage.toNat_paddr : (p - PHYS_BASE).toNat = p.toNat - 0xc0000000 := by
  rw [BitVec.toNat_sub_of_le h.kernel]
  rfl

theorem IsPage.paddr_aligned : pgOfs (p - PHYS_BASE) = 0#32 := by
  have hp := pgOfs_eq_zero_iff.mp h.aligned
  rw [pgOfs_eq_zero_iff, h.toNat_paddr]
  omega

theorem IsPage.vtop : vtop p = .ok (p - PHYS_BASE) := by
  unfold PageTable.vtop
  rw [assert_of h.kernel]
  rfl

theorem IsPage.ptov : ptov (p - PHYS_BASE) = .ok p := by
  have hlt : p - PHYS_BASE < PHYS_BASE := by
    have hk : 0xc0000000 ≤ p.toNat := h.kernel
    have hp := p.isLt
    show (p - PHYS_BASE).toNat < 0xc0000000
    rw [h.toNat_paddr]
    omega
  unfold PageTable.ptov
  rw [assert_of hlt, show (do Except.ok (); pure (p - PHYS_BASE + PHYS_BASE) : Except Fault Addr) =
    .ok (p - PHYS_BASE + PHYS_BASE) from rfl, BitVec.sub_add_cancel]

theorem IsPage.add_ofs_ne_zero (a : Addr) : p + pgOfs a ≠ 0#32 := by
  have hp := pgOfs_eq_zero_iff.mp h.aligned
  have hk : 0xc0000000 ≤ p.toNat := h.kernel
  have hofs := pgOfs_le a
  intro heq
  have hnat : (p + pgOfs a).toNat = p.toNat + (pgOfs a).toNat := by
    rw [BitVec.toNat_add]
    omega
  rw [heq, BitVec.toNat_zero] at hnat
  omega

theorem IsPage.points_or {flags : BitVec 32} (hflags : flags &&& PTE_ADDR = 0#32)
    (hpresent : flags &&& PTE_P = PTE_P) : Points (p - PHYS_BASE ||| flags) p := by
  constructor
  · intro hzero
    have hbit : flags &&& PTE_P = 0#32 := by
      rw [BitVec.and_comm, BitVec.and_or_distrib_left, BitVec.or_eq_zero_iff] at hzero
      rw [BitVec.and_comm]
      exact hzero.2
    rw [hpresent] at hbit
    exact absurd hbit (by decide)
  · rw [BitVec.and_comm, BitVec.and_or_distrib_left, BitVec.and_comm PTE_ADDR flags, hflags, BitVec.or_zero,
      BitVec.and_comm, and_addr h.paddr_aligned]

theorem IsPage.pdeCreate : ∃ e, pdeCreate p = .ok e ∧ Points e p := by
  refine ⟨p - PHYS_BASE ||| (PTE_U ||| PTE_P ||| PTE_W), ?_, h.points_or (by decide) (by decide)⟩
  unfold PageTable.pdeCreate
  rw [assert_of h.aligned, h.vtop, ← BitVec.or_assoc, ← BitVec.or_assoc]
  rfl

theorem IsPage.pteCreateKernel (writable : Bool) :
    pteCreateKernel p writable = .ok (p - PHYS_BASE ||| PTE_P ||| (if writable then PTE_W else 0#32)) := by
  unfold PageTable.pteCreateKernel
  rw [assert_of h.aligned, h.vtop]
  rfl

theorem IsPage.or_and_flag (flags : BitVec 32) {mask : BitVec 32} (hmask : mask &&& 0xfff#32 = mask) :
    (p - PHYS_BASE ||| flags) &&& mask = flags &&& mask := by
  have hzero : (p - PHYS_BASE) &&& mask = 0#32 := by
    have hofs : (p - PHYS_BASE) &&& 0xfff#32 = 0#32 := h.paddr_aligned
    rw [← hmask, BitVec.and_comm mask, ← BitVec.and_assoc, hofs, BitVec.zero_and]
  rw [BitVec.and_comm, BitVec.and_or_distrib_left, BitVec.and_comm mask, hzero, BitVec.zero_or, BitVec.and_comm]

theorem IsPage.pteCreateUser (writable : Bool) :
    ∃ e, pteCreateUser p writable = .ok e ∧ Points e p ∧ e &&& PTE_W = if writable then PTE_W else 0#32 := by
  refine ⟨p - PHYS_BASE ||| (PTE_P ||| (if writable then PTE_W else 0#32) ||| PTE_U), ?_, ?_, ?_⟩
  · unfold PageTable.pteCreateUser
    rw [h.pteCreateKernel, ← BitVec.or_assoc, ← BitVec.or_assoc]
    rfl
  · cases writable with
    | false | true => exact h.points_or (by decide) (by decide)
  · rw [h.or_and_flag _ (by decide)]
    cases writable <;> decide

end

theorem Points.ne_zero (h : Points e p) : e ≠ 0#32 := by
  rintro rfl
  exact h.present (BitVec.zero_and)

theorem Points.page (h : Points e p) : Userprog.pteGetPage e = p := by
  unfold Userprog.pteGetPage
  rw [h.addr, BitVec.sub_add_cancel]

theorem Points.unique (hp : Points e p) (hq : Points e q) : p = q := hp.page.symm.trans hq.page

theorem points_of_present (h : e &&& PTE_P ≠ 0#32) : Points e (Userprog.pteGetPage e) := by
  refine ⟨h, ?_⟩
  unfold Userprog.pteGetPage
  rw [BitVec.add_sub_cancel]

theorem Points.pdeGetPt (h : Points e p) (hp : IsPage ramPages p) : pdeGetPt e = .ok p := by
  unfold PageTable.pdeGetPt
  rw [assert_of h.present, h.addr, hp.ptov]
  rfl

theorem Points.pteGetPage (h : Points e p) (hp : IsPage ramPages p) : pteGetPage e = .ok p := by
  unfold PageTable.pteGetPage
  rw [h.addr, hp.ptov]

end Pages

end Pintos.Userprog.PageTable
