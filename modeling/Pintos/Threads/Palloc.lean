import Mathlib.Algebra.Group.Int.Defs
import Pintos.Basis.Spans
import Pintos.Basis.Transition
import Pintos.Lib.Bitmap
import Pintos.Threads.Malloc

/-!
# The page allocator

`palloc_init`, `palloc_get_multiple` and `palloc_free_multiple` (`threads/palloc.c`). The memory
after the kernel is divided into two pools, each with a bitmap at its start that has a bit for each
page after the bitmap.

## The model

An address is a number below `2 ^ 32`, and is computed modulo `2 ^ 32`; the null pointer is 0.
`_end`, `ram_pages` and `user_page_limit` are arguments of `palloc_init`. The state has the two
pools, with what their bitmaps hold, and the bytes of the memory, which `memset` writes to when
pages are handed out or freed. Calls come one after the other, so that the locks do nothing.

A run takes any requests, of at least one page, and frees pages that it has: `out` has, for each
pool, the addresses and numbers of pages that requests to the pool returned and that were not freed
yet.

## What is proved

**`palloc_correct`**: when `palloc_init` returns, the pools and their bitmaps have memory of their
own, and each bitmap fits. In every run the pages that are out are pages of the pool they were
requested from, and no page is out twice; freeing them finds that pool, with all their bits set; and
a request fails only when the pool has no run of so many free pages. What is written are pages of
the pools, so never the bitmaps.
-/

namespace Pintos.Threads.Palloc

open Function Lib Memory Spans
open Malloc (PGSIZE pgOfs)

/-! ### The model -/

/-- As a number; `Userprog.PHYS_BASE` is the word. -/
def PHYS_BASE : ℕ := 0xc0000000

def pgNo (va : ℕ) : ℕ := va / PGSIZE

def pgRoundUp (va : ℕ) : ℕ := (va + PGSIZE - 1) % 2 ^ 32 / PGSIZE * PGSIZE

def divRoundUp (x step : ℕ) : ℕ := (x + step - 1) % 2 ^ 32 / step

/-- What stops the kernel. -/
inductive Panic where
  /-- `PANIC`, with its message. -/
  | halt (message : String)
  /-- An assertion, those of `bitmap.c` included. -/
  | assertion
  | notReached
  deriving DecidableEq

/-- `kernel_pool` and `user_pool`. -/
inductive PoolName where
  | kernel
  | user
  deriving DecidableEq

structure Pool where
  /-- The bitmap that `used_map` points to. -/
  usedMap : Bitmap
  /-- Where it is. -/
  mapAddr : ℕ
  /-- The first page. -/
  base : ℕ

/-- The pools and the memory. -/
structure State where
  pool : PoolName → Pool
  mem : Bytes

def initPool (mem : Bytes) (base pageCnt : ℕ) (name : String) : Except Panic Pool :=
  let bmPages := divRoundUp (bitmapBufSize pageCnt) PGSIZE
  if pageCnt < bmPages then .error (.halt ("Not enough memory in " ++ name ++ " for bitmap."))
  else
    match bitmapCreateInBuf (pageCnt - bmPages) (fun i => mem (base + 8 + i)) (bmPages * PGSIZE % 2 ^ 32) with
    | none => .error .assertion
    | some usedMap => .ok ⟨usedMap, base, (base + bmPages * PGSIZE) % 2 ^ 32⟩

/-- `free_end`, with the assertion of `ptov`. -/
def freeEnd (ramPages : ℕ) : Except Panic ℕ :=
  let paddr := ramPages * PGSIZE % 2 ^ 32
  if paddr < PHYS_BASE then .ok ((paddr + PHYS_BASE) % 2 ^ 32) else .error .assertion

/-- `(free_end - free_start) / PGSIZE`, a difference of pointers. -/
def freePages (freeStart freeEnd : ℕ) : ℕ := ((((freeEnd : ℤ) - freeStart).bmod (2 ^ 32)).tdiv PGSIZE % 2 ^ 32).toNat

def userPages (freePages userPageLimit : ℕ) : ℕ :=
  if userPageLimit < freePages / 2 then userPageLimit else freePages / 2

def pallocInit (kernelEnd ramPages userPageLimit : ℕ) (mem : Bytes) : Except Panic State := do
  let freeStart := pgRoundUp kernelEnd
  let freePages := freePages freeStart (← freeEnd ramPages)
  let userPages := userPages freePages userPageLimit
  let kernelPages := freePages - userPages
  let kernel ← initPool mem freeStart kernelPages "kernel pool"
  let user ← initPool mem ((freeStart + kernelPages * PGSIZE) % 2 ^ 32) userPages "user pool"
  return { pool := fun | .kernel => kernel | .user => user, mem := mem }

/-- `enum palloc_flags`. -/
structure Flags where
  /-- `PAL_ASSERT`. -/
  assert : Bool
  /-- `PAL_ZERO`. -/
  zero : Bool
  /-- `PAL_USER`. -/
  user : Bool
  deriving DecidableEq

/-- The pool of a request. -/
def Flags.poolName (flags : Flags) : PoolName := if flags.user then .user else .kernel

/-- The pool with another bitmap. -/
def State.setMap (s : State) (w : PoolName) (usedMap : Bitmap) : State :=
  { s with pool := update s.pool w { s.pool w with usedMap := usedMap } }

def State.memset (s : State) (a : ℕ) (v : UInt8) (n : ℕ) : State := { s with mem := fill s.mem a v n }

/-- `palloc_get_multiple`: the address, which may be a null pointer. -/
def pallocGetMultiple (flags : Flags) (pageCnt : ℕ) : Program State Panic ℕ := do
  let s ← get
  if pageCnt = 0 then return 0
  else
    match bitmapScanAndFlip (s.pool flags.poolName).usedMap 0 pageCnt false with
    | none => throw .assertion
    | some (pageIdx, usedMap) =>
      set (s.setMap flags.poolName usedMap)
      let pages := match pageIdx with
        | some pageIdx => ((s.pool flags.poolName).base + PGSIZE * pageIdx) % 2 ^ 32
        | none => 0
      if pages ≠ 0 then
        if flags.zero then modify fun s => s.memset pages 0 (PGSIZE * pageCnt % 2 ^ 32)
        return pages
      else if flags.assert then throw (.halt "palloc_get: out of pages")
      else return pages

def pageFromPool (pool : Pool) (page : ℕ) : Bool :=
  let startPage := pgNo pool.base
  let endPage := (startPage + pool.usedMap.bitCnt) % 2 ^ 32
  startPage ≤ pgNo page ∧ pgNo page < endPage

/-- The pool that `palloc_free_multiple` finds. -/
def findPool (s : State) (pages : ℕ) : Option PoolName :=
  if pageFromPool (s.pool .kernel) pages then some .kernel
  else if pageFromPool (s.pool .user) pages then some .user
  else none

def pallocFreeMultiple (pages pageCnt : ℕ) : Program State Panic Unit := do
  let s ← get
  if pgOfs pages ≠ 0 then throw .assertion
  else if pages = 0 ∨ pageCnt = 0 then return ()
  else
    match findPool s pages with
    | none => throw .notReached
    | some w =>
      let pageIdx := pgNo pages - pgNo (s.pool w).base
      let s := s.memset pages 0xcc (PGSIZE * pageCnt % 2 ^ 32)
      match bitmapAll (s.pool w).usedMap pageIdx pageCnt with
      | some true =>
        match bitmapSetMultiple (s.pool w).usedMap pageIdx pageCnt false with
        | none => throw .assertion
        | some usedMap => set (s.setMap w usedMap)
      | _ => throw .assertion

/-! ### Runs -/

/-- The allocator, and the pages that are out. -/
structure Run where
  state : State
  /-- The addresses and numbers of pages that a pool has handed out. -/
  out : PoolName → List (ℕ × ℕ)

inductive Call where
  /-- `palloc_get_multiple`. -/
  | get (flags : Flags) (pageCnt : ℕ)
  /-- `palloc_free_multiple` of pages that are out. -/
  | free (w : PoolName) (n : ℕ)
  deriving DecidableEq

def step (r : Run) : Call → Outcome Run
  | .get flags pageCnt =>
    if pageCnt = 0 then .disabled
    else
      match pallocGetMultiple flags pageCnt r.state with
      | .ok (pages, s) =>
        if pages = 0 then .next { r with state := s }
        else .next ⟨s, update r.out flags.poolName ((pages, pageCnt) :: r.out flags.poolName)⟩
      | .error _ => .fault
  | .free w n =>
    match (r.out w)[n]? with
    | none => .disabled
    | some (pages, pageCnt) =>
      match pallocFreeMultiple pages pageCnt r.state with
      | .ok (_, s) => .next ⟨s, update r.out w ((r.out w).eraseIdx n)⟩
      | .error _ => .fault

/-- All runs from a state. -/
def runs (s : State) : System Run Call where
  init r := r = ⟨s, fun _ => []⟩
  step := step

/-! ### The layout -/

/-- The bytes of pages, as a span. -/
def bytesOf (pages : ℕ × ℕ) : ℕ × ℕ := (pages.1, PGSIZE * pages.2)

/-- The pages of a pool, and those of its bitmap, as spans of bytes. -/
def State.regions (s : State) : List (ℕ × ℕ) :=
  [PoolName.kernel, .user].flatMap fun w =>
    [((s.pool w).mapAddr, (s.pool w).base - (s.pool w).mapAddr), ((s.pool w).base, PGSIZE * (s.pool w).usedMap.bitCnt)]

/-- The free memory: it starts in the kernel's part of the addresses, and its end is an address. -/
structure FreeMemory (kernelEnd ramPages : ℕ) : Prop where
  start : PHYS_BASE ≤ pgRoundUp kernelEnd
  le : pgRoundUp kernelEnd ≤ PHYS_BASE + ramPages * PGSIZE
  fits : PHYS_BASE + ramPages * PGSIZE < 2 ^ 32

/-- The order of the pools and their bitmaps in the memory. -/
structure Layout (freeStart freeEnd : ℕ) (s : State) : Prop where
  start : freeStart ≤ (s.pool .kernel).mapAddr
  room : ∀ w, (s.pool w).mapAddr + bitmapBufSize (s.pool w).usedMap.bitCnt ≤ (s.pool w).base
  aligned : ∀ w, PGSIZE ∣ (s.pool w).mapAddr ∧ PGSIZE ∣ (s.pool w).base
  next : (s.pool .kernel).base + PGSIZE * (s.pool .kernel).usedMap.bitCnt ≤ (s.pool .user).mapAddr
  stop : (s.pool .user).base + PGSIZE * (s.pool .user).usedMap.bitCnt ≤ freeEnd

section Layout

variable {mem : Bytes} {base pageCnt kernelEnd ramPages userPageLimit freeStart fEnd : ℕ} {name : String} {p : Pool}
  {s s' : State} {w : PoolName}

/-- **A pool** that fits in the addresses: the pages of the bitmap come first, and the bitmap
fits. -/
theorem initPool_eq (h : initPool mem base pageCnt name = .ok p) (hfits : base + PGSIZE * pageCnt < 2 ^ 32) :
    p.mapAddr = base ∧ base + bitmapBufSize p.usedMap.bitCnt ≤ p.base ∧ (PGSIZE ∣ base → PGSIZE ∣ p.base) ∧
      p.base + PGSIZE * p.usedMap.bitCnt = base + PGSIZE * pageCnt ∧ ∀ k < p.usedMap.bitCnt, p.usedMap.bit k = false := by
  have hsize : ∀ n ≤ pageCnt, bitmapBufSize n = 8 + 4 * ((n + 31) / 32) := fun n hn => by
    simp only [bitmapBufSize, byteCnt, elemCnt, PGSIZE] at *
    omega
  unfold initPool at h
  generalize hbm : divRoundUp (bitmapBufSize pageCnt) PGSIZE = bmPages at h
  -- the bitmap is sized for the pages before its own are subtracted
  have hroom : bitmapBufSize pageCnt ≤ PGSIZE * bmPages := by
    rw [← hbm, hsize pageCnt (Nat.le_refl _)]
    simp only [divRoundUp, PGSIZE] at *
    omega
  by_cases hlt : pageCnt < bmPages
  · rw [if_pos hlt] at h
    cases h
  rw [if_neg hlt] at h
  have hless : bitmapBufSize (pageCnt - bmPages) ≤ bitmapBufSize pageCnt := by
    rw [hsize _ (Nat.sub_le ..), hsize pageCnt (Nat.le_refl _)]
    omega
  have hmod : bmPages * PGSIZE % 2 ^ 32 = PGSIZE * bmPages := by
    simp only [PGSIZE] at *
    omega
  have hbits : pageCnt - bmPages + 31 < 2 ^ 32 := by
    simp only [PGSIZE] at *
    omega
  obtain ⟨b, hb, hcnt, hclear⟩ := bitmapCreateInBuf_eq (fun i => mem (base + 8 + i))
    (Nat.le_trans hless (hmod ▸ hroom)) hbits
  rw [hb] at h
  cases h
  dsimp only
  have hbase : (base + bmPages * PGSIZE) % 2 ^ 32 = base + PGSIZE * bmPages := by
    simp only [PGSIZE] at *
    omega
  rw [hcnt, hbase]
  refine ⟨rfl, by omega, fun haligned => Nat.dvd_add haligned (Nat.dvd_mul_right ..), ?_, hclear⟩
  simp only [PGSIZE] at *
  omega

theorem freePages_eq {freeStart fEnd : ℕ} (hle : freeStart ≤ fEnd) (hlt : fEnd - freeStart < 2 ^ 31) :
    freePages freeStart fEnd = (fEnd - freeStart) / PGSIZE := by
  have hdiff : (fEnd : ℤ) - freeStart = ((fEnd - freeStart : ℕ) : ℤ) := by omega
  unfold freePages
  rw [hdiff, Int.bmod_eq_of_le (by omega) (by omega), ← Int.ofNat_tdiv]
  have hsmall : (fEnd - freeStart) / PGSIZE < 2 ^ 32 := Nat.lt_of_le_of_lt (Nat.div_le_self ..) (by omega)
  rw [Int.emod_eq_of_lt (Int.natCast_nonneg _) (by exact_mod_cast hsmall), Int.toNat_natCast]

theorem pageFromPool_iff (hbase : PGSIZE ∣ p.base) (hend : p.base + PGSIZE * p.usedMap.bitCnt < 2 ^ 32) (a : ℕ) :
    pageFromPool p a = true ↔ p.base ≤ a ∧ a < p.base + PGSIZE * p.usedMap.bitCnt := by
  unfold pageFromPool pgNo
  rw [decide_eq_true_iff]
  simp only [PGSIZE] at *
  omega

theorem freeEnd_eq (hfits : PHYS_BASE + ramPages * PGSIZE < 2 ^ 32) :
    freeEnd ramPages = .ok (PHYS_BASE + ramPages * PGSIZE) := by
  have hpaddr : ramPages * PGSIZE % 2 ^ 32 = ramPages * PGSIZE := Nat.mod_eq_of_lt (by omega)
  have hlt : ramPages * PGSIZE < PHYS_BASE := by
    simp only [PHYS_BASE] at *
    omega
  unfold freeEnd
  rw [hpaddr, if_pos hlt, Nat.mod_eq_of_lt (by omega), Nat.add_comm]

/-- **`palloc_init`** lays the pools out in the free memory, with all pages free. -/
theorem pallocInit_layout (hm : FreeMemory kernelEnd ramPages)
    (h : pallocInit kernelEnd ramPages userPageLimit mem = .ok s) :
    Layout (pgRoundUp kernelEnd) (PHYS_BASE + ramPages * PGSIZE) s ∧
      ∀ w, ∀ k < (s.pool w).usedMap.bitCnt, (s.pool w).usedMap.bit k = false := by
  have haligned : PGSIZE ∣ pgRoundUp kernelEnd := ⟨_, Nat.mul_comm ..⟩
  obtain ⟨hstart, hle, hfits⟩ := hm
  unfold pallocInit at h
  generalize pgRoundUp kernelEnd = freeStart at *
  obtain ⟨fEnd, hfEnd, h⟩ := Program.ok_of_bind h
  cases (freeEnd_eq hfits).symm.trans hfEnd
  have hsmall : PHYS_BASE + ramPages * PGSIZE - freeStart < 2 ^ 31 := by
    simp only [PHYS_BASE] at *
    omega
  dsimp only at h
  rw [freePages_eq hle hsmall] at h
  generalize hpages : (PHYS_BASE + ramPages * PGSIZE - freeStart) / PGSIZE = pages at h
  have huserPages : userPages pages userPageLimit ≤ pages := by
    unfold userPages
    split <;> omega
  generalize userPages pages userPageLimit = uPages at h huserPages
  have hpart : freeStart + PGSIZE * pages ≤ PHYS_BASE + ramPages * PGSIZE := by
    have := Nat.mul_div_le (PHYS_BASE + ramPages * PGSIZE - freeStart) PGSIZE
    rw [hpages] at this
    omega
  have hsplit : freeStart + PGSIZE * (pages - uPages) + PGSIZE * uPages = freeStart + PGSIZE * pages := by
    rw [Nat.add_assoc, ← Nat.mul_add, Nat.sub_add_cancel huserPages]
  obtain ⟨kernel, hkernel, h⟩ := Program.ok_of_bind h
  obtain ⟨user, huser, h⟩ := Program.ok_of_bind h
  cases h
  obtain ⟨hkmap, hkroom, hkbase, hkend, hkclear⟩ := initPool_eq hkernel (by omega)
  rw [Nat.mod_eq_of_lt (by rw [Nat.mul_comm]; omega), Nat.mul_comm (pages - uPages)] at huser
  obtain ⟨humap, huroom, hubase, huend, huclear⟩ := initPool_eq huser (by omega)
  have hunext : PGSIZE ∣ freeStart + PGSIZE * (pages - uPages) := Nat.dvd_add haligned (Nat.dvd_mul_right ..)
  refine ⟨⟨?_, ?_, ?_, ?_, ?_⟩, ?_⟩
  · exact Nat.le_of_eq hkmap.symm
  · intro w
    cases w with
    | kernel => rwa [hkmap]
    | user => rwa [humap]
  · intro w
    cases w with
    | kernel => exact ⟨hkmap ▸ haligned, hkbase haligned⟩
    | user => exact ⟨humap ▸ hunext, hubase hunext⟩
  · exact Nat.le_of_eq (hkend.trans humap.symm)
  · show user.base + PGSIZE * user.usedMap.bitCnt ≤ _
    omega
  · intro w
    cases w with
    | kernel => exact hkclear
    | user => exact huclear

/-- What does not change of a pool. -/
def Pool.shape (p : Pool) : ℕ × ℕ × ℕ := (p.mapAddr, p.base, p.usedMap.bitCnt)

theorem shape_setMap {b : Bitmap} (hcnt : b.bitCnt = (s.pool w).usedMap.bitCnt) (v : PoolName) :
    ((s.setMap w b).pool v).shape = (s.pool v).shape := by
  obtain rfl | hv := eq_or_ne v w
  · simp only [State.setMap, update_self, Pool.shape, hcnt]
  · simp only [State.setMap, update_of_ne hv]

theorem setMap_pool_self (s : State) (w : PoolName) (b : Bitmap) : ((s.setMap w b).pool w).usedMap = b := by
  simp only [State.setMap, update_self]

theorem setMap_pool_of_ne (s : State) {v w : PoolName} (hv : v ≠ w) (b : Bitmap) : (s.setMap w b).pool v = s.pool v :=
  update_of_ne hv ..

namespace Layout

variable (h : Layout freeStart fEnd s)
include h

theorem congr (hshape : ∀ w, (s'.pool w).shape = (s.pool w).shape) : Layout freeStart fEnd s' := by
  simp only [Pool.shape, Prod.mk.injEq] at hshape
  obtain ⟨hstart, hroom, haligned, hnext, hstop⟩ := h
  constructor <;> simpa only [hshape]

theorem le_base (w : PoolName) : (s.pool w).mapAddr ≤ (s.pool w).base := Nat.le_trans (Nat.le_add_right ..) (h.room w)

theorem le_end (w : PoolName) : (s.pool w).base + PGSIZE * (s.pool w).usedMap.bitCnt ≤ fEnd := by
  cases w with
  | kernel => exact Nat.le_trans h.next (Nat.le_trans (h.le_base .user) (Nat.le_trans (Nat.le_add_right ..) h.stop))
  | user => exact h.stop

theorem start_le (w : PoolName) : freeStart ≤ (s.pool w).mapAddr := by
  cases w with
  | kernel => exact h.start
  | user =>
    have := h.start
    have := h.le_base .kernel
    have := h.next
    omega

/-- **The pools and their bitmaps have pages of their own**, in the free memory. -/
theorem regions : s.regions.Pairwise Apart ∧
    ∀ r ∈ s.regions, freeStart ≤ r.1 ∧ r.1 + r.2 ≤ fEnd ∧ PGSIZE ∣ r.1 ∧ PGSIZE ∣ r.2 := by
  have hu := h.le_base .user
  have hnext := h.next
  constructor
  · simp only [State.regions, List.flatMap_cons, List.flatMap_nil, List.append_nil, List.cons_append, List.nil_append,
      List.pairwise_cons, List.mem_cons, List.not_mem_nil, or_false, forall_eq_or_imp, forall_eq, Apart, Has]
    refine ⟨⟨?_, ?_, ?_⟩, ⟨?_, ?_⟩, ?_, by simp, .nil⟩ <;> omega
  · intro r hr
    obtain ⟨w, -, hr⟩ := List.mem_flatMap.mp hr
    have hstart := h.start_le w
    have hbase := h.le_base w
    have hend := h.le_end w
    obtain ⟨hmap, hpages⟩ := h.aligned w
    rcases List.mem_pair.mp hr with rfl | rfl
    · exact ⟨hstart, by dsimp only; omega, hmap, Nat.dvd_sub hpages hmap⟩
    · exact ⟨by dsimp only; omega, hend, hpages, Nat.dvd_mul_right ..⟩

variable {a : ℕ}

/-- **A page is found in its pool.** -/
theorem findPool_eq (hend : fEnd < 2 ^ 32) (ha : (s.pool w).base ≤ a)
    (ha' : a < (s.pool w).base + PGSIZE * (s.pool w).usedMap.bitCnt) : findPool s a = some w := by
  have hfrom : ∀ w, pageFromPool (s.pool w) a = true ↔
      (s.pool w).base ≤ a ∧ a < (s.pool w).base + PGSIZE * (s.pool w).usedMap.bitCnt := fun w =>
    pageFromPool_iff (h.aligned w).2 (Nat.lt_of_le_of_lt (h.le_end w) hend) a
  unfold findPool
  cases w with
  | kernel => rw [if_pos ((hfrom .kernel).mpr ⟨ha, ha'⟩)]
  | user =>
    have hkernel : ¬ pageFromPool (s.pool .kernel) a = true := fun hin => by
      have := ((hfrom .kernel).mp hin).2
      have := h.next
      have := h.le_base .user
      omega
    rw [if_neg hkernel, if_pos ((hfrom .user).mpr ⟨ha, ha'⟩)]

end Layout

end Layout

/-! ### Calls -/

section Calls

variable {freeStart fEnd n j : ℕ} {s : State} {w : PoolName}

theorem fill_of_not_has {m : Bytes} {i : ℕ} {v : UInt8} (h : ¬ Has (bytesOf (a, n)) i) :
    fill m a v (PGSIZE * n) i = m i := if_neg h

section

variable (h : Layout freeStart fEnd s) (hstart : 0 < freeStart) (hend : fEnd < 2 ^ 32)
include h hstart hend

/-- **`palloc_get_multiple`** returns a group of free pages, which are no longer free; it fails only
when there is none. -/
theorem pallocGetMultiple_eq (flags : Flags)
    (hn : 0 < n) :
    (∃ j b m, pallocGetMultiple flags n s =
          .ok ((s.pool flags.poolName).base + PGSIZE * j, { s.setMap flags.poolName b with mem := m }) ∧
        (s.pool flags.poolName).usedMap.Group n false j ∧ b.bitCnt = (s.pool flags.poolName).usedMap.bitCnt ∧
        b.bit = fill (s.pool flags.poolName).usedMap.bit j true n ∧
        (∀ a, ¬ Has (bytesOf ((s.pool flags.poolName).base + PGSIZE * j, n)) a → m a = s.mem a) ∧
        (flags.zero = true → ∀ a, Has (bytesOf ((s.pool flags.poolName).base + PGSIZE * j, n)) a → m a = 0)) ∨
      (pallocGetMultiple flags n s =
          (if flags.assert then .error (.halt "palloc_get: out of pages") else .ok (0, s)) ∧
        ∀ j, ¬ (s.pool flags.poolName).usedMap.Group n false j) := by
  generalize hw : flags.poolName = w
  have hle := h.le_end w
  have hpos : 0 < (s.pool w).base := Nat.lt_of_lt_of_le hstart (Nat.le_trans (h.start_le w) (h.le_base w))
  unfold pallocGetMultiple
  rw [Program.get_bind_run, if_neg (Nat.pos_iff_ne_zero.mp hn), hw]
  obtain ⟨j, b, hscan, hleast, hcnt, hbit⟩ | ⟨hscan, hnone⟩ :=
    bitmapScanAndFlip_eq n false (Nat.zero_le (s.pool w).usedMap.bitCnt)
  · have hgroup := hleast.1.2
    have hin : PGSIZE * (j + n) ≤ PGSIZE * (s.pool w).usedMap.bitCnt := Nat.mul_le_mul_left PGSIZE hgroup.1
    rw [Nat.mul_add] at hin
    have hpage : ((s.pool w).base + PGSIZE * j) % 2 ^ 32 = (s.pool w).base + PGSIZE * j := Nat.mod_eq_of_lt (by omega)
    have hbytes : PGSIZE * n % 2 ^ 32 = PGSIZE * n := Nat.mod_eq_of_lt (by omega)
    have hne : (s.pool w).base + PGSIZE * j ≠ 0 := by omega
    rw [hscan]
    simp only [hpage, hbytes, if_pos hne]
    cases flags.zero with
    | true =>
      exact .inl ⟨j, b, fill s.mem ((s.pool w).base + PGSIZE * j) 0 (PGSIZE * n), rfl, hgroup, hcnt, hbit,
        fun a ha => fill_of_not_has ha, fun _ a ha => fill_of_mem ha.1 ha.2⟩
    | false => exact .inl ⟨j, b, s.mem, rfl, hgroup, hcnt, hbit, fun a _ => rfl, fun hzero => (by cases hzero)⟩
  · have hsame : s.setMap w (s.pool w).usedMap = s := by
      unfold State.setMap
      rw [update_eq_self]
    rw [hscan]
    simp only [hsame, ne_eq, not_true_eq_false, if_false]
    refine .inr ⟨?_, fun j => hnone j (Nat.zero_le j)⟩
    cases flags.assert with
    | true | false => rfl

/-- **`palloc_free_multiple`** finds the pool of pages that are all in use, and makes them free. -/
theorem pallocFreeMultiple_eq (hgroup : (s.pool w).usedMap.Group n true j) (hn : 0 < n) :
    findPool s ((s.pool w).base + PGSIZE * j) = some w ∧
      ∃ b m, pallocFreeMultiple ((s.pool w).base + PGSIZE * j) n s = .ok ((), { s.setMap w b with mem := m }) ∧
        b.bitCnt = (s.pool w).usedMap.bitCnt ∧ b.bit = fill (s.pool w).usedMap.bit j false n ∧
        ∀ a, ¬ Has (bytesOf ((s.pool w).base + PGSIZE * j, n)) a → m a = s.mem a := by
  have hle := h.le_end w
  have hpos : 0 < (s.pool w).base := Nat.lt_of_lt_of_le hstart (Nat.le_trans (h.start_le w) (h.le_base w))
  have hin : PGSIZE * (j + n) ≤ PGSIZE * (s.pool w).usedMap.bitCnt := Nat.mul_le_mul_left PGSIZE hgroup.1
  rw [Nat.mul_add] at hin
  have hbytes : PGSIZE * n % 2 ^ 32 = PGSIZE * n := Nat.mod_eq_of_lt (by omega)
  have hpages : 0 < PGSIZE * n := Nat.mul_pos (by decide) hn
  have hfind := h.findPool_eq (w := w) hend (a := (s.pool w).base + PGSIZE * j) (by omega) (by omega)
  have hofs : pgOfs ((s.pool w).base + PGSIZE * j) = 0 :=
    Nat.mod_eq_zero_of_dvd (Nat.dvd_add (h.aligned w).2 (Nat.dvd_mul_right ..))
  have hidx : pgNo ((s.pool w).base + PGSIZE * j) - pgNo (s.pool w).base = j := by
    unfold pgNo
    rw [Nat.add_mul_div_left _ _ (by decide), Nat.add_sub_cancel_left]
  obtain ⟨all, hall, hiff⟩ := bitmapAll_eq hgroup.1
  obtain rfl : all = true := hiff.mpr hgroup
  obtain ⟨b, hset, hcnt, hbit⟩ := bitmapSetMultiple_eq false hgroup.1
  refine ⟨hfind, b, fill s.mem ((s.pool w).base + PGSIZE * j) 0xcc (PGSIZE * n), ?_, hcnt, hbit,
    fun a ha => fill_of_not_has ha⟩
  have hpool : (s.memset ((s.pool w).base + PGSIZE * j) 0xcc (PGSIZE * n)).pool = s.pool := rfl
  unfold pallocFreeMultiple
  rw [Program.get_bind_run, if_neg (by simpa using hofs), if_neg (by omega), hfind]
  dsimp only
  rw [hidx, hbytes, hpool, hall]
  rw [hset]
  rfl

end

end Calls

/-! ### What holds in a run -/

/-- Pages given by the index of the first, as they are handed out. -/
def Pool.pagesAt (p : Pool) (span : ℕ × ℕ) : ℕ × ℕ := (p.base + PGSIZE * span.1, span.2)

/-- All pages of a pool. -/
def Pool.allPages (p : Pool) : ℕ × ℕ := (p.base, p.usedMap.bitCnt)

theorem has_pagesAt {p : Pool} {span : ℕ × ℕ} :
    Has (bytesOf (p.pagesAt span)) a ↔ p.base ≤ a ∧ Has span ((a - p.base) / PGSIZE) := by
  unfold Has bytesOf Pool.pagesAt
  simp only [PGSIZE]
  omega

/-- **The invariant**: the pools stay where they are, the pages that are out are those in use, and
all other memory is left alone. -/
structure Inv (s₀ : State) (r : Run) : Prop where
  shape : ∀ w, (r.state.pool w).shape = (s₀.pool w).shape
  tiles : ∀ w, ∃ spans, r.out w = spans.map (s₀.pool w).pagesAt ∧
    Tiles (s₀.pool w).usedMap.bitCnt (r.state.pool w).usedMap.bit spans
  frame : ∀ a, (∀ w, ¬ Has (bytesOf (s₀.pool w).allPages) a) → r.state.mem a = s₀.mem a

/-- The pages that `malloc` has are among those that are out. -/
def Covers {D : List Malloc.Desc} (out : List (ℕ × ℕ)) (heap : Malloc.Heap D) : Prop :=
  ∀ page, heap.used page = true → ∃ pages ∈ out, Has (bytesOf pages) (PGSIZE * page)

section Steps

variable {freeStart fEnd : ℕ} {s₀ : State} {r : Run} {w : PoolName}

namespace Inv

theorem base_eq (h : Inv s₀ r) (w : PoolName) : (r.state.pool w).base = (s₀.pool w).base :=
  congrArg (fun shape => shape.2.1) (h.shape w)

theorem bitCnt_eq (h : Inv s₀ r) (w : PoolName) : (r.state.pool w).usedMap.bitCnt = (s₀.pool w).usedMap.bitCnt :=
  congrArg (fun shape => shape.2.2) (h.shape w)

theorem setMap (h : Inv s₀ r) {b : Bitmap} {m : Bytes} (span : ℕ × ℕ) {spans : List (ℕ × ℕ)}
    (hcnt : b.bitCnt = (s₀.pool w).usedMap.bitCnt) (htiles : Tiles (s₀.pool w).usedMap.bitCnt b.bit spans)
    (hin : span.1 + span.2 ≤ (s₀.pool w).usedMap.bitCnt)
    (hm : ∀ a, ¬ Has (bytesOf ((s₀.pool w).pagesAt span)) a → m a = r.state.mem a) :
    Inv s₀ ⟨{ r.state.setMap w b with mem := m }, update r.out w (spans.map (s₀.pool w).pagesAt)⟩ where
  shape v := (shape_setMap (hcnt.trans (h.bitCnt_eq w).symm) v).trans (h.shape v)
  tiles v := by
    dsimp only
    obtain rfl | hv := eq_or_ne v w
    · rw [update_self, setMap_pool_self]
      exact ⟨spans, rfl, htiles⟩
    · rw [update_of_ne hv, setMap_pool_of_ne _ hv]
      exact h.tiles v
  frame a ha := by
    refine (hm a fun hspan => ha w ?_).trans (h.frame a ha)
    obtain ⟨hle, hspan⟩ := has_pagesAt.mp hspan
    unfold Has at hspan
    unfold Has bytesOf Pool.allPages
    simp only [PGSIZE] at *
    omega

variable {pages : ℕ × ℕ} {n : ℕ}

section

variable (h : Inv s₀ r)
include h

theorem used (hpages : (r.out w)[n]? = some pages) : ∃ spans j, r.out w = spans.map (s₀.pool w).pagesAt ∧
      Tiles (s₀.pool w).usedMap.bitCnt (r.state.pool w).usedMap.bit spans ∧ spans[n]? = some (j, pages.2) ∧
      pages = (s₀.pool w).pagesAt (j, pages.2) ∧ 0 < pages.2 ∧ (r.state.pool w).usedMap.Group pages.2 true j := by
  obtain ⟨spans, hout, htiles⟩ := h.tiles w
  rw [hout, List.getElem?_map, Option.map_eq_some_iff] at hpages
  obtain ⟨⟨j, cnt⟩, hspan, rfl⟩ := hpages
  have hmem := List.mem_of_getElem? hspan
  obtain ⟨hpos, hle⟩ := htiles.inside _ hmem
  refine ⟨spans, j, hout, htiles, hspan, rfl, hpos, ?_, fun k hk hk' => htiles.set hmem ⟨hk, hk'⟩⟩
  rwa [h.bitCnt_eq w]

section

variable (hlayout : Layout freeStart fEnd s₀)
include hlayout

section

variable (hstart : 0 < freeStart) (hend : fEnd < 2 ^ 32)
include hstart hend

theorem get (flags : Flags) (n : ℕ) {r' : Run} (hstep : Palloc.step r (.get flags n) = .next r') : Inv s₀ r' := by
  unfold Palloc.step at hstep
  dsimp only at hstep
  by_cases hn : n = 0
  · rw [if_pos hn] at hstep
    cases hstep
  rw [if_neg hn] at hstep
  obtain ⟨j, b, m, hrun, hgroup, hcnt, hbit, hm, -⟩ | ⟨hrun, -⟩ :=
    pallocGetMultiple_eq (hlayout.congr h.shape) hstart hend flags (Nat.pos_of_ne_zero hn)
  · rw [hrun] at hstep
    dsimp only at hstep
    have hpos : (s₀.pool flags.poolName).base + PGSIZE * j ≠ 0 := by
      have := hlayout.start_le flags.poolName
      have := hlayout.le_base flags.poolName
      omega
    rw [h.base_eq] at hstep hm
    rw [if_neg hpos] at hstep
    cases hstep
    rw [Bitmap.Group, h.bitCnt_eq] at hgroup
    obtain ⟨spans, hout, htiles⟩ := h.tiles flags.poolName
    rw [hout]
    exact h.setMap (j, n) (hcnt.trans (h.bitCnt_eq _))
      (hbit ▸ htiles.take (Nat.pos_of_ne_zero hn) hgroup.1 hgroup.2) hgroup.1 hm
  · rw [hrun] at hstep
    cases hassert : flags.assert with
    | true =>
      rw [if_pos hassert] at hstep
      cases hstep
    | false =>
      rw [if_neg (Bool.eq_false_iff.mp hassert)] at hstep
      cases hstep
      exact h

theorem free (hpages : (r.out w)[n]? = some pages) :
    findPool r.state pages.1 = some w ∧
      (r.state.pool w).usedMap.Group pages.2 true (pgNo pages.1 - pgNo (r.state.pool w).base) ∧
      ∃ r', Palloc.step r (.free w n) = .next r' ∧ Inv s₀ r' := by
  obtain ⟨spans, j, hout, htiles, hspan, hat, hpos, hgroup⟩ := h.used hpages
  have hlay := hlayout.congr h.shape
  obtain ⟨hfind, b, m, hrun, hcnt, hbit, hm⟩ := pallocFreeMultiple_eq hlay hstart hend hgroup hpos
  have haddr : pages.1 = (r.state.pool w).base + PGSIZE * j := by
    rw [hat, h.base_eq w]
    rfl
  have hidx : pgNo pages.1 - pgNo (r.state.pool w).base = j := by
    rw [haddr, pgNo, pgNo, Nat.add_mul_div_left _ _ (by decide), Nat.add_sub_cancel_left]
  refine ⟨haddr ▸ hfind, hidx.symm ▸ hgroup, ⟨{ r.state.setMap w b with mem := m },
    update r.out w ((r.out w).eraseIdx n)⟩, ?_, ?_⟩
  · unfold Palloc.step
    dsimp only
    rw [hpages]
    dsimp only
    rw [haddr, hrun]
  · obtain ⟨hlt, hget⟩ := List.getElem?_eq_some_iff.mp hspan
    have hperm : spans.Perm ((j, pages.2) :: spans.eraseIdx n) := hget ▸ (List.getElem_cons_eraseIdx_perm hlt).symm
    rw [hout, List.eraseIdx_map]
    refine h.setMap (j, pages.2) (hcnt.trans (h.bitCnt_eq w)) (hbit ▸ htiles.give hperm) ?_ ?_
    · exact h.bitCnt_eq w ▸ hgroup.1
    · intro a ha
      refine hm a ?_
      rwa [h.base_eq w]

/-- **One step.** -/
theorem step {c : Call}
    {r' : Run} (hstep : Palloc.step r c = .next r') : Inv s₀ r' := by
  cases c with
  | get flags n => exact h.get hlayout hstart hend flags n hstep
  | free w n =>
    cases hpages : (r.out w)[n]? with
    | none =>
      unfold Palloc.step at hstep
      dsimp only at hstep
      rw [hpages] at hstep
      cases hstep
    | some pages =>
      obtain ⟨-, -, r'', hnext, hinv⟩ := h.free hlayout hstart hend hpages
      cases hnext.symm.trans hstep
      exact hinv

end

theorem inside (hpages : pages ∈ r.out w) :
    PGSIZE ∣ pages.1 ∧ (s₀.pool w).base ≤ pages.1 ∧
      pages.1 + PGSIZE * pages.2 ≤ (s₀.pool w).base + PGSIZE * (s₀.pool w).usedMap.bitCnt := by
  obtain ⟨spans, hout, htiles⟩ := h.tiles w
  rw [hout] at hpages
  obtain ⟨span, hspan, rfl⟩ := List.mem_map.mp hpages
  have hle := Nat.mul_le_mul_left PGSIZE (htiles.inside _ hspan).2
  rw [Nat.mul_add] at hle
  refine ⟨Nat.dvd_add (hlayout.aligned w).2 (Nat.dvd_mul_right ..), Nat.le_add_right .., ?_⟩
  unfold Pool.pagesAt
  dsimp only
  omega

/-- **No page is out twice.** -/
theorem apart :
    ((r.out .kernel ++ r.out .user).map bytesOf).Pairwise Apart := by
  have hone : ∀ w, (r.out w).Pairwise fun p q => Apart (bytesOf p) (bytesOf q) := fun w => by
    obtain ⟨spans, hout, htiles⟩ := h.tiles w
    rw [hout, List.pairwise_map]
    refine htiles.apart.imp fun {s t} hapart => ?_
    intro a hs ht
    exact hapart _ (has_pagesAt.mp hs).2 (has_pagesAt.mp ht).2
  rw [List.pairwise_map, List.pairwise_append]
  refine ⟨hone .kernel, hone .user, fun p hp q hq a hpa hqa => ?_⟩
  have hkernel := (h.inside hlayout hp).2.2
  have huser := (h.inside hlayout hq).2.1
  have := hlayout.next
  have := hlayout.le_base .user
  unfold Has bytesOf at hpa hqa
  omega

/-- **A request fails only for want of pages**: among so many pages one after the other, one is
out. -/
theorem get_fails (hstart : 0 < freeStart) (hend : fEnd < 2 ^ 32)
    {flags : Flags} (hn : 0 < n) (hfails : ∀ pages t, pallocGetMultiple flags n r.state = .ok (pages, t) → pages = 0)
    {j : ℕ} (hj : j + n ≤ (s₀.pool flags.poolName).usedMap.bitCnt) :
    ∃ k, j ≤ k ∧ k < j + n ∧ ∃ pages ∈ r.out flags.poolName,
      Has (bytesOf pages) ((s₀.pool flags.poolName).base + PGSIZE * k) := by
  obtain ⟨i, b, m, hrun, -⟩ | ⟨-, hnone⟩ := pallocGetMultiple_eq (hlayout.congr h.shape) hstart hend flags hn
  · have hzero := hfails _ _ hrun
    have := hlayout.start_le flags.poolName
    have := hlayout.le_base flags.poolName
    have := h.base_eq flags.poolName
    omega
  · have hused : ∃ k, j ≤ k ∧ k < j + n ∧ (r.state.pool flags.poolName).usedMap.bit k = true := by
      by_contra hall
      refine hnone j ⟨h.bitCnt_eq _ ▸ hj, fun k hk hk' => ?_⟩
      exact Bool.eq_false_iff.mpr fun hbit => hall ⟨k, hk, hk', hbit⟩
    obtain ⟨k, hk, hk', hbit⟩ := hused
    obtain ⟨spans, hout, htiles⟩ := h.tiles flags.poolName
    obtain ⟨span, hspan, hhas⟩ := (htiles.bit k (by omega)).mp hbit
    refine ⟨k, hk, hk', _, hout ▸ List.mem_map_of_mem hspan, has_pagesAt.mpr ⟨Nat.le_add_right .., ?_⟩⟩
    rwa [Nat.add_sub_cancel_left, Nat.mul_div_cancel_left _ (by decide)]

/-- **What a request gets is new to `malloc`**, so that its `palloc_get_multiple` returns it. -/
theorem malloc_get (hstart : 0 < freeStart) (hend : fEnd < 2 ^ 32) {a : ℕ} {out : List (ℕ × ℕ)} (hn : n ≠ 0)
    (hout : r.out .kernel = (a, n) :: out) {D : List Malloc.Desc} {heap : Malloc.Heap D} (hheap : Covers out heap) :
    ∃ heap', Malloc.pallocGetMultiple (some (pgNo a)) n heap = .ok (some (pgNo a), heap') ∧
      Covers (r.out .kernel) heap' := by
  obtain ⟨⟨page, hpage⟩, hle, hlast⟩ := h.inside hlayout (w := .kernel) (hout ▸ List.mem_cons_self)
  dsimp only at hpage hle hlast
  have hfirst := (hlayout.start_le .kernel).trans (hlayout.le_base .kernel)
  have hstop := hlayout.le_end .kernel
  have hno : pgNo a = page := by rw [pgNo, hpage, Nat.mul_div_cancel_left page (by decide)]
  have hfresh : heap.fresh page n := by
    refine ⟨by rintro rfl; omega, by rw [Nat.mul_comm, Nat.mul_add]; omega, fun i hi => ?_⟩
    by_contra hused
    obtain ⟨q, hq, hhas⟩ := hheap _ (eq_true_of_ne_false hused)
    -- the page would be out twice
    have hapart := (List.pairwise_append.mp (List.pairwise_map.mp (h.apart hlayout))).1
    rw [hout] at hapart
    refine (List.pairwise_cons.mp hapart).1 q hq _ ?_ hhas
    simp only [Has, bytesOf, PGSIZE] at *
    omega
  rw [hno, hout]
  refine ⟨{ heap with used := Malloc.setUsed heap.used page n true }, ?_, fun p hp => ?_⟩
  · rw [Malloc.pallocGetMultiple, if_neg hn, Program.get_bind_run]
    show (if heap.fresh page n then _ else _ : Malloc.MallocM D _) heap = _
    rw [if_pos hfresh]
    rfl
  · simp only [Malloc.setUsed] at hp
    split at hp
    · refine ⟨_, List.mem_cons_self, ?_⟩
      simp only [Has, bytesOf, PGSIZE] at *
      omega
    · obtain ⟨q, hq, hhas⟩ := hheap p hp
      exact ⟨q, List.mem_cons_of_mem _ hq, hhas⟩

end

end

end Inv

end Steps

/-! ### The allocator -/

/-- What holds in a run of the allocator that was initialised as `s₀`. -/
structure Correct (s₀ : State) (r : Run) : Prop where
  /-- The pools and their bitmaps stay where they are. -/
  shape : ∀ w, (r.state.pool w).shape = (s₀.pool w).shape
  /-- Pages that are out are pages of the pool they were requested from. -/
  inside : ∀ w, ∀ pages ∈ r.out w, PGSIZE ∣ pages.1 ∧ (s₀.pool w).base ≤ pages.1 ∧
    pages.1 + PGSIZE * pages.2 ≤ (s₀.pool w).base + PGSIZE * (s₀.pool w).usedMap.bitCnt
  /-- They have no byte in common. -/
  apart : ((r.out .kernel ++ r.out .user).map bytesOf).Pairwise Apart
  /-- Freeing them reaches their pool, with all bits set, and returns. -/
  free : ∀ w n pages, (r.out w)[n]? = some pages → findPool r.state pages.1 = some w ∧
    (r.state.pool w).usedMap.Group pages.2 true (pgNo pages.1 - pgNo (r.state.pool w).base) ∧
    ∃ r', step r (.free w n) = .next r'
  /-- A request that gets no pages leaves none: of so many pages one after the other, one is out. -/
  get : ∀ flags n, 0 < n → (∀ pages t, pallocGetMultiple flags n r.state = .ok (pages, t) → pages = 0) →
    ∀ j, j + n ≤ (s₀.pool flags.poolName).usedMap.bitCnt → ∃ k, j ≤ k ∧ k < j + n ∧
      ∃ pages ∈ r.out flags.poolName, Has (bytesOf pages) ((s₀.pool flags.poolName).base + PGSIZE * k)
  /-- No other memory is written, that of the bitmaps included. -/
  frame : ∀ a, (∀ w, ¬ Has (bytesOf (s₀.pool w).allPages) a) → r.state.mem a = s₀.mem a

section Runs

variable {kernelEnd ramPages userPageLimit : ℕ} {mem : Bytes} {s₀ : State}

/-- **The page allocator.** When `palloc_init` returns, the pools and their bitmaps have disjoint
ranges of pages in the free memory, and each bitmap fits in its pages. In every run of requests and
frees, pages that are out are pages of the pool they were requested from and no page is out twice,
freeing them works, and a request fails only for want of pages. -/
theorem palloc_correct (hm : FreeMemory kernelEnd ramPages)
    (hinit : pallocInit kernelEnd ramPages userPageLimit mem = .ok s₀) :
    (∃ fEnd, freeEnd ramPages = .ok fEnd ∧ s₀.regions.Pairwise Apart ∧
        ∀ r ∈ s₀.regions, pgRoundUp kernelEnd ≤ r.1 ∧ r.1 + r.2 ≤ fEnd ∧ PGSIZE ∣ r.1 ∧ PGSIZE ∣ r.2) ∧
      (∀ w, (s₀.pool w).mapAddr + bitmapBufSize (s₀.pool w).usedMap.bitCnt ≤ (s₀.pool w).base) ∧
      ∀ r, (runs s₀).Reach r → Correct s₀ r := by
  obtain ⟨hlayout, hclear⟩ := pallocInit_layout hm hinit
  have hstart : 0 < pgRoundUp kernelEnd := Nat.lt_of_lt_of_le (by decide) hm.start
  refine ⟨⟨_, freeEnd_eq hm.fits, hlayout.regions⟩, hlayout.room, fun r hr => ?_⟩
  have hinv : Inv s₀ r := by
    refine hr.invariant (fun r hr => ?_) fun r c r' hr hstep => hr.step hlayout hstart hm.fits hstep
    cases hr
    exact ⟨fun _ => rfl, fun w => ⟨[], rfl, .nil (hclear w)⟩, fun _ _ => rfl⟩
  refine ⟨hinv.shape, fun w pages hpages => hinv.inside hlayout hpages, hinv.apart hlayout, ?_, ?_, hinv.frame⟩
  · intro w n pages hpages
    obtain ⟨hfind, hgroup, r', hnext, -⟩ := hinv.free hlayout hstart hm.fits hpages
    exact ⟨hfind, hgroup, r', hnext⟩
  · intro flags n hn hfails j hj
    exact hinv.get_fails hlayout hstart hm.fits hn hfails hj

/-- 64 pages of memory, of which the kernel takes 48: 8 pages for each pool, of which one is for the
bitmap. Two pages for a user, and one for the kernel, are out. -/
theorem palloc_correct_out : ∃ s₀ r, pallocInit 0xc002ffff 64 (2 ^ 32 - 1) (fun _ => 0) = .ok s₀ ∧ (runs s₀).Reach r ∧
    r.out .user = [(0xc0039000, 2)] ∧ r.out .kernel = [(0xc0031000, 1)] ∧ Correct s₀ r := by
  have hm : FreeMemory 0xc002ffff 64 := ⟨by decide, by decide, by decide⟩
  obtain ⟨s₀, hinit, r, hrun, huser, hkernel⟩ : ∃ s₀, pallocInit 0xc002ffff 64 (2 ^ 32 - 1) (fun _ => 0) = .ok s₀ ∧
      ∃ r, (runs s₀).replay ⟨s₀, fun _ => []⟩ [.get ⟨false, false, true⟩ 2, .get ⟨false, true, false⟩ 1] = .next r ∧
        r.out .user = [(0xc0039000, 2)] ∧ r.out .kernel = [(0xc0031000, 1)] :=
    ⟨_, rfl, _, rfl, rfl, rfl⟩
  have hreach : (runs s₀).Reach r := .replay (.init rfl) hrun
  exact ⟨s₀, r, hinit, hreach, huser, hkernel, (palloc_correct hm hinit).2.2 r hreach⟩

end Runs

end Pintos.Threads.Palloc
