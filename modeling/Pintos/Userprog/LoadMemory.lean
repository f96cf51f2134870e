import Pintos.Basis.TwoLevel
import Pintos.Userprog.Load

/-!
# The pages of a process

What the functions of `load` that allocate and map pages do to the machine.

`Held` is the account of pages: the process has pages that were free before, each once, the page
allocator has marked just these, and the memory of all pages that were in use before is as it was.
`Space` says what the pages are for: one is the page directory, some are its page tables, and all
others are mapped, each once. The user sees an address space, `view`, with the bytes and whether
they can be written; `install_page` adds a page to it (**`WithPage.installPage`**), or leaves
everything as it is.
-/

namespace Pintos.Userprog.Load

open Function Memory PageTable
open Threads (Palloc.State Palloc.Flags Palloc.PoolName Palloc.Layout Palloc.FreeMemory Palloc.pallocGetMultiple_eq
  Palloc.pallocFreeMultiple_eq)

/-! ### The words of the memory -/

section Words

variable {m m' : Bytes} {t : Mem} {page : Addr} {a : ℕ}

/-- The addresses of a page. -/
def OnPage (page : Addr) (a : ℕ) : Prop := page.toNat ≤ a ∧ a < page.toNat + 4096

instance (page : Addr) (a : ℕ) : Decidable (OnPage page a) := inferInstanceAs (Decidable (_ ∧ _))

/-- The page of an address. -/
def pageOf (a : ℕ) : Addr := BitVec.ofNat 32 (a / 4096 * 4096)

theorem toNat_pageOf (ha : a < 2 ^ 32) : (pageOf a).toNat = a / 4096 * 4096 := by
  unfold pageOf
  rw [BitVec.toNat_ofNat]
  omega

theorem onPage_iff (hpage : pgOfs page = 0#32) (ha : a < 2 ^ 32) : OnPage page a ↔ page = pageOf a := by
  have hofs := pgOfs_eq_zero_iff.mp hpage
  rw [← BitVec.toNat_inj, toNat_pageOf ha]
  unfold OnPage
  omega

theorem OnPage.not_onPage {q : Addr} (ha : OnPage page a) (hpage : pgOfs page = 0#32)
    (hq : pgOfs q = 0#32) (hne : page ≠ q) :
    ¬ OnPage q a := by
  have hpage := pgOfs_eq_zero_iff.mp hpage
  have hq := pgOfs_eq_zero_iff.mp hq
  have hne : page.toNat ≠ q.toNat := fun heq => hne (BitVec.eq_of_toNat_eq heq)
  unfold OnPage at *
  omega

theorem tablesOf_congr (h : ∀ a, OnPage page a → m' a = m a) : tablesOf m' page = tablesOf m page := by
  funext i
  unfold tablesOf
  rw [word_congr fun k hk => h _ ⟨by omega, by omega⟩]

/-- Words that were written back are there. -/
theorem tablesOf_writeTables (m : Bytes) (t : Mem) (hpage : pgOfs page = 0#32) :
    tablesOf (writeTables m t) page = t page := by
  have hofs := pgOfs_eq_zero_iff.mp hpage
  funext i
  have hword : word (writeTables m t) (page.toNat + 4 * i.toNat) = (t page i).toNat := by
    refine word_of_wordBytes (t page i).isLt fun k hk => ?_
    have hp : BitVec.ofNat 32 ((page.toNat + 4 * i.toNat + k) / 4096 * 4096) = page := by
      rw [← BitVec.toNat_inj, BitVec.toNat_ofNat]
      omega
    have hidx : BitVec.ofNat 10 ((page.toNat + 4 * i.toNat + k) / 4 % 1024) = i := by
      rw [← BitVec.toNat_inj, BitVec.toNat_ofNat]
      omega
    unfold writeTables
    rw [if_pos (by omega), hp, hidx, show (page.toNat + 4 * i.toNat + k) % 4 = k by omega]
  rw [tablesOf, hword, BitVec.ofNat_toNat, BitVec.setWidth_eq]

theorem writeTables_of_eq (h : t (pageOf a) = tablesOf m (pageOf a)) : writeTables m t a = m a := by
  unfold writeTables
  split_ifs with ha
  · have hidx : (BitVec.ofNat 10 (a / 4 % 1024)).toNat = a / 4 % 1024 := by
      rw [BitVec.toNat_ofNat]
      omega
    have hword := wordBytes_word m (a / 4 * 4) (Nat.mod_lt a (by decide : 0 < 4))
    rw [show BitVec.ofNat 32 (a / 4096 * 4096) = pageOf a from rfl, h, tablesOf, toNat_pageOf ha, hidx, BitVec.toNat_ofNat,
      show a / 4096 * 4096 + 4 * (a / 4 % 1024) = a / 4 * 4 by omega, Nat.mod_eq_of_lt (word_lt ..), hword,
      show a / 4 * 4 + a % 4 = a by omega]
  · rfl

theorem writeTables_of_not_onPage (hpage : pgOfs page = 0#32)
    (ht : ∀ q, q ≠ page → t q = tablesOf m q) (ha : ¬ OnPage page a) :
    writeTables m t a = m a := by
  by_cases hlt : a < 2 ^ 32
  · exact writeTables_of_eq (ht _ fun heq => ha ((onPage_iff hpage hlt).mpr heq.symm))
  · exact if_neg hlt

theorem writeTables_self (m : Bytes) : writeTables m (tablesOf m) = m := by
  funext a
  exact writeTables_of_eq rfl

end Words

/-! ### Running functions of `pagedir.c` -/

section Paging

variable {α : Type} {x : Paging α} {s : Machine} {v : α} {t : Mem}

/-- The machine with another memory. -/
def Machine.withMem (s : Machine) (m : Bytes) : Machine := { s with palloc := { s.palloc with mem := m } }

def Machine.mem (s : Machine) : Bytes := s.palloc.mem

theorem modifyMem_run (f : Bytes → Bytes) (s : Machine) : modifyMem f s = .ok ((), s.withMem (f s.mem)) := rfl

theorem paging_run (hx : x (tablesOf s.mem) = .ok (v, t)) : paging x s = .ok (v, s.withMem (writeTables s.mem t)) := by
  unfold paging
  rw [Program.get_bind_run, show x (tablesOf s.palloc.mem) = .ok (v, t) from hx]
  rfl

theorem paging_read (hx : x (tablesOf s.mem) = .ok (v, tablesOf s.mem)) : paging x s = .ok (v, s) := by
  rw [paging_run hx, writeTables_self]
  rfl

end Paging

/-! ### The account of pages -/

/-- The pools are where `palloc_init` puts them. -/
def Laid (ramPages : ℕ) (p : Palloc.State) : Prop :=
  ∃ kernelEnd, Palloc.FreeMemory kernelEnd ramPages ∧
    Palloc.Layout (Threads.Palloc.pgRoundUp kernelEnd) (Threads.Palloc.PHYS_BASE + ramPages * Threads.Malloc.PGSIZE) p

/-- The address of a page of a pool. -/
def pageAddr (p : Palloc.State) (w : Palloc.PoolName) (k : ℕ) : ℕ := (p.pool w).base + 4096 * k

section Pools

variable {ramPages : ℕ} {p p' : Palloc.State} {w w' : Palloc.PoolName} {k k' : ℕ}

theorem Laid.congr (h : Laid ramPages p) (hshape : ∀ w, (p'.pool w).shape = (p.pool w).shape) : Laid ramPages p' := by
  obtain ⟨kernelEnd, hfree, hlayout⟩ := h
  exact ⟨kernelEnd, hfree, hlayout.congr hshape⟩

variable {page : Addr}

section

variable (h : Laid ramPages p) (hk : k < (p.pool w).usedMap.bitCnt)
include h hk

theorem Laid.isPage (hpage : page.toNat = pageAddr p w k) : IsPage ramPages page := by
  obtain ⟨kernelEnd, hfree, hlayout⟩ := h
  have hend := hlayout.le_end w
  have hstart := hlayout.start_le w
  have hbase := hlayout.le_base w
  have hfirst := hfree.start
  have haligned := (hlayout.aligned w).2
  simp only [Threads.Palloc.PHYS_BASE, Threads.Malloc.PGSIZE] at hend hfirst haligned
  unfold pageAddr at hpage
  have hkernel : PHYS_BASE ≤ page := by
    show 0xc0000000 ≤ page.toNat
    omega
  refine ⟨?_, hkernel, ?_⟩
  · rw [pgOfs_eq_zero_iff]
    omega
  · rw [BitVec.toNat_sub_of_le hkernel, show PHYS_BASE.toNat = 0xc0000000 from rfl]
    omega

theorem Laid.pageAddr_inj (hk' : k' < (p.pool w').usedMap.bitCnt)
    (heq : pageAddr p w k = pageAddr p w' k') : w = w' ∧ k = k' := by
  obtain ⟨kernelEnd, -, hlayout⟩ := h
  have hnext := hlayout.next
  have huser := hlayout.le_base .user
  simp only [Threads.Malloc.PGSIZE] at hnext
  unfold pageAddr at heq
  cases w <;> cases w' <;> simp only [true_and, reduceCtorEq, false_and] <;> omega

theorem Laid.pageAddr_lt : pageAddr p w k < 2 ^ 32 := by
  obtain ⟨kernelEnd, hfree, hlayout⟩ := h
  have hend := hlayout.le_end w
  have hfits := hfree.fits
  simp only [Threads.Malloc.PGSIZE] at hend hfits
  unfold pageAddr
  omega

end

theorem pageAddr_congr (hshape : ∀ w, (p'.pool w).shape = (p.pool w).shape) (w : Palloc.PoolName) (k : ℕ) :
    pageAddr p' w k = pageAddr p w k := by
  have hbase : (p'.pool w).base = (p.pool w).base := congrArg (fun shape => shape.2.1) (hshape w)
  unfold pageAddr
  rw [hbase]

theorem bit_setMap {b : Lib.Bitmap} {x : Bool} (hbit : b.bit = fill (p.pool w).usedMap.bit k x 1)
    (v : Palloc.PoolName) (i : ℕ) :
    ((p.setMap w b).pool v).usedMap.bit i = if v = w ∧ i = k then x else (p.pool v).usedMap.bit i := by
  obtain rfl | hv := eq_or_ne v w
  · rw [Threads.Palloc.setMap_pool_self, hbit, fill_one, update_apply]
    simp only [true_and]
  · rw [Threads.Palloc.setMap_pool_of_ne _ hv, if_neg fun h => hv h.1]

end Pools

/-- The pages of the pools that are in use. -/
abbrev Usage := Palloc.PoolName → ℕ → Bool

abbrev usage (p : Palloc.State) : Usage := fun w k => (p.pool w).usedMap.bit k

/-- The pages of a process. Before, the pools were as `p` says, the pages of `used` were in use, and
the memory was that of `p`. -/
structure Held (p : Palloc.State) (used : Usage) (s : Machine) (pages : List Addr) : Prop where
  /-- The pools stay where they are. -/
  shape : ∀ w, (s.palloc.pool w).shape = (p.pool w).shape
  /-- No page is there twice. -/
  nodup : pages.Nodup
  /-- The pages were free. -/
  free : ∀ page ∈ pages, ∃ w, ∃ k < (p.pool w).usedMap.bitCnt, page.toNat = pageAddr p w k ∧ used w k = false
  /-- A page is in use if it was, or the process has it. -/
  bit : ∀ w, ∀ k < (p.pool w).usedMap.bitCnt,
    (s.palloc.pool w).usedMap.bit k = true ↔ used w k = true ∨ ∃ page ∈ pages, page.toNat = pageAddr p w k
  /-- What the process got, it has or has freed. -/
  log : s.got.Perm (pages ++ s.freed)
  /-- All other memory is as it was. -/
  frame : ∀ a, (∀ w, ∀ k < (p.pool w).usedMap.bitCnt, used w k = false →
    ¬ (pageAddr p w k ≤ a ∧ a < pageAddr p w k + 4096)) →
    s.mem a = p.mem a

namespace Held

variable {ramPages : ℕ} {p : Palloc.State} {used : Usage} {s s' : Machine} {page : Addr}
  {pages pages' : List Addr}

section

variable (h : Held p used s pages)
include h

theorem isPage (hlaid : Laid ramPages p) (hpage : page ∈ pages) : IsPage ramPages page := by
  obtain ⟨w, k, hk, haddr, -⟩ := h.free page hpage
  exact hlaid.isPage hk haddr

theorem not_mem (hused : ∀ w, ∀ k < (p.pool w).usedMap.bitCnt, page.toNat = pageAddr p w k →
    used w k = true) : page ∉ pages := by
  intro hpage
  obtain ⟨w, k, hk, haddr, hfree⟩ := h.free page hpage
  rw [hused w k hk haddr] at hfree
  cases hfree

theorem perm (hperm : pages.Perm pages') : Held p used s pages' where
  shape := h.shape
  nodup := hperm.nodup h.nodup
  free page hpage := h.free page (hperm.mem_iff.mpr hpage)
  bit w k hk := by simpa only [hperm.mem_iff] using h.bit w k hk
  log := h.log.trans (hperm.append_right _)
  frame := h.frame

/-- Only the page allocator, its memory and the logs matter. -/
theorem congr (hpalloc : s'.palloc = s.palloc) (hgot : s'.got = s.got) (hfreed : s'.freed = s.freed) :
    Held p used s' pages := by
  obtain ⟨hshape, hnodup, hfree, hbit, hlog, hframe⟩ := h
  constructor <;> simpa only [Machine.mem, hpalloc, hgot, hfreed]

end

variable {m : Bytes}

theorem withMem (h : Held p used s pages) (hm : ∀ a, (∀ page ∈ pages, ¬ OnPage page a) → m a = s.mem a) :
    Held p used (s.withMem m) pages where
  shape := h.shape
  nodup := h.nodup
  free := h.free
  bit := h.bit
  log := h.log
  frame a ha := by
    refine (hm a fun page hpage hon => ?_).trans (h.frame a ha)
    obtain ⟨w, k, hk, haddr, hfree⟩ := h.free page hpage
    exact ha w k hk hfree (haddr ▸ hon)

theorem bitCnt_eq (h : Held p used s pages) (w : Palloc.PoolName) :
    (s.palloc.pool w).usedMap.bitCnt = (p.pool w).usedMap.bitCnt := congrArg (fun shape => shape.2.2) (h.shape w)

theorem page_iff (hlaid : Laid ramPages p) {w v : Palloc.PoolName} {k i : ℕ} (hk : k < (p.pool w).usedMap.bitCnt)
    (hi : i < (p.pool v).usedMap.bitCnt) (hpage : page.toNat = pageAddr p w k) :
    page.toNat = pageAddr p v i ↔ v = w ∧ i = k := by
  rw [hpage]
  constructor
  · intro heq
    obtain ⟨rfl, rfl⟩ := hlaid.pageAddr_inj hk hi heq
    exact ⟨rfl, rfl⟩
  · rintro ⟨rfl, rfl⟩
    rfl

/-- **`palloc_get_page`** gives a page that was free, or none. -/
theorem pallocGetPage (h : Held p used s pages) (hlaid : Laid ramPages p) (flags : Palloc.Flags)
    (hflags : flags.assert = false) :
    pallocGetPage flags s = .ok (0#32, s) ∨
      ∃ page palloc, pallocGetPage flags s = .ok (page, { s with palloc := palloc, got := page :: s.got }) ∧
        Held p used { s with palloc := palloc, got := page :: s.got } (page :: pages) ∧
        (∀ a, ¬ OnPage page a → palloc.mem a = s.mem a) ∧ (flags.zero = true → ∀ a, OnPage page a → palloc.mem a = 0) := by
  obtain ⟨kernelEnd, hfree, hlayout⟩ := hlaid.congr h.shape
  have hstart : 0 < Threads.Palloc.pgRoundUp kernelEnd := Nat.lt_of_lt_of_le (by decide) hfree.start
  have hget := Palloc.pallocGetMultiple_eq hlayout hstart hfree.fits flags Nat.one_pos
  unfold Load.pallocGetPage
  rw [Program.get_bind_run]
  generalize flags.poolName = w at hget
  obtain ⟨k, b, m, hrun, hgroup, hcnt, hbit, hm, hzero⟩ | ⟨hrun, -⟩ := hget
  · have hk : k < (p.pool w).usedMap.bitCnt := by
      have := hgroup.1
      have := h.bitCnt_eq w
      omega
    -- the page was free, and the process did not have it
    have hclear : ¬ (used w k = true ∨ ∃ page ∈ pages, page.toNat = pageAddr p w k) := by
      rw [← h.bit w k hk, hgroup.2 k (Nat.le_refl k) (Nat.lt_succ_self k)]
      exact Bool.false_ne_true
    have haddr : (s.palloc.pool w).base + Threads.Malloc.PGSIZE * k = pageAddr p w k := pageAddr_congr h.shape w k
    obtain ⟨page, hpage⟩ : ∃ page : Addr, page.toNat = pageAddr p w k :=
      ⟨BitVec.ofNat 32 (pageAddr p w k), Nat.mod_eq_of_lt (hlaid.pageAddr_lt hk)⟩
    rw [haddr, ← hpage] at hrun hm hzero
    have hne := (hlaid.isPage hk hpage).ne_zero
    have hon : ∀ a, ¬ OnPage page a → m a = s.mem a := fun a ha => hm a ha
    refine .inr ⟨page, { s.palloc.setMap w b with mem := m }, ?_, ⟨?_, ?_, ?_, ?_, ?_, ?_⟩, hon,
      fun hz a ha => hzero hz a ha⟩
    · rw [hrun]
      dsimp only
      rw [BitVec.ofNat_toNat, BitVec.setWidth_eq, if_neg hne]
      rfl
    · exact fun v => (Threads.Palloc.shape_setMap hcnt v).trans (h.shape v)
    · exact List.nodup_cons.mpr ⟨fun hmem => hclear (.inr ⟨page, hmem, hpage⟩), h.nodup⟩
    · exact List.forall_mem_cons.mpr ⟨⟨w, k, hk, hpage, Bool.eq_false_iff.mpr fun hu => hclear (.inl hu)⟩, h.free⟩
    · intro v i hi
      rw [bit_setMap hbit, List.exists_mem_cons_iff, page_iff hlaid hk hi hpage]
      split_ifs with hvi
      · exact ⟨fun _ => .inr (.inl hvi), fun _ => rfl⟩
      · rw [h.bit v i hi]
        simp only [hvi, false_or]
    · exact h.log.cons page
    · intro a ha
      refine (hon a fun hmem => ha w k hk ?_ (hpage ▸ hmem)).trans (h.frame a ha)
      exact Bool.eq_false_iff.mpr fun hu => hclear (.inl hu)
  · rw [hrun, hflags]
    exact .inl rfl

/-- **`palloc_free_page`** takes a page back. -/
theorem pallocFreePage (h : Held p used s (page :: pages)) (hlaid : Laid ramPages p) :
    ∃ palloc, pallocFreePage page s = .ok ((), { s with palloc := palloc, freed := page :: s.freed }) ∧
      Held p used { s with palloc := palloc, freed := page :: s.freed } pages ∧
      ∀ a, ¬ OnPage page a → palloc.mem a = s.mem a := by
  obtain ⟨kernelEnd, hfree, hlayout⟩ := hlaid.congr h.shape
  have hstart : 0 < Threads.Palloc.pgRoundUp kernelEnd := Nat.lt_of_lt_of_le (by decide) hfree.start
  obtain ⟨w, k, hk, hpage, hclear⟩ := h.free page List.mem_cons_self
  have hset : (s.palloc.pool w).usedMap.bit k = true := (h.bit w k hk).mpr (.inr ⟨page, List.mem_cons_self, hpage⟩)
  have hgroup : (s.palloc.pool w).usedMap.Group 1 true k := by
    refine ⟨by rw [h.bitCnt_eq w]; exact hk, fun i hi hi' => ?_⟩
    obtain rfl : i = k := by omega
    exact hset
  obtain ⟨-, b, m, hrun, hcnt, hbit, hm⟩ := Palloc.pallocFreeMultiple_eq hlayout hstart hfree.fits hgroup Nat.one_pos
  have haddr : (s.palloc.pool w).base + Threads.Malloc.PGSIZE * k = page.toNat :=
    (pageAddr_congr h.shape w k).trans hpage.symm
  rw [haddr] at hrun hm
  obtain ⟨hnot, hnodup⟩ := List.nodup_cons.mp h.nodup
  have hon : ∀ a, ¬ OnPage page a → m a = s.mem a := fun a ha => hm a ha
  refine ⟨{ s.palloc.setMap w b with mem := m }, ?_, ⟨?_, hnodup, ?_, ?_, ?_, ?_⟩, hon⟩
  · unfold Load.pallocFreePage
    rw [Program.get_bind_run, hrun]
    rfl
  · exact fun v => (Threads.Palloc.shape_setMap hcnt v).trans (h.shape v)
  · exact fun q hq => h.free q (List.mem_cons_of_mem page hq)
  · intro v i hi
    have hold := h.bit v i hi
    rw [List.exists_mem_cons_iff, page_iff hlaid hk hi hpage] at hold
    rw [bit_setMap hbit]
    split_ifs with hvi
    · obtain ⟨rfl, rfl⟩ := hvi
      refine ⟨fun hf => (by cases hf), ?_⟩
      rintro (hu | ⟨q, hq, hqaddr⟩)
      · rw [hclear] at hu
        cases hu
      · rw [BitVec.eq_of_toNat_eq (hqaddr.trans hpage.symm)] at hq
        exact absurd hq hnot
    · rw [hold]
      simp only [hvi, false_or]
  · exact h.log.trans List.perm_middle.symm
  · intro a ha
    exact (hon a fun hmem => ha w k hk hclear (hpage ▸ hmem)).trans (h.frame a ha)

end Held

/-! ### The address space -/

/-- The page table at an index of the directory. -/
def tableAt (t : Mem) (pd : Addr) (d : ℕ) : Option Addr := frameOf (t pd (BitVec.ofNat 10 d))

/-- The frame at an index of the directory and an index of a table. -/
def frameAt (t : Mem) (pd : Addr) (d i : ℕ) : Option Addr := frameOf (pteAt t pd (BitVec.ofNat 10 d) (BitVec.ofNat 10 i))

/-- The pages of the tables and the frames below the directory. -/
abbrev Tree (t : Mem) (pd : Addr) : List Addr → Prop := TwoLevel 768 1024 (tableAt t pd) (frameAt t pd) pd

/-- The entries of the pages of the user are the same. -/
def SameEntries (t t' : Mem) (pd : Addr) : Prop := ∀ d i : BitVec 10, d.toNat < 768 → pteAt t' pd d i = pteAt t pd d i

/-- What the pages of a process are for: the page directory, its tables and its frames. -/
structure Space (env : Env) (m : Bytes) (pd : Addr) (pages : List Addr) : Prop where
  tables : Tables env.ramPages env.basePageDir pd (tablesOf m)
  tree : Tree (tablesOf m) pd pages
  ram : ∀ page ∈ pages, IsPage env.ramPages page
  /-- So is `base_page_dir`, which is not one of them. -/
  base : IsPage env.ramPages env.basePageDir
  base_notMem : env.basePageDir ∉ pages

/-- An address space: the bytes, and whether they can be written. -/
abbrev AddressSpace := ℕ → Option (UInt8 × Bool)

/-- **The address space that the user sees.** -/
def view (m : Bytes) (pd : Addr) : AddressSpace := fun a =>
  let pte := pteAt (tablesOf m) pd (pdNo (BitVec.ofNat 32 a)) (ptNo (BitVec.ofNat 32 a))
  (frameOf pte).map fun kpage => (m (kpage.toNat + a % 4096), pte &&& PTE_W ≠ 0#32)

/-- An address space with one more page. -/
def mapPage (v : AddressSpace) (upage : ℕ) (bytes : Bytes) (writable : Bool) : AddressSpace :=
  fun a => if upage ≤ a ∧ a < upage + 4096 then some (bytes (a - upage), writable) else v a

variable {a : ℕ} {v : AddressSpace} {bytes : Bytes} {writable : Bool}

theorem mapPage_of_onPage {upage : Addr}
    (ha : OnPage upage a) : mapPage v upage.toNat bytes writable a = some (bytes (a - upage.toNat), writable) := if_pos ha

theorem mapPage_of_not_onPage {upage : Addr}
    (ha : ¬ OnPage upage a) : mapPage v upage.toNat bytes writable a = v a := if_neg ha

theorem mapPage_congr {v' : AddressSpace} {upage : ℕ} {bytes' : Bytes}
    (hbytes : ∀ j < 4096, bytes j = bytes' j) (hv : v a = v' a) :
    mapPage v upage bytes writable a = mapPage v' upage bytes' writable a := by
  unfold mapPage
  split_ifs with ha
  · rw [hbytes _ (by omega)]
  · exact hv

theorem OnPage.mod_eq (ha : OnPage page a) (hpage : pgOfs page = 0#32) : a % 4096 = a - page.toNat := by
  have := pgOfs_eq_zero_iff.mp hpage
  unfold OnPage at ha
  omega

theorem onPage_add_mod (page : Addr) (a : ℕ) : OnPage page (page.toNat + a % 4096) := by
  exact ⟨Nat.le_add_right .., by omega⟩

section Addresses

variable {t : Mem} {pd upage : Addr} {e : BitVec 32} {page : Addr} {a : ℕ}

theorem frameOf_eq_some_iff : frameOf e = some page ↔ Points e page := by
  refine ⟨fun h => ?_, Points.frameOf⟩
  by_cases hpresent : e &&& PTE_P = 0#32
  · rw [frameOf_of_absent hpresent] at h
    cases h
  · have hpoints := points_of_present hpresent
    rw [hpoints.frameOf] at h
    exact Option.some.inj h ▸ hpoints

theorem ofNat_toNat_index (i : BitVec 10) : BitVec.ofNat 10 i.toNat = i := by
  rw [BitVec.ofNat_toNat, BitVec.setWidth_eq]

theorem toNat_ofNat_index {i : ℕ} (hi : i < 1024) : (BitVec.ofNat 10 i).toNat = i := by
  rw [BitVec.toNat_ofNat]
  omega

theorem toNat_ofNat_lt {d : ℕ} (hd : d < 768) : (BitVec.ofNat 10 d).toNat < 768 := by rwa [toNat_ofNat_index (by omega)]

theorem isTable_iff : IsTable t pd page ↔ ∃ d < 768, tableAt t pd d = some page := by
  constructor
  · rintro ⟨d, hd, hpoints⟩
    exact ⟨d.toNat, hd, by rw [tableAt, ofNat_toNat_index]; exact hpoints.frameOf⟩
  · rintro ⟨d, hd, htable⟩
    exact ⟨BitVec.ofNat 10 d, toNat_ofNat_lt hd, frameOf_eq_some_iff.mp htable⟩

theorem onPage_iff_index (hofs : pgOfs upage = 0#32) (ha : a < 2 ^ 32) :
    OnPage upage a ↔ pdNo (BitVec.ofNat 32 a) = pdNo upage ∧ ptNo (BitVec.ofNat 32 a) = ptNo upage := by
  have hofs := pgOfs_eq_zero_iff.mp hofs
  rw [← pgNo_eq_iff, ← BitVec.toNat_inj, toNat_pgNo, toNat_pgNo, BitVec.toNat_ofNat, Nat.mod_eq_of_lt ha]
  unfold OnPage
  omega

theorem isUserVaddr_ofNat (ha : a < 0xc0000000) : isUserVaddr (BitVec.ofNat 32 a) = true := by
  rw [isUserVaddr_iff, BitVec.toNat_ofNat]
  omega

theorem pdNo_ofNat_lt (ha : a < 0xc0000000) : (pdNo (BitVec.ofNat 32 a)).toNat < 768 := pdNo_user (isUserVaddr_ofNat ha)

end Addresses

namespace Space

variable {env : Env} {m m' : Bytes} {pd page upage kpage : Addr} {pages : List Addr}

section

variable (h : Space env m pd pages)
include h

theorem pd_mem : pd ∈ pages := (h.tree.mem_iff pd).mpr (.inl rfl)

theorem table_mem (hpage : IsTable (tablesOf m) pd page) : page ∈ pages :=
  (h.tree.mem_iff page).mpr (.inr (.inl (isTable_iff.mp hpage)))

theorem frame_mem {d i : BitVec 10} (hd : d.toNat < 768)
    (hframe : frameOf (pteAt (tablesOf m) pd d i) = some page) :
    page ∈ pages ∧ page ≠ pd ∧ ¬ IsTable (tablesOf m) pd page := by
  have hleaf : frameAt (tablesOf m) pd d.toNat i.toNat = some page := by
    rw [frameAt, ofNat_toNat_index, ofNat_toNat_index]
    exact hframe
  obtain ⟨hne, htables⟩ := h.tree.apart d.toNat hd i.toNat i.isLt page hleaf
  refine ⟨(h.tree.mem_iff page).mpr (.inr (.inr ⟨d.toNat, hd, i.toNat, i.isLt, hleaf⟩)), hne, fun htable => ?_⟩
  obtain ⟨d', hd', htable⟩ := isTable_iff.mp htable
  exact htables d' hd' htable

theorem of_words (hpd : ∀ a, OnPage pd a → m' a = m a)
    (htables : ∀ p, IsTable (tablesOf m) pd p → ∀ a, OnPage p a → m' a = m a)
    (hbase : ∀ a, OnPage env.basePageDir a → m' a = m a) :
    Space env m' pd pages ∧ SameEntries (tablesOf m) (tablesOf m') pd := by
  have hpd := tablesOf_congr hpd
  have htables : ∀ p, IsTable (tablesOf m) pd p → tablesOf m' p = tablesOf m p := fun p hp => tablesOf_congr (htables p hp)
  have hpte : SameEntries (tablesOf m) (tablesOf m') pd := fun d i hd =>
    h.tables.pteAt_keep hpd htables i hd
  refine ⟨⟨h.tables.keep hpd (tablesOf_congr hbase) htables, h.tree.congr (fun d _ => ?_) fun d hd i _ => ?_, h.ram, h.base,
    h.base_notMem⟩, hpte⟩
  · rw [tableAt, tableAt, hpd]
  · rw [frameAt, frameAt, hpte _ _ (toNat_ofNat_lt hd)]

/-- What is written elsewhere does not matter. -/
theorem congr (hm : ∀ page ∈ pages, ∀ a, OnPage page a → m' a = m a)
    (hbase : ∀ a, OnPage env.basePageDir a → m' a = m a) :
    Space env m' pd pages ∧ SameEntries (tablesOf m) (tablesOf m') pd ∧
      ∀ a < 0xc0000000, view m' pd a = view m pd a := by
  obtain ⟨hspace, hpte⟩ := h.of_words (hm pd h.pd_mem) (fun p hp => hm p (h.table_mem hp)) hbase
  refine ⟨hspace, hpte, fun a ha => ?_⟩
  unfold view
  rw [hpte _ _ (pdNo_ofNat_lt ha)]
  refine Option.map_congr fun kpage hk => ?_
  rw [hm kpage (h.frame_mem (pdNo_ofNat_lt ha) hk).1 _ (onPage_add_mod kpage a)]

theorem writeFrame (hofs : pgOfs upage = 0#32) (huser : isUserVaddr upage = true)
    (hk : lookup (tablesOf m) pd upage = some kpage) (hm : ∀ a, ¬ OnPage kpage a → m' a = m a) :
    Space env m' pd pages ∧ ∀ a < 0xc0000000, view m' pd a =
      if OnPage upage a then (view m pd a).map fun v => (m' (kpage.toNat + (a - upage.toNat)), v.2) else view m pd a := by
  rw [lookup, translate_eq_frameOf] at hk
  obtain ⟨hmem, hne, hnot⟩ := h.frame_mem (pdNo_user huser) hk
  have hother : ∀ page ∈ pages, page ≠ kpage → ∀ a, OnPage page a → m' a = m a := fun page hpage hpk a ha =>
    hm a (ha.not_onPage (h.ram page hpage).aligned (h.ram kpage hmem).aligned hpk)
  have hbase : ∀ a, OnPage env.basePageDir a → m' a = m a := fun a ha =>
    hm a (ha.not_onPage h.base.aligned (h.ram kpage hmem).aligned fun heq => h.base_notMem (heq ▸ hmem))
  obtain ⟨hspace, hpte⟩ := h.of_words (hother pd h.pd_mem hne.symm)
    (fun p hp => hother p (h.table_mem hp) fun heq => hnot (heq ▸ hp)) hbase
  refine ⟨hspace, fun a ha => ?_⟩
  have hd := pdNo_ofNat_lt ha
  unfold view
  dsimp only
  rw [hpte _ _ hd]
  split_ifs with hon
  · obtain ⟨hdno, hptno⟩ := (onPage_iff_index hofs (by omega)).mp hon
    rw [hdno, hptno, hk, hon.mod_eq hofs]
    rfl
  · refine Option.map_congr fun k hk' => ?_
    have hkk : k ≠ kpage := by
      rintro rfl
      have honce := h.tree.once _ hd _ (ptNo (BitVec.ofNat 32 a)).isLt _ (pdNo_user huser) _ (ptNo upage).isLt k
        (by rw [frameAt, ofNat_toNat_index, ofNat_toNat_index]; exact hk')
        (by rw [frameAt, ofNat_toNat_index, ofNat_toNat_index]; exact hk)
      rw [BitVec.toNat_inj, BitVec.toNat_inj] at honce
      exact hon ((onPage_iff_index hofs (by omega)).mpr honce)
    rw [hother k (h.frame_mem hd hk').1 hkk _ (onPage_add_mod k a)]

end

end Space

/-! ### Mapping a page -/

/-- The entry of a page is to be written, in a table that is there or was made for it. -/
structure Maps (env : Env) (m : Bytes) (pd : Addr) (pages : List Addr) (upage kpage : Addr) (writable : Bool)
    (palloc : Option Addr) (pt : Addr) (t : Mem) (pte : BitVec 32) : Prop where
  ofs : pgOfs upage = 0#32
  user : isUserVaddr upage = true
  unmapped : lookup (tablesOf m) pd upage = none
  /-- A page for a table is there only where one is needed. -/
  needed : tablesOf m pd (pdNo upage) ≠ 0#32 → palloc = none
  /-- It is a new one. -/
  fresh : ∀ p, palloc = some p → IsPage env.ramPages p ∧ p ∉ pages ∧ p ≠ env.basePageDir
  /-- The frame is a new page, too. -/
  frame : IsPage env.ramPages kpage ∧ kpage ∉ palloc.toList ++ pages ∧ kpage ≠ env.basePageDir
  table : WithTable (tablesOf m) pd (pdNo upage) palloc pt t
  points : Points pte kpage
  flag : pte &&& PTE_W = if writable then PTE_W else 0#32

namespace Maps

variable {env : Env} {m : Bytes} {pd upage kpage pt : Addr} {pages : List Addr} {writable : Bool} {palloc : Option Addr}
  {t : Mem} {pte : BitVec 32} (hmap : Maps env m pd pages upage kpage writable palloc pt t pte) (h : Space env m pd pages)
include hmap h

theorem withTable : Tables env.ramPages env.basePageDir pd t ∧ Points (t pd (pdNo upage)) pt ∧
    SameEntries (tablesOf m) t pd := by
  refine h.tables.withTable (pdNo_user hmap.user) (fun p hp => ?_) hmap.table
  obtain ⟨hpage, hnot, hbase⟩ := hmap.fresh p hp
  exact ⟨hpage, fun heq => hnot (heq ▸ h.pd_mem), hbase, fun htable => hnot (h.table_mem htable)⟩

theorem tree_withTable : Tree t pd (palloc.toList ++ pages) := by
  have hd := pdNo_user hmap.user
  have hpte := (hmap.withTable h).2.2
  have hneeded := hmap.needed
  have hfresh := hmap.fresh
  cases hmap.table with
  | there hpoints =>
    rw [hneeded hpoints.ne_zero]
    exact h.tree
  | made e hzero hpt he =>
    have hnot := (hfresh pt hpt).2.1
    have hne : pt ≠ pd := fun heq => hnot (heq ▸ h.pd_mem)
    have hnone : tableAt (tablesOf m) pd (pdNo upage).toNat = none := by
      rw [tableAt, ofNat_toNat_index, hzero, frameOf_zero]
    rw [hpt]
    refine (h.tree.setTable hnot hd hnone fun d hd' => ?_).congr (fun _ _ => rfl) fun d hd' i _ => ?_
    · rw [tableAt, Tables.newTable_pd _ _ _ hne, tableAt, apply_ite frameOf, he.frameOf]
      refine if_congr ?_ rfl rfl
      rw [← BitVec.toNat_inj, toNat_ofNat_index (by omega)]
    · rw [frameAt, frameAt, hpte _ _ (toNat_ofNat_lt hd')]

theorem table_eq : tableAt t pd (pdNo upage).toNat = some pt := by
  rw [tableAt, ofNat_toNat_index, (hmap.withTable h).2.1.frameOf]

theorem table_mem : pt ∈ palloc.toList ++ pages :=
  ((hmap.tree_withTable h).mem_iff pt).mpr (.inr (.inl ⟨_, pdNo_user hmap.user, hmap.table_eq h⟩))

theorem writeTables_eq (hpd : ¬ OnPage pd a) (hpt : ¬ OnPage pt a) :
    writeTables m (t.set pt (ptNo upage) pte) a = m a := by
  by_cases ha : a < 2 ^ 32
  · obtain ⟨htables, hpde, -⟩ := hmap.withTable h
    have hptPage := (htables.of_points (pdNo_user hmap.user) hpde).1
    have hpd : pageOf a ≠ pd := fun heq => hpd ((onPage_iff h.tables.page.aligned ha).mpr heq.symm)
    have hpt : pageOf a ≠ pt := fun heq => hpt ((onPage_iff hptPage.aligned ha).mpr heq.symm)
    have hother : t (pageOf a) = tablesOf m (pageOf a) := by
      cases hmap.table with
      | there => rfl
      | made => exact Tables.newTable_other hpd hpt
    refine writeTables_of_eq ?_
    rw [Mem.set_of_ne hpt, hother]
  · exact if_neg ha

theorem tables : Tables env.ramPages env.basePageDir pd (tablesOf (writeTables m (t.set pt (ptNo upage) pte))) ∧
    tablesOf (writeTables m (t.set pt (ptNo upage) pte)) pd = t pd ∧
    ∀ d i : BitVec 10, d.toNat < 768 → pteAt (tablesOf (writeTables m (t.set pt (ptNo upage) pte))) pd d i =
      if d = pdNo upage ∧ i = ptNo upage then pte else pteAt (tablesOf m) pd d i := by
  have hd := pdNo_user hmap.user
  obtain ⟨htables, hpde, hpte⟩ := hmap.withTable h
  have hne := (htables.of_points hd hpde).2.1
  have hset := htables.setEntry (i := ptNo upage) hd hpde (frameOf_isPage hmap.points hmap.frame.1)
  have hback : ∀ q, IsPage env.ramPages q →
      tablesOf (writeTables m (t.set pt (ptNo upage) pte)) q = t.set pt (ptNo upage) pte q := fun q hq =>
    tablesOf_writeTables m _ hq.aligned
  have hbackTable : ∀ q, IsTable (t.set pt (ptNo upage) pte) pd q →
      tablesOf (writeTables m (t.set pt (ptNo upage) pte)) q = t.set pt (ptNo upage) pte q := by
    rintro q ⟨d, hd', hpoints⟩
    exact hback q (hset.of_points hd' hpoints).1
  refine ⟨hset.keep (hback pd h.tables.page) (hback _ h.base) hbackTable, ?_, fun d i hd' => ?_⟩
  · rw [hback pd h.tables.page, Mem.set_of_ne hne.symm]
  · rw [hset.pteAt_keep (hback pd h.tables.page) hbackTable i hd', htables.pteAt_setEntry pte hd hpde d i hd', hpte d i hd']

/-- **The page is mapped**, to a frame of its own. -/
theorem space : Space env (writeTables m (t.set pt (ptNo upage) pte)) pd (kpage :: (palloc.toList ++ pages)) := by
  have hd := pdNo_user hmap.user
  have hpte := (hmap.withTable h).2.2
  obtain ⟨htables, hpd, hentry⟩ := hmap.tables h
  obtain ⟨hk, hknew, hkbase⟩ := hmap.frame
  have hsome : tableAt t pd (pdNo upage).toNat ≠ none := by
    rw [hmap.table_eq h]
    exact Option.some_ne_none pt
  have hnone : frameAt t pd (pdNo upage).toNat (ptNo upage).toNat = none := by
    rw [frameAt, ofNat_toNat_index, ofNat_toNat_index, hpte _ _ hd, ← translate_eq_frameOf]
    exact hmap.unmapped
  refine ⟨htables, ?_, ?_, h.base, ?_⟩
  · refine ((hmap.tree_withTable h).setLeaf hknew hd (ptNo upage).isLt hsome hnone fun d hd' i hi' => ?_).congr
      (fun d _ => ?_) fun _ _ _ _ => rfl
    · have hd'' := toNat_ofNat_lt hd'
      rw [frameAt, hentry _ _ hd'', apply_ite frameOf, hmap.points.frameOf, frameAt, hpte _ _ hd'']
      refine if_congr ?_ rfl rfl
      rw [← BitVec.toNat_inj, ← BitVec.toNat_inj, toNat_ofNat_index (by omega), toNat_ofNat_index hi']
    · rw [tableAt, tableAt, hpd]
  · refine List.forall_mem_cons.mpr ⟨hk, fun page hpage => ?_⟩
    rcases List.mem_append.mp hpage with hpage | hpage
    · exact (hmap.fresh page (Option.mem_toList.mp hpage)).1
    · exact h.ram page hpage
  · rw [List.mem_cons, List.mem_append, Option.mem_toList]
    rintro (heq | hbase | hbase)
    · exact hkbase heq.symm
    · exact (hmap.fresh _ hbase).2.2 rfl
    · exact h.base_notMem hbase

/-- **The user sees one more page.** -/
theorem view_eq (ha : a < 0xc0000000) : view (writeTables m (t.set pt (ptNo upage) pte)) pd a =
    mapPage (view m pd) upage.toNat (fun j => m (kpage.toNat + j)) writable a := by
  have hd := pdNo_user hmap.user
  have hd' := pdNo_ofNat_lt ha
  obtain ⟨hk, hknew, -⟩ := hmap.frame
  have hptPage := ((hmap.space h).ram pt (List.mem_cons_of_mem _ (hmap.table_mem h)))
  -- a frame is neither the directory nor the table, so that it is not written to
  have hbyte : ∀ k, IsPage env.ramPages k → k ≠ pd → k ≠ pt →
      writeTables m (t.set pt (ptNo upage) pte) (k.toNat + a % 4096) = m (k.toNat + a % 4096) := by
    intro k hkPage hkpd hkpt
    have hon := onPage_add_mod k a
    exact hmap.writeTables_eq h (hon.not_onPage hkPage.aligned h.tables.page.aligned hkpd)
      (hon.not_onPage hkPage.aligned hptPage.aligned hkpt)
  unfold view
  dsimp only
  rw [(hmap.tables h).2.2 _ _ hd']
  by_cases hon : OnPage upage a
  · have hne : ∀ q ∈ palloc.toList ++ pages, kpage ≠ q := fun q hq heq => hknew (heq ▸ hq)
    rw [mapPage_of_onPage hon, if_pos ((onPage_iff_index hmap.ofs (by omega)).mp hon), hmap.points.frameOf, Option.map_some,
      hbyte kpage hk (hne pd (List.mem_append_right _ h.pd_mem)) (hne pt (hmap.table_mem h)),
        hon.mod_eq hmap.ofs, hmap.flag]
    cases writable <;> rfl
  · rw [mapPage_of_not_onPage hon, if_neg fun hidx => hon ((onPage_iff_index hmap.ofs (by omega)).mpr hidx)]
    refine Option.map_congr fun k hk' => ?_
    obtain ⟨hmem, hkpd, -⟩ := h.frame_mem hd' hk'
    have hkpt : k ≠ pt := by
      rintro rfl
      refine ((hmap.tree_withTable h).apart _ hd' _ (ptNo (BitVec.ofNat 32 a)).isLt k ?_).2 _ hd (hmap.table_eq h)
      rw [frameAt, ofNat_toNat_index, ofNat_toNat_index, (hmap.withTable h).2.2 _ _ hd']
      exact hk'
    rw [hbyte k (h.ram k hmem) hkpd hkpt]

end Maps

/-! ### `install_page` -/

/-- What a process starts with: pools that are laid out, and `base_page_dir` in a page that is in
use. -/
structure Start (env : Env) (p : Palloc.State) (used : Usage) : Prop where
  laid : Laid env.ramPages p
  base : IsPage env.ramPages env.basePageDir
  inUse : ∀ w, ∀ k < (p.pool w).usedMap.bitCnt, env.basePageDir.toNat = pageAddr p w k → used w k = true

/-- A process with its pages, and the address space that the user sees. -/
structure Process (env : Env) (p : Palloc.State) (used : Usage) (s : Machine) (pd : Addr)
    (pages : List Addr) (v : AddressSpace) : Prop where
  held : Held p used s pages
  space : Space env s.mem pd pages
  pagedir : s.pagedir = some pd
  view : ∀ a < 0xc0000000, view s.mem pd a = v a

theorem Process.setFile {env : Env} {p : Palloc.State} {used : Usage} {s : Machine} {pd : Addr}
    {pages : List Addr} (h : Process env p used s pd pages v) (file : Cell ℕ) (reads : ℕ) :
    Process env p used { s with file := file, reads := reads } pd pages v :=
  ⟨h.held.congr rfl rfl rfl, h.space, h.pagedir, h.view⟩

section Install

variable {env : Env} {p : Palloc.State} {used : Usage} {s : Machine} {pd upage kpage : Addr}
  {pages : List Addr} {v : AddressSpace} (hstart : Start env p used) (writable : Bool)
include hstart

theorem Space.of_new {m' : Bytes} (h : Space env s.mem pd pages) {s' : Machine} {rest : List Addr}
    (hheld : Held p used s' (page :: rest)) (hsub : ∀ q ∈ pages, q ∈ rest) (hm : ∀ a, ¬ OnPage page a → m' a = s.mem a) :
    Space env m' pd pages ∧
      SameEntries (tablesOf s.mem) (tablesOf m') pd ∧
      ∀ a < 0xc0000000, Load.view m' pd a = Load.view s.mem pd a := by
  have hpage := hheld.isPage hstart.laid List.mem_cons_self
  have hnot := (List.nodup_cons.mp hheld.nodup).1
  refine h.congr (fun q hq a ha => hm a ?_) fun a ha => hm a ?_
  · exact ha.not_onPage (h.ram q hq).aligned hpage.aligned fun heq => hnot (heq ▸ hsub q hq)
  · exact ha.not_onPage hstart.base.aligned hpage.aligned fun heq =>
      hheld.not_mem hstart.inUse (heq ▸ List.mem_cons_self)

theorem set_maps {palloc : Option Addr} (hheld : Held p used s (kpage :: (palloc.toList ++ pages)))
    (hspace : Space env s.mem pd pages)
    (hofs : pgOfs upage = 0#32) (huser : isUserVaddr upage = true) (hfree : lookup (tablesOf s.mem) pd upage = none)
    (hneeded : tablesOf s.mem pd (pdNo upage) ≠ 0#32 → palloc = none) :
    paging (PageTable.pagedirSetPage env.ramPages env.basePageDir pd upage kpage writable palloc) s = .ok (false, s) ∧
        palloc = none ∨
      ∃ m, paging (PageTable.pagedirSetPage env.ramPages env.basePageDir pd upage kpage writable palloc) s =
          .ok (true, s.withMem m) ∧
        Held p used (s.withMem m) (kpage :: (palloc.toList ++ pages)) ∧ Space env m pd (kpage :: (palloc.toList ++ pages)) ∧
        ∀ a < 0xc0000000, Load.view m pd a =
          mapPage (Load.view s.mem pd) upage.toNat (fun j => s.mem (kpage.toNat + j)) writable a := by
  have hk := hheld.isPage hstart.laid List.mem_cons_self
  have hbase : ∀ q ∈ kpage :: (palloc.toList ++ pages), q ≠ env.basePageDir := fun q hq heq =>
    hheld.not_mem hstart.inUse (heq ▸ hq)
  obtain ⟨hknew, hnodup⟩ := List.nodup_cons.mp hheld.nodup
  have hfresh : ∀ q, palloc = some q → IsPage env.ramPages q ∧ q ∉ pages ∧ q ≠ env.basePageDir := by
    rintro q rfl
    have hq : q ∈ kpage :: (q :: pages) := List.mem_cons_of_mem _ List.mem_cons_self
    exact ⟨hheld.isPage hstart.laid hq, (List.nodup_cons.mp hnodup).1, hbase q hq⟩
  have hfresh' : ∀ q, palloc = some q → Fresh env.ramPages env.basePageDir pd (tablesOf s.mem) q := by
    intro q hq
    obtain ⟨hpage, hnot, hqbase⟩ := hfresh q hq
    exact ⟨hpage, fun heq => hnot (heq ▸ hspace.pd_mem), hqbase, fun htable => hnot (hspace.table_mem htable)⟩
  obtain ⟨hnone, -, hrun⟩ | ⟨t, pt, pte, hwith, hpoints, hflag, hrun⟩ :=
    hspace.tables.pagedirSetPage_run writable hofs huser hk hfree hfresh'
  · exact .inl ⟨paging_read hrun, hnone⟩
  · have hmap : Maps env s.mem pd pages upage kpage writable palloc pt t pte :=
      ⟨hofs, huser, hfree, hneeded, hfresh, ⟨hk, hknew, hbase kpage List.mem_cons_self⟩, hwith, hpoints, hflag⟩
    refine .inr ⟨_, paging_run hrun, hheld.withMem fun a ha => ?_, hmap.space hspace, fun a ha => hmap.view_eq hspace ha⟩
    refine hmap.writeTables_eq hspace (ha pd ?_) (ha pt ?_)
    · exact List.mem_cons_of_mem _ (List.mem_append_right _ hspace.pd_mem)
    · exact List.mem_cons_of_mem _ (hmap.table_mem hspace)

/-- The page is mapped, or there is no memory for a table. -/
def MapsPage (env : Env) (p : Palloc.State) (used : Usage) (s : Machine) (pd upage kpage : Addr)
    (writable : Bool) (x : LoadM Bool) : Prop :=
  x s = .ok (false, s) ∨
    ∃ palloc got pages, x s = .ok (true, { s with palloc := palloc, got := got }) ∧
      Held p used { s with palloc := palloc, got := got } pages ∧ Space env palloc.mem pd pages ∧
      ∀ a < 0xc0000000, Load.view palloc.mem pd a =
        mapPage (Load.view s.mem pd) upage.toNat (fun j => s.mem (kpage.toNat + j)) writable a

theorem pagedirSetPage_eq (hheld : Held p used s (kpage :: pages))
    (hspace : Space env s.mem pd pages) (hofs : pgOfs upage = 0#32)
    (huser : isUserVaddr upage = true) (hfree : lookup (tablesOf s.mem) pd upage = none) :
    MapsPage env p used s pd upage kpage writable (pagedirSetPage env pd upage kpage writable) := by
  -- without a page for a table
  have hplain : MapsPage env p used s pd upage kpage writable
      (paging (PageTable.pagedirSetPage env.ramPages env.basePageDir pd upage kpage writable (nonNull 0#32))) := by
    have hheld' : Held p used s (kpage :: ((none : Option Addr).toList ++ pages)) := hheld
    obtain ⟨hrun, -⟩ | ⟨m, hrun, hheld', hspace', hview⟩ :=
      set_maps hstart writable hheld' hspace hofs huser hfree fun _ => rfl
    · exact .inl hrun
    · exact .inr ⟨{ s.palloc with mem := m }, s.got, _, hrun, hheld', hspace', hview⟩
  unfold MapsPage pagedirSetPage
  rw [Program.get_bind_run]
  by_cases hzero : tablesOf s.mem pd (pdNo upage) = 0#32
  · rw [if_pos (show tablesOf s.palloc.mem pd (pdNo upage) = 0#32 from hzero)]
    obtain hnone | ⟨pt, palloc, hrun, hheld₁, hm, -⟩ := hheld.pallocGetPage hstart.laid ⟨false, true, false⟩ rfl
    · rw [Program.bind_run_ok hnone]
      exact hplain
    · have hptPage := hheld₁.isPage hstart.laid List.mem_cons_self
      have hnonNull : nonNull pt = some pt := if_neg hptPage.ne_zero
      rw [Program.bind_run_ok hrun]
      dsimp only
      rw [hnonNull]
      obtain ⟨hspace₁, hpte, hview₁⟩ := hspace.of_new hstart hheld₁ (fun q hq => List.mem_cons_of_mem kpage hq) hm
      have hfree₁ : lookup (tablesOf palloc.mem) pd upage = none := by
        rw [lookup, translate_eq_frameOf, hpte _ _ (pdNo_user huser), ← translate_eq_frameOf]
        exact hfree
      have hzero₁ : tablesOf palloc.mem pd (pdNo upage) = 0#32 := by
        have hne : pd ≠ pt := fun heq => (List.nodup_cons.mp hheld₁.nodup).1
          (heq ▸ List.mem_cons_of_mem kpage hspace.pd_mem)
        rw [tablesOf_congr fun a ha => hm a (ha.not_onPage hspace.tables.page.aligned hptPage.aligned hne)]
        exact hzero
      have hheld₂ : Held p used { s with palloc := palloc, got := pt :: s.got } (kpage :: ((some pt).toList ++ pages)) :=
        hheld₁.perm (List.Perm.swap kpage pt pages)
      obtain ⟨-, hnone⟩ | ⟨m, hrun', hheld', hspace', hview⟩ :=
        set_maps hstart writable hheld₂ hspace₁ hofs huser hfree₁ fun hne => absurd hzero₁ hne
      · cases hnone
      · refine .inr ⟨{ palloc with mem := m }, pt :: s.got, _, hrun', hheld', hspace', fun a ha => ?_⟩
        have hkpt : kpage ≠ pt := fun heq => (List.nodup_cons.mp hheld₁.nodup).1 (heq ▸ List.mem_cons_self)
        have hk := hheld.isPage hstart.laid List.mem_cons_self
        refine (hview a ha).trans (mapPage_congr (fun j hj => ?_) (hview₁ a ha))
        have hon : OnPage kpage (kpage.toNat + j) := ⟨Nat.le_add_right .., by omega⟩
        exact hm _ (hon.not_onPage hk.aligned hptPage.aligned hkpt)
  · rw [if_neg (show ¬ tablesOf s.palloc.mem pd (pdNo upage) = 0#32 from hzero), Program.bind_run_ok rfl]
    exact hplain

/-- **`pagedir_create`** makes an address space without pages, or has no memory for it. -/
theorem pagedirCreate_eq (hheld : Held p used s []) (hempty : UserHalfEmpty (tablesOf s.mem) env.basePageDir) :
    pagedirCreate env s = .ok (none, s) ∨
      ∃ pd palloc got, pagedirCreate env s = .ok (some pd, { s with palloc := palloc, got := got }) ∧
        Process env p used { s with palloc := palloc, got := got, pagedir := some pd } pd [pd] fun _ => none := by
  unfold pagedirCreate
  obtain hrun | ⟨pd, palloc, hrun, hheld₁, hm, -⟩ := hheld.pallocGetPage hstart.laid ⟨false, false, false⟩ rfl
  · rw [Program.bind_run_ok hrun]
    exact .inl (paging_read rfl)
  · have hpage := hheld₁.isPage hstart.laid List.mem_cons_self
    have hne : pd ≠ env.basePageDir := fun heq => hheld₁.not_mem hstart.inUse (heq ▸ List.mem_cons_self)
    have hbase : tablesOf palloc.mem env.basePageDir = tablesOf s.mem env.basePageDir :=
      tablesOf_congr fun a ha => hm a (ha.not_onPage hstart.base.aligned hpage.aligned hne.symm)
    have hempty₁ : UserHalfEmpty (tablesOf palloc.mem) env.basePageDir := fun d hd => by rw [hbase]; exact hempty d hd
    have hnonNull : nonNull pd = some pd := if_neg hpage.ne_zero
    obtain ⟨t, hcreate, htables, -⟩ := Tables.pagedirCreate hpage hne hempty₁
    obtain rfl : t = update (tablesOf palloc.mem) pd (tablesOf palloc.mem env.basePageDir) := by
      cases hcreate
      rfl
    rw [Program.bind_run_ok hrun, hnonNull]
    generalize ht : update (tablesOf palloc.mem) pd (tablesOf palloc.mem env.basePageDir) = t at hcreate htables
    have hback : ∀ q, IsPage env.ramPages q → tablesOf (writeTables palloc.mem t) q = t q := fun q hq =>
      tablesOf_writeTables palloc.mem t hq.aligned
    -- the user half of the directory is empty
    have hzero : ∀ d : BitVec 10, d.toNat < 768 → t pd d = 0#32 := by
      intro d hd
      rw [← ht, update_self]
      exact hempty₁ d hd
    have hwords : ∀ d : BitVec 10, d.toNat < 768 → tablesOf (writeTables palloc.mem t) pd d = 0#32 := by
      intro d hd
      rw [hback pd hpage, hzero d hd]
    have hnotTable : ∀ q, ¬ IsTable t pd q := by
      rintro q ⟨d, hd, hpoints⟩
      exact hpoints.ne_zero (hzero d hd)
    have hspace : Space env (writeTables palloc.mem t) pd [pd] := by
      refine ⟨?_, .init (fun d hd => ?_) fun d hd i _ => ?_, List.forall_mem_singleton.mpr hpage,
        hstart.base, fun hmem => ?_⟩
      · exact htables.keep (hback pd hpage) (hback _ hstart.base) fun q hq => absurd hq (hnotTable q)
      · rw [tableAt, hwords _ (toNat_ofNat_lt hd), frameOf_zero]
      · rw [frameAt, pteAt_of_zero (hwords _ (toNat_ofNat_lt hd)), frameOf_zero]
      · exact hne (List.mem_singleton.mp hmem).symm
    have hheld₂ := hheld₁.withMem (m := writeTables palloc.mem t) fun a ha => by
      refine writeTables_of_not_onPage hpage.aligned (fun q hq => ?_) (ha pd List.mem_cons_self)
      rw [← ht, update_of_ne hq]
    refine .inr ⟨pd, { palloc with mem := writeTables palloc.mem t }, pd :: s.got, paging_run hcreate,
      hheld₂.congr rfl rfl rfl, hspace, rfl, fun a ha => ?_⟩
    show Load.view (writeTables palloc.mem t) pd a = none
    unfold Load.view
    dsimp only
    rw [pteAt_of_zero (hwords _ (pdNo_ofNat_lt ha)), frameOf_zero, Option.map_none]

omit hstart in
/-- A page that the user sees is mapped to a frame with its bytes. -/
theorem exists_lookup {x : UInt8 × Bool} (hofs : pgOfs upage = 0#32) (ha : OnPage upage a)
    (hlt : a < 2 ^ 32) (hx : Load.view m pd a = some x) :
    ∃ kpage, lookup (tablesOf m) pd upage = some kpage ∧ m (kpage.toNat + (a - upage.toNat)) = x.1 := by
  obtain ⟨hd, hi⟩ := (onPage_iff_index hofs hlt).mp ha
  unfold Load.view at hx
  rw [hd, hi, Option.map_eq_some_iff] at hx
  obtain ⟨kpage, hk, rfl⟩ := hx
  refine ⟨kpage, ?_, ?_⟩
  · rw [lookup, translate_eq_frameOf, hk]
  · rw [ha.mod_eq hofs]

omit hstart in
theorem view_eq_none (hofs : pgOfs upage = 0#32) (huser : isUserVaddr upage = true)
    (hfree : lookup (tablesOf m) pd upage = none) (ha : OnPage upage a) : Load.view m pd a = none := by
  have huser := isUserVaddr_iff.mp huser
  have hlt : a < 2 ^ 32 := by
    unfold OnPage at ha
    omega
  obtain ⟨hd, hi⟩ := (onPage_iff_index hofs hlt).mp ha
  rw [lookup, translate_eq_frameOf] at hfree
  unfold Load.view
  dsimp only
  rw [hd, hi, hfree, Option.map_none]

/-- A process that has got a page, which is not mapped yet. -/
structure WithPage (env : Env) (p : Palloc.State) (used : Usage) (s : Machine) (pd kpage : Addr)
    (pages : List Addr) (v : AddressSpace) : Prop where
  held : Held p used s (kpage :: pages)
  space : Space env s.mem pd pages
  pagedir : s.pagedir = some pd
  view : ∀ a < 0xc0000000, view s.mem pd a = v a

/-- **A page for the process.** -/
theorem Process.pallocGetPage (h : Process env p used s pd pages v) (flags : Palloc.Flags) (hflags : flags.assert = false) :
    pallocGetPage flags s = .ok (0#32, s) ∨
      ∃ kpage palloc, kpage ≠ 0#32 ∧
        pallocGetPage flags s = .ok (kpage, { s with palloc := palloc, got := kpage :: s.got }) ∧
        WithPage env p used { s with palloc := palloc, got := kpage :: s.got } pd kpage pages v ∧
        (flags.zero = true → ∀ a, OnPage kpage a → palloc.mem a = 0) := by
  obtain hrun | ⟨kpage, palloc, hrun, hheld, hm, hzero⟩ := h.held.pallocGetPage hstart.laid flags hflags
  · exact .inl hrun
  · obtain ⟨hspace, -, hview⟩ := h.space.of_new hstart hheld (fun _ hq => hq) hm
    exact .inr ⟨kpage, palloc, (hheld.isPage hstart.laid List.mem_cons_self).ne_zero, hrun,
      ⟨hheld, hspace, h.pagedir, fun a ha => (hview a ha).trans (h.view a ha)⟩, hzero⟩

namespace WithPage

variable (h : WithPage env p used s pd kpage pages v)
include h

theorem write (hm : ∀ a, ¬ OnPage kpage a → m a = s.mem a) : WithPage env p used (s.withMem m) pd kpage pages v := by
  obtain ⟨hspace, -, hview⟩ := h.space.of_new hstart h.held (fun _ hq => hq) hm
  refine ⟨h.held.withMem fun a ha => hm a (ha kpage List.mem_cons_self), hspace, h.pagedir, fun a ha => ?_⟩
  exact (hview a ha).trans (h.view a ha)

omit hstart in
theorem setFile (file : Cell ℕ) (reads : ℕ) :
    WithPage env p used { s with file := file, reads := reads } pd kpage pages v :=
  ⟨h.held.congr rfl rfl rfl, h.space, h.pagedir, h.view⟩

theorem free : ∃ palloc, pallocFreePage kpage s = .ok ((), { s with palloc := palloc, freed := kpage :: s.freed }) ∧
    Process env p used { s with palloc := palloc, freed := kpage :: s.freed } pd pages v := by
  obtain ⟨palloc, hrun, hheld, hm⟩ := h.held.pallocFreePage hstart.laid
  obtain ⟨hspace, -, hview⟩ := h.space.of_new hstart h.held (fun _ hq => hq) hm
  exact ⟨palloc, hrun, hheld, hspace, h.pagedir, fun a ha => (hview a ha).trans (h.view a ha)⟩

/-- **`install_page`** adds the page to the address space, if it is not there yet; or it fails and
leaves everything as it is. -/
theorem installPage (hofs : pgOfs upage = 0#32) (huser : isUserVaddr upage = true) :
    installPage env upage kpage writable s = .ok (false, s) ∨
      ∃ palloc got pages', installPage env upage kpage writable s = .ok (true, { s with palloc := palloc, got := got }) ∧
        (∀ a, OnPage upage a → v a = none) ∧
        Process env p used { s with palloc := palloc, got := got } pd pages'
          (mapPage v upage.toNat (fun j => s.mem (kpage.toNat + j)) writable) := by
  have hinstall : Load.installPage env upage kpage writable s = (do
      if (← paging (PageTable.pagedirGetPage pd upage)) = 0#32 then Load.pagedirSetPage env pd upage kpage writable
      else return false : LoadM Bool) s := by
    unfold Load.installPage
    simp only [Program.get_bind_run, h.pagedir]
  rw [hinstall, Program.bind_run_ok (paging_read (h.space.tables.pagedirGetPage huser))]
  cases hlookup : lookup (tablesOf s.mem) pd upage with
  | some k =>
    have hframe : IsPage env.ramPages k := h.space.tables.frame _ _ k (pdNo_user huser) hlookup
    have hne : kernelAddr upage (some k) ≠ 0#32 := hframe.add_ofs_ne_zero upage
    rw [if_neg hne]
    exact .inl rfl
  | none =>
    have hnull : kernelAddr upage none = 0#32 := rfl
    rw [if_pos hnull]
    obtain hrun | ⟨palloc, got, pages', hrun, hheld', hspace', hview'⟩ :=
      pagedirSetPage_eq hstart writable h.held h.space hofs huser hlookup
    · exact .inl hrun
    · refine .inr ⟨palloc, got, pages', hrun, fun a ha => ?_, hheld', hspace', h.pagedir, fun a ha => ?_⟩
      · have hlt : a < 0xc0000000 := by
          have := isUserVaddr_iff.mp huser
          have := pgOfs_eq_zero_iff.mp hofs
          unfold OnPage at ha
          omega
        rw [← h.view a hlt]
        exact view_eq_none hofs huser hlookup ha
      · exact (hview' a ha).trans (mapPage_congr (fun _ _ => rfl) (h.view a ha))

theorem installOrFree {E : Stop → Prop} (hofs : pgOfs upage = 0#32) (huser : isUserVaddr upage = true) :
    Program.Ends E (do
        if ← Load.installPage env upage kpage writable then return true
        else
          Load.pallocFreePage kpage
          return false : LoadM Bool) s fun ok t =>
      ∃ pages' v', Process env p used t pd pages' v' ∧ t.file = s.file ∧
        (ok = true → (∀ a, OnPage upage a → v a = none) ∧
          v' = mapPage v upage.toNat (fun j => s.mem (kpage.toNat + j)) writable) := by
  obtain hrun | ⟨palloc, got, pages', hrun, hfree, hprocess⟩ := h.installPage hstart writable hofs huser
  · obtain ⟨palloc, hrun', hprocess⟩ := h.free hstart
    refine .run_bind hrun (.run_bind hrun' (.pure ⟨pages, v, hprocess, rfl, fun hok => (by cases hok)⟩))
  · exact .run_bind hrun (.pure ⟨pages', _, hprocess, rfl, fun _ => ⟨hfree, rfl⟩⟩)

end WithPage

end Install

end Pintos.Userprog.Load
