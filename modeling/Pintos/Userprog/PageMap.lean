import Pintos.Basis.History
import Pintos.Userprog.PageTable

/-!
# A page directory is a map

What the functions of `userprog/pagedir.c` are for: a page directory maps user pages to frames.
`pagedir_set_page` adds a page to the map, `pagedir_clear_page` removes one, and
`pagedir_get_page` looks one up. The map is kept in two levels of tables, of which the second
is made when it is needed.

## The model

`translate` follows the two levels in memory. `Tables` is the invariant that makes it a map: every
entry of the user half of the directory is `0` or points to a table of its own, and no table is
the directory. A run begins with `pagedir_create` and goes on with the functions of `pagedir.c`, in
any order and with any results of `palloc_get_page`, and with stores of anybody to pages that are
no tables of this directory. It is logged which pages were set and cleared.

**`pagedir_refines_map`**: in every run the directory is the map that the log says.
-/

namespace Pintos.Userprog.PageTable

open Function Program

/-! ### The abstract map -/

/-- A map from user pages to frames. -/
abbrev PageMap := BitVec 20 → Option Addr

/-- What is logged. -/
inductive PageEvent where
  /-- `pagedir_set_page` has returned. -/
  | set (page : BitVec 20) (kpage : Addr) (success : Bool)
  /-- `pagedir_clear_page` has returned. -/
  | clear (page : BitVec 20)
  deriving DecidableEq

/-- The map after an event. -/
def PageMap.after (m : PageMap) : PageEvent → PageMap
  | .set page kpage true => update m page (some kpage)
  | .set _ _ false => m
  | .clear page => update m page none

/-- The map of a log. -/
def mapOf (log : List PageEvent) : PageMap := log.foldl PageMap.after fun _ => none

/-- The event changes what is mapped at `page`. -/
def PageEvent.changes (page : BitVec 20) : PageEvent → Prop
  | .set page' _ success => page' = page ∧ success = true
  | .clear page' => page' = page

/-- `page` was last set to `kpage`, and not cleared since. -/
def LastSet (log : List PageEvent) (page : BitVec 20) (kpage : Addr) : Prop :=
  ∃ l₁ l₂, log = l₁ ++ .set page kpage true :: l₂ ∧ ∀ e ∈ l₂, ¬ e.changes page

theorem mapOf_append (log : List PageEvent) (e : PageEvent) : mapOf (log ++ [e]) = (mapOf log).after e := by
  simp [mapOf]

variable {e : PageEvent}

theorem PageMap.after_of_not_changes {page : BitVec 20} (h : ¬ e.changes page) (m : PageMap) :
    m.after e page = m page := by
  cases e with
  | set page' kpage success =>
    cases success with
    | false => rfl
    | true => exact update_of_ne (fun hp => h ⟨hp.symm, rfl⟩) _ _
  | clear page' => exact update_of_ne (fun hp => h hp.symm) _ _

theorem not_lastSet_nil (page : BitVec 20) (kpage : Addr) : ¬ LastSet [] page kpage := by
  rintro ⟨l₁, l₂, hlog, -⟩
  simp at hlog

variable {log : List PageEvent} {kpage : Addr}

theorem lastSet_append_of_not_changes {page : BitVec 20}
    (h : ¬ e.changes page) : LastSet (log ++ [e]) page kpage ↔ LastSet log page kpage := by
  constructor
  · rintro ⟨l₁, l₂, hlog, hl₂⟩
    rcases append_singleton_eq_append_cons_iff.mp hlog with ⟨-, rfl, -⟩ | ⟨l₃, rfl, rfl⟩
    · exact absurd ⟨rfl, rfl⟩ h
    · refine ⟨l₁, l₃, rfl, ?_⟩
      intro e' he'
      exact hl₂ e' (List.mem_append_left _ he')
  · rintro ⟨l₁, l₂, rfl, hl₂⟩
    refine ⟨l₁, l₂ ++ [e], by simp, ?_⟩
    intro e' he'
    rcases List.mem_append.mp he' with hmem | hlast
    · exact hl₂ e' hmem
    · rw [List.mem_singleton.mp hlast]
      exact h

theorem lastSet_append_of_changes {page : BitVec 20}
    (h : e.changes page) : LastSet (log ++ [e]) page kpage ↔ e = .set page kpage true := by
  constructor
  · rintro ⟨l₁, l₂, hlog, hl₂⟩
    rcases append_singleton_eq_append_cons_iff.mp hlog with ⟨-, he, -⟩ | ⟨l₃, rfl, -⟩
    · exact he
    · exact absurd h (hl₂ e (List.mem_append_right _ List.mem_cons_self))
  · rintro rfl
    exact ⟨log, [], rfl, by simp⟩

/-- **What the map of a log says.** -/
theorem mapOf_eq_some_iff {page : BitVec 20} : mapOf log page = some kpage ↔ LastSet log page kpage := by
  induction log using List.reverseRecOn with
  | nil => exact iff_of_false (by simp [mapOf]) (not_lastSet_nil page kpage)
  | append_singleton log e ih =>
    rw [mapOf_append]
    by_cases h : e.changes page
    · rw [lastSet_append_of_changes h]
      cases e with
      | set page' kpage' success =>
        obtain ⟨rfl, rfl⟩ := h
        simp [PageMap.after]
      | clear page' =>
        obtain rfl : page' = page := h
        simp [PageMap.after]
    · rw [PageMap.after_of_not_changes h, lastSet_append_of_not_changes h, ih]

/-! ### The map in memory -/

/-- The frame of an entry of a page table. -/
def frameOf (pte : BitVec 32) : Option Addr := if pte &&& PTE_P = 0#32 then none else some (Userprog.pteGetPage pte)

/-- The frame at an index of the directory and an index of a table. -/
def translate (mem : Mem) (pd : Addr) (d i : BitVec 10) : Option Addr :=
  if mem pd d &&& PTE_P = 0#32 then none else frameOf (mem (Userprog.pteGetPage (mem pd d)) i)

/-- The entry at an index of the directory and an index of a table, `0` where there is no table. -/
def pteAt (mem : Mem) (pd : Addr) (d i : BitVec 10) : BitVec 32 :=
  if mem pd d &&& PTE_P = 0#32 then 0#32 else mem (Userprog.pteGetPage (mem pd d)) i

/-- A page table of the user half. -/
def IsTable (mem : Mem) (pd p : Addr) : Prop := ∃ d : BitVec 10, d.toNat < 768 ∧ Points (mem pd d) p

variable {e : BitVec 32} {p : Addr}

theorem Points.frameOf (h : Points e p) : frameOf e = some p := by
  rw [PageTable.frameOf, if_neg h.present, h.page]

theorem frameOf_of_absent (h : e &&& PTE_P = 0#32) : frameOf e = none := if_pos h

theorem frameOf_zero : frameOf 0#32 = none := frameOf_of_absent BitVec.zero_and

theorem translate_eq_frameOf (mem : Mem) (pd : Addr) (d i : BitVec 10) :
    translate mem pd d i = frameOf (pteAt mem pd d i) := by
  unfold translate pteAt
  split_ifs
  · exact frameOf_zero.symm
  · rfl

variable {d : BitVec 10} {mem : Mem} {i : BitVec 10} {pd : Addr}

theorem pteAt_of_zero (h : mem pd d = 0#32) : pteAt mem pd d i = 0#32 := by
  rw [pteAt, h, if_pos BitVec.zero_and]

variable {pt : Addr}

theorem pteAt_of_points (h : Points (mem pd d) pt) : pteAt mem pd d i = mem pt i := by
  rw [pteAt, if_neg h.present, h.page]

theorem translate_of_zero (h : mem pd d = 0#32) : translate mem pd d i = none := by
  rw [translate_eq_frameOf, pteAt_of_zero h, frameOf_zero]

theorem translate_of_points (h : Points (mem pd d) pt) : translate mem pd d i = frameOf (mem pt i) := by
  rw [translate_eq_frameOf, pteAt_of_points h]

theorem Mem.set_apply (mem : Mem) (p q : Addr) (i j : BitVec 10) (w : BitVec 32) :
    mem.set p i w q j = if q = p ∧ j = i then w else mem q j := by
  unfold Mem.set
  obtain rfl | hq := eq_or_ne q p
  · rw [update_self, update_apply]
    simp
  · rw [update_of_ne hq, if_neg fun h => hq h.1]

theorem Mem.set_of_ne {q : Addr} (h : q ≠ p) (i : BitVec 10) (w : BitVec 32) :
    mem.set p i w q = mem q := update_of_ne h _ _

/-- The invariant of a page directory. -/
structure Tables (ramPages : ℕ) (base pd : Addr) (mem : Mem) : Prop where
  /-- The directory is a page. -/
  page : IsPage ramPages pd
  /-- It is not that of the kernel. -/
  ne_base : pd ≠ base
  /-- The kernel half is a copy. -/
  kernel : ∀ d : BitVec 10, 768 ≤ d.toNat → mem pd d = mem base d
  /-- The entries of the user half. -/
  entry : ∀ d : BitVec 10, d.toNat < 768 →
    mem pd d = 0#32 ∨ ∃ pt, Points (mem pd d) pt ∧ IsPage ramPages pt ∧ pt ≠ pd ∧ pt ≠ base
  /-- Every entry has a table of its own. -/
  own : ∀ (d d' : BitVec 10) (pt : Addr), d.toNat < 768 → d'.toNat < 768 → Points (mem pd d) pt → Points (mem pd d') pt →
    d = d'
  /-- What is mapped is a frame of RAM. -/
  frame : ∀ (d i : BitVec 10) (k : Addr), d.toNat < 768 → translate mem pd d i = some k → IsPage ramPages k

namespace Tables

variable {ramPages : ℕ} {base pd : Addr} {mem mem' : Mem}

theorem newTable_pd (mem : Mem) (d : BitVec 10) (e : BitVec 32) (hne : pt ≠ pd) (d' : BitVec 10) :
    (mem.zero pt).set pd d e pd d' = if d' = d then e else mem pd d' := by
  rw [Mem.set_apply, Mem.zero, update_of_ne hne.symm]
  simp

theorem newTable_other {q : Addr} (hq : q ≠ pd) (hqt : q ≠ pt) : (mem.zero pt).set pd d e q = mem q := by
  rw [Mem.set_of_ne hq, Mem.zero, update_of_ne hqt]

variable (h : Tables ramPages base pd mem)
include h

theorem of_points (hd : d.toNat < 768) (hpt : Points (mem pd d) pt) : IsPage ramPages pt ∧ pt ≠ pd ∧ pt ≠ base := by
  rcases h.entry d hd with hzero | ⟨q, hq, hpage, hne, hbase⟩
  · exact absurd hzero hpt.ne_zero
  · rw [hpt.unique hq]
    exact ⟨hpage, hne, hbase⟩

/-- The directory and its tables stay as they are, and so do the entries. -/
theorem pteAt_keep (hpd : mem' pd = mem pd)
    (htables : ∀ p, IsTable mem pd p → mem' p = mem p) (i : BitVec 10) (hd : d.toNat < 768) :
    pteAt mem' pd d i = pteAt mem pd d i := by
  rcases h.entry d hd with hzero | ⟨pt, hpt, -⟩
  · rw [pteAt_of_zero hzero, pteAt_of_zero (by rw [hpd, hzero])]
  · rw [pteAt_of_points hpt, pteAt_of_points (by rw [hpd]; exact hpt), htables pt ⟨d, hd, hpt⟩]

theorem keep (hpd : mem' pd = mem pd) (hbase : mem' base = mem base)
    (htables : ∀ p, IsTable mem pd p → mem' p = mem p) : Tables ramPages base pd mem' := by
  refine ⟨h.page, h.ne_base, ?_, ?_, ?_, ?_⟩
  · intro d hd
    rw [hpd, hbase]
    exact h.kernel d hd
  · rw [hpd]
    exact h.entry
  · rw [hpd]
    exact h.own
  · intro d i k hd hk
    rw [translate_eq_frameOf, h.pteAt_keep hpd htables i hd, ← translate_eq_frameOf] at hk
    exact h.frame d i k hd hk

theorem pteAt_setEntry (w : BitVec 32) (hd : d.toNat < 768)
    (hpt : Points (mem pd d) pt) (d' i' : BitVec 10) (hd' : d'.toNat < 768) :
    pteAt (mem.set pt i w) pd d' i' = if d' = d ∧ i' = i then w else pteAt mem pd d' i' := by
  have hpd : mem.set pt i w pd = mem pd := Mem.set_of_ne (h.of_points hd hpt).2.1.symm i w
  rcases h.entry d' hd' with hzero | ⟨q, hq, -⟩
  · have hdd : d' ≠ d := by
      rintro rfl
      exact hpt.ne_zero hzero
    rw [pteAt_of_zero (by rw [hpd, hzero]), pteAt_of_zero hzero, if_neg fun hdi => hdd hdi.1]
  · rw [pteAt_of_points (by rw [hpd]; exact hq), pteAt_of_points hq, Mem.set_apply]
    obtain rfl | hdd := eq_or_ne d' d
    · rw [hq.unique hpt]
      by_cases hi : i' = i
      · rw [if_pos ⟨rfl, hi⟩, if_pos ⟨rfl, hi⟩]
      · rw [if_neg fun hp => hi hp.2, if_neg fun hp => hi hp.2]
    · have hqp : q ≠ pt := by
        rintro rfl
        exact hdd (h.own d' d q hd' hd hq hpt)
      rw [if_neg fun hp => hqp hp.1, if_neg fun hp => hdd hp.1]

theorem setEntry {w : BitVec 32} (hd : d.toNat < 768)
    (hpt : Points (mem pd d) pt) (hw : ∀ k, frameOf w = some k → IsPage ramPages k) :
    Tables ramPages base pd (mem.set pt i w) := by
  obtain ⟨-, hne, hbase⟩ := h.of_points hd hpt
  have hpd : mem.set pt i w pd = mem pd := Mem.set_of_ne hne.symm i w
  refine ⟨h.page, h.ne_base, ?_, ?_, ?_, ?_⟩
  · intro d' hd'
    rw [hpd, Mem.set_of_ne hbase.symm]
    exact h.kernel d' hd'
  · rw [hpd]
    exact h.entry
  · rw [hpd]
    exact h.own
  · intro d' i' k hd' hk
    rw [translate_eq_frameOf, h.pteAt_setEntry w hd hpt d' i' hd', apply_ite frameOf, ← translate_eq_frameOf] at hk
    split_ifs at hk
    · exact hw k hk
    · exact h.frame d' i' k hd' hk

theorem pteAt_newTable
    (hzero : mem pd d = 0#32) (hne : pt ≠ pd) (hfresh : ¬ IsTable mem pd pt) (he : Points e pt) (d' i' : BitVec 10)
    (hd' : d'.toNat < 768) : pteAt ((mem.zero pt).set pd d e) pd d' i' = pteAt mem pd d' i' := by
  have hpd := newTable_pd mem d e hne
  obtain rfl | hdd := eq_or_ne d' d
  · rw [pteAt_of_zero hzero, pteAt_of_points (by rw [hpd, if_pos rfl]; exact he), Mem.set_of_ne hne, Mem.zero,
      update_self]
  · have hsame : (mem.zero pt).set pd d e pd d' = mem pd d' := by rw [hpd, if_neg hdd]
    rcases h.entry d' hd' with hz | ⟨q, hq, -, hqpd, -⟩
    · rw [pteAt_of_zero hz, pteAt_of_zero (hsame.trans hz)]
    · have hqt : q ≠ pt := by
        rintro rfl
        exact hfresh ⟨d', hd', hq⟩
      rw [pteAt_of_points hq, pteAt_of_points (by rw [hsame]; exact hq), newTable_other hqpd hqt]

theorem newTable (hd : d.toNat < 768)
    (hzero : mem pd d = 0#32) (hpage : IsPage ramPages pt) (hne : pt ≠ pd) (hbase : pt ≠ base)
    (hfresh : ¬ IsTable mem pd pt) (he : Points e pt) :
    Tables ramPages base pd ((mem.zero pt).set pd d e) := by
  have hpd := newTable_pd mem d e hne
  refine ⟨h.page, h.ne_base, ?_, ?_, ?_, ?_⟩
  · intro d' hd'
    have hdd : d' ≠ d := by
      rintro rfl
      omega
    rw [hpd, if_neg hdd, newTable_other h.ne_base.symm hbase.symm]
    exact h.kernel d' hd'
  · intro d' hd'
    rw [hpd]
    split_ifs
    · exact .inr ⟨pt, he, hpage, hne, hbase⟩
    · exact h.entry d' hd'
  · intro d₁ d₂ q h₁ h₂ hq₁ hq₂
    rw [hpd] at hq₁ hq₂
    split_ifs at hq₁ hq₂ with hd₁ hd₂ hd₂
    · rw [hd₁, hd₂]
    · exact absurd ⟨d₂, h₂, he.unique hq₁ ▸ hq₂⟩ hfresh
    · exact absurd ⟨d₁, h₁, he.unique hq₂ ▸ hq₁⟩ hfresh
    · exact h.own d₁ d₂ q h₁ h₂ hq₁ hq₂
  · intro d' i' k hd' hk
    rw [translate_eq_frameOf, h.pteAt_newTable hzero hne hfresh he d' i' hd', ← translate_eq_frameOf] at hk
    exact h.frame d' i' k hd' hk

end Tables

/-! ### What the functions do -/

section Functions

variable {ramPages : ℕ} {base pd pt vaddr : Addr} {mem : Mem} {palloc : Option Addr} {create : Bool}

theorem load_run (page : Addr) (i : BitVec 10) (mem : Mem) : load page i mem = .ok (mem page i, mem) := rfl

theorem store_run (page : Addr) (i : BitVec 10) (w : BitVec 32) (mem : Mem) :
    store page i w mem = .ok ((), mem.set page i w) := rfl

theorem IsPage.ne_zero (h : IsPage ramPages pd) : pd ≠ 0#32 := by
  rintro rfl
  exact absurd h.kernel (by decide)

theorem lookupTable_run {pde : BitVec 32} (hpde : Points pde pt) (hpt : IsPage ramPages pt) :
    lookupTable pde vaddr mem = .ok (some (pt, ptNo vaddr), mem) := by
  unfold lookupTable
  rw [lift_bind_run (hpde.pdeGetPt hpt)]
  rfl

section LookupPage

variable (hpd : IsPage ramPages pd) (huser : isUserVaddr vaddr = true)
include hpd huser

theorem lookupPage_run :
    lookupPage pd vaddr create palloc mem =
      (if mem pd (pdNo vaddr) = 0#32 then if create then lookupNew pd vaddr palloc else pure none
      else lookupTable (mem pd (pdNo vaddr)) vaddr) mem := by
  unfold lookupPage
  rw [lift_bind_run (assert_of hpd.ne_zero), lift_bind_run (assert_of (.inr huser)),
    bind_run_ok (load_run _ _ _)]

theorem lookupPage_table (hpde : Points (mem pd (pdNo vaddr)) pt) (hpt : IsPage ramPages pt) :
    lookupPage pd vaddr create palloc mem = .ok (some (pt, ptNo vaddr), mem) := by
  rw [lookupPage_run hpd huser, if_neg hpde.ne_zero]
  exact lookupTable_run hpde hpt

theorem lookupPage_missing (hzero : mem pd (pdNo vaddr) = 0#32) (hno : create = false ∨ palloc = none) :
    lookupPage pd vaddr create palloc mem = .ok (none, mem) := by
  rw [lookupPage_run hpd huser, if_pos hzero]
  rcases hno with rfl | rfl
  · rfl
  · cases create <;> rfl

theorem lookupPage_new (hzero : mem pd (pdNo vaddr) = 0#32) (hpt : IsPage ramPages pt) :
    ∃ e, Points e pt ∧
      lookupPage pd vaddr true (some pt) mem = .ok (some (pt, ptNo vaddr), (mem.zero pt).set pd (pdNo vaddr) e) := by
  obtain ⟨e, he, hpoints⟩ := hpt.pdeCreate
  refine ⟨e, hpoints, ?_⟩
  have hload : load pd (pdNo vaddr) ((mem.zero pt).set pd (pdNo vaddr) e) =
      .ok (e, (mem.zero pt).set pd (pdNo vaddr) e) := by
    rw [load_run, Mem.set_apply, if_pos ⟨rfl, rfl⟩]
  have halloc : pallocGetPageZero (some pt) mem = .ok (some pt, mem.zero pt) := rfl
  rw [lookupPage_run hpd huser, if_pos hzero, if_pos rfl, lookupNew, bind_run_ok halloc]
  dsimp only
  rw [lift_bind_run he, bind_run_ok (store_run _ _ _ _), bind_run_ok hload]
  exact lookupTable_run hpoints hpt

end LookupPage

/-- The frame that an address is mapped to. -/
def lookup (mem : Mem) (pd vaddr : Addr) : Option Addr := translate mem pd (pdNo vaddr) (ptNo vaddr)

theorem lookup_eq_frameOf (a : Addr) : lookup mem pd a = frameOf (pteAt mem pd (pdNo a) (ptNo a)) :=
  translate_eq_frameOf _ _ _ _

/-- What `pagedir_get_page` returns for a frame. -/
def kernelAddr (uaddr : Addr) : Option Addr → Addr
  | none => 0#32
  | some kpage => kpage + pgOfs uaddr

/-- **`pagedir_get_page`.** -/
theorem Tables.pagedirGetPage (h : Tables ramPages base pd mem) (huser : isUserVaddr vaddr = true) :
    pagedirGetPage pd vaddr mem = .ok (kernelAddr vaddr (lookup mem pd vaddr), mem) := by
  unfold PageTable.pagedirGetPage lookup
  rw [lift_bind_run (assert_of huser)]
  rcases h.entry (pdNo vaddr) (pdNo_user huser) with hzero | ⟨pt, hpde, hpt, -⟩
  · rw [bind_run_ok (lookupPage_missing h.page huser hzero (.inl rfl)), translate_of_zero hzero]
    rfl
  · rw [bind_run_ok (lookupPage_table h.page huser hpde hpt)]
    dsimp only
    rw [bind_run_ok (load_run _ _ _)]
    have htranslate := translate_of_points (i := ptNo vaddr) hpde
    by_cases hpresent : mem pt (ptNo vaddr) &&& PTE_P = 0#32
    · rw [if_neg (not_not.mpr hpresent), htranslate, frameOf_of_absent hpresent]
      rfl
    · have hpte := points_of_present hpresent
      rw [hpte.frameOf] at htranslate
      have hframe := h.frame _ _ _ (pdNo_user huser) htranslate
      rw [if_pos hpresent, htranslate, lift_bind_run (hpte.pteGetPage hframe)]
      rfl

/-- A page that `palloc_get_page` can return for a table. -/
structure Fresh (ramPages : ℕ) (base pd : Addr) (mem : Mem) (p : Addr) : Prop where
  page : IsPage ramPages p
  /-- It is not the directory. -/
  ne_pd : p ≠ pd
  /-- It is not that of the kernel. -/
  ne_base : p ≠ base
  not_table : ¬ IsTable mem pd p

theorem frameOf_isPage (he : Points e kpage) (hk : IsPage ramPages kpage) :
    ∀ k, frameOf e = some k → IsPage ramPages k := by
  intro k hframe
  rw [he.frameOf] at hframe
  rw [← Option.some.inj hframe]
  exact hk

theorem Tables.lookup_setEntry (h : Tables ramPages base pd mem) (huser : isUserVaddr vaddr = true)
    (hpde : Points (mem pd (pdNo vaddr)) pt) {w : BitVec 32} (hw : ∀ k, frameOf w = some k → IsPage ramPages k) :
    Tables ramPages base pd (mem.set pt (ptNo vaddr) w) ∧ ∀ a, isUserVaddr a = true →
      lookup (mem.set pt (ptNo vaddr) w) pd a = if pgNo a = pgNo vaddr then frameOf w else lookup mem pd a := by
  refine ⟨h.setEntry (pdNo_user huser) hpde hw, ?_⟩
  intro a ha
  rw [lookup_eq_frameOf, h.pteAt_setEntry w (pdNo_user huser) hpde _ _ (pdNo_user ha), apply_ite frameOf,
    ← lookup_eq_frameOf]
  simp only [pgNo_eq_iff]

section Set

variable {upage kpage : Addr} (writable : Bool)

theorem set_tail (hpde : Points (mem pd (pdNo upage)) pt) (hk : IsPage ramPages kpage)
    (hfree : lookup mem pd upage = none) :
    ∃ pte, Points pte kpage ∧ (pte &&& PTE_W = if writable then PTE_W else 0#32) ∧ (do
        let old ← load pt (ptNo upage)
        assert (old &&& PTE_P = 0#32)
        let pte ← pteCreateUser kpage writable
        store pt (ptNo upage) pte
        pure true : Paging Bool) mem = .ok (true, mem.set pt (ptNo upage) pte) := by
  obtain ⟨pte, hpte, hpoints, hwritable⟩ := hk.pteCreateUser writable
  have habsent : mem pt (ptNo upage) &&& PTE_P = 0#32 := by
    by_contra hpresent
    rw [lookup, translate_of_points hpde, (points_of_present hpresent).frameOf] at hfree
    cases hfree
  refine ⟨pte, hpoints, hwritable, ?_⟩
  rw [bind_run_ok (load_run _ _ _), lift_bind_run (assert_of habsent), lift_bind_run hpte,
    bind_run_ok (store_run _ _ _ _)]
  rfl

/-- The memory with a table for an index of the directory: it was there, or it was made. -/
inductive WithTable (mem : Mem) (pd : Addr) (d : BitVec 10) (palloc : Option Addr) (pt : Addr) : Mem → Prop where
  | there (h : Points (mem pd d) pt) : WithTable mem pd d palloc pt mem
  | made (e : BitVec 32) (hzero : mem pd d = 0#32) (hpt : palloc = some pt) (he : Points e pt) :
    WithTable mem pd d palloc pt ((mem.zero pt).set pd d e)

section

variable (h : Tables ramPages base pd mem)
include h

theorem Tables.withTable (hd : d.toNat < 768) {mem₁ : Mem}
    (hfresh : ∀ p, palloc = some p → Fresh ramPages base pd mem p) (hwith : WithTable mem pd d palloc pt mem₁) :
    Tables ramPages base pd mem₁ ∧ Points (mem₁ pd d) pt ∧
      ∀ d' i' : BitVec 10, d'.toNat < 768 → pteAt mem₁ pd d' i' = pteAt mem pd d' i' := by
  cases hwith with
  | there hpt => exact ⟨h, hpt, fun _ _ _ => rfl⟩
  | made e hzero hpt he =>
    obtain ⟨hpage, hne, hbase, hnot⟩ := hfresh pt hpt
    refine ⟨h.newTable hd hzero hpage hne hbase hnot he, ?_, h.pteAt_newTable hzero hne hnot he⟩
    rw [Mem.set_apply, if_pos ⟨rfl, rfl⟩]
    exact he

section

variable (hofs : pgOfs upage = 0#32) (huser : isUserVaddr upage = true) (hk : IsPage ramPages kpage)
  (hfree : lookup mem pd upage = none) (hfresh : ∀ p, palloc = some p → Fresh ramPages base pd mem p)
include hofs huser hk hfree hfresh

/-- **`pagedir_set_page`** on a page that is not mapped: it writes the page's entry, or there is no
memory for a table. -/
theorem Tables.pagedirSetPage_run :
    (palloc = none ∧ mem pd (pdNo upage) = 0#32 ∧
        pagedirSetPage ramPages base pd upage kpage writable palloc mem = .ok (false, mem)) ∨
      ∃ mem₁ pt pte, WithTable mem pd (pdNo upage) palloc pt mem₁ ∧ Points pte kpage ∧
        (pte &&& PTE_W = if writable then PTE_W else 0#32) ∧
        pagedirSetPage ramPages base pd upage kpage writable palloc mem = .ok (true, mem₁.set pt (ptNo upage) pte) := by
  unfold PageTable.pagedirSetPage
  rw [lift_bind_run (assert_of hofs), lift_bind_run (assert_of hk.aligned),
    lift_bind_run (assert_of huser), lift_bind_run hk.vtop, lift_bind_run (assert_of hk.inRam),
    lift_bind_run (assert_of h.ne_base)]
  rcases h.entry (pdNo upage) (pdNo_user huser) with hzero | ⟨pt, hpde, hpt, -⟩
  · cases palloc with
    | none =>
      rw [bind_run_ok (lookupPage_missing h.page huser hzero (.inr rfl))]
      exact .inl ⟨rfl, hzero, rfl⟩
    | some pt =>
      obtain ⟨e, he, hnew⟩ := lookupPage_new h.page huser hzero (hfresh pt rfl).page
      have hwith : WithTable mem pd (pdNo upage) (some pt) pt ((mem.zero pt).set pd (pdNo upage) e) := .made e hzero rfl he
      obtain ⟨-, hpde, hsame⟩ := h.withTable (pdNo_user huser) hfresh hwith
      rw [bind_run_ok hnew]
      -- the new table has no entry yet
      have hfree' : lookup ((mem.zero pt).set pd (pdNo upage) e) pd upage = none := by
        rw [lookup_eq_frameOf, hsame _ _ (pdNo_user huser), ← lookup_eq_frameOf]
        exact hfree
      obtain ⟨pte, hpoints, hwritable, hrun⟩ := set_tail writable hpde hk hfree'
      exact .inr ⟨_, pt, pte, hwith, hpoints, hwritable, hrun⟩
  · rw [bind_run_ok (lookupPage_table h.page huser hpde hpt)]
    obtain ⟨pte, hpoints, hwritable, hrun⟩ := set_tail writable hpde hk hfree
    exact .inr ⟨mem, pt, pte, .there hpde, hpoints, hwritable, hrun⟩

/-- **`pagedir_set_page`** on a page that is not mapped: it adds the page to the map, or it fails
and changes nothing. -/
theorem Tables.pagedirSetPage :
    ∃ ok mem', pagedirSetPage ramPages base pd upage kpage writable palloc mem = .ok (ok, mem') ∧
      Tables ramPages base pd mem' ∧ ∀ a, isUserVaddr a = true →
        lookup mem' pd a = if ok = true ∧ pgNo a = pgNo upage then some kpage else lookup mem pd a := by
  obtain ⟨-, -, hrun⟩ | ⟨mem₁, pt, pte, hwith, hpoints, -, hrun⟩ :=
    h.pagedirSetPage_run writable hofs huser hk hfree hfresh
  · exact ⟨false, mem, hrun, h, fun a _ => by simp⟩
  · obtain ⟨htables, hpde, hsame⟩ := h.withTable (pdNo_user huser) hfresh hwith
    obtain ⟨htables', hlookup⟩ := htables.lookup_setEntry huser hpde (frameOf_isPage hpoints hk)
    refine ⟨true, _, hrun, htables', ?_⟩
    intro a ha
    have hlookup₁ : lookup mem₁ pd a = lookup mem pd a := by
      rw [lookup_eq_frameOf, hsame _ _ (pdNo_user ha), ← lookup_eq_frameOf]
    rw [hlookup a ha, hpoints.frameOf, hlookup₁]
    simp

end

end

end Set

/-- The entry of a page that is not mapped. -/
theorem frameOf_clear (e : BitVec 32) : frameOf (e &&& ~~~PTE_P) = none := by
  apply frameOf_of_absent
  rw [BitVec.and_assoc, show ~~~PTE_P &&& PTE_P = 0#32 by decide, BitVec.and_zero]

/-- **`pagedir_clear_page`** removes the page from the map. -/
theorem Tables.pagedirClearPage (h : Tables ramPages base pd mem) (hofs : pgOfs vaddr = 0#32)
    (huser : isUserVaddr vaddr = true) :
    ∃ mem', pagedirClearPage pd vaddr mem = .ok ((), mem') ∧ Tables ramPages base pd mem' ∧
      ∀ a, isUserVaddr a = true → lookup mem' pd a = if pgNo a = pgNo vaddr then none else lookup mem pd a := by
  unfold PageTable.pagedirClearPage
  rw [lift_bind_run (assert_of hofs), lift_bind_run (assert_of huser)]
  -- where nothing is mapped nothing changes
  have hsame : lookup mem pd vaddr = none → ∀ a, isUserVaddr a = true →
      lookup mem pd a = if pgNo a = pgNo vaddr then none else lookup mem pd a := by
    intro hnone a _
    split_ifs with ha
    · obtain ⟨hd, hi⟩ := pgNo_eq_iff.mp ha
      rw [lookup, hd, hi]
      exact hnone
    · rfl
  rcases h.entry (pdNo vaddr) (pdNo_user huser) with hzero | ⟨pt, hpde, hpt, -⟩
  · rw [bind_run_ok (lookupPage_missing h.page huser hzero (.inl rfl))]
    exact ⟨mem, rfl, h, hsame (translate_of_zero hzero)⟩
  · rw [bind_run_ok (lookupPage_table h.page huser hpde hpt)]
    dsimp only
    rw [bind_run_ok (load_run _ _ _)]
    by_cases hpresent : mem pt (ptNo vaddr) &&& PTE_P = 0#32
    · rw [if_neg (not_not.mpr hpresent)]
      exact ⟨mem, rfl, h, hsame ((translate_of_points hpde).trans (frameOf_of_absent hpresent))⟩
    · rw [if_pos hpresent]
      have hclear := frameOf_clear (mem pt (ptNo vaddr))
      obtain ⟨htables, hlookup⟩ := h.lookup_setEntry huser hpde (w := mem pt (ptNo vaddr) &&& ~~~PTE_P)
        fun k hk => by rw [hclear] at hk; cases hk
      refine ⟨_, rfl, htables, ?_⟩
      intro a ha
      rw [hlookup a ha, hclear]

variable {flag : BitVec 32}

theorem and_flag {mask : BitVec 32} (hflag : flag &&& mask = 0#32) (hnot : ~~~flag &&& mask = mask) (e : BitVec 32)
    (value : Bool) : (if value then e ||| flag else e &&& ~~~flag) &&& mask = e &&& mask := by
  cases value with
  | true =>
    rw [if_pos rfl, BitVec.and_comm, BitVec.and_or_distrib_left, BitVec.and_comm mask flag, hflag, BitVec.or_zero,
      BitVec.and_comm]
  | false => rw [if_neg Bool.false_ne_true, BitVec.and_assoc, hnot]

theorem frameOf_flag (hflag : flag = PTE_D ∨ flag = PTE_A) (e : BitVec 32) (value : Bool) :
    frameOf (if value then e ||| flag else e &&& ~~~flag) = frameOf e := by
  unfold frameOf Userprog.pteGetPage
  rcases hflag with rfl | rfl
  · rw [and_flag (by decide) (by decide), and_flag (by decide) (by decide)]
  · rw [and_flag (by decide) (by decide), and_flag (by decide) (by decide)]

/-- `pagedir_set_dirty` and `pagedir_set_accessed` leave the map as it is. -/
theorem Tables.setFlag (h : Tables ramPages base pd mem) (huser : isUserVaddr vaddr = true)
    (hflag : flag = PTE_D ∨ flag = PTE_A) (value : Bool) :
    ∃ mem', setFlag flag pd vaddr value mem = .ok ((), mem') ∧ Tables ramPages base pd mem' ∧
      ∀ a, isUserVaddr a = true → lookup mem' pd a = lookup mem pd a := by
  unfold PageTable.setFlag
  rcases h.entry (pdNo vaddr) (pdNo_user huser) with hzero | ⟨pt, hpde, hpt, -⟩
  · rw [bind_run_ok (lookupPage_missing h.page huser hzero (.inl rfl))]
    exact ⟨mem, rfl, h, fun a _ => rfl⟩
  · rw [bind_run_ok (lookupPage_table h.page huser hpde hpt)]
    dsimp only
    rw [bind_run_ok (load_run _ _ _)]
    have hframe := frameOf_flag hflag (mem pt (ptNo vaddr)) value
    have htranslate : lookup mem pd vaddr = frameOf (mem pt (ptNo vaddr)) := translate_of_points hpde
    obtain ⟨htables, hlookup⟩ := h.lookup_setEntry huser hpde
      (w := if value then mem pt (ptNo vaddr) ||| flag else mem pt (ptNo vaddr) &&& ~~~flag) (by
        intro k hk
        rw [hframe, ← htranslate] at hk
        exact h.frame _ _ k (pdNo_user huser) hk)
    refine ⟨_, rfl, htables, ?_⟩
    intro a ha
    rw [hlookup a ha, hframe]
    split_ifs with hpage
    · obtain ⟨hd, hi⟩ := pgNo_eq_iff.mp hpage
      rw [← htranslate, lookup, lookup, hd, hi]
    · rfl

theorem Tables.store (h : Tables ramPages base pd mem) (hpd : p ≠ pd) (hbase : p ≠ base)
    (htable : ¬ IsTable mem pd p) (i : BitVec 10) (w : BitVec 32) :
    Tables ramPages base pd (mem.set p i w) ∧
      ∀ a, isUserVaddr a = true → lookup (mem.set p i w) pd a = lookup mem pd a := by
  have htables : ∀ q, IsTable mem pd q → mem.set p i w q = mem q := by
    intro q hq
    apply Mem.set_of_ne
    rintro rfl
    exact htable hq
  have hpd' := mem.set_of_ne hpd.symm i w
  refine ⟨h.keep hpd' (Mem.set_of_ne hbase.symm i w) htables, ?_⟩
  intro a ha
  rw [lookup_eq_frameOf, h.pteAt_keep hpd' htables _ (pdNo_user ha), ← lookup_eq_frameOf]

/-- **`pagedir_create`** makes a directory without user pages. -/
theorem Tables.pagedirCreate (hpd : IsPage ramPages pd) (hne : pd ≠ base)
    (hbase : ∀ d : BitVec 10, d.toNat < 768 → mem base d = 0#32) :
    ∃ mem', PageTable.pagedirCreate base (some pd) mem = .ok (some pd, mem') ∧ Tables ramPages base pd mem' ∧
      ∀ a, isUserVaddr a = true → lookup mem' pd a = none := by
  have hself : update mem pd (mem base) pd = mem base := update_self _ _ _
  have hzero : ∀ d : BitVec 10, d.toNat < 768 → update mem pd (mem base) pd d = 0#32 := by
    intro d hd
    rw [hself]
    exact hbase d hd
  refine ⟨update mem pd (mem base), rfl, ⟨hpd, hne, ?_, ?_, ?_, ?_⟩, ?_⟩
  · intro d _
    rw [hself, update_of_ne hne.symm]
  · intro d hd
    exact .inl (hzero d hd)
  · intro d d' pt hd _ hpt
    exact absurd (hzero d hd) hpt.ne_zero
  · intro d i k hd hk
    rw [translate_of_zero (hzero d hd)] at hk
    cases hk
  · intro a ha
    exact translate_of_zero (hzero _ (pdNo_user ha))

end Functions

/-! ### The directory of the kernel -/

theorem ptov_page {ramPages page : ℕ} (hpage : page < ramPages) (hram : ramPages ≤ 262144) :
    ∃ vaddr, ptov (BitVec.ofNat 32 (page * 4096)) = .ok vaddr ∧ IsPage ramPages vaddr := by
  have hpaddr : (BitVec.ofNat 32 (page * 4096)).toNat = page * 4096 := by
    rw [BitVec.toNat_ofNat]
    omega
  have hvaddr : (BitVec.ofNat 32 (page * 4096) + PHYS_BASE).toNat = page * 4096 + 0xc0000000 := by
    rw [BitVec.toNat_add, hpaddr, show PHYS_BASE.toNat = 0xc0000000 from rfl]
    omega
  have hlt : BitVec.ofNat 32 (page * 4096) < PHYS_BASE := by
    show (BitVec.ofNat 32 (page * 4096)).toNat < 0xc0000000
    omega
  refine ⟨BitVec.ofNat 32 (page * 4096) + PHYS_BASE, ?_, ?_, ?_, ?_⟩
  · unfold ptov
    rw [assert_of hlt]
    rfl
  · rw [pgOfs_eq_zero_iff]
    omega
  · show 0xc0000000 ≤ (BitVec.ofNat 32 (page * 4096) + PHYS_BASE).toNat
    omega
  · rw [BitVec.add_sub_cancel, hpaddr]
    omega

theorem IsPage.pdNo {ramPages : ℕ} (h : IsPage ramPages p) : 768 ≤ (pdNo p).toNat := by
  have hk : 0xc0000000 ≤ p.toNat := h.kernel
  rw [toNat_pdNo]
  omega

/-- The user half of `base_page_dir` is empty. -/
def UserHalfEmpty (mem : Mem) (base : Addr) : Prop := ∀ d : BitVec 10, d.toNat < 768 → mem base d = 0#32

variable {base : Addr}

section

variable (h : UserHalfEmpty mem base)
include h

theorem UserHalfEmpty.set_other (hp : p ≠ base) (i : BitVec 10)
    (w : BitVec 32) : UserHalfEmpty (mem.set p i w) base := by
  intro d hd
  rw [Mem.set_of_ne hp.symm]
  exact h d hd

theorem UserHalfEmpty.set_kernel (hi : 768 ≤ i.toNat) (w : BitVec 32) : UserHalfEmpty (mem.set base i w) base := by
  intro d hd
  have hne : d ≠ i := by
    rintro rfl
    omega
  rw [Mem.set_apply, if_neg fun hdi => hne hdi.2]
  exact h d hd

theorem UserHalfEmpty.zero (hp : p ≠ base) : UserHalfEmpty (mem.zero p) base := by
  intro d hd
  rw [Mem.zero, update_of_ne hp.symm]
  exact h d hd

end

section PagingInit

variable {ramPages : ℕ} {base : Addr} {palloc : ℕ → Addr} (text : Addr → Bool)
  (hpalloc : ∀ page, IsPage ramPages (palloc page) ∧ palloc page ≠ base) (hram : ramPages ≤ 262144)
include hpalloc hram

theorem pagingLoop_ends {n page : ℕ} (hpages : page + n ≤ ramPages) (hpt : pt ≠ base) (h : UserHalfEmpty mem base) :
    Ends (fun _ => False) (pagingLoop base palloc text n page pt) mem fun _ mem' => UserHalfEmpty mem' base := by
  induction n generalizing page pt mem with
  | zero => exact h
  | succ n ih =>
    obtain ⟨vaddr, hvaddr, hpage⟩ := ptov_page (by omega : page < ramPages) hram
    obtain ⟨hnew, hnewBase⟩ := hpalloc page
    obtain ⟨e, he, -⟩ := hnew.pdeCreate
    refine .lift_bind hvaddr ?_
    refine .run_bind (load_run _ _ _) ?_
    -- the table is the new one or that of the page before
    have htable : ∀ (table : Addr) (mem' : Mem), table ≠ base → UserHalfEmpty mem' base →
        Ends (fun _ => False) (do
          let pte ← pteCreateKernel vaddr (!text vaddr)
          store table (ptNo vaddr) pte
          pagingLoop base palloc text n (page + 1) table : Paging Unit) mem' fun _ mem'' => UserHalfEmpty mem'' base := by
      intro table mem' htable hmem'
      refine .lift_bind (hpage.pteCreateKernel _) ?_
      exact ih (by omega) htable (hmem'.set_other htable _ _)
    by_cases hpde : mem base (pdNo vaddr) = 0#32
    · rw [if_pos hpde]
      refine .modify_bind (.lift_bind he ?_)
      exact htable _ _ hnewBase ((h.zero hnewBase).set_kernel hpage.pdNo e)
    · rw [if_neg hpde]
      exact htable pt mem hpt h

/-- **`paging_init`** returns, and leaves the user half of `base_page_dir` empty. -/
theorem pagingInit_ends (hbase : IsPage ramPages base) (mem : Mem) :
    Ends (fun _ => False) (pagingInit ramPages base palloc text) mem fun _ mem' => UserHalfEmpty mem' base := by
  refine .modify_bind (pagingLoop_ends text hpalloc hram (by omega) hbase.ne_zero.symm ?_)
  intro d _
  rw [Mem.zero, update_self]

end PagingInit

/-- Eight pages of RAM, and one page for all tables. -/
theorem pagingInit_ends_small : Ends (fun _ => False)
    (pagingInit 8 0xc0001000#32 (fun _ => 0xc0003000#32) fun _ => false) (fun _ _ => 0#32)
    fun _ mem => UserHalfEmpty mem 0xc0001000#32 :=
  pagingInit_ends (fun _ => false) (fun _ => ⟨by decide, by decide⟩) (by decide) (by decide) _

/-! ### Runs -/

/-- What can happen. -/
inductive PageOp where
  /-- `pagedir_set_page`, with the page that `palloc_get_page` returns for a table if one is
  needed. -/
  | set (upage kpage : Addr) (writable : Bool) (palloc : Option Addr)
  /-- `pagedir_clear_page`. -/
  | clear (upage : Addr)
  /-- `pagedir_get_page`. -/
  | get (uaddr : Addr)
  /-- `pagedir_set_dirty`. -/
  | setDirty (vpage : Addr) (dirty : Bool)
  /-- `pagedir_set_accessed`. -/
  | setAccessed (vpage : Addr) (accessed : Bool)
  /-- Somebody writes to a page. -/
  | write (page : Addr) (i : BitVec 10) (w : BitVec 32)

section Runs

variable (ramPages : ℕ) (base pd : Addr)

/-- An operation, and what it logs. -/
def PageOp.run : PageOp → Paging (List PageEvent)
  | .set upage kpage writable palloc => do
    let success ← pagedirSetPage ramPages base pd upage kpage writable palloc
    pure [.set (pgNo upage) kpage success]
  | .clear upage => do
    pagedirClearPage pd upage
    pure [.clear (pgNo upage)]
  | .get uaddr => do
    let _ ← pagedirGetPage pd uaddr
    pure []
  | .setDirty vpage dirty => do
    pagedirSetDirty pd vpage dirty
    pure []
  | .setAccessed vpage accessed => do
    pagedirSetAccessed pd vpage accessed
    pure []
  | .write page i w => do
    store page i w
    pure []

/-- What the callers see to. A page that is set is not mapped, and a frame is one of RAM; a page for
a table is a new one; the directory, its tables and that of the kernel are written by nobody
else. -/
def PageOp.Allowed (mem : Mem) (log : List PageEvent) : PageOp → Prop
  | .set upage kpage _ palloc =>
    pgOfs upage = 0#32 ∧ isUserVaddr upage = true ∧ IsPage ramPages kpage ∧ mapOf log (pgNo upage) = none ∧
      ∀ p, palloc = some p → Fresh ramPages base pd mem p
  | .clear upage => pgOfs upage = 0#32 ∧ isUserVaddr upage = true
  | .get uaddr => isUserVaddr uaddr = true
  | .setDirty vpage _ => isUserVaddr vpage = true
  | .setAccessed vpage _ => isUserVaddr vpage = true
  | .write page _ _ => page ≠ pd ∧ page ≠ base ∧ ¬ IsTable mem pd page

/-- The memory and the log of a directory, in every run. -/
inductive Reach : Mem → List PageEvent → Prop where
  /-- `pagedir_create`, when the user half of `base_page_dir` is as `paging_init` has left it. -/
  | create {mem mem' : Mem} : IsPage ramPages pd → pd ≠ base → UserHalfEmpty mem base →
      pagedirCreate base (some pd) mem = .ok (some pd, mem') → Reach mem' []
  /-- An operation. -/
  | step {mem mem' : Mem} {log events : List PageEvent} {op : PageOp} : Reach mem log →
      op.Allowed ramPages base pd mem log → op.run ramPages base pd mem = .ok (events, mem') →
      Reach mem' (log ++ events)

end Runs

variable {ramPages : ℕ} {base pd : Addr} {mem : Mem} {log : List PageEvent}

/-- The directory in memory is the map of the log. -/
structure Refines (ramPages : ℕ) (base pd : Addr) (mem : Mem) (log : List PageEvent) : Prop
    extends Tables ramPages base pd mem where
  /-- The two levels of tables say what the log says. -/
  agrees : ∀ a, isUserVaddr a = true → lookup mem pd a = mapOf log (pgNo a)

variable {mem' : Mem}

theorem Refines.quiet (h : Refines ramPages base pd mem log)
    (hop : Tables ramPages base pd mem' ∧ ∀ a, isUserVaddr a = true → lookup mem' pd a = lookup mem pd a) :
    Refines ramPages base pd mem' (log ++ []) := by
  refine ⟨hop.1, ?_⟩
  intro a ha
  rw [hop.2 a ha, h.agrees a ha, List.append_nil]

/-- **One operation.** It returns, and what it does to the directory is what it logs. -/
theorem Refines.run (h : Refines ramPages base pd mem log) {op : PageOp} (hop : op.Allowed ramPages base pd mem log) :
    ∃ events mem', op.run ramPages base pd mem = .ok (events, mem') ∧ Refines ramPages base pd mem' (log ++ events) := by
  cases op with
  | set upage kpage writable palloc =>
    obtain ⟨hofs, huser, hk, hfree, hfresh⟩ := hop
    obtain ⟨ok, mem', hrun, htables, hlookup⟩ :=
      h.pagedirSetPage writable hofs huser hk ((h.agrees upage huser).trans hfree) hfresh
    refine ⟨[.set (pgNo upage) kpage ok], mem', bind_run_ok hrun, htables, ?_⟩
    intro a ha
    rw [hlookup a ha, h.agrees a ha, mapOf_append]
    cases ok with
    | false => simp [PageMap.after]
    | true => simp [PageMap.after, update_apply]
  | clear upage =>
    obtain ⟨mem', hrun, htables, hlookup⟩ := h.pagedirClearPage hop.1 hop.2
    refine ⟨[.clear (pgNo upage)], mem', bind_run_ok hrun, htables, ?_⟩
    intro a ha
    rw [hlookup a ha, h.agrees a ha, mapOf_append]
    simp [PageMap.after, update_apply]
  | get uaddr => exact ⟨[], mem, bind_run_ok (h.pagedirGetPage hop), h.quiet ⟨h.toTables, fun a _ => rfl⟩⟩
  | setDirty vpage dirty =>
    obtain ⟨mem', hrun, hkeep⟩ := h.setFlag hop (.inl rfl) dirty
    exact ⟨[], mem', bind_run_ok hrun, h.quiet hkeep⟩
  | setAccessed vpage accessed =>
    obtain ⟨mem', hrun, hkeep⟩ := h.setFlag hop (.inr rfl) accessed
    exact ⟨[], mem', bind_run_ok hrun, h.quiet hkeep⟩
  | write page i w =>
    exact ⟨[], mem.set page i w, rfl, h.quiet (h.store hop.1 hop.2.1 hop.2.2 i w)⟩

theorem refines_of_reach (h : Reach ramPages base pd mem log) : Refines ramPages base pd mem log := by
  induction h with
  | create hpd hne hbase hrun =>
    obtain ⟨mem', hrun', htables, hempty⟩ := Tables.pagedirCreate hpd hne hbase
    cases hrun.symm.trans hrun'
    exact ⟨htables, hempty⟩
  | step _ hop hrun ih =>
    obtain ⟨events', mem', hrun', href⟩ := ih.run hop
    cases hrun.symm.trans hrun'
    exact href

/-- The page whose mapping an operation may change. -/
def PageOp.page : PageOp → Option (BitVec 20)
  | .set upage _ _ _ => some (pgNo upage)
  | .clear upage => some (pgNo upage)
  | _ => none

variable {events : List PageEvent}

theorem PageOp.run_changes {op : PageOp} (h : op.run ramPages base pd mem = .ok (events, mem')) :
    ∀ e ∈ events, ∀ page, e.changes page → op.page = some page := by
  cases op with
  | set upage kpage writable palloc =>
    obtain ⟨ok, mem₁, -, hpure⟩ := eq_ok_of_bind h
    cases hpure
    intro e he page hpage
    rw [List.mem_singleton.mp he] at hpage
    exact congrArg some hpage.1
  | clear upage =>
    obtain ⟨-, mem₁, -, hpure⟩ := eq_ok_of_bind h
    cases hpure
    intro e he page hpage
    rw [List.mem_singleton.mp he] at hpage
    exact congrArg some hpage
  | get uaddr | setDirty vpage dirty | setAccessed vpage accessed | write page i w =>
    obtain ⟨-, mem₁, -, hpure⟩ := eq_ok_of_bind h
    cases hpure
    simp

theorem mapOf_append_of_not_changes {page : BitVec 20} (h : ∀ e ∈ events, ¬ e.changes page) :
    mapOf (log ++ events) page = mapOf log page := by
  induction events using List.reverseRecOn with
  | nil => rw [List.append_nil]
  | append_singleton events e ih =>
    rw [← List.append_assoc, mapOf_append, PageMap.after_of_not_changes (h e (by simp))]
    exact ih fun e' he' => h e' (by simp [he'])

/-- The two directories look the same at `a` to `pagedir_get_page`. -/
def SameAt (pd : Addr) (mem mem' : Mem) (a : Addr) : Prop :=
  ∃ r, pagedirGetPage pd a mem = .ok (r, mem) ∧ pagedirGetPage pd a mem' = .ok (r, mem')

theorem Refines.sameAt (h : Refines ramPages base pd mem log)
    (h' : Refines ramPages base pd mem' (log ++ events)) {a : Addr} (ha : isUserVaddr a = true)
    (hevents : ∀ e ∈ events, ¬ e.changes (pgNo a)) : SameAt pd mem mem' a := by
  refine ⟨kernelAddr a (lookup mem pd a), h.pagedirGetPage ha, ?_⟩
  rw [h'.pagedirGetPage ha, h'.agrees a ha, mapOf_append_of_not_changes hevents, h.agrees a ha]

/-- **A page directory is a map.** In every run of the functions of `pagedir.c` on a directory that
`pagedir_create` has made, and for every user address, `pagedir_get_page` returns: the byte of the
frame `kpage` if and only if the page was last set to `kpage` and not cleared since, and `NULL` if
there is no such frame. The kernel half is that of `base_page_dir`. Every further operation returns,
and changes nothing at other pages; a `pagedir_set_page` that fails changes nothing at all. -/
theorem pagedir_refines_map (ramPages : ℕ) (base pd : Addr) (mem : Mem) (log : List PageEvent)
    (h : Reach ramPages base pd mem log) :
    (∀ a, isUserVaddr a = true → ∃ r, pagedirGetPage pd a mem = .ok (r, mem) ∧
      (∀ kpage, IsPage ramPages kpage → (r = kpage + pgOfs a ↔ LastSet log (pgNo a) kpage)) ∧
      (r = 0#32 ↔ ∀ kpage, ¬ LastSet log (pgNo a) kpage)) ∧
    (∀ d : BitVec 10, 768 ≤ d.toNat → mem pd d = mem base d) ∧
    ∀ op : PageOp, op.Allowed ramPages base pd mem log →
      ∃ events mem', op.run ramPages base pd mem = .ok (events, mem') ∧
        (∀ a, isUserVaddr a = true → op.page ≠ some (pgNo a) → SameAt pd mem mem' a) ∧
        ∀ page kpage, events = [.set page kpage false] → ∀ a, isUserVaddr a = true → SameAt pd mem mem' a := by
  have href := refines_of_reach h
  refine ⟨?_, href.kernel, ?_⟩
  · intro a ha
    refine ⟨kernelAddr a (lookup mem pd a), href.pagedirGetPage ha, ?_, ?_⟩
    · intro kpage hk
      rw [← mapOf_eq_some_iff, ← href.agrees a ha]
      cases hmap : lookup mem pd a with
      | none => exact iff_of_false (hk.add_ofs_ne_zero a).symm (by simp)
      | some k =>
        show k + pgOfs a = kpage + pgOfs a ↔ some k = some kpage
        rw [BitVec.add_left_inj, Option.some.injEq]
    · simp only [← mapOf_eq_some_iff, ← href.agrees a ha]
      cases hmap : lookup mem pd a with
      | none => exact iff_of_true rfl (by simp)
      | some k =>
        have hk := href.frame _ _ k (pdNo_user ha) hmap
        refine iff_of_false (hk.add_ofs_ne_zero a) ?_
        intro hnone
        exact hnone k rfl
  · intro op hop
    obtain ⟨events, mem', hrun, href'⟩ := href.run hop
    refine ⟨events, mem', hrun, ?_, ?_⟩
    · intro a ha hpage
      exact href.sameAt href' ha fun e he hchange => hpage (PageOp.run_changes hrun e he _ hchange)
    · rintro page kpage rfl a ha
      apply href.sameAt href' ha
      intro e he hchange
      rw [List.mem_singleton.mp he] at hchange
      exact absurd hchange.2 (by simp)

/-- A directory at `0xc0002000` in 32 pages of RAM: page `0x08048` is set to the frame at
`0xc0005000`, with a table at `0xc0003000`. -/
theorem exists_reach_set : ∃ mem, Reach 32 0xc0001000#32 0xc0002000#32 mem [.set 0x08048#20 0xc0005000#32 true] ∧
    lookup mem 0xc0002000#32 0x08048123#32 = some 0xc0005000#32 := by
  have hcreate : ∃ mem : Mem, pagedirCreate 0xc0001000#32 (some 0xc0002000#32) (fun _ _ => 0#32) =
      .ok (some 0xc0002000#32, mem) ∧ (∀ d, mem 0xc0002000#32 d = 0#32) ∧
      ∃ mem', (PageOp.set 0x08048000#32 0xc0005000#32 true (some 0xc0003000#32)).run 32 0xc0001000#32 0xc0002000#32 mem =
        .ok ([.set 0x08048#20 0xc0005000#32 true], mem') ∧ lookup mem' 0xc0002000#32 0x08048123#32 = some 0xc0005000#32 :=
    ⟨_, rfl, fun _ => rfl, _, rfl, rfl⟩
  obtain ⟨mem, hrun, hzero, mem', hset, hlookup⟩ := hcreate
  have hreach : Reach 32 0xc0001000#32 0xc0002000#32 mem [] := .create (by decide) (by decide) (fun _ _ => rfl) hrun
  have hfresh : Fresh 32 0xc0001000#32 0xc0002000#32 mem 0xc0003000#32 := by
    refine ⟨by decide, by decide, by decide, ?_⟩
    rintro ⟨d, -, hd⟩
    exact hd.ne_zero (hzero d)
  refine ⟨mem', hreach.step ?_ hset, hlookup⟩
  refine ⟨by decide, by decide, by decide, rfl, ?_⟩
  rintro p hp
  rw [← Option.some.inj hp]
  exact hfresh

/-- An address of the page that was set is looked up. -/
theorem pagedir_refines_map_one :
    ∃ mem, Reach 32 0xc0001000#32 0xc0002000#32 mem [.set 0x08048#20 0xc0005000#32 true] ∧
      pagedirGetPage 0xc0002000#32 0x08048123#32 mem = .ok (0xc0005123#32, mem) := by
  obtain ⟨mem, hreach, -⟩ := exists_reach_set
  obtain ⟨r, hget, hframe, -⟩ := (pagedir_refines_map 32 _ _ mem _ hreach).1 0x08048123#32 (by decide)
  have hr : r = 0xc0005000#32 + pgOfs 0x08048123#32 := (hframe _ (by decide)).mpr ⟨[], [], rfl, by simp⟩
  rw [hr] at hget
  exact ⟨mem, hreach, hget⟩

/-! ### The page directory of the system calls -/

/-- A frame lies in the physical memory that the kernel maps. -/
theorem Points.paddr_le {k : Addr} (h : Points e k) (hk : IsPage ramPages k) :
    (e &&& PTE_ADDR).toNat + 0x1000 ≤ 0x40000000 := by
  have haligned := pgOfs_eq_zero_iff.mp hk.aligned
  have hlt := k.isLt
  rw [h.addr, hk.toNat_paddr]
  omega

/-- The user half, as `Pintos.Userprog.Pagedir` has it. -/
def Tables.toPageDir (h : Tables ramPages base pd mem) : PageDir where
  pt d := if d.toNat < 768 ∧ mem pd d ≠ 0#32 then some (mem (Userprog.pteGetPage (mem pd d))) else none
  frame d t i ht hpresent := by
    split_ifs at ht with hd
    rcases h.entry d hd.1 with hzero | ⟨pt, hpt, -⟩
    · exact absurd hzero hd.2
    · have hpte := points_of_present hpresent
      have htable : t i = mem pt i := by rw [← Option.some.inj ht, hpt.page]
      have hframe : translate mem pd d i = some (Userprog.pteGetPage (t i)) := by
        rw [translate_of_points hpt, ← htable, hpte.frameOf]
      exact hpte.paddr_le (h.frame d i _ hd.1 hframe)

/-- On it the model of `pagedir_get_page` that the system calls use is the function of the
source. -/
theorem Tables.pagedirGetPage_toPageDir (h : Tables ramPages base pd mem) {a : Addr} (ha : isUserVaddr a = true) :
    PageTable.pagedirGetPage pd a mem = .ok (Userprog.pagedirGetPage h.toPageDir a, mem) := by
  have hd := pdNo_user ha
  rw [h.pagedirGetPage ha]
  unfold Userprog.pagedirGetPage Userprog.lookupPage lookup
  rcases h.entry (pdNo a) hd with hzero | ⟨pt, hpt, -⟩
  · have hnone : h.toPageDir.pt (pdNo a) = none := if_neg fun hp => hp.2 hzero
    rw [hnone, translate_of_zero hzero]
    rfl
  · have hsome : h.toPageDir.pt (pdNo a) = some (mem pt) := by
      rw [← hpt.page]
      exact if_pos ⟨hd, hpt.ne_zero⟩
    rw [hsome, translate_of_points hpt, Option.map_some]
    dsimp only
    by_cases hpresent : mem pt (ptNo a) &&& PTE_P = 0#32
    · rw [frameOf_of_absent hpresent, if_neg (not_not.mpr hpresent)]
      rfl
    · rw [(points_of_present hpresent).frameOf, if_pos hpresent]
      rfl

/-- Both models look up the page that was set. -/
theorem pagedirGetPage_toPageDir_set : ∃ (mem : Mem) (h : Tables 32 0xc0001000#32 0xc0002000#32 mem),
    PageTable.pagedirGetPage 0xc0002000#32 0x08048123#32 mem = .ok (0xc0005123#32, mem) ∧
      Userprog.pagedirGetPage h.toPageDir 0x08048123#32 = 0xc0005123#32 := by
  obtain ⟨mem, hreach, hlookup⟩ := exists_reach_set
  have h := (refines_of_reach hreach).toTables
  have hget : PageTable.pagedirGetPage 0xc0002000#32 0x08048123#32 mem = .ok (0xc0005123#32, mem) := by
    rw [h.pagedirGetPage (by decide), hlookup]
    rfl
  have hsame := h.pagedirGetPage_toPageDir (show isUserVaddr 0x08048123#32 = true by decide)
  exact ⟨mem, h, hget, (congrArg Prod.fst (Except.ok.inj (hget.symm.trans hsame))).symm⟩

end Pintos.Userprog.PageTable
