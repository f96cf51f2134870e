import Pintos.Basis.Transition
import Pintos.Filesys.Inode

/-!
# The table of open inodes

`inode_open`, `inode_reopen` and `inode_close` (`filesys/inode.c`) share the list
`open_inodes`, so that opening a sector twice gives the same `struct inode`, which
counts its openers in `open_cnt` and is freed when the last one closes it. The lock
`occ_lock` protects the list and the counts.

## The model

A section that holds `occ_lock` is one step. `inode_open` has two of them when it
finds the inode in the list: it releases the lock and then calls `inode_reopen`,
which takes it again. In between the thread has the inode `found`, and no
reference to it.

Inodes are memory cells: an access to one that was freed is a fault, as is the
failed assertion of `inode_reopen`. Addresses are not used twice, so that such an
access cannot be mistaken for one to a new inode. The `refs` are the references
that were taken and not yet closed, with the threads that hold them; a thread
reopens and closes only what it holds. What `inode_close` does to the free map
when the file was removed does not matter here.

## What is proved

The list never has two inodes of one sector, and `open_cnt` counts the references
(`table_of_reach`). But a thread that closes the last reference frees the inode even
when another thread has found it (**`inode_open_finds_freed`**); when no close does
that, no freed inode is ever accessed (**`inode_table_undisturbed`**).
-/

namespace Pintos.Filesys.InodeTable

open Function

/-- The open inodes, and what the threads have of them. -/
structure Table (ι : Type) where
  /-- The memory of the inodes. -/
  heap : ℕ → Cell Inode
  /-- The address `malloc` returns next. -/
  next : ℕ
  openInodes : List ℕ
  /-- The inode a thread has found in `inode_open` and not yet reopened. -/
  found : ι → Option ℕ
  /-- The references that were taken and not yet closed. -/
  refs : List (ι × ℕ)

/-- What a thread can do next. -/
inductive Act (ι : Type) where
  /-- `inode_open`, its first section; `mem` says whether `malloc` succeeds. -/
  | openFirst (t : ι) (sector : ℕ) (mem : Bool)
  /-- `inode_open`, its call of `inode_reopen`. -/
  | openReopen (t : ι)
  /-- `inode_reopen` of an inode the thread holds. -/
  | reopen (t : ι) (a : ℕ)
  /-- `inode_close` of an inode the thread holds. -/
  | close (t : ι) (a : ℕ)

variable {ι : Type} [DecidableEq ι]

/-- The search of `inode_open`: `none` when it comes to an inode that is not there any more. -/
def scan (heap : ℕ → Cell Inode) (sector : ℕ) : List ℕ → Option (Option ℕ)
  | [] => some none
  | a :: as =>
    match heap a with
    | .live inode => if inode.sector = sector then some (some a) else scan heap sector as
    | _ => none

/-- The first section of `inode_open`; `readInode` is what `disk_read` finds in a sector. -/
def inodeOpenFirst (readInode : ℕ → InodeDisk) (s : Table ι) (t : ι) (sector : ℕ) (mem : Bool) : Outcome (Table ι) :=
  match scan s.heap sector s.openInodes with
  | none => .fault
  | some (some a) => .next { s with found := update s.found t (some a) }
  | some none =>
    if mem then
      .next
        { s with
          heap := update s.heap s.next (.live ⟨sector, 1, false, readInode sector, 0⟩)
          next := s.next + 1
          openInodes := s.next :: s.openInodes
          refs := (t, s.next) :: s.refs }
    else .next s

def inodeReopen (s : Table ι) (t : ι) (a : ℕ) : Outcome (Table ι) :=
  (s.heap a).access fun inode =>
    if inode.openCnt = 0 then .fault
    else
      .next
        { s with
          heap := update s.heap a (.live { inode with openCnt := inode.openCnt + 1 })
          refs := (t, a) :: s.refs }

def inodeClose (s : Table ι) (t : ι) (a : ℕ) : Outcome (Table ι) :=
  (s.heap a).access fun inode =>
    if inode.openCnt - 1 = 0 then
      .next
        { s with
          heap := update s.heap a .freed
          openInodes := s.openInodes.erase a
          refs := s.refs.erase (t, a) }
    else
      .next
        { s with
          heap := update s.heap a (.live { inode with openCnt := inode.openCnt - 1 })
          refs := s.refs.erase (t, a) }

/-- What an action does. -/
def step (readInode : ℕ → InodeDisk) (s : Table ι) : Act ι → Outcome (Table ι)
  | .openFirst t sector mem =>
    match s.found t with
    | none => inodeOpenFirst readInode s t sector mem
    | some _ => .disabled
  | .openReopen t =>
    match s.found t with
    | none => .disabled
    | some a => inodeReopen { s with found := update s.found t none } t a
  | .reopen t a => if s.found t = none ∧ (t, a) ∈ s.refs then inodeReopen s t a else .disabled
  | .close t a => if s.found t = none ∧ (t, a) ∈ s.refs then inodeClose s t a else .disabled

/-- No inode is open. -/
def initial : Table ι := { heap := fun _ => .unused, next := 0, openInodes := [], found := fun _ => none, refs := [] }

/-- All runs of threads that open, reopen and close inodes. -/
def inodes (readInode : ℕ → InodeDisk) : System (Table ι) (Act ι) where
  init s := s = initial
  step := step readInode

/-! ### The invariant -/

/-- The number of references to the inode at `a`. -/
def Table.count (s : Table ι) (a : ℕ) : ℕ := s.refs.countP (·.2 == a)

/-- **The list and the counts.** -/
structure TableOk (s : Table ι) : Prop where
  /-- The list has the inodes that are there. -/
  listed : ∀ a, a ∈ s.openInodes ↔ ∃ inode, s.heap a = .live inode
  /-- Each once. -/
  nodup : s.openInodes.Nodup
  /-- And one inode for a sector. -/
  sector : ∀ a b i j, s.heap a = .live i → s.heap b = .live j → i.sector = j.sector → a = b
  /-- An inode counts its references. -/
  count : ∀ a i, s.heap a = .live i → i.openCnt = s.count a
  pos : ∀ a i, s.heap a = .live i → 0 < s.count a
  /-- A reference is to an inode that is there. -/
  refs : ∀ r ∈ s.refs, ∃ inode, s.heap r.2 = .live inode
  /-- What `malloc` returns next was never used. -/
  fresh : ∀ a, s.next ≤ a → s.heap a = .unused

variable {readInode : ℕ → InodeDisk} {s s' : Table ι} {t : ι} {a : ℕ}

omit [DecidableEq ι] in
/-- The order of the references does not matter. -/
theorem TableOk.perm (h : TableOk s) {refs : List (ι × ℕ)} (hperm : s.refs.Perm refs) :
    TableOk { s with refs := refs } := by
  have hcount : ∀ b, Table.count { s with refs := refs } b = s.count b := fun b => (hperm.countP_eq _).symm
  refine ⟨h.listed, h.nodup, h.sector, fun b i hi => ?_, fun b i hi => ?_, fun r hr => ?_, h.fresh⟩
  · rw [hcount]
    exact h.count b i hi
  · rw [hcount]
    exact h.pos b i hi
  · exact h.refs r (hperm.mem_iff.mpr hr)

theorem scan_of_live {heap : ℕ → Cell Inode} (sector : ℕ) :
    ∀ {as : List ℕ}, (∀ a ∈ as, ∃ inode, heap a = .live inode) →
      (∃ a ∈ as, ∃ inode, heap a = .live inode ∧ inode.sector = sector ∧ scan heap sector as = some (some a)) ∨
      ((∀ a ∈ as, ∀ inode, heap a = .live inode → inode.sector ≠ sector) ∧ scan heap sector as = some none)
  | [], _ => .inr ⟨nofun, rfl⟩
  | a :: as, h => by
    obtain ⟨inode, hinode⟩ := h a List.mem_cons_self
    by_cases hsector : inode.sector = sector
    · exact .inl ⟨a, List.mem_cons_self, inode, hinode, hsector, by simp [scan, hinode, hsector]⟩
    · have hscan : scan heap sector (a :: as) = scan heap sector as := by simp [scan, hinode, hsector]
      rw [hscan]
      obtain ⟨b, hb, hrest⟩ | ⟨hnone, hrest⟩ := scan_of_live sector fun b hb => h b (List.mem_cons_of_mem _ hb)
      · exact .inl ⟨b, List.mem_cons_of_mem _ hb, hrest⟩
      · refine .inr ⟨?_, hrest⟩
        rintro b hb j hj
        obtain rfl | hb := List.mem_cons.mp hb
        · rw [hinode] at hj
          cases hj
          exact hsector
        · exact hnone b hb j hj

omit [DecidableEq ι] in
theorem TableOk.withFound (h : TableOk s) (found : ι → Option ℕ) : TableOk { s with found := found } :=
  ⟨h.listed, h.nodup, h.sector, h.count, h.pos, h.refs, h.fresh⟩

omit [DecidableEq ι] in
theorem TableOk.create (h : TableOk s) (inode : Inode) (hcnt : inode.openCnt = 1)
    (hnew : ∀ b i, s.heap b = .live i → i.sector ≠ inode.sector)
    (hs' : s' = { s with
      heap := update s.heap s.next (.live inode), next := s.next + 1,
      openInodes := s.next :: s.openInodes, refs := (t, s.next) :: s.refs }) : TableOk s' := by
  subst hs'
  have hunused := h.fresh s.next le_rfl
  have hnotListed : s.next ∉ s.openInodes := fun hin => by
    obtain ⟨i, hi⟩ := (h.listed _).mp hin
    rw [hunused] at hi
    cases hi
  have hnoRef : s.count s.next = 0 := by
    refine List.countP_eq_zero.mpr fun r hr hra => ?_
    obtain ⟨i, hi⟩ := h.refs r hr
    rw [beq_iff_eq.mp hra, hunused] at hi
    cases hi
  have hcount : ∀ b, Table.count { s with
      heap := update s.heap s.next (.live inode), next := s.next + 1,
      openInodes := s.next :: s.openInodes, refs := (t, s.next) :: s.refs } b =
      s.count b + if s.next = b then 1 else 0 := fun b => by
    simp [Table.count, List.countP_cons]
  refine ⟨fun b => ?_, List.nodup_cons.mpr ⟨hnotListed, h.nodup⟩, ?_, ?_, ?_, ?_, ?_⟩
  · obtain rfl | hb := eq_or_ne b s.next
    · simp
    · simpa [hb] using h.listed b
  · intro b c i j hi hj hij
    obtain ⟨hb, rfl⟩ | ⟨-, hi'⟩ := Cell.update_live hi <;> obtain ⟨hc, rfl⟩ | ⟨-, hj'⟩ := Cell.update_live hj
    · rw [hb, hc]
    · exact absurd hij.symm (hnew c j hj')
    · exact absurd hij (hnew b i hi')
    · exact h.sector b c i j hi' hj' hij
  · intro b i hi
    rw [hcount]
    obtain ⟨rfl, rfl⟩ | ⟨hb, hi⟩ := Cell.update_live hi
    · simp [hcnt, hnoRef]
    · simpa [hb.symm] using h.count b i hi
  · intro b i hi
    rw [hcount]
    obtain ⟨rfl, -⟩ | ⟨-, hi⟩ := Cell.update_live hi
    · simp
    · have := h.pos b i hi
      omega
  · intro r hr
    obtain rfl | hr := List.mem_cons.mp hr
    · exact ⟨inode, by simp⟩
    · obtain ⟨i, hi⟩ := h.refs r hr
      have hne : r.2 ≠ s.next := fun he => by
        rw [he, hunused] at hi
        cases hi
      exact ⟨i, by simpa [hne] using hi⟩
  · intro b hb
    have hne : b ≠ s.next := by simp only at hb; omega
    simp only [update_of_ne hne]
    exact h.fresh b (by simp only at hb; omega)

omit [DecidableEq ι] in
/-- An inode changes, and may have one reference more or less when it keeps some. -/
theorem TableOk.recount (h : TableOk s) {i k : Inode} (hi : s.heap a = .live i) (hsector : k.sector = i.sector)
    {refs : List (ι × ℕ)} (hn : k.openCnt = refs.countP (·.2 == a)) (hpos : 0 < refs.countP (·.2 == a))
    (hother : ∀ b, b ≠ a → refs.countP (·.2 == b) = s.count b) (hrefs : ∀ r ∈ refs, r.2 = a ∨ r ∈ s.refs) :
    TableOk { s with heap := update s.heap a (.live k), refs := refs } := by
  -- The inode at `a` stays, with its sector.
  have hlive : ∀ b j, update s.heap a (.live k) b = .live j →
      ∃ j', s.heap b = .live j' ∧ j'.sector = j.sector := by
    intro b j hj
    obtain ⟨rfl, rfl⟩ | ⟨-, hj⟩ := Cell.update_live hj
    · exact ⟨i, hi, hsector.symm⟩
    · exact ⟨j, hj, rfl⟩
  have hkept : ∀ b, (∃ j, s.heap b = .live j) →
      ∃ j, update s.heap a (.live k) b = .live j := by
    rintro b ⟨j, hj⟩
    by_cases hb : b = a
    · exact ⟨_, by rw [hb, update_self]⟩
    · exact ⟨j, by rw [update_of_ne hb]; exact hj⟩
  refine ⟨fun b => ⟨fun hb => hkept b ((h.listed b).mp hb), ?_⟩, h.nodup, ?_, ?_, ?_, fun r hr => hkept r.2 ?_, ?_⟩
  · rintro ⟨j, hj⟩
    obtain ⟨j', hj', -⟩ := hlive b j hj
    exact (h.listed b).mpr ⟨j', hj'⟩
  · intro b c j l hj hl hjl
    obtain ⟨j', hj', hsj⟩ := hlive b j hj
    obtain ⟨l', hl', hsl⟩ := hlive c l hl
    exact h.sector b c j' l' hj' hl' (by rw [hsj, hsl, hjl])
  · intro b j hj
    obtain ⟨rfl, rfl⟩ | ⟨hb, hj⟩ := Cell.update_live hj
    · exact hn
    · rw [Table.count, hother b hb]
      exact h.count b j hj
  · intro b j hj
    obtain ⟨rfl, -⟩ | ⟨hb, hj⟩ := Cell.update_live hj
    · exact hpos
    · rw [Table.count, hother b hb]
      exact h.pos b j hj
  · obtain hra | hr := hrefs r hr
    · exact ⟨i, by rw [hra]; exact hi⟩
    · exact h.refs r hr
  · intro b hb
    have hne : b ≠ a := fun he => by
      have hunused := h.fresh b hb
      rw [he, hi] at hunused
      cases hunused
    simp only [update_of_ne hne]
    exact h.fresh b hb

omit [DecidableEq ι] in
theorem TableOk.free (h : TableOk s) {refs : List (ι × ℕ)} (hnone : refs.countP (·.2 == a) = 0)
    (hother : ∀ b, b ≠ a → refs.countP (·.2 == b) = s.count b) (hrefs : ∀ r ∈ refs, r ∈ s.refs)
    (hused : s.heap a ≠ .unused) :
    TableOk { s with
      heap := update s.heap a .freed, openInodes := s.openInodes.erase a, refs := refs } := by
  refine ⟨fun b => ⟨fun hb => ?_, ?_⟩, h.nodup.erase a, ?_, ?_, ?_, ?_, ?_⟩
  · obtain ⟨hne, hb⟩ := h.nodup.mem_erase_iff.mp hb
    obtain ⟨j, hj⟩ := (h.listed b).mp hb
    exact ⟨j, by simp only [update_of_ne hne]; exact hj⟩
  · rintro ⟨j, hj⟩
    obtain ⟨hne, hj⟩ := Cell.update_freed hj
    exact h.nodup.mem_erase_iff.mpr ⟨hne, (h.listed b).mpr ⟨j, hj⟩⟩
  · intro b c j k hj hk hjk
    exact h.sector b c j k (Cell.update_freed hj).2 (Cell.update_freed hk).2 hjk
  · intro b j hj
    obtain ⟨hne, hj⟩ := Cell.update_freed hj
    rw [Table.count, hother b hne]
    exact h.count b j hj
  · intro b j hj
    obtain ⟨hne, hj⟩ := Cell.update_freed hj
    rw [Table.count, hother b hne]
    exact h.pos b j hj
  · intro r hr
    obtain ⟨j, hj⟩ := h.refs r (hrefs r hr)
    have hne : r.2 ≠ a := fun hra => List.countP_eq_zero.mp hnone r hr (beq_iff_eq.mpr hra)
    exact ⟨j, by simp only [update_of_ne hne]; exact hj⟩
  · intro b hb
    have hne : b ≠ a := fun he => hused (he ▸ h.fresh b hb)
    simp only [update_of_ne hne]
    exact h.fresh b hb

/-! ### The steps -/

theorem countP_erase_ref {refs : List (ι × ℕ)} (h : (t, a) ∈ refs) (b : ℕ) :
    (refs.erase (t, a)).countP (·.2 == b) = refs.countP (·.2 == b) - if b = a then 1 else 0 := by
  rw [List.countP_erase]
  by_cases hb : b = a
  · simp [h, hb]
  · simp [hb, Ne.symm hb]

omit [DecidableEq ι] in
theorem TableOk.inodeReopen (h : TableOk s) (hst : inodeReopen s t a = .next s') : TableOk s' := by
  obtain ⟨i, hi, hst⟩ := Cell.access_eq_next hst
  split_ifs at hst
  cases hst
  refine h.recount (k := { i with openCnt := i.openCnt + 1 }) hi rfl ?_ ?_ ?_ ?_
  · rw [h.count a i hi]
    simp [Table.count]
  · simp
  · intro b hb
    simp [Table.count, hb.symm]
  · intro r hr
    obtain rfl | hr := List.mem_cons.mp hr
    · exact .inl rfl
    · exact .inr hr

theorem TableOk.inodeClose (h : TableOk s) (href : (t, a) ∈ s.refs) (hst : inodeClose s t a = .next s') :
    TableOk s' := by
  obtain ⟨i, hi, hst⟩ := Cell.access_eq_next hst
  have hcount : i.openCnt = s.refs.countP (·.2 == a) := h.count a i hi
  have hpos : 0 < s.refs.countP (·.2 == a) := h.pos a i hi
  have herase := countP_erase_ref href
  have hsub : ∀ r ∈ s.refs.erase (t, a), r ∈ s.refs := fun r hr => List.mem_of_mem_erase hr
  have hother : ∀ b, b ≠ a → (s.refs.erase (t, a)).countP (·.2 == b) = s.count b := fun b hb => by
    rw [herase b, if_neg hb]
    rfl
  have ha := herase a
  rw [if_pos rfl] at ha
  split_ifs at hst with hzero
  · cases hst
    exact h.free (by omega) hother hsub (by rw [hi]; nofun)
  · cases hst
    exact h.recount (k := { i with openCnt := i.openCnt - 1 }) hi rfl (by show i.openCnt - 1 = _; omega) (by omega)
      hother fun r hr => .inr (hsub r hr)

/-- **Every step keeps the list and the counts.** -/
theorem TableOk.step (h : TableOk s) {act : Act ι} (hst : step readInode s act = .next s') : TableOk s' := by
  cases act with
  | openFirst t sector mem =>
    simp only [InodeTable.step] at hst
    split at hst
    · unfold inodeOpenFirst at hst
      obtain ⟨b, -, -, -, -, hscan⟩ | ⟨hnone, hscan⟩ := scan_of_live sector fun b hb => (h.listed b).mp hb
      · rw [hscan] at hst
        cases hst
        exact h.withFound _
      · rw [hscan] at hst
        dsimp only at hst
        split at hst
        · cases hst
          exact h.create _ rfl (fun b i hi => hnone b ((h.listed b).mpr ⟨i, hi⟩) i hi) rfl
        · cases hst
          exact h
    · cases hst
  | openReopen t =>
    simp only [InodeTable.step] at hst
    split at hst
    · cases hst
    · exact (h.withFound _).inodeReopen hst
  | reopen t a =>
    obtain ⟨-, hst⟩ := Outcome.ite_eq_next.mp hst
    exact h.inodeReopen hst
  | close t a =>
    obtain ⟨hheld, hst⟩ := Outcome.ite_eq_next.mp hst
    exact h.inodeClose hheld.2 hst

/-- The list and the counts are right in every run. -/
theorem table_of_reach (h : (inodes readInode).Reach s) : TableOk s := by
  refine h.invariant (P := TableOk) ?_ fun s act s' hs hst => hs.step hst
  rintro s rfl
  exact ⟨by simp [initial], List.nodup_nil, nofun, nofun, nofun, nofun, fun _ _ => rfl⟩

/-! ### Freed inodes -/

/-- **The freed inode is found.** A thread opens an inode and another finds it in the list; the
first one closes it and frees it, and `inode_reopen` of the other accesses freed memory. -/
theorem inode_open_finds_freed :
    ∃ s : Table Bool, (inodes fun _ => ⟨0, 0⟩).Reach s ∧ s.found true = some 0 ∧ s.heap 0 = .freed ∧
      step (fun _ => ⟨0, 0⟩) s (.openReopen true) = .fault := by
  have hrun : ∃ s : Table Bool, (inodes fun _ => ⟨0, 0⟩).replay initial
      [.openFirst false 5 true, .openFirst true 5 true, .close false 0] = .next s ∧ s.found true = some 0 ∧
      s.heap 0 = .freed ∧ step (fun _ => ⟨0, 0⟩) s (.openReopen true) = .fault :=
    ⟨_, rfl, rfl, rfl, rfl⟩
  obtain ⟨s, hreplay, hfound, hheap, hfault⟩ := hrun
  exact ⟨s, .replay (.init rfl) hreplay, hfound, hheap, hfault⟩

section Undisturbed

variable [Fintype ι]

/-- The action is not the close of a last reference to an inode that a thread has found. -/
def undisturbed (s : Table ι) : Act ι → Bool
  | .close _ a =>
    match s.heap a with
    | .live inode => inode.openCnt != 1 || decide (∀ u, s.found u ≠ some a)
    | _ => true
  | _ => true

/-- A thread that found an inode finds it alive when it comes to reopen it. -/
def FoundLive (s : Table ι) : Prop := ∀ u a, s.found u = some a → ∃ inode, s.heap a = .live inode

omit [DecidableEq ι] [Fintype ι] in
theorem FoundLive.write (h : FoundLive s) (a : ℕ) (i : Inode) :
    FoundLive { s with heap := update s.heap a (.live i) } := by
  intro u b hb
  obtain rfl | hba := eq_or_ne b a
  · exact ⟨_, update_self ..⟩
  · simp only [update_of_ne hba]
    exact h u b hb

omit [DecidableEq ι] [Fintype ι] in
theorem FoundLive.inodeReopen (h : FoundLive s) (hst : inodeReopen s t a = .next s') : FoundLive s' := by
  obtain ⟨i, hi, hst⟩ := Cell.access_eq_next hst
  split_ifs at hst
  cases hst
  exact h.write a _

theorem FoundLive.inodeClose (h : FoundLive s) {v : ι} (hguard : undisturbed s (.close v a) = true)
    (hst : inodeClose s t a = .next s') : FoundLive s' := by
  obtain ⟨i, hi, hst⟩ := Cell.access_eq_next hst
  simp only [undisturbed, hi, Bool.or_eq_true, bne_iff_ne, decide_eq_true_eq] at hguard
  split_ifs at hst with hzero
  · cases hst
    intro u b hb
    have hne : b ≠ a := fun hba => by
      obtain hcnt | hnobody := hguard
      · omega
      · exact hnobody u (hba ▸ hb)
    simp only [update_of_ne hne]
    exact h u b hb
  · cases hst
    exact h.write a _

theorem FoundLive.step (h : FoundLive s) (hok : TableOk s) {act : Act ι} (hguard : undisturbed s act = true)
    (hst : step readInode s act = .next s') : FoundLive s' := by
  cases act with
  | openFirst t sector mem =>
    simp only [InodeTable.step] at hst
    split at hst
    · unfold inodeOpenFirst at hst
      obtain ⟨b, -, i, hi, -, hscan⟩ | ⟨-, hscan⟩ := scan_of_live sector fun b hb => (hok.listed b).mp hb
      · rw [hscan] at hst
        cases hst
        intro u c hc
        obtain ⟨-, ⟨⟩⟩ | ⟨-, hc⟩ := update_cases hc
        exacts [⟨i, hi⟩, h u c hc]
      · rw [hscan] at hst
        dsimp only at hst
        split at hst
        · cases hst
          exact h.write s.next _
        · cases hst
          exact h
    · cases hst
  | openReopen t =>
    simp only [InodeTable.step] at hst
    split at hst
    · cases hst
    · refine FoundLive.inodeReopen ?_ hst
      intro u c hc
      exact h u c ((update_cases hc).resolve_left (by simp)).2
  | reopen t a =>
    obtain ⟨-, hst⟩ := Outcome.ite_eq_next.mp hst
    exact h.inodeReopen hst
  | close t a =>
    obtain ⟨-, hst⟩ := Outcome.ite_eq_next.mp hst
    exact h.inodeClose hguard hst

theorem foundLive_of_reach (h : ((inodes readInode).guard undisturbed).Reach s) : FoundLive s := by
  induction h with
  | init hs =>
    obtain rfl : _ = initial := hs
    exact nofun
  | step hreach hst ih =>
    obtain ⟨hguard, hst⟩ := System.guard_step_eq_next.mp hst
    exact ih.step (table_of_reach hreach.of_guard) hguard hst

omit [DecidableEq ι] [Fintype ι] in
theorem inodeReopen_ne_fault {i : Inode} (hi : s.heap a = .live i) (hcnt : i.openCnt ≠ 0) :
    inodeReopen s t a ≠ .fault := by
  unfold inodeReopen
  rw [hi, Cell.access_live, if_neg hcnt]
  nofun

/-- **Without such a close the table is in order**, in every run: the list has no two inodes of one
sector, every inode in it counts the references that were taken and not closed, and no step accesses
an inode that was freed, nor fails the assertion of `inode_reopen`. -/
theorem inode_table_undisturbed (h : ((inodes readInode).guard undisturbed).Reach s) :
    s.openInodes.Pairwise (fun a b => ∀ i j, s.heap a = .live i → s.heap b = .live j → i.sector ≠ j.sector) ∧
    (∀ a ∈ s.openInodes, ∃ inode, s.heap a = .live inode ∧ inode.openCnt = s.count a) ∧
    ∀ act, step readInode s act ≠ .fault := by
  have hok := table_of_reach h.of_guard
  have hfound := foundLive_of_reach h
  have hcnt : ∀ a i, s.heap a = .live i → i.openCnt ≠ 0 := fun a i hi => by
    have := hok.count a i hi
    have := hok.pos a i hi
    omega
  refine ⟨?_, ?_, ?_⟩
  · exact hok.nodup.imp fun hne i j hi hj hij => hne (hok.sector _ _ i j hi hj hij)
  · intro a ha
    obtain ⟨i, hi⟩ := (hok.listed a).mp ha
    exact ⟨i, hi, hok.count a i hi⟩
  · intro act
    cases act with
    | openFirst t sector mem =>
      simp only [step]
      split
      · unfold inodeOpenFirst
        obtain ⟨b, -, -, -, -, hscan⟩ | ⟨-, hscan⟩ := scan_of_live sector fun b hb => (hok.listed b).mp hb
        · rw [hscan]
          nofun
        · rw [hscan]
          dsimp only
          split <;> nofun
      · nofun
    | openReopen t =>
      simp only [step]
      split
      · nofun
      · rename_i a ha
        obtain ⟨i, hi⟩ := hfound t a ha
        exact inodeReopen_ne_fault hi (hcnt a i hi)
    | reopen t a =>
      simp only [step]
      split
      · rename_i hheld
        obtain ⟨i, hi⟩ := hok.refs _ hheld.2
        exact inodeReopen_ne_fault hi (hcnt a i hi)
      · nofun
    | close t a =>
      simp only [step]
      split
      · rename_i hheld
        refine Cell.access_ne_fault (hok.refs _ hheld.2) fun i _ => ?_
        split <;> nofun
      · nofun

end Undisturbed

/-- Two threads open the same sector, and one closes it while the other has it open. -/
theorem inode_table_shared :
    ∃ s : Table Bool, s.openInodes = [0] ∧ s.refs = [(true, 0)] ∧ ∀ act, step (fun _ => ⟨0, 0⟩) s act ≠ .fault := by
  have hrun : ∃ s : Table Bool, ((inodes fun _ => ⟨0, 0⟩).guard undisturbed).replay initial
      [.openFirst false 5 true, .openFirst true 5 true, .openReopen true, .close false 0] = .next s ∧
      s.openInodes = [0] ∧ s.refs = [(true, 0)] :=
    ⟨_, rfl, rfl, rfl⟩
  obtain ⟨s, hreplay, hopen, hrefs⟩ := hrun
  obtain ⟨-, -, hfault⟩ := inode_table_undisturbed (System.Reach.replay (.init rfl) hreplay)
  exact ⟨s, hopen, hrefs, hfault⟩

end Pintos.Filesys.InodeTable
