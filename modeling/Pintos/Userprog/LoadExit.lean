import Pintos.Userprog.LoadImage

/-!
# The pages of a process come back

The end of a process that `load` has made: `process_exit` with `pagedir_destroy`
(`userprog/process.c`, `userprog/pagedir.c`).

Between `load` and `process_exit` the process may run, and others too (`Ran`): they write to pages,
the processor marks entries of page tables as accessed or dirty, and the page allocator gives pages
to others. `pagedir_destroy` walks through the tables and frees what it comes to. Since the pages of
the process are the nodes of that tree, each once (`TwoLevel.walk_perm`), it frees what `load` had
got and had not freed itself (**`load_exit`**).
-/

namespace Pintos.Userprog.Load

open Memory PageTable
open Threads (Palloc.State Palloc.PoolName)

/-! ### What happens in between -/

/-- Entries that differ only in the accessed and the dirty bit. -/
def SameEntry (e e' : BitVec 32) : Prop := e' ||| (PTE_A ||| PTE_D) = e ||| (PTE_A ||| PTE_D)

theorem SameEntry.and_eq {e e' mask : BitVec 32} (h : SameEntry e e') (hmask : (PTE_A ||| PTE_D) &&& mask = 0#32) :
    e' &&& mask = e &&& mask := by
  have hand : ∀ x : BitVec 32, x &&& mask = (x ||| (PTE_A ||| PTE_D)) &&& mask := by
    intro x
    rw [BitVec.and_comm, BitVec.and_comm _ mask, BitVec.and_or_distrib_left, BitVec.and_comm mask (PTE_A ||| PTE_D), hmask,
      BitVec.or_zero]
  rw [hand e', hand e, show e' ||| (PTE_A ||| PTE_D) = e ||| (PTE_A ||| PTE_D) from h]

theorem SameEntry.frameOf_eq {e e' : BitVec 32} (h : SameEntry e e') : frameOf e' = frameOf e := by
  unfold frameOf Userprog.pteGetPage
  rw [h.and_eq (by decide), h.and_eq (by decide)]

/-- From `s`, where `load` ended, to `t`: the process keeps its page directory and its tables, but
for the accessed and dirty bits, and the pages that `load` has marked since `s₀` stay marked. All
other memory, and the other pages of the pools, may change. -/
structure Ran (s₀ s t : Machine) : Prop where
  pagedir : t.pagedir = s.pagedir
  file : t.file = s.file
  got : t.got = s.got
  freed : t.freed = s.freed
  /-- The pools stay where they are. -/
  shape : ∀ w, (t.palloc.pool w).shape = (s.palloc.pool w).shape
  /-- No one frees a page of the process. -/
  kept : ∀ w, ∀ k < (s₀.palloc.pool w).usedMap.bitCnt, (s₀.palloc.pool w).usedMap.bit k = false →
    (s.palloc.pool w).usedMap.bit k = true → (t.palloc.pool w).usedMap.bit k = true
  directory : ∀ pd, s.pagedir = some pd → ∀ d : BitVec 10, d.toNat < 768 →
    SameEntry (tablesOf s.mem pd d) (tablesOf t.mem pd d)
  tables : ∀ pd, s.pagedir = some pd → ∀ pt, IsTable (tablesOf s.mem) pd pt → ∀ i : BitVec 10,
    SameEntry (tablesOf s.mem pt i) (tablesOf t.mem pt i)

theorem Ran.refl (s₀ s : Machine) : Ran s₀ s s :=
  ⟨rfl, rfl, rfl, rfl, fun _ => rfl, fun _ _ _ _ h => h, fun _ _ _ _ => rfl, fun _ _ _ _ _ => rfl⟩

section Kept

variable {env : Env} {p : Palloc.State} {s t : Machine} {pd : Addr} {pages : List Addr}

theorem tree_of_sameEntry (h : Tree (tablesOf s.mem) pd pages)
    (hdirectory : ∀ d : BitVec 10, d.toNat < 768 → SameEntry (tablesOf s.mem pd d) (tablesOf t.mem pd d))
    (htables : ∀ pt, IsTable (tablesOf s.mem) pd pt → ∀ i : BitVec 10,
      SameEntry (tablesOf s.mem pt i) (tablesOf t.mem pt i)) :
    Tree (tablesOf t.mem) pd pages := by
  refine h.congr (fun d hd => (hdirectory _ (toNat_ofNat_lt hd)).frameOf_eq) fun d hd i _ => ?_
  have hpde := hdirectory _ (toNat_ofNat_lt hd)
  unfold frameAt
  by_cases hpresent : tablesOf s.mem pd (BitVec.ofNat 10 d) &&& PTE_P = 0#32
  · have hpresent' : tablesOf t.mem pd (BitVec.ofNat 10 d) &&& PTE_P = 0#32 := (hpde.and_eq (by decide)).trans hpresent
    rw [pteAt, if_pos hpresent', pteAt, if_pos hpresent]
  · have hpoints := points_of_present hpresent
    have hpoints' := frameOf_eq_some_iff.mp (hpde.frameOf_eq.trans hpoints.frameOf)
    rw [pteAt_of_points hpoints, pteAt_of_points hpoints']
    exact (htables _ ⟨_, toNat_ofNat_lt hd, hpoints⟩ _).frameOf_eq

/-- The pages of the pools that are on a list. -/
def listed (p : Palloc.State) (pages : List Addr) : Usage := fun w k => pages.any fun page => page.toNat = pageAddr p w k

theorem listed_iff {w : Palloc.PoolName} {k : ℕ} :
    listed p pages w k = true ↔ ∃ page ∈ pages, page.toNat = pageAddr p w k := by
  simp [listed]

/-- **The pages are those of the process still**, whatever others have. -/
theorem Held.rebase {used : Usage} (h : Held p used s pages) (hlaid : Laid env.ramPages p)
    (hgot : t.got = s.got) (hfreed : t.freed = s.freed)
    (hshape : ∀ w, (t.palloc.pool w).shape = (s.palloc.pool w).shape)
    (hkept : ∀ w, ∀ k < (p.pool w).usedMap.bitCnt, used w k = false → (s.palloc.pool w).usedMap.bit k = true →
      (t.palloc.pool w).usedMap.bit k = true) :
    Held t.palloc (fun w k => usage t.palloc w k && !listed p pages w k) t pages := by
  have hshape' : ∀ w, (t.palloc.pool w).shape = (p.pool w).shape := fun w => (hshape w).trans (h.shape w)
  have hcnt : ∀ w, (t.palloc.pool w).usedMap.bitCnt = (p.pool w).usedMap.bitCnt := fun w =>
    congrArg (fun shape => shape.2.2) (hshape' w)
  refine ⟨fun _ => rfl, h.nodup, fun page hpage => ?_, fun w k hk => ?_, ?_, fun _ _ => rfl⟩
  · obtain ⟨w, k, hk, haddr, -⟩ := h.free page hpage
    refine ⟨w, k, hcnt w ▸ hk, haddr.trans (pageAddr_congr hshape' w k).symm, ?_⟩
    rw [listed_iff.mpr ⟨page, hpage, haddr⟩, Bool.not_true, Bool.and_false]
  · rw [Bool.and_eq_true, Bool.not_eq_true', ← Bool.not_eq_true, listed_iff]
    simp only [pageAddr_congr hshape' w k]
    constructor
    · intro hbit
      by_cases hin : ∃ page ∈ pages, page.toNat = pageAddr p w k
      · exact .inr hin
      · exact .inl ⟨hbit, hin⟩
    · rintro (⟨hbit, -⟩ | ⟨page, hpage, haddr⟩)
      · exact hbit
      · have hk' := hcnt w ▸ hk
        obtain ⟨v, i, hi, haddr', hfree⟩ := h.free page hpage
        obtain ⟨rfl, rfl⟩ := (Held.page_iff hlaid hi hk' haddr').mp haddr
        exact hkept w k hk' hfree ((h.bit w k hk').mpr (.inr ⟨page, hpage, haddr⟩))
  · rw [hgot, hfreed]
    exact h.log

end Kept

/-! ### `pagedir_destroy` -/

section Destroy

-- the loops are over fixed numbers of entries, which are not to be computed
attribute [local irreducible] Program.Ends

/-- On the way of `pagedir_destroy`, from `t` on: the pages that are left are as they were. -/
structure Walk (p : Palloc.State) (used : Usage) (t : Machine) (rest : List Addr) (u : Machine) : Prop where
  held : Held p used u rest
  mem : ∀ q ∈ rest, ∀ a, OnPage q a → u.mem a = t.mem a
  pagedir : u.pagedir = none
  file : u.file = t.file
  got : u.got = t.got

theorem check_ok {α : Type} (a : α) : check (.ok a) = pure a := rfl

namespace Walk

variable {E : Stop → Prop} {env : Env} {p : Palloc.State} {used : Usage} {t u : Machine} {pd pt q : Addr}
  {pages rest : List Addr} (hlaid : Laid env.ramPages p)

theorem wordAt (h : Walk p used t rest u) (hq : q ∈ rest) (i : ℕ) :
    wordAt q i u = .ok (tablesOf t.mem q (BitVec.ofNat 10 i), u) := by
  have hwords : tablesOf u.mem q = tablesOf t.mem q := tablesOf_congr (h.mem q hq)
  rw [← hwords]
  rfl

include hlaid

theorem free (h : Walk p used t (q :: rest) u) : Program.Ends E (pallocFreePage q) u fun _ u' => Walk p used t rest u' := by
  obtain ⟨palloc, hrun, hheld, hm⟩ := h.held.pallocFreePage hlaid
  refine .run hrun ⟨hheld, fun q' hq' a ha => ?_, h.pagedir, h.file, h.got⟩
  have hmem := List.mem_cons_of_mem q hq'
  have hne : q' ≠ q := fun heq => (List.nodup_cons.mp h.held.nodup).1 (heq ▸ hq')
  have hoff := ha.not_onPage (h.held.isPage hlaid hmem).aligned (h.held.isPage hlaid List.mem_cons_self).aligned hne
  exact (hm a hoff).trans (h.mem q' hmem a ha)

theorem freeFrames {d : ℕ} (hpt : tableAt (tablesOf t.mem) pd d = some pt)
    (h : Walk p used t (TwoLevel.leavesFrom 1024 (frameAt (tablesOf t.mem) pd) d 0 ++ pt :: rest) u) :
    Program.Ends E (freeFrames pt) u fun _ u' => Walk p used t (pt :: rest) u' := by
  have hpde := frameOf_eq_some_iff.mp hpt
  unfold Load.freeFrames
  generalize 1024 = n at h ⊢
  have hend : pt :: rest = TwoLevel.leavesFrom n (frameAt (tablesOf t.mem) pd) d n ++ pt :: rest := by
    rw [TwoLevel.leavesFrom_end, List.nil_append]
  rw [hend]
  -- what is left are the frames from the index on
  refine .range (fun i u => Walk p used t (TwoLevel.leavesFrom n (frameAt (tablesOf t.mem) pd) d i ++ pt :: rest) u) h
    fun i hi u hu => ?_
  refine .run_bind (hu.wordAt (List.mem_append_right _ List.mem_cons_self) i) ?_
  have hframe : frameAt (tablesOf t.mem) pd d i = frameOf (tablesOf t.mem pt (BitVec.ofNat 10 i)) := by
    rw [frameAt, pteAt_of_points hpde]
  rw [TwoLevel.leavesFrom_succ hi, hframe] at hu
  split_ifs with hpresent
  · obtain ⟨q, hpoints⟩ : ∃ q, Points (tablesOf t.mem pt (BitVec.ofNat 10 i)) q := ⟨_, points_of_present hpresent⟩
    rw [hpoints.frameOf, Option.toList_some, List.append_assoc, List.singleton_append] at hu
    have hpage := hu.held.isPage hlaid List.mem_cons_self
    rw [hpoints.pteGetPage hpage, check_ok, pure_bind]
    exact hu.free hlaid
  · rw [frameOf_of_absent (not_not.mp hpresent), Option.toList_none, List.nil_append] at hu
    exact .pure hu

/-- The walk over `n` tables from the one at `d` on. -/
abbrev nodesFrom (mem : Bytes) (pd : Addr) (n d : ℕ) : List Addr :=
  TwoLevel.walkFrom 1024 (tableAt (tablesOf mem) pd) (frameAt (tablesOf mem) pd) n pd d

/-- **`pagedir_destroy`** frees every node of the tree, and nothing else. -/
theorem pagedirDestroy (hbase : pd ≠ env.basePageDir) (htree : Tree (tablesOf t.mem) pd pages)
    (h : Walk p used t pages u) : Program.Ends E (pagedirDestroy env pd) u fun _ u' => Walk p used t [] u' := by
  have hperm := htree.walk_perm h.held.nodup
  have hwalk : Walk p used t (nodesFrom t.mem pd 768 0) u :=
    ⟨h.held.perm hperm.symm, fun q hq => h.mem q (hperm.mem_iff.mp hq), h.pagedir, h.file, h.got⟩
  unfold Load.pagedirDestroy Load.assert
  rw [if_pos hbase, pure_bind]
  generalize 768 = n at hwalk ⊢
  -- what is left is the walk from the index on
  refine .bind (.range (fun d u => Walk p used t (nodesFrom t.mem pd n d) u) hwalk fun d hd u hu => ?_)
    fun _ u hu => ?_
  · have hroot : pd ∈ nodesFrom t.mem pd n d := List.mem_append_right _ (List.mem_singleton_self pd)
    refine .run_bind (hu.wordAt hroot d) ?_
    rw [nodesFrom, TwoLevel.walkFrom_succ hd, TwoLevel.branch] at hu
    split_ifs with hpresent
    · obtain ⟨pt, hpoints⟩ : ∃ pt, Points (tablesOf t.mem pd (BitVec.ofNat 10 d)) pt := ⟨_, points_of_present hpresent⟩
      have htable : tableAt (tablesOf t.mem) pd d = some pt := hpoints.frameOf
      rw [htable] at hu
      dsimp only at hu
      rw [List.append_assoc, List.singleton_append] at hu
      have hpage := hu.held.isPage hlaid (List.mem_append_right _ List.mem_cons_self)
      rw [hpoints.pdeGetPt hpage, check_ok, pure_bind]
      refine .bind (freeFrames hlaid htable hu) fun _ u hu => ?_
      exact hu.free hlaid
    · have htable : tableAt (tablesOf t.mem) pd d = none := frameOf_of_absent (not_not.mp hpresent)
      rw [htable] at hu
      exact .pure hu
  · rw [nodesFrom, TwoLevel.walkFrom_end] at hu
    exact hu.free hlaid

end Walk

/-- **The end of `process_exit`** frees the pages of the process. -/
theorem processExit_ends {E : Stop → Prop} {env : Env} {used : Usage} {t : Machine} {pd : Addr}
    {pages : List Addr} (hlaid : Laid env.ramPages t.palloc) (hpd : t.pagedir = some pd) (hbase : pd ≠ env.basePageDir)
    (htree : Tree (tablesOf t.mem) pd pages)
    (hheld : Held t.palloc used t pages) : Program.Ends E (processExit env) t fun _ u => Walk t.palloc used t [] u := by
  have hwalk : Walk t.palloc used t pages { t with pagedir := none } :=
    ⟨hheld.congr rfl rfl rfl, fun _ _ _ _ => rfl, rfl, rfl, rfl⟩
  refine .get_bind ?_
  simp only [hpd]
  exact .set_bind (hwalk.pagedirDestroy hlaid hbase htree)

end Destroy

/-! ### `load` and `process_exit` -/

/-- A page of the pools that `load` has and did not have before. -/
def Obtained (s₀ s : Machine) (w : Palloc.PoolName) (k : ℕ) : Prop :=
  (s₀.palloc.pool w).usedMap.bit k = false ∧ (s.palloc.pool w).usedMap.bit k = true

theorem Held.listed_iff {ramPages : ℕ} {s₀ s : Machine} {pages : List Addr} (hlaid : Laid ramPages s₀.palloc)
    (h : Held s₀.palloc (usage s₀.palloc) s pages) {w : Palloc.PoolName} {k : ℕ}
    (hk : k < (s₀.palloc.pool w).usedMap.bitCnt) :
    listed s₀.palloc pages w k = true ↔ Obtained s₀ s w k := by
  rw [Load.listed_iff]
  constructor
  · rintro ⟨page, hpage, haddr⟩
    obtain ⟨v, i, hi, haddr', hfree⟩ := h.free page hpage
    obtain ⟨rfl, rfl⟩ := (Held.page_iff hlaid hi hk haddr').mp haddr
    exact ⟨hfree, (h.bit w k hk).mpr (.inr ⟨page, hpage, haddr⟩)⟩
  · rintro ⟨hfree, hbit⟩
    exact ((h.bit w k hk).mp hbit).resolve_left fun hused => Bool.false_ne_true (hfree.symm.trans hused)

/-- **What `load` gets comes back.** For every executable and all reads of it, and whatever pages
are free: unless the arguments do not fit on the stack, `load` returns, and the executable is
closed, if it was open. Whatever happens then to the rest of the machine, `process_exit` frees what
`load` got, each page as often as `load` got it and had not freed it, so that the pages that `load`
had are free, and all others are as they were. Those that no one else has touched are as before
`load`. -/
theorem load_exit {env : Env} {s₀ : Machine} (hready : Ready env s₀) (cmdLine : List UInt8) :
    load env cmdLine s₀ = .error .pageFault ∧ ¬ ArgumentsFit cmdLine ∨
      ∃ r s, load env cmdLine s₀ = .ok (r, s) ∧ (s.file = .unused ∨ s.file = .freed) ∧
        ∀ t, Ran s₀ s t → ∃ u, processExit env t = .ok ((), u) ∧ u.pagedir = none ∧ u.file = s.file ∧
          u.freed.Perm s.got ∧
          ∀ w, ∀ k < (s₀.palloc.pool w).usedMap.bitCnt,
            (Obtained s₀ s w k → (u.palloc.pool w).usedMap.bit k = false) ∧
            (¬ Obtained s₀ s w k → (u.palloc.pool w).usedMap.bit k = (t.palloc.pool w).usedMap.bit k) ∧
            ((t.palloc.pool w).usedMap.bit k = (s.palloc.pool w).usedMap.bit k →
              (u.palloc.pool w).usedMap.bit k = (s₀.palloc.pool w).usedMap.bit k) := by
  have hends := load_ends hready.start cmdLine hready.held hready.empty hready.file
  cases hload : load env cmdLine s₀ with
  | error e =>
    obtain ⟨rfl, hfit⟩ := hends.of_error hload
    exact .inl ⟨rfl, hfit⟩
  | ok x =>
    obtain ⟨r, s⟩ := x
    obtain ⟨hfile, hloaded⟩ := hends.of_ok hload
    refine .inr ⟨r, s, rfl, hfile, fun t ht => ?_⟩
    have hlaid : Laid env.ramPages s₀.palloc := hready.laid
    -- the pages that the process has are freed
    obtain ⟨pages, hheld, u, hrun, hwalk⟩ : ∃ pages, Held s₀.palloc (usage s₀.palloc) s pages ∧
        ∃ u, processExit env t = .ok ((), u) ∧ Walk t.palloc
          (fun w k => usage t.palloc w k && !listed s₀.palloc pages w k) t [] u := by
      obtain ⟨-, hpd, hheld⟩ | ⟨pd, pages, v, hprocess, -⟩ := hloaded
      · have hnone : t.pagedir = none := ht.pagedir.trans hpd
        refine ⟨[], hheld, t, ?_, hheld.rebase hlaid ht.got ht.freed ht.shape ht.kept, fun _ hq => ?_, hnone, rfl, rfl⟩
        · unfold processExit
          simp only [Program.get_bind_run, hnone]
          rfl
        · cases hq
      · have hheld := hprocess.held.rebase hlaid ht.got ht.freed ht.shape ht.kept
        have hlaid' : Laid env.ramPages t.palloc := (hlaid.congr hprocess.held.shape).congr ht.shape
        have htree := tree_of_sameEntry hprocess.space.tree (ht.directory pd hprocess.pagedir)
          (ht.tables pd hprocess.pagedir)
        obtain ⟨⟨⟩, u, hrun, hwalk⟩ := (processExit_ends hlaid' (ht.pagedir.trans hprocess.pagedir)
          hprocess.space.tables.ne_base htree hheld).returns
        exact ⟨pages, hprocess.held, u, hrun, hwalk⟩
    refine ⟨u, hrun, hwalk.pagedir, hwalk.file.trans ht.file, ?_, fun w k hk => ?_⟩
    · have hlog := hwalk.held.log
      rw [hwalk.got, ht.got] at hlog
      exact hlog.symm
    · have hcnt : (t.palloc.pool w).usedMap.bitCnt = (s₀.palloc.pool w).usedMap.bitCnt :=
        congrArg (fun shape => shape.2.2) ((ht.shape w).trans (hheld.shape w))
      have hbit := hwalk.held.bit w k (hcnt ▸ hk)
      simp only [List.not_mem_nil, false_and, exists_false, or_false] at hbit
      rw [← Bool.eq_iff_iff] at hbit
      have hlisted := hheld.listed_iff hlaid hk
      rw [hbit]
      cases hpages : listed s₀.palloc pages w k with
      | true =>
        have hobtained := hlisted.mp hpages
        rw [Bool.not_true, Bool.and_false]
        exact ⟨fun _ => rfl, fun hnot => absurd hobtained hnot, fun _ => hobtained.1.symm⟩
      | false =>
        have hnot : ¬ Obtained s₀ s w k := fun hobtained => Bool.false_ne_true (hpages.symm.trans (hlisted.mpr hobtained))
        rw [Bool.not_false, Bool.and_true]
        refine ⟨fun hobtained => absurd hobtained hnot, fun _ => rfl, fun hsame => hsame.trans ?_⟩
        cases hused : (s₀.palloc.pool w).usedMap.bit k with
        | true => exact (hheld.bit w k hk).mpr (.inl hused)
        | false => exact Bool.eq_false_iff.mpr fun hset => hnot ⟨hused, hset⟩

/-- The executable is loaded, and the process exits: the pools are as before. -/
theorem load_exit_ls : ∃ s₀ s u, Ready lsEnv s₀ ∧ load lsEnv [108, 115] s₀ = .ok (some (0x8048054#32, 3221225448), s) ∧
    processExit lsEnv s = .ok ((), u) ∧ u.freed.Perm s.got ∧
    ∀ w, ∀ k < (s₀.palloc.pool w).usedMap.bitCnt, (u.palloc.pool w).usedMap.bit k = (s₀.palloc.pool w).usedMap.bit k := by
  obtain ⟨s₀, s, hready, hload⟩ := load_lsExe
  obtain ⟨hfault, -⟩ | ⟨r, s', hload', -, hexit⟩ := load_exit hready [108, 115]
  · cases hload.symm.trans hfault
  · cases hload.symm.trans hload'
    obtain ⟨u, hrun, -, -, hfreed, hbits⟩ := hexit s (.refl s₀ s)
    exact ⟨s₀, s, u, hready, hload, hrun, hfreed, fun w k hk => (hbits w k hk).2.2 rfl⟩

end Pintos.Userprog.Load
