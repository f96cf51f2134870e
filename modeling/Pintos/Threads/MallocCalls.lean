import Pintos.Threads.MallocHeap

/-!
# `malloc` and `free` on the heap

`malloc` and `free` (`threads/malloc.c`) return, with no assertion failing, on a heap
that is as the invariant says, and leave one that is so again (**`malloc_ends`**,
**`free_ends`**).

## Runs

The calls are made in any order and any number. `live` has the blocks that were handed
out and not yet freed. The nodes of the free lists and the headers of the arenas are in
the same pages as the blocks, so the program that uses the blocks is part of the runs:
it may write to any byte it has asked for, and a write that hits a node or a header is
an error. In every run nothing goes wrong and the heap is as it should be
(**`heap_correct`**).
-/

namespace Pintos.Threads.Malloc

open Function Program

variable {D : List Desc}

/-! ### The functions -/

section Functions

variable {h : Heap D} {live : ℕ → Option ℕ} {d : Fin D.length} {p : ℕ} {a : Arena D}

theorem Ends.assert_bind {E : Panic → Prop} {P : Prop} [Decidable P] {e : Panic} {β : Type} {f : Unit → MallocM D β}
    {Q : β → Heap D → Prop} (hP : P) (hf : Ends E (f ()) h Q) : Ends E (assert P e >>= f) h Q := by
  unfold assert
  rw [if_pos hP]
  exact hf

theorem assert_eq {P : Prop} [Decidable P] {e : Panic} (hP : P) : (assert P e : MallocM D Unit) h = .ok ((), h) := by
  unfold assert
  rw [if_pos hP]
  rfl

theorem getArena_eq (ha : h.arena p = some a) : getArena p h = .ok (a, h) := by
  rw [getArena, get_bind_run, ha]
  rfl

variable {b : ℕ}

theorem blockToArena_eq (hp : pageOf b ≠ 0) (ha : h.arena (pageOf b) = some a) (hmagic : a.magic = ARENA_MAGIC)
    (hcheck : checkBlock a b h = .ok ((), h)) : blockToArena b h = .ok ((pageOf b, a), h) := by
  refine Ends.eq_ok (Ends.assert_bind hp (Ends.run_bind (getArena_eq ha) ?_))
  exact Ends.assert_bind hmagic (Ends.run_bind hcheck (Ends.pure ⟨rfl, rfl⟩))

variable {i : ℕ}

theorem checkBlock_small (hD : Table D) (hd : a.desc = some d) (hi : i < (D.get d).blocksPerArena) :
    checkBlock a (blockAt d p i) h = .ok ((), h) := by
  have hofs := pgOfs_blockAt hD (p := p) hi
  have hend := blockAt_add_le hD (p := 0) hi
  have hmod : (pgOfs (blockAt d p i) + 2 ^ 32 - ARENA_SIZE) % 2 ^ 32 = i * (D.get d).blockSize := by
    rw [hofs]
    unfold blockAt PGSIZE at hend
    omega
  unfold checkBlock
  rw [hd]
  exact assert_eq (by rw [hmod, Nat.mul_mod_left])

theorem checkBlock_big (hd : a.desc = none) : checkBlock a (bigAt p) h = .ok ((), h) := by
  unfold checkBlock
  rw [hd]
  exact assert_eq (pgOfs_bigAt p)

theorem arenaToBlock_eq (hp : p ≠ 0) (ha : h.arena p = some a) (hmagic : a.magic = ARENA_MAGIC) (hd : a.desc = some d)
    (hi : i < (D.get d).blocksPerArena) : arenaToBlock p i h = .ok (blockAt d p i, h) := by
  refine Ends.eq_ok (Ends.assert_bind hp (Ends.run_bind (getArena_eq ha) (Ends.assert_bind hmagic ?_)))
  rw [hd]
  exact Ends.assert_bind hi (.pure ⟨rfl, rfl⟩)

theorem takeBlock_eq {l : List ℕ} (hl : h.freeList d = b :: l) (hp : pageOf b ≠ 0)
    (ha : h.arena (pageOf b) = some a) (hmagic : a.magic = ARENA_MAGIC)
    (hcheck : ∀ h, checkBlock a b h = .ok ((), h)) :
    takeBlock d h = .ok (b, ⟨update h.arena (pageOf b)
      (some { a with freeCnt := (a.freeCnt + 2 ^ 32 - 1) % 2 ^ 32 }), update h.freeList d l, h.used⟩) := by
  have hpop : listPopFront d h = .ok (b, { h with freeList := update h.freeList d l }) := by
    rw [listPopFront, get_bind_run, hl]
    rfl
  refine Ends.eq_ok (.run_bind hpop (.run_bind
    (blockToArena_eq (h := { h with freeList := update h.freeList d l }) hp ha hmagic (hcheck _)) ?_))
  exact .modify_bind (.pure ⟨rfl, rfl⟩)

theorem initArena_ends (hD : Table D) (hp : p ≠ 0) {S : ℕ → Prop} (hS : Enumerates (h.freeList d) S)
    (hnew : ∀ i < (D.get d).blocksPerArena, ¬S (blockAt d p i)) :
    Ends Never (initArena d p) h fun _ t => ∃ l,
      t = ⟨update h.arena p (some ⟨ARENA_MAGIC, some d, (D.get d).blocksPerArena⟩),
        update h.freeList d l, h.used⟩ ∧
      Enumerates l fun b => S b ∨ ∃ i < (D.get d).blocksPerArena, b = blockAt d p i := by
  refine .modify_bind (.mono (Ends.range (fun i t => ∃ l,
    t = ⟨update h.arena p (some ⟨ARENA_MAGIC, some d, (D.get d).blocksPerArena⟩),
      update h.freeList d l, h.used⟩ ∧ Enumerates l fun b => S b ∨ ∃ j < i, b = blockAt d p j) ?_ ?_)
    fun _ _ ht => ht)
  · refine ⟨h.freeList d, by rw [update_eq_self], hS.congr fun b => ?_⟩
    simp
  · rintro i hi t ⟨l, rfl, hl⟩
    refine .run_bind (arenaToBlock_eq hp (update_self ..) rfl rfl hi) ?_
    refine ⟨l ++ [blockAt d p i], ?_, (hl.concat ?_).congr fun b => ?_⟩
    · simp
    · rintro (hold | ⟨j, hj, heq⟩)
      · exact hnew i hi hold
      · exact absurd (blockAt_injective hD heq) (by omega)
    · simp only [Nat.lt_succ_iff_lt_or_eq, or_and_right, exists_or, exists_eq_left, or_assoc]

theorem removeBlocks_ends (hD : Table D) (hp : p ≠ 0) (ha : h.arena p = some a) (hmagic : a.magic = ARENA_MAGIC)
    (hd : a.desc = some d) {S : ℕ → Prop} (hS : Enumerates (h.freeList d) S)
    (hold : ∀ i < (D.get d).blocksPerArena, S (blockAt d p i)) :
    Ends Never (forM (List.range (D.get d).blocksPerArena) fun i => do
      let b ← arenaToBlock p i
      listRemove d b : MallocM D Unit) h fun _ t => ∃ l,
      t = { h with freeList := update h.freeList d l } ∧
      Enumerates l fun b => S b ∧ ∀ i < (D.get d).blocksPerArena, b ≠ blockAt d p i := by
  refine Ends.range (fun i t => ∃ l, t = { h with freeList := update h.freeList d l } ∧
    Enumerates l fun b => S b ∧ ∀ j < i, b ≠ blockAt d p j) ?_ ?_
  · exact ⟨h.freeList d, by rw [update_eq_self], hS.congr fun b => by simp⟩
  · rintro i hi t ⟨l, rfl, hl⟩
    refine .run_bind (arenaToBlock_eq (h := { h with freeList := update h.freeList d l }) hp ha hmagic hd hi) ?_
    refine .get_bind (Ends.assert_bind ?_ ⟨l.erase (blockAt d p i), ?_, (hl.erase _).congr fun b => ?_⟩)
    · dsimp only
      rw [update_self, hl.mem_iff]
      exact ⟨hold i hi, fun j hj heq => absurd (blockAt_injective hD heq) (by omega)⟩
    · simp
    · simp only [Nat.lt_succ_iff_lt_or_eq, or_imp, forall_and, forall_eq, and_assoc]

theorem blocksPerArena_le (hD : Table D) : (D.get d).blocksPerArena ≤ PGSIZE := by
  have hmul := Nat.le_mul_of_pos_right (D.get d).blocksPerArena (blockSize_pos hD (d := d))
  have hroom := hD.room d
  omega

theorem freeBlocks_le : freeBlocks live d p ≤ (D.get d).blocksPerArena := by
  have hle := Finset.card_filter_le (Finset.range (D.get d).blocksPerArena) fun i => live (blockAt d p i) = none
  rwa [Finset.card_range] at hle

theorem freeBlocks_pos (hi : i < (D.get d).blocksPerArena) (hnone : live (blockAt d p i) = none) :
    0 < freeBlocks live d p :=
  card_filter_pos (Finset.mem_range.mpr hi) hnone

variable {n : ℕ}

/-- **A block is taken** from a free list that has one. -/
theorem takeBlock_ends (hD : Table D) {idle : ℕ → Prop} (hinv : Inv idle h live) {l : List ℕ}
    (hl : h.freeList d = b :: l) (hidle : ∀ q, idle q → q = pageOf b) (hn : n ≤ (D.get d).blockSize) :
    Ends Never (takeBlock d) h fun r t =>
      live r = none ∧ Inv (fun _ => False) t (update live r (some n)) := by
  have hlist := hinv.list d
  rw [hl] at hlist
  obtain ⟨⟨a, ha, hd⟩, ⟨i, hi, hb⟩, hnone⟩ := (hlist.mem_iff b).mp List.mem_cons_self
  have hrun := takeBlock_eq hl (hinv.pages.nonzero ha) ha (hinv.pages.magic ha) fun h => by
    rw [hb]
    exact checkBlock_small hD hd hi
  unfold Ends
  rw [hrun]
  refine ⟨hnone, ?_⟩
  have hcount := (hinv.small ha hd).count
  have hle : freeBlocks live d (pageOf b) ≤ (D.get d).blocksPerArena := freeBlocks_le
  have hbpa := blocksPerArena_le hD (d := d)
  have hpos := freeBlocks_pos hi (hb ▸ hnone)
  refine hinv.setBlock hD ha hd hi hb (fun m hm => Option.some.inj hm ▸ hn) ?_ (hlist.tail.congr fun x => ?_)
    (fun q hq hq' => hq (hidle q hq')) fun _ => ⟨i, hi, ?_⟩
  · rw [if_pos hnone, if_neg (by simp)]
    unfold PGSIZE at hbpa
    omega
  · by_cases hx : x = b
    · simp [hx]
    · rw [if_neg hx, (hinv.list d).mem_iff]
      exact and_iff_left hx
  · rw [← hb, update_self]
    nofun

/-- What `malloc` of `n` bytes ends in: nothing happened, or there is a new live block. -/
def Allocated (h : Heap D) (live : ℕ → Option ℕ) (n : ℕ) (r : Option ℕ) (t : Heap D) : Prop :=
  match r with
  | none => t = h
  | some b => live b = none ∧ Inv (fun _ => False) t (update live b (some n))

theorem pallocGetMultiple_ends {scan : Option ℕ} {cnt : ℕ} :
    Ends Never (pallocGetMultiple scan cnt) h fun r t =>
      match r with
      | none => t = h
      | some page => h.fresh page cnt ∧ 0 < cnt ∧ t = { h with used := setUsed h.used page cnt true } := by
  unfold pallocGetMultiple
  split
  · exact .pure rfl
  · rename_i hcnt
    refine .get_bind ?_
    cases scan with
    | none => exact .pure rfl
    | some page =>
      dsimp only
      split
      · rename_i hfresh
        exact .set_bind (.pure ⟨hfresh, Nat.pos_of_ne_zero hcnt, rfl⟩)
      · exact .pure rfl

section

variable (hD : Table D) (hinv : Inv (fun _ => False) h live)
include hD hinv

/-- **A small size**: a block of the free list, or of a new arena. -/
theorem mallocSmall_ends (hn : n ≤ (D.get d).blockSize)
    (scan : Option ℕ) : Ends Never (mallocSmall d scan) h (Allocated h live n) := by
  refine .get_bind ?_
  split
  · rename_i hempty
    refine .bind pallocGetMultiple_ends fun r t ht => ?_
    cases r with
    | none => exact .pure ht
    | some page =>
      obtain ⟨hfresh, -, rfl⟩ := ht
      have hfree : ∀ b, ¬Free h.arena live d b := fun b hb => by
        rw [← (hinv.list d).mem_iff, hempty] at hb
        cases hb
      refine .bind (initArena_ends hD hfresh.1 (hinv.list d) fun i _ => hfree _) fun _ t ht => ?_
      obtain ⟨l, rfl, hl⟩ := ht
      have hnew := hinv.addArena hD hfresh (hl.congr fun b => by rw [(hinv.list d).mem_iff])
      -- The new arena has a block, and the first of the free list is one of them.
      have hfirst : blockAt d page 0 ∈ l := (hl.mem_iff _).mpr (.inr ⟨0, hD.pos d, rfl⟩)
      obtain ⟨b, l', rfl⟩ := List.exists_cons_of_ne_nil (List.ne_nil_of_mem hfirst)
      have hpage : pageOf b = page := by
        obtain hold | ⟨i, hi, rfl⟩ := (hl.mem_iff b).mp List.mem_cons_self
        · exact absurd hold (hfree b)
        · exact pageOf_blockAt hD hi
      refine .bind (takeBlock_ends hD hnew (update_self ..) (fun q hq => ?_) hn) fun b t hb => .pure hb
      rw [hpage]
      exact hq.resolve_left id
  · rename_i hne
    obtain ⟨b, l, hl⟩ := List.exists_cons_of_ne_nil hne
    refine .bind (takeBlock_ends hD hinv hl (fun q hq => hq.elim) hn) fun b t hb => ?_
    exact .pure hb

/-- **A big size**: pages of its own. -/
theorem mallocBig_ends (hn : n + ARENA_SIZE + PGSIZE - 1 < 2 ^ 32) (scan : Option ℕ) :
    Ends Never (mallocBig n scan) h (Allocated h live n) := by
  refine .bind pallocGetMultiple_ends fun r t ht => ?_
  cases r with
  | none => exact .pure ht
  | some page =>
    obtain ⟨⟨hp, hbound, hunused⟩, hpos, rfl⟩ := ht
    have hnone : h.arena page = none := hinv.pages.none_of_unused (hunused 0 hpos)
    have hdead : ∀ b, pageOf b = page → live b = none := by
      have hpage := hinv.page page
      rw [hnone] at hpage
      exact hpage
    have hold : ∀ a, h.arena page = some a → a.desc = none := by
      rw [hnone]
      nofun
    have hroom : n + ARENA_SIZE ≤ bigPages n * PGSIZE := by
      unfold bigPages ARENA_SIZE PGSIZE at *
      omega
    have hpages := hinv.pages.add (a := ⟨ARENA_MAGIC, none, bigPages n⟩) hp hbound hunused rfl hpos
    refine .modify_bind (.pure ⟨hdead _ (pageOf_bigAt page), ?_⟩)
    refine hinv.setBig hD hold (fun a ha => by cases ha; rfl) hpages ((pageOk_big rfl).mpr ⟨fun b m hb hm => ?_, ?_⟩)
    · by_cases hbig : b = bigAt page
      · rw [hbig, update_self] at hm
        cases hm
        exact ⟨hbig, hroom⟩
      · rw [update_of_ne hbig, hdead b hb] at hm
        cases hm
    · rw [update_self]
      nofun

/-- **`malloc`** returns: a null pointer with nothing changed, or a new live block of the size. -/
theorem malloc_ends (hn : n + ARENA_SIZE + PGSIZE - 1 < 2 ^ 32) (scan : Option ℕ) :
    Ends Never (malloc n scan) h (Allocated h live n) := by
  unfold malloc
  split
  · exact .pure rfl
  · split
    · exact mallocBig_ends hD hinv hn scan
    · rename_i d hd
      have hsize := (List.findFinIdx?_eq_some_iff.mp hd).1
      exact mallocSmall_ends hD hinv (of_decide_eq_true hsize) scan

end

theorem pallocFreeMultiple_eq (hpages : Pages h.arena h.used) (ha : h.arena p = some a) :
    pallocFreeMultiple p a.pages h =
      .ok ((), ⟨update h.arena p none, h.freeList, setUsed h.used p a.pages false⟩) := by
  have hused : ∀ i < a.pages, h.used (p + i) = true := fun i hi => (hpages.used _).mpr ⟨p, a, ha, by omega, by omega⟩
  unfold pallocFreeMultiple
  rw [if_neg fun hzero => hzero.elim (hpages.nonzero ha) (hpages.pos ha).ne']
  refine Ends.eq_ok (Ends.get_bind (Ends.assert_bind hused ?_))
  rw [hpages.wipe_eq ha]
  exact ⟨rfl, rfl⟩

section

variable (hD : Table D)
include hD

/-- **An arena without live blocks** is given back. -/
theorem dropArena_ends {idle idle' : ℕ → Prop} (hinv : Inv idle h live) (ha : h.arena p = some a)
    (hd : a.desc = some d) (hidle : ∀ q, q ≠ p → idle q → idle' q)
    (hdead : ∀ i < (D.get d).blocksPerArena, live (blockAt d p i) = none) :
    Ends Never (dropArena d p) h fun _ t => Inv idle' t live := by
  have hfree : ∀ i < (D.get d).blocksPerArena, Free h.arena live d (blockAt d p i) := fun i hi =>
    (free_iff ha hd (pageOf_blockAt hD hi)).mpr ⟨rfl, ⟨i, hi, rfl⟩, hdead i hi⟩
  refine .bind (removeBlocks_ends hD (hinv.pages.nonzero ha) ha (hinv.pages.magic ha) hd (hinv.list d) hfree)
    fun _ t ht => ?_
  obtain ⟨l, rfl, hl⟩ := ht
  have hone : a.pages = 1 := Arena.pages_small hd
  have hrun := pallocFreeMultiple_eq (h := { h with freeList := update h.freeList d l }) hinv.pages ha
  rw [hone] at hrun
  unfold pallocFreePage Ends
  rw [hrun]
  exact hinv.dropArena hD ha hd hidle hdead (hl.congr fun b => by rw [(hinv.list d).mem_iff])

section

variable (hinv : Inv (fun _ => False) h live)
include hinv

/-- **A block is freed**, and its arena with it if it was the last live one. -/
theorem freeSmall_ends (ha : h.arena p = some a)
    (hd : a.desc = some d) (hi : i < (D.get d).blocksPerArena) (hb : b = blockAt d p i) (hlive : live b ≠ none) :
    Ends Never (freeSmall d p a b) h fun _ t => Inv (fun _ => False) t (update live b none) := by
  have hcount := (hinv.small ha hd).count
  have hle : freeBlocks live d p ≤ (D.get d).blocksPerArena := freeBlocks_le
  have hbpa : (D.get d).blocksPerArena ≤ PGSIZE := blocksPerArena_le hD
  have hcnt : (a.freeCnt + 1) % 2 ^ 32 = a.freeCnt + 1 := by
    unfold PGSIZE at hbpa
    omega
  have hnot : ¬Free h.arena live d b := fun hfree => hlive hfree.2.2
  -- The block is on the free list and the header has the new count.
  have hset : ∀ idle' : ℕ → Prop, (¬idle' p → ∃ j < (D.get d).blocksPerArena,
      update live b none (blockAt d p j) ≠ none) →
      Inv idle' ⟨update h.arena p (some { a with freeCnt := (a.freeCnt + 1) % 2 ^ 32 }),
        update h.freeList d (b :: h.freeList d), h.used⟩ (update live b none) := by
    intro idle' hsome
    refine hinv.setBlock hD ha hd hi hb (v := none) nofun ?_
      (((hinv.list d).cons hnot).congr fun x => ?_) (fun _ _ => False.elim) hsome
    · rw [hcnt, if_neg hlive, if_pos rfl]
    · by_cases hx : x = b
      · simp [hx]
      · rw [if_neg hx, (hinv.list d).mem_iff]
        exact or_iff_right hx
  have hfree := ((hset (· = p) fun hne => absurd rfl hne).small (update_self ..) hd).count
  dsimp only at hfree
  have hle' : freeBlocks (update live b none) d p ≤ (D.get d).blocksPerArena := freeBlocks_le
  refine .run_bind (t := { h with freeList := update h.freeList d (b :: h.freeList d) }) rfl
    (.modify_bind ?_)
  split
  · have hall : ∀ i < (D.get d).blocksPerArena, update live b none (blockAt d p i) = none := by
      have hcard : freeBlocks (update live b none) d p = (Finset.range (D.get d).blocksPerArena).card := by
        rw [Finset.card_range]
        omega
      intro i hi
      exact Finset.card_filter_eq_iff.mp hcard i (Finset.mem_range.mpr hi)
    refine Ends.assert_bind (by omega) ?_
    exact dropArena_ends hD (hset (· = p) fun hne => absurd rfl hne) (update_self ..) hd
      (fun q hq hq' => hq hq') hall
  · refine hset _ fun _ => ?_
    by_contra hnone
    have hcard : freeBlocks (update live b none) d p = (Finset.range (D.get d).blocksPerArena).card := by
      refine Finset.card_filter_eq_iff.mpr fun j hj => ?_
      by_contra hne
      exact hnone ⟨j, Finset.mem_range.mp hj, hne⟩
    rw [Finset.card_range] at hcard
    omega

/-- **A big block is freed**, with its pages. -/
theorem freeBig_ends (ha : h.arena p = some a) (hd : a.desc = none) :
    Ends Never (pallocFreeMultiple p a.freeCnt) h fun _ t =>
      Inv (fun _ => False) t (update live (bigAt p) none) := by
  have hcnt : a.pages = a.freeCnt := Arena.pages_big hd
  have hrun := pallocFreeMultiple_eq hinv.pages ha
  have hpages := hinv.pages.remove ha
  rw [hcnt] at hrun hpages
  unfold Ends
  rw [hrun]
  refine hinv.setBig hD (fun a' ha' => ?_) (o := none) nofun hpages fun b hb => ?_
  · rw [ha] at ha'
    cases ha'
    exact hd
  · by_cases hbig : b = bigAt p
    · rw [hbig, update_self]
    · rw [update_of_ne hbig]
      by_contra hne
      obtain ⟨n, hn⟩ := Option.ne_none_iff_exists'.mp hne
      exact hbig ((hinv.big ha hd).block b n hb hn).1

theorem blockToArena_live (hn : live b = some n)
    (ha : h.arena (pageOf b) = some a) : blockToArena b h = .ok ((pageOf b, a), h) := by
  apply blockToArena_eq (hinv.pages.nonzero ha) ha (hinv.pages.magic ha)
  cases hd : a.desc with
  | some d =>
    obtain ⟨⟨i, hi, hblock⟩, -⟩ := (hinv.small ha hd).block b n rfl hn
    exact hblock ▸ checkBlock_small hD hd hi
  | none =>
    obtain ⟨hblock, -⟩ := (hinv.big ha hd).block b n rfl hn
    exact hblock ▸ checkBlock_big hd

/-- **`free`** of a live block returns, and the block is not live any more. -/
theorem free_ends (hb : live b ≠ none) :
    Ends Never (free b : MallocM D Unit) h fun _ t => Inv (fun _ => False) t (update live b none) := by
  obtain ⟨a, ha⟩ := hinv.arena_of_live hb
  obtain ⟨n, hn⟩ := Option.ne_none_iff_exists'.mp hb
  have hb0 : b ≠ 0 := by
    rintro rfl
    exact hinv.pages.nonzero ha (Nat.zero_div _)
  unfold free
  rw [if_neg hb0]
  refine .run_bind (blockToArena_live hD hinv hn ha) ?_
  dsimp only
  cases hd : a.desc with
  | some d =>
    obtain ⟨⟨i, hi, hblock⟩, -⟩ := (hinv.small ha hd).block b n rfl hn
    exact freeSmall_ends hD hinv ha hd hi hblock hb
  | none =>
    obtain ⟨hblock, -⟩ := (hinv.big ha hd).block b n rfl hn
    have hfree := freeBig_ends hD hinv ha hd
    rwa [← hblock] at hfree

end

end

end Functions

/-! ### Runs -/

/-- The heap and the blocks that are handed out, with the sizes that were asked for. -/
structure State (D : List Desc) where
  heap : Heap D
  /-- The live blocks. -/
  live : ℕ → Option ℕ

/-- What can happen. -/
inductive Act where
  /-- `malloc (size)`, where `scan` is what the page allocator finds. -/
  | malloc (size : ℕ) (scan : Option ℕ)
  | free (p : ℕ)
  /-- The program that has block `b` writes to byte `n` of it. -/
  | store (b n : ℕ)

/-- A write to address `x` hits the header of an arena, or a node of a free list. -/
def Heap.Hits (h : Heap D) (x : ℕ) : Prop :=
  (h.arena (pageOf x)).isSome = true ∧ pgOfs x < ARENA_SIZE ∨
    ∃ d, ∃ b ∈ h.freeList d, b ≤ x ∧ x < b + BLOCK_SIZE

instance (h : Heap D) (x : ℕ) : Decidable (h.Hits x) := inferInstanceAs (Decidable (_ ∨ _))

/-- What an action does. Sizes are such that the pages of a big block can be computed; what is freed
is live, or the null pointer. -/
def step (s : State D) : Act → Outcome (State D)
  | .malloc size scan =>
    if size + ARENA_SIZE + PGSIZE - 1 < 2 ^ 32 then
      match malloc size scan s.heap with
      | .ok (none, h) => .next ⟨h, s.live⟩
      | .ok (some b, h) => .next ⟨h, update s.live b (some size)⟩
      | .error _ => .fault
    else .disabled
  | .free p =>
    if p = 0 ∨ s.live p ≠ none then
      match free p s.heap with
      | .ok (_, h) => .next ⟨h, update s.live p none⟩
      | .error _ => .fault
    else .disabled
  | .store b n =>
    match s.live b with
    | some size => if n < size then (if s.heap.Hits (b + n) then .fault else .next s) else .disabled
    | none => .disabled

/-- After `malloc_init`. -/
def initial : State D where
  heap := ⟨fun _ => none, fun _ => [], fun _ => false⟩
  live _ := none

/-- The runs. -/
def system (D : List Desc) : System (State D) Act where
  init s := s = initial
  step := step

/-- What holds between the calls. -/
def Ok (s : State D) : Prop := Inv (fun _ => False) s.heap s.live

theorem ok_initial : Ok (initial : State D) where
  pages := ⟨nofun, nofun, nofun, nofun, nofun, fun _ => ⟨nofun, nofun⟩⟩
  page _ := fun _ _ => rfl
  list _ := ⟨List.nodup_nil, fun _ => ⟨nofun, nofun⟩⟩

namespace Ok

variable {s : State D} (h : Ok s)
include h

theorem isBlock (hn : s.live b = some n) : s.heap.IsBlock b ∧ n ≤ s.heap.room b := by
  obtain ⟨a, ha⟩ := Inv.arena_of_live h (b := b) (by rw [hn]; nofun)
  cases hd : a.desc with
  | some d =>
    obtain ⟨hblock, hsize⟩ := (Inv.small h ha hd).block b n rfl hn
    rw [Heap.room_small ha hd]
    exact ⟨⟨a, ha, by rw [hd]; exact hblock⟩, hsize⟩
  | none =>
    obtain ⟨hblock, hsize⟩ := (Inv.big h ha hd).block b n rfl hn
    rw [Heap.room_big ha hd]
    exact ⟨⟨a, ha, by rw [hd]; exact hblock⟩, by omega⟩

/-- **An arena is there exactly while one of its blocks is live.** -/
theorem arena_iff (hD : Table D) (p : ℕ) : s.heap.arena p ≠ none ↔ ∃ b, pageOf b = p ∧ s.live b ≠ none := by
  constructor
  · intro hne
    obtain ⟨a, ha⟩ := Option.ne_none_iff_exists'.mp hne
    cases hd : a.desc with
    | some d =>
      obtain ⟨i, hi, hlive⟩ := (Inv.small h ha hd).some id
      exact ⟨blockAt d p i, pageOf_blockAt hD hi, hlive⟩
    | none => exact ⟨bigAt p, pageOf_bigAt p, (Inv.big h ha hd).some⟩
  · rintro ⟨b, rfl, hlive⟩
    obtain ⟨a, ha⟩ := Inv.arena_of_live h hlive
    rw [ha]
    nofun

theorem live_zero : s.live 0 = none := by
  by_contra hne
  obtain ⟨a, ha⟩ := Inv.arena_of_live h hne
  exact h.pages.nonzero ha (Nat.zero_div _)

variable {p : ℕ}

section

variable (hD : Table D)
include hD

theorem freeCnt_eq {a : Arena D} {d : Fin D.length} (ha : s.heap.arena p = some a)
    (hd : a.desc = some d) : a.freeCnt = ((s.heap.freeList d).filter fun b => pageOf b = p).length := by
  have hlist := h.list d
  rw [(Inv.small h ha hd).count, ← List.toFinset_card_of_nodup (hlist.nodup.filter _)]
  -- The free blocks are the images of their indices.
  refine Finset.card_bij (fun i _ => blockAt d p i) ?_ (fun i _ j _ heq => blockAt_injective hD heq) ?_
  · intro i hi
    obtain ⟨hi, hnone⟩ := Finset.mem_filter.mp hi
    have hpage : pageOf (blockAt d p i) = p := pageOf_blockAt hD (Finset.mem_range.mp hi)
    rw [List.mem_toFinset, List.mem_filter, hlist.mem_iff, free_iff ha hd hpage]
    exact ⟨⟨rfl, ⟨i, Finset.mem_range.mp hi, rfl⟩, hnone⟩, decide_eq_true hpage⟩
  · intro b hb
    rw [List.mem_toFinset, List.mem_filter, hlist.mem_iff] at hb
    obtain ⟨-, ⟨i, hi, rfl⟩, hnone⟩ := (free_iff ha hd (of_decide_eq_true hb.2)).mp hb.1
    exact ⟨i, Finset.mem_filter.mpr ⟨Finset.mem_range.mpr hi, hnone⟩, rfl⟩

theorem not_hits {size : ℕ} (hb : s.live b = some size) (hn : n < size) : ¬s.heap.Hits (b + n) := by
  obtain ⟨hblock, hsize⟩ := h.isBlock hb
  obtain ⟨a, ha, hstart, hend⟩ := hblock.inside hD h.pages
  rintro (⟨hsome, hofs⟩ | ⟨d, e, he, hle, hlt⟩)
  · obtain ⟨a', ha'⟩ := Option.isSome_iff_exists.mp hsome
    have hpage : pageOf (b + n) = pageOf b := by
      refine h.pages.header_eq ha ha' (Nat.div_le_div_right (Nat.le_add_right b n)) ?_
      exact Nat.div_lt_of_lt_mul (by rw [Nat.mul_comm]; omega)
    have hdiv := Nat.div_add_mod (b + n) PGSIZE
    unfold pgOfs at hofs
    unfold pageOf at hpage hstart
    rw [hpage, Nat.mul_comm] at hdiv
    omega
  · obtain ⟨⟨a', ha', hd⟩, hfree, hnone⟩ := ((h.list d).mem_iff e).mp he
    have he' : s.heap.IsBlock e := ⟨a', ha', by rw [hd]; exact hfree⟩
    have hne : b ≠ e := by
      rintro rfl
      rw [hb] at hnone
      cases hnone
    have hnode := hD.node d
    have hroom : s.heap.room e = (D.get d).blockSize := Heap.room_small ha' hd
    have hdisjoint := hblock.disjoint hD h.pages he' hne
    omega

/-- **A call of `malloc`** returns. -/
theorem malloc_next {size : ℕ} (hsize : size + ARENA_SIZE + PGSIZE - 1 < 2 ^ 32) (scan : Option ℕ) :
    ∃ s', step s (.malloc size scan) = .next s' ∧ Ok s' ∧ ∀ b, s.live b ≠ none → s'.live b ≠ none := by
  obtain ⟨r, t, hrun, hr⟩ := (malloc_ends hD h hsize scan).returns
  unfold step
  dsimp only
  rw [if_pos hsize, hrun]
  cases r with
  | none =>
    obtain rfl : t = s.heap := hr
    exact ⟨_, rfl, h, fun _ => id⟩
  | some b =>
    refine ⟨_, rfl, hr.2, fun b' hb' => ?_⟩
    dsimp only
    rwa [update_of_ne]
    rintro rfl
    exact hb' hr.1

/-- **A call of `free`** returns. -/
theorem free_next (hp : p = 0 ∨ s.live p ≠ none) :
    ∃ s', step s (.free p) = .next s' ∧ Ok s' ∧ s'.live = update s.live p none := by
  have hends : Ends Never (Malloc.free p : MallocM D Unit) s.heap fun _ t =>
      Inv (fun _ => False) t (update s.live p none) := by
    rcases eq_or_ne p 0 with rfl | hp0
    · have hsame : update s.live 0 none = s.live := by
        conv_lhs => rw [← h.live_zero]
        exact update_eq_self 0 s.live
      rw [hsame]
      exact .pure h
    · exact free_ends hD h (hp.resolve_left hp0)
  obtain ⟨r, t, hrun, hr⟩ := hends.returns
  unfold step
  dsimp only
  rw [if_pos hp, hrun]
  exact ⟨_, rfl, hr, rfl⟩

/-- **No action goes wrong**, and what holds between the calls holds after it. -/
theorem step_ok (a : Act) : step s a ≠ .fault ∧ ∀ s', step s a = .next s' → Ok s' := by
  cases a with
  | malloc size scan =>
    by_cases hsize : size + ARENA_SIZE + PGSIZE - 1 < 2 ^ 32
    · obtain ⟨t, ht, hok, -⟩ := h.malloc_next hD hsize scan
      rw [ht]
      exact ⟨nofun, fun s' hs' => Outcome.next.inj hs' ▸ hok⟩
    · simp only [step, if_neg hsize]
      exact ⟨nofun, nofun⟩
  | free p =>
    by_cases hp : p = 0 ∨ s.live p ≠ none
    · obtain ⟨t, ht, hok, -⟩ := h.free_next hD hp
      rw [ht]
      exact ⟨nofun, fun s' hs' => Outcome.next.inj hs' ▸ hok⟩
    · simp only [step, hp, if_false]
      exact ⟨nofun, nofun⟩
  | store b n =>
    cases hb : s.live b with
    | none => simp [step, hb]
    | some size =>
      by_cases hn : n < size
      · simp only [step, hb, if_pos hn, if_neg (h.not_hits hD hb hn)]
        exact ⟨nofun, fun s' hs' => Outcome.next.inj hs' ▸ h⟩
      · simp [step, hb, hn]

/-- **An arena is given back exactly when its last live block is freed.** -/
theorem given_back_iff {a : Act} {s' : State D} (hstep : step s a = .next s')
    (hp : s.heap.arena p ≠ none) : s'.heap.arena p = none ↔
      ∃ b, a = .free b ∧ pageOf b = p ∧ ∀ b', pageOf b' = p → s.live b' ≠ none → b' = b := by
  have hafter := ((h.step_ok hD a).2 s' hstep).arena_iff hD p
  obtain ⟨c, hc, hlive⟩ := (h.arena_iff hD p).mp hp
  rw [← not_iff_not, ← ne_eq, hafter]
  -- Unless the action is `free`, what was live is live.
  have hkept : (∀ b, s.live b ≠ none → s'.live b ≠ none) → (∀ b, a ≠ .free b) → ((∃ b, pageOf b = p ∧ s'.live b ≠ none) ↔
      ¬∃ b, a = .free b ∧ pageOf b = p ∧ ∀ b', pageOf b' = p → s.live b' ≠ none → b' = b) := fun hall hfree =>
    iff_of_true ⟨c, hc, hall c hlive⟩ fun ⟨b, hb, _⟩ => hfree b hb
  cases a with
  | malloc size scan =>
    refine hkept ?_ nofun
    by_cases hsize : size + ARENA_SIZE + PGSIZE - 1 < 2 ^ 32
    · obtain ⟨t, ht, -, hall⟩ := h.malloc_next hD hsize scan
      rw [ht] at hstep
      exact Outcome.next.inj hstep ▸ hall
    · simp only [step, if_neg hsize] at hstep
      cases hstep
  | store b n =>
    refine hkept ?_ nofun
    unfold step at hstep
    cases hb : s.live b with
    | none => simp [hb] at hstep
    | some size =>
      simp only [hb] at hstep
      split at hstep
      · split at hstep
        · cases hstep
        · exact Outcome.next.inj hstep ▸ fun _ => id
      · cases hstep
  | free b =>
    by_cases hb : b = 0 ∨ s.live b ≠ none
    · obtain ⟨t, ht, -, hlive'⟩ := h.free_next hD hb
      rw [ht] at hstep
      obtain rfl := Outcome.next.inj hstep
      rw [hlive']
      constructor
      · rintro ⟨b', hb', hne⟩ ⟨b₀, heq, -, honly⟩
        cases heq
        by_cases hbb : b' = b
        · rw [hbb, update_self] at hne
          exact hne rfl
        · rw [update_of_ne hbb] at hne
          exact hbb (honly b' hb' hne)
      · intro hnot
        by_contra hnone
        have honly : ∀ b', pageOf b' = p → s.live b' ≠ none → b' = b := by
          intro b' hb' hne
          by_contra hbb
          exact hnone ⟨b', hb', by rwa [update_of_ne hbb]⟩
        exact hnot ⟨b, rfl, (honly c hc hlive) ▸ hc, honly⟩
    · simp only [step, hb, if_false] at hstep
      cases hstep

end

end Ok

/-- **The heap as it should be.** -/
structure Sound (s : State D) : Prop where
  /-- Live blocks do not overlap. -/
  disjoint : ∀ b b' n n', s.live b = some n → s.live b' = some n' → b ≠ b' →
    b + s.heap.room b ≤ b' ∨ b' + s.heap.room b' ≤ b
  /-- A live block is inside its arena, after the header, and has the size that was asked for. -/
  inside : ∀ b n, s.live b = some n → ∃ a, s.heap.arena (pageOf b) = some a ∧
    pageOf b * PGSIZE + ARENA_SIZE ≤ b ∧ b + s.heap.room b ≤ (pageOf b + a.pages) * PGSIZE ∧ n ≤ s.heap.room b
  /-- A free list has every block that is not live of every arena of its descriptor, once, and
  nothing else. -/
  free : ∀ d, (s.heap.freeList d).Nodup ∧ ∀ b, b ∈ s.heap.freeList d ↔
    (∃ p a, s.heap.arena p = some a ∧ a.desc = some d ∧ ∃ i < (D.get d).blocksPerArena, b = blockAt d p i) ∧
      s.live b = none
  /-- `free_cnt` is the number of blocks of the arena on the free list. -/
  count : ∀ p a d, s.heap.arena p = some a → a.desc = some d →
    a.freeCnt = ((s.heap.freeList d).filter fun b => pageOf b = p).length
  /-- An arena is there exactly while one of its blocks is live. -/
  arenas : ∀ p, s.heap.arena p ≠ none ↔ ∃ b, pageOf b = p ∧ s.live b ≠ none
  /-- The pages that are not given back are those of the arenas. -/
  used : ∀ q, s.heap.used q = true ↔ ∃ p a, s.heap.arena p = some a ∧ p ≤ q ∧ q < p + a.pages

theorem Ok.sound (hD : Table D) {s : State D} (h : Ok s) : Sound s where
  disjoint b b' n n' hb hb' hne := (h.isBlock hb).1.disjoint hD h.pages (h.isBlock hb').1 hne
  inside b n hb := by
    obtain ⟨hblock, hsize⟩ := h.isBlock hb
    obtain ⟨a, ha, hstart, hend⟩ := hblock.inside hD h.pages
    exact ⟨a, ha, hstart, hend, hsize⟩
  free d := by
    refine ⟨(h.list d).nodup, fun b => ((h.list d).mem_iff b).trans ?_⟩
    constructor
    · rintro ⟨⟨a, ha, hd⟩, hblock, hnone⟩
      exact ⟨⟨pageOf b, a, ha, hd, hblock⟩, hnone⟩
    · rintro ⟨⟨p, a, ha, hd, i, hi, rfl⟩, hnone⟩
      exact (free_iff ha hd (pageOf_blockAt hD hi)).mpr ⟨rfl, ⟨i, hi, rfl⟩, hnone⟩
  count p a d ha hd := h.freeCnt_eq hD ha hd
  arenas p := h.arena_iff hD p
  used := h.pages.used

theorem ok_of_reach (hD : Table D) {s : State D} (h : (system D).Reach s) : Ok s :=
  h.invariant (fun _ hs => hs ▸ ok_initial) fun _ a t hs hstep => (hs.step_ok hD a).2 t hstep

/-- **`malloc` and `free` in every run**, with the descriptors of `malloc_init`: the heap is as it
should be, no assertion fails and no node or header is overwritten, and an arena is given back
exactly when its last live block is freed. -/
theorem heap_correct {D : List Desc} (hD : mallocInit = some D) {s : State D} (h : (system D).Reach s) :
    Sound s ∧ (∀ a, (system D).step s a ≠ .fault) ∧
      ∀ a s', (system D).step s a = .next s' → ∀ p, s.heap.arena p ≠ none →
        (s'.heap.arena p = none ↔
          ∃ b, a = .free b ∧ pageOf b = p ∧ ∀ b', pageOf b' = p → s.live b' ≠ none → b' = b) := by
  have hT := table_of_mallocInit hD
  have hok := ok_of_reach hT h
  exact ⟨hok.sound hT, fun a => (hok.step_ok hT a).1, fun a s' hstep p hp => hok.given_back_iff hT hstep hp⟩

/-- Two small blocks and a big one: the small ones are in page 1, and freeing the first leaves the
arena there with one live block. -/
theorem heap_correct_three : ∃ s : State descs, (system descs).Reach s ∧ s.live 4108 = none ∧ s.live 5132 = some 1000 ∧
    s.live 12300 = some 5000 ∧ s.heap.freeList ⟨6, by decide⟩ = [4108, 6156] ∧ Sound s ∧
      (system descs).step s (.free 5132) ≠ .fault := by
  obtain ⟨s, hrun, hfirst, hsecond, hbig, hlist⟩ : ∃ s : State descs, (system descs).replay initial
      [.malloc 1000 (some 1), .malloc 1000 none, .malloc 5000 (some 3), .store 4108 999, .free 4108] = .next s ∧
      s.live 4108 = none ∧ s.live 5132 = some 1000 ∧ s.live 12300 = some 5000 ∧
        s.heap.freeList ⟨6, by decide⟩ = [4108, 6156] :=
    ⟨_, rfl, rfl, rfl, rfl, rfl⟩
  have hreach : (system descs).Reach s := System.Reach.replay (.init rfl) hrun
  have hcorrect := heap_correct mallocInit_eq hreach
  exact ⟨s, hreach, hfirst, hsecond, hbig, hlist, hcorrect.1, hcorrect.2.1 _⟩

end Pintos.Threads.Malloc
