import Pintos.Basis.Memory
import Pintos.Threads.MallocCalls

/-!
# `calloc` and `realloc`

`calloc`, `block_size` and `realloc` (`threads/malloc.c`), with the bytes of the memory.

## The model

The headers of the arenas and the nodes of the free lists are in the memory. Which bytes
`malloc` and `free` write is modelled, but not what they write there: it is `junk`, any
bytes. `malloc` writes to headers and nodes, and the block it returns may have been a node.
`free` fills the block with `0xcc` before it is a node, and the page allocator fills the
pages that are given back.

## What is proved

* `malloc` returns a block only for a size whose pages can be computed, and one that has
  room for it, exactly if the size is at most `2 ^ 32 - 12`; and for which factors the same is
  true of `calloc`, whose test for overflow misses most products (**`sizes_checked_iff`**).
* `realloc` keeps the contents of the block, and of all others (**`realloc_keeps`**).
-/

namespace Pintos.Threads.Malloc

open Function Memory Program

variable {D : List Desc}

/-- The heap, and the memory it is in. -/
structure Mem (D : List Desc) where
  heap : Heap D
  /-- The memory. -/
  bytes : Bytes

/-- The bytes of headers and nodes, before or after a call, have been written. -/
def scribble (h h' : Heap D) (junk bytes : Bytes) : Bytes := fun x =>
  if h.Hits x ∨ h'.Hits x then junk x else bytes x

/-- `malloc`. -/
def mallocOn (size : ℕ) (scan : Option ℕ) (junk : Bytes) : Program (Mem D) Panic (Option ℕ) := fun m =>
  (malloc size scan m.heap).map fun (r, h) =>
    (r, ⟨h, scribble m.heap h junk (r.elim m.bytes fun b => copy m.bytes b junk b BLOCK_SIZE)⟩)

/-- `free`. -/
def freeOn (p : ℕ) (junk : Bytes) : Program (Mem D) Panic Unit := fun m =>
  if p = 0 then .ok ((), m)
  else (free p m.heap).map fun (u, h) => (u, ⟨h, fun x =>
    if m.heap.used (pageOf x) = true ∧ h.used (pageOf x) = false then 0xcc
    else scribble m.heap h junk (fill m.bytes p 0xcc (m.heap.room p)) x⟩)

def calloc (a b : ℕ) (scan : Option ℕ) (junk : Bytes) : Program (Mem D) Panic (Option ℕ) := do
  let size := a * b % 2 ^ 32
  if size < a ∨ size < b then return none
  match ← mallocOn size scan junk with
  | none => return none
  | some p =>
    modify fun m => { m with bytes := fill m.bytes p 0 size }
    return some p

def blockSize (b : ℕ) : MallocM D ℕ := do
  let (_, a) ← blockToArena b
  match a.desc with
  | some d => return (D.get d).blockSize
  | none => return (PGSIZE * a.freeCnt + 2 ^ 32 - pgOfs b) % 2 ^ 32

/-- A function that does not write to the memory. -/
def onHeap {α : Type} (x : MallocM D α) : Program (Mem D) Panic α := fun m =>
  (x m.heap).map fun (v, h) => (v, { m with heap := h })

def realloc (old newSize : ℕ) (scan : Option ℕ) (junk junk' : Bytes) : Program (Mem D) Panic (Option ℕ) := do
  if newSize = 0 then
    freeOn old junk
    return none
  else
    match ← mallocOn newSize scan junk with
    | none => return none
    | some new =>
      if old ≠ 0 then
        let oldSize ← onHeap (blockSize old)
        let minSize := if newSize < oldSize then newSize else oldSize
        modify fun m => { m with bytes := copy m.bytes new m.bytes old minSize }
        freeOn old junk'
      return some new

/-! ### What the calls leave alone -/

/-- The live blocks have the contents they had. -/
def Keeps (live : ℕ → Option ℕ) (bytes bytes' : Bytes) : Prop :=
  ∀ b n, live b = some n → ∀ i < n, bytes' (b + i) = bytes (b + i)

namespace Ok

variable {s s' : State D} (h : Ok s) (hD : Table D) {b n i : ℕ}
include h hD

theorem used (hb : s.live b = some n) (hi : i < n) : s.heap.used (pageOf (b + i)) = true := by
  obtain ⟨hblock, hsize⟩ := h.isBlock hb
  obtain ⟨a, ha, -, hend⟩ := hblock.inside hD h.pages
  refine (h.pages.used _).mpr ⟨pageOf b, a, ha, Nat.div_le_div_right (Nat.le_add_right b i), ?_⟩
  exact Nat.div_lt_of_lt_mul (by rw [Nat.mul_comm]; omega)

theorem node_le (hb : s.live b = some n) : BLOCK_SIZE ≤ s.heap.room b := by
  obtain ⟨a, ha⟩ := Inv.arena_of_live h (b := b) (by rw [hb]; nofun)
  cases hd : a.desc with
  | some d =>
    rw [Heap.room_small ha hd]
    exact hD.node d
  | none =>
    have hpos := h.pages.pos ha
    rw [Arena.pages_big hd] at hpos
    rw [Heap.room_big ha hd]
    unfold BLOCK_SIZE PGSIZE ARENA_SIZE
    omega

theorem outside (hb : s.live b = some n) (hi : i < n) {c k : ℕ} (hc : s.live c = some k) (hne : b ≠ c) :
    b + i < c ∨ c + s.heap.room c ≤ b + i := by
  obtain ⟨hblock, hsize⟩ := h.isBlock hb
  have := hblock.disjoint hD h.pages (h.isBlock hc).1 hne
  omega

/-- A block that stays live has no header and no node in it. -/
theorem scribble_eq (h' : Ok s') (hb : s.live b = some n) (hb' : s'.live b = some n) (hi : i < n) (junk bytes : Bytes) :
    scribble s.heap s'.heap junk bytes (b + i) = bytes (b + i) :=
  if_neg (not_or.mpr ⟨h.not_hits hD hb hi, h'.not_hits hD hb' hi⟩)

variable {size : ℕ}

/-- **`malloc`** leaves the live blocks alone. -/
theorem mallocOn_run (hsize : size + ARENA_SIZE + PGSIZE - 1 < 2 ^ 32) (scan : Option ℕ)
    (junk bytes : Bytes) : ∃ (r : Option ℕ) (s' : State D) (bytes' : Bytes),
      mallocOn size scan junk ⟨s.heap, bytes⟩ = .ok (r, ⟨s'.heap, bytes'⟩) ∧
      (system D).step s (.malloc size scan) = .next s' ∧
        Ok s' ∧ Keeps s.live bytes bytes' ∧ (r = none → s'.live = s.live) ∧
        ∀ p, r = some p → s.live p = none ∧ s'.live = update s.live p (some size) := by
  obtain ⟨r, t, hrun, hr⟩ := (malloc_ends hD h hsize scan).returns
  have hon : mallocOn size scan junk ⟨s.heap, bytes⟩ = .ok (r, ⟨t, _⟩) := congrArg (Except.map _) hrun
  cases r with
  | none =>
    obtain rfl : t = s.heap := hr
    refine ⟨none, s, _, hon, ?_, h, fun b n hb i hi => h.scribble_eq hD h hb hb hi _ _, fun _ => rfl, by simp⟩
    simp only [system, step, if_pos hsize, hrun]
  | some p =>
    obtain ⟨hnone, hok⟩ := hr
    have hok : Ok ⟨t, update s.live p (some size)⟩ := hok
    refine ⟨some p, ⟨t, update s.live p (some size)⟩, _, hon, ?_, hok, fun b n hb i hi => ?_, by simp,
      fun q hq => Option.some.inj hq ▸ ⟨hnone, rfl⟩⟩
    · simp only [system, step, if_pos hsize, hrun]
    · have hne : b ≠ p := by
        rintro rfl
        rw [hnone] at hb
        cases hb
      have hb' : update s.live p (some size) b = some n := (update_of_ne hne _ _).trans hb
      have hp : update s.live p (some size) p = some size := update_self ..
      refine (h.scribble_eq hD hok hb hb' hi _ _).trans (copy_of_notMem ?_)
      have hout := hok.outside hD hb' hi hp hne
      have hnode := hok.node_le hD hp
      omega

variable {p : ℕ}

/-- **`free`** leaves the other live blocks alone. -/
theorem freeOn_run (hp : s.live p ≠ none) (junk bytes : Bytes) : ∃ (s' : State D) (bytes' : Bytes),
    freeOn p junk ⟨s.heap, bytes⟩ = .ok ((), ⟨s'.heap, bytes'⟩) ∧ (system D).step s (.free p) = .next s' ∧
      s'.live = update s.live p none ∧ Keeps s'.live bytes bytes' := by
  obtain ⟨r, t, hrun, hok⟩ := (free_ends hD h hp).returns
  have hok : Ok ⟨t, update s.live p none⟩ := hok
  obtain ⟨k, hk⟩ := Option.ne_none_iff_exists'.mp hp
  have hp0 : p ≠ 0 := by
    rintro rfl
    exact hp h.live_zero
  have hon : freeOn p junk ⟨s.heap, bytes⟩ = .ok ((), ⟨t, _⟩) := (if_neg hp0).trans (congrArg (Except.map _) hrun)
  refine ⟨⟨t, update s.live p none⟩, _, hon, ?_, rfl, fun b n hb i hi => ?_⟩
  · simp only [system, step, if_pos (.inr hp : p = 0 ∨ s.live p ≠ none), hrun]
  · have hne : b ≠ p := by
      rintro rfl
      exact Option.some_ne_none n (hb.symm.trans (update_self ..))
    have hb' : s.live b = some n := (update_of_ne hne _ _).symm.trans hb
    have hused : t.used (pageOf (b + i)) = true := hok.used hD hb hi
    dsimp only
    rw [hused, if_neg (by simp)]
    exact (h.scribble_eq hD hok hb' hb hi _ _).trans (fill_of_notMem (h.outside hD hb' hi hk hne))

theorem blockSize_run (hb : s.live b = some n) : blockSize b s.heap = .ok (s.heap.room b, s.heap) := by
  obtain ⟨a, ha⟩ := Inv.arena_of_live h (b := b) (by rw [hb]; nofun)
  refine (bind_run_ok (blockToArena_live hD h hb ha)).trans ?_
  dsimp only
  cases hd : a.desc with
  | some d =>
    rw [Heap.room_small ha hd]
    rfl
  | none =>
    obtain ⟨hblock, -⟩ := (Inv.big h ha hd).block b n rfl hb
    have hofs : pgOfs b = ARENA_SIZE := by
      rw [hblock]
      exact pgOfs_bigAt _
    have hbound := h.pages.bound ha
    have hpos := h.pages.pos ha
    rw [Arena.pages_big hd] at hbound hpos
    rw [Heap.room_big ha hd, hofs]
    refine congrArg (fun k => Except.ok (k, s.heap)) ?_
    unfold PGSIZE ARENA_SIZE at *
    omega

end Ok

/-! ### Sizes -/

/-- `malloc` of a size returns a block only if its pages can be computed, and one that has room for
it. -/
def MallocChecks (D : List Desc) (size : ℕ) : Prop := ∀ (s : State D) (scan : Option ℕ) (p : ℕ) (h : Heap D),
  (system D).Reach s → malloc size scan s.heap = .ok (some p, h) →
    size + ARENA_SIZE + PGSIZE - 1 < 2 ^ 32 ∧ size ≤ h.room p

/-- The same of `calloc`, with the exact product; its bytes are zero. -/
def CallocChecks (D : List Desc) (a b : ℕ) : Prop :=
  ∀ (s : State D) (scan : Option ℕ) (junk bytes : Bytes) (p : ℕ) (m : Mem D), (system D).Reach s →
    calloc a b scan junk ⟨s.heap, bytes⟩ = .ok (some p, m) →
      a * b + ARENA_SIZE + PGSIZE - 1 < 2 ^ 32 ∧ a * b ≤ m.heap.room p ∧ ∀ i < a * b, m.bytes (p + i) = 0

/-- The pages of a size that cannot be computed: none, or one if it is within 11 of the end. -/
theorem bigPages_wrap (hsize : size < 2 ^ 32) (hwrap : 2 ^ 32 ≤ size + ARENA_SIZE + PGSIZE - 1) :
    bigPages size = if size + 11 < 2 ^ 32 then 0 else 1 := by
  unfold bigPages ARENA_SIZE PGSIZE at *
  split <;> omega

theorem pallocGetMultiple_run {h : Heap D} {page cnt : ℕ} (hcnt : cnt ≠ 0) (hfresh : h.fresh page cnt) :
    pallocGetMultiple (some page) cnt h = .ok (some page, { h with used := setUsed h.used page cnt true }) := by
  unfold pallocGetMultiple
  rw [if_neg hcnt, get_bind_run]
  dsimp only
  rw [if_pos hfresh]
  rfl

/-- On the first heap any number of pages can be had. -/
theorem fresh_initial {cnt : ℕ} (hcnt : cnt < 2 ^ 20) : (initial : State D).heap.fresh 1 cnt :=
  ⟨Nat.one_ne_zero, by unfold PGSIZE; omega, fun _ _ => rfl⟩

theorem mallocOn_some {scan : Option ℕ} {junk : Bytes} {m m' : Mem D}
    (h : mallocOn size scan junk m = .ok (some p, m')) : malloc size scan m.heap = .ok (some p, m'.heap) := by
  unfold mallocOn at h
  cases hrun : malloc size scan m.heap with
  | error e =>
    rw [hrun] at h
    cases h
  | ok r =>
    obtain ⟨r, t⟩ := r
    rw [hrun] at h
    cases h
    rfl

theorem calloc_some_iff {a b : ℕ} {scan : Option ℕ} {junk : Bytes} {m m' : Mem D} :
    calloc a b scan junk m = .ok (some p, m') ↔ (a ≤ a * b % 2 ^ 32 ∧ b ≤ a * b % 2 ^ 32) ∧
      ∃ t, mallocOn (a * b % 2 ^ 32) scan junk m = .ok (some p, t) ∧
        m' = { t with bytes := fill t.bytes p 0 (a * b % 2 ^ 32) } := by
  unfold calloc
  split
  · constructor
    · nofun
    · omega
  · rw [and_iff_right (by omega)]
    constructor
    · intro hrun
      obtain ⟨r, t, hmalloc, hrest⟩ := eq_ok_of_bind hrun
      cases r with
      | none => cases hrest
      | some q =>
        cases hrest
        exact ⟨t, hmalloc, rfl⟩
    · rintro ⟨t, hmalloc, rfl⟩
      exact bind_run_ok hmalloc

section Sizes

variable (hD : mallocInit = some D) {size : ℕ} (hsize : size < 2 ^ 32)
include hD

theorem malloc_wrap (hwrap : 2 ^ 32 ≤ size + ARENA_SIZE + PGSIZE - 1) (scan : Option ℕ) :
    (malloc size scan : MallocM D (Option ℕ)) = mallocBig size scan := by
  rw [mallocInit_eq] at hD
  cases hD
  have hle : ∀ d ∈ descs, d.blockSize ≤ 1024 := by decide
  have hnone : descs.findFinIdx? (fun d => size ≤ d.blockSize) = none := by
    refine List.findFinIdx?_eq_none_iff.mpr fun d hd h => ?_
    have := hle d hd
    have := of_decide_eq_true h
    unfold ARENA_SIZE PGSIZE at hwrap
    omega
  unfold malloc
  rw [if_neg (by unfold ARENA_SIZE PGSIZE at hwrap; omega), hnone]

include hsize

/-- If the pages cannot be computed, there are none, except for the last 11 sizes. -/
theorem mallocChecks (hfit : size + 11 < 2 ^ 32) : MallocChecks D size := by
  intro s scan p h hreach hrun
  have hT := table_of_mallocInit hD
  by_cases hwrap : size + ARENA_SIZE + PGSIZE - 1 < 2 ^ 32
  · obtain ⟨-, hok⟩ : Allocated s.heap s.live size (some p) h :=
      (malloc_ends hT (ok_of_reach hT hreach) hwrap scan).of_ok hrun
    exact ⟨hwrap, (Ok.isBlock (s := ⟨h, _⟩) hok (update_self ..)).2⟩
  · have hzero : bigPages size = 0 := by rw [bigPages_wrap hsize (not_lt.mp hwrap), if_pos hfit]
    rw [malloc_wrap hD (not_lt.mp hwrap), mallocBig, hzero] at hrun
    cases hrun

/-- On the first heap `malloc` returns a block, if any pages are asked for. -/
theorem malloc_initial (hpos : 0 < size) (hpages : size + ARENA_SIZE + PGSIZE - 1 < 2 ^ 32 ∨ 2 ^ 32 ≤ size + 11) :
    ∃ p h, malloc size (some 1) (initial : State D).heap = .ok (some p, h) := by
  have hT := table_of_mallocInit hD
  have hbig : ∃ p h, mallocBig size (some 1) (initial : State D).heap = .ok (some p, h) := by
    have hcnt : bigPages size ≠ 0 ∧ bigPages size < 2 ^ 20 := by
      unfold bigPages ARENA_SIZE PGSIZE at *
      omega
    exact ⟨_, _, bind_run_ok (pallocGetMultiple_run hcnt.1 (fresh_initial hcnt.2))⟩
  obtain hfit | hlast := hpages
  · obtain ⟨r, h, hrun, -⟩ := (malloc_ends hT ok_initial hfit (some 1)).returns
    have hsome : Ends (fun _ => True) (malloc size (some 1)) (initial : State D).heap fun r _ => r ≠ none := by
      unfold malloc
      rw [if_neg hpos.ne']
      split
      · obtain ⟨p, h, hbig⟩ := hbig
        exact .run hbig nofun
      · refine .get_bind ?_
        refine .run_bind (pallocGetMultiple_run Nat.one_ne_zero (fresh_initial (by omega))) ?_
        refine .bind (Ends.trivial fun _ => trivial) fun _ _ _ => ?_
        exact .bind (Ends.trivial fun _ => trivial) fun _ _ _ => .pure nofun
    obtain ⟨p, rfl⟩ := Option.ne_none_iff_exists'.mp (hsome.of_ok hrun)
    exact ⟨p, h, hrun⟩
  · rwa [malloc_wrap hD (by unfold ARENA_SIZE PGSIZE; omega)]

theorem mallocChecks_iff : MallocChecks D size ↔ size + 11 < 2 ^ 32 := by
  refine ⟨fun hchecks => ?_, mallocChecks hD hsize⟩
  by_contra hlast
  obtain ⟨p, h, hrun⟩ := malloc_initial hD hsize (by omega) (.inr (not_lt.mp hlast))
  have := (hchecks initial (some 1) p h (.init rfl) hrun).1
  unfold ARENA_SIZE PGSIZE at this
  omega

omit hsize

/-- The products that `calloc` tells from their remainders, and those whose remainders `malloc`
refuses. -/
theorem callocChecks_iff {a b : ℕ} : CallocChecks D a b ↔ a * b % 2 ^ 32 < a ∨ a * b % 2 ^ 32 < b ∨
    a * b % 2 ^ 32 + 11 < 2 ^ 32 ∧ (a * b < 2 ^ 32 ∨ 2 ^ 32 ≤ a * b % 2 ^ 32 + ARENA_SIZE + PGSIZE - 1) := by
  have hw : a * b % 2 ^ 32 < 2 ^ 32 := Nat.mod_lt _ (by decide)
  constructor
  · intro hchecks
    by_contra hnot
    have hpos : 0 < a * b % 2 ^ 32 := by
      by_contra hzero
      have ha : a = 0 := by omega
      rw [ha, Nat.zero_mul] at hnot
      omega
    obtain ⟨p, h, hrun⟩ := malloc_initial hD hw hpos (by omega)
    have hfit := (hchecks initial (some 1) (fun _ => 0) (fun _ => 0) p _ (.init rfl) (calloc_some_iff.mpr
      ⟨by omega, _, congrArg (Except.map _) hrun, rfl⟩)).1
    unfold ARENA_SIZE PGSIZE at hfit
    omega
  · intro hcond s scan junk bytes p m hreach hrun
    obtain ⟨hle, t, hmalloc, rfl⟩ := calloc_some_iff.mp hrun
    obtain ⟨hfit, hroom⟩ := mallocChecks hD hw (by omega) s scan p t.heap hreach (mallocOn_some hmalloc)
    have hexact : a * b % 2 ^ 32 = a * b := Nat.mod_eq_of_lt (by omega)
    rw [hexact] at hfit hroom ⊢
    exact ⟨hfit, hroom, fun i hi => fill_of_mem (by omega) (by omega)⟩

end Sizes

/-- **Which sizes are checked.** `malloc` misses the last 11 sizes, for which it computes one page.
`calloc` misses a product that does not fit if its remainder is at least the factors, unless
`malloc` refuses the remainder. -/
theorem sizes_checked_iff {D : List Desc} (hD : mallocInit = some D) {size : ℕ} (hsize : size < 2 ^ 32) (a b : ℕ) :
    (MallocChecks D size ↔ size + 11 < 2 ^ 32) ∧
      (CallocChecks D a b ↔ a * b % 2 ^ 32 < a ∨ a * b % 2 ^ 32 < b ∨
        a * b % 2 ^ 32 + 11 < 2 ^ 32 ∧ (a * b < 2 ^ 32 ∨ 2 ^ 32 ≤ a * b % 2 ^ 32 + ARENA_SIZE + PGSIZE - 1)) :=
  ⟨mallocChecks_iff hD hsize, callocChecks_iff hD⟩

/-- A size that is a page less than 4 GB is refused, and so is a product with remainder 65536. -/
theorem sizes_checked_iff_refused : MallocChecks descs (2 ^ 32 - PGSIZE) ∧ CallocChecks descs 65536 65537 := by
  have hsize : 2 ^ 32 - PGSIZE < 2 ^ 32 := by decide
  have hchecked := sizes_checked_iff mallocInit_eq hsize 65536 65537
  exact ⟨hchecked.1.mpr (by decide), hchecked.2.mpr (by decide)⟩

/-- On the first heap the last size gets a block of one page, and a product with remainder 131073
one of 33 pages. -/
theorem sizes_not_checked : ¬MallocChecks descs (2 ^ 32 - 1) ∧ ¬CallocChecks descs 65537 65537 := by
  constructor
  · intro hchecks
    exact absurd (hchecks initial (some 1) 4108 _ (.init rfl) rfl).1 (by decide)
  · intro hchecks
    exact absurd (hchecks initial (some 1) (fun _ => 0) (fun _ => 0) 4108 _ (.init rfl) rfl).1 (by decide)

/-! ### `realloc` -/

/-- What `realloc` of block `old` does. When it returns nothing, all blocks are live and have the
contents they had. Otherwise the new block has the first bytes of the old one, which is not live any
more, and the others are as they were. -/
def Realloced (s : State D) (old size newSize : ℕ) (bytes : Bytes) (s' : State D) (bytes' : Bytes) : Option ℕ → Prop
  | none => s'.live = s.live ∧ Keeps s.live bytes bytes'
  | some new => s.live new = none ∧ s'.live = update (update s.live new (some newSize)) old none ∧
    (∀ i < min size newSize, bytes' (new + i) = bytes (old + i)) ∧ Keeps (update s.live old none) bytes bytes'

/-- **`realloc` keeps the contents.** In every run, for every live block and every size whose pages
can be computed, it returns, and what it does is a `malloc` and a `free` of the runs. -/
theorem realloc_keeps {D : List Desc} (hD : mallocInit = some D) {s : State D} (hreach : (system D).Reach s)
    {old size newSize : ℕ} (hold : s.live old = some size) (hpos : 0 < newSize)
    (hfit : newSize + ARENA_SIZE + PGSIZE - 1 < 2 ^ 32) (scan : Option ℕ) (junk junk' bytes : Bytes) :
    ∃ (r : Option ℕ) (s' : State D) (bytes' : Bytes),
      realloc old newSize scan junk junk' ⟨s.heap, bytes⟩ = .ok (r, ⟨s'.heap, bytes'⟩) ∧ (system D).Reach s' ∧
        Realloced s old size newSize bytes s' bytes' r := by
  have hT := table_of_mallocInit hD
  have hok := ok_of_reach hT hreach
  have hold0 : old ≠ 0 := by
    rintro rfl
    exact Option.some_ne_none size (hold.symm.trans hok.live_zero)
  obtain ⟨r, s₁, bytes₁, hmalloc, hstep₁, hok₁, hkeep₁, hnone, hsome⟩ := hok.mallocOn_run hT hfit scan junk bytes
  have hreach₁ : (system D).Reach s₁ := hreach.step (a := .malloc newSize scan) hstep₁
  unfold realloc
  rw [if_neg hpos.ne', bind_run_ok hmalloc]
  cases r with
  | none => exact ⟨none, s₁, bytes₁, rfl, hreach₁, hnone rfl, hkeep₁⟩
  | some new =>
    obtain ⟨hnew, hlive₁⟩ := hsome new rfl
    have hne : old ≠ new := by
      rintro rfl
      exact Option.some_ne_none size (hold.symm.trans hnew)
    have hnew₁ : s₁.live new = some newSize := by rw [hlive₁, update_self]
    have hkept₁ : ∀ {b n}, s.live b = some n → b ≠ new ∧ s₁.live b = some n := by
      intro b n hb
      have hbn : b ≠ new := by
        rintro rfl
        exact Option.some_ne_none n (hb.symm.trans hnew)
      rw [hlive₁, update_of_ne hbn]
      exact ⟨hbn, hb⟩
    obtain ⟨-, hold₁⟩ := hkept₁ hold
    obtain ⟨-, hsize⟩ := hok₁.isBlock hold₁
    obtain ⟨-, hroom⟩ := hok₁.isBlock hnew₁
    -- the first bytes are copied, and the block is freed
    generalize hmin : (if newSize < s₁.heap.room old then newSize else s₁.heap.room old) = k
    have hk : k ≤ newSize ∧ min size newSize ≤ k := by
      split at hmin <;> omega
    obtain ⟨s₂, bytes₂, hfree, hstep₂, hlive₂, hkeep₂⟩ := hok₁.freeOn_run hT (p := old) (by rw [hold₁]; nofun) junk'
      (copy bytes₁ new bytes₁ old k)
    have hkept₂ : ∀ {b n}, b ≠ old → s₁.live b = some n → s₂.live b = some n := by
      intro b n hb hn
      rwa [hlive₂, update_of_ne hb]
    have hsize_run : onHeap (blockSize old) ⟨s₁.heap, bytes₁⟩ = .ok (s₁.heap.room old, ⟨s₁.heap, bytes₁⟩) :=
      congrArg (Except.map _) (hok₁.blockSize_run hT hold₁)
    refine ⟨some new, s₂, bytes₂, ?_, hreach₁.step (a := .free old) hstep₂, hnew, by rw [hlive₂, hlive₁],
      fun i hi => ?_, fun b n hb i hi => ?_⟩
    · dsimp only
      rw [if_pos hold0, bind_run_ok hsize_run, hmin]
      show (freeOn old junk' >>= fun _ => pure (some new) : Program (Mem D) Panic (Option ℕ)) _ = _
      exact bind_run_ok hfree
    · rw [hkeep₂ new newSize (hkept₂ hne.symm hnew₁) i (by omega), copy_of_mem (by omega) (by omega),
        Nat.add_sub_cancel_left]
      exact hkeep₁ old size hold i (by omega)
    · obtain ⟨-, ⟨⟩⟩ | ⟨hbo, hb⟩ := update_cases hb
      obtain ⟨hbn, hb₁⟩ := hkept₁ hb
      have hout := hok₁.outside hT hb₁ hi hnew₁ hbn
      rw [hkeep₂ b n (hkept₂ hbo hb₁) i hi, copy_of_notMem (by omega)]
      exact hkeep₁ b n hb i hi

/-- A block of 1000 bytes is moved to pages of its own. -/
theorem realloc_keeps_grown : ∃ s : State descs, (system descs).Reach s ∧ s.live 4108 = some 1000 ∧
    ∃ (s' : State descs) (bytes' : Bytes), realloc 4108 5000 (some 3) (fun _ => 0) (fun _ => 0) ⟨s.heap, Nat.toUInt8⟩ =
      .ok (some 12300, ⟨s'.heap, bytes'⟩) ∧ s'.live 4108 = none ∧ s'.live 12300 = some 5000 ∧
      ∀ i < 1000, bytes' (12300 + i) = (4108 + i).toUInt8 := by
  obtain ⟨s, hrun, hold, hmoved⟩ : ∃ s : State descs, (system descs).replay initial [.malloc 1000 (some 1)] = .next s ∧
      s.live 4108 = some 1000 ∧ (realloc 4108 5000 (some 3) (fun _ => 0) (fun _ => 0) ⟨s.heap, Nat.toUInt8⟩).map Prod.fst =
        .ok (some 12300) :=
    ⟨_, rfl, rfl, rfl⟩
  have hreach : (system descs).Reach s := System.Reach.replay (.init rfl) hrun
  obtain ⟨r, s', bytes', hrealloc, -, hr⟩ :=
    realloc_keeps mallocInit_eq hreach hold (by decide : 0 < 5000) (by decide) (some 3) (fun _ => 0)
      (fun _ => 0) Nat.toUInt8
  rw [hrealloc] at hmoved
  obtain rfl : r = some 12300 := Except.ok.inj hmoved
  obtain ⟨-, hlive, hbytes, -⟩ := hr
  refine ⟨s, hreach, hold, s', bytes', hrealloc, ?_, ?_, hbytes⟩
  · rw [hlive, update_self]
  · rw [hlive, update_of_ne (by decide), update_self]

end Pintos.Threads.Malloc
