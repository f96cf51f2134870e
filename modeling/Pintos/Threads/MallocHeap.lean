import Pintos.Basis.Enumerates
import Pintos.Basis.Transition
import Pintos.Threads.Malloc

/-!
# The heap

What holds of the heap between the calls of `malloc` and `free`, and that the changes
the calls make to it keep that.

The invariant `Inv` is about `live`, the blocks that were handed out with the sizes
that were asked for. It has a part about pages (`Pages`: the arenas do not overlap),
a part about one page at a time (`PageOk`), and one about the free lists. A change
touches one page, and **`Inv.update`** says that only this page has to be looked at. In
the middle of a call an arena may have no live block; the pages where that is so are
the parameter `idle`.

From the invariant it follows that two blocks of the heap, live or free, of one arena
or of two, do not overlap (**`Heap.IsBlock.disjoint`**).
-/

namespace Pintos.Threads.Malloc

open Function Program

variable {D : List Desc}

/-! ### Where blocks are -/

section Geometry

variable (hD : Table D) {d : Fin D.length} {p i j : ℕ}
include hD

theorem blockAt_add_le (hi : i < (D.get d).blocksPerArena) :
    blockAt d p i + (D.get d).blockSize ≤ (p + 1) * PGSIZE := by
  have hmul : (i + 1) * (D.get d).blockSize ≤ (D.get d).blocksPerArena * (D.get d).blockSize :=
    Nat.mul_le_mul_right _ hi
  have hroom := hD.room d
  rw [Nat.succ_mul] at hmul
  unfold blockAt
  rw [Nat.succ_mul]
  omega

theorem blockSize_pos : 0 < (D.get d).blockSize := by
  have := hD.node d
  unfold BLOCK_SIZE at this
  omega

theorem pageOf_blockAt (hi : i < (D.get d).blocksPerArena) : pageOf (blockAt d p i) = p := by
  have hend := blockAt_add_le hD (p := p) hi
  have hpos := blockSize_pos hD (d := d)
  apply Nat.div_eq_of_lt_le
  · unfold blockAt
    omega
  · omega

theorem pgOfs_blockAt (hi : i < (D.get d).blocksPerArena) :
    pgOfs (blockAt d p i) = ARENA_SIZE + i * (D.get d).blockSize := by
  have hpage := pageOf_blockAt hD (p := p) hi
  have hmod := Nat.div_add_mod (blockAt d p i) PGSIZE
  unfold pageOf at hpage
  rw [hpage, Nat.mul_comm] at hmod
  unfold pgOfs
  unfold blockAt at hmod ⊢
  omega

theorem blockAt_injective (h : blockAt d p i = blockAt d p j) : i = j := by
  have hmul : i * (D.get d).blockSize = j * (D.get d).blockSize := by
    unfold blockAt at h
    omega
  exact Nat.eq_of_mul_eq_mul_right (blockSize_pos hD) hmul

end Geometry

variable {p : ℕ} {d : Fin D.length} {i : ℕ}

theorem blockAt_add_le_blockAt {j : ℕ} (h : i < j) : blockAt d p i + (D.get d).blockSize ≤ blockAt d p j := by
  have hmul : (i + 1) * (D.get d).blockSize ≤ j * (D.get d).blockSize := Nat.mul_le_mul_right _ h
  rw [Nat.succ_mul] at hmul
  unfold blockAt
  omega

/-- The address of a big block. -/
def bigAt (p : ℕ) : ℕ := p * PGSIZE + ARENA_SIZE

theorem pageOf_bigAt (p : ℕ) : pageOf (bigAt p) = p := by
  unfold pageOf bigAt PGSIZE ARENA_SIZE
  omega

theorem pgOfs_bigAt (p : ℕ) : pgOfs (bigAt p) = ARENA_SIZE := by
  unfold pgOfs bigAt PGSIZE ARENA_SIZE
  omega

/-! ### Pages -/

/-- The pages of an arena. -/
def Arena.pages (a : Arena D) : ℕ :=
  match a.desc with
  | some _ => 1
  | none => a.freeCnt

variable {a : Arena D}

theorem Arena.pages_small (hd : a.desc = some d) : a.pages = 1 := by
  simp only [Arena.pages, hd]

theorem Arena.pages_big (hd : a.desc = none) : a.pages = a.freeCnt := by
  simp only [Arena.pages, hd]

/-- **The arenas are apart**, and the allocator has their pages and no others. -/
structure Pages (arena : ℕ → Option (Arena D)) (used : ℕ → Bool) : Prop where
  /-- A header has its magic number. -/
  magic : ∀ {p a}, arena p = some a → a.magic = ARENA_MAGIC
  /-- No arena is at address 0. -/
  nonzero : ∀ {p a}, arena p = some a → p ≠ 0
  pos : ∀ {p a}, arena p = some a → 0 < a.pages
  /-- An arena ends in memory. -/
  bound : ∀ {p a}, arena p = some a → (p + a.pages) * PGSIZE ≤ 2 ^ 32
  /-- An arena ends before the next one. -/
  apart : ∀ {p q a b}, arena p = some a → arena q = some b → p < q → p + a.pages ≤ q
  used : ∀ q, used q = true ↔ ∃ p a, arena p = some a ∧ p ≤ q ∧ q < p + a.pages

namespace Pages

variable {arena : ℕ → Option (Arena D)} {used : ℕ → Bool} (h : Pages arena used)
include h

theorem used_self (ha : arena p = some a) : used p = true :=
  (h.used p).mpr ⟨p, a, ha, le_rfl, Nat.lt_add_of_pos_right (h.pos ha)⟩

theorem none_of_unused (hp : used p = false) : arena p = none := by
  by_contra hne
  obtain ⟨a, ha⟩ := Option.ne_none_iff_exists'.mp hne
  rw [h.used_self ha] at hp
  cases hp

theorem set {a' : Arena D} (ha : arena p = some a) (hmagic : a'.magic = a.magic)
    (hpages : a'.pages = a.pages) : Pages (update arena p (some a')) used := by
  -- Every arena of the new map has the pages and the magic number of the one of the old map.
  have hold : ∀ {q b}, update arena p (some a') q = some b →
      ∃ b', arena q = some b' ∧ b.pages = b'.pages ∧ b.magic = b'.magic := by
    intro q b hb
    obtain ⟨rfl, ⟨⟩⟩ | ⟨-, hb⟩ := update_cases hb
    exacts [⟨a, ha, hpages, hmagic⟩, ⟨b, hb, rfl, rfl⟩]
  refine ⟨fun hb => ?_, fun hb => ?_, fun hb => ?_, fun hb => ?_, fun hb hc hlt => ?_, fun q => ?_⟩
  · obtain ⟨b', hb', -, hm⟩ := hold hb
    rw [hm, h.magic hb']
  · obtain ⟨b', hb', -⟩ := hold hb
    exact h.nonzero hb'
  · obtain ⟨b', hb', hpg, -⟩ := hold hb
    rw [hpg]
    exact h.pos hb'
  · obtain ⟨b', hb', hpg, -⟩ := hold hb
    rw [hpg]
    exact h.bound hb'
  · obtain ⟨b', hb', hpg, -⟩ := hold hb
    obtain ⟨c', hc', -⟩ := hold hc
    rw [hpg]
    exact h.apart hb' hc' hlt
  · rw [h.used q]
    constructor
    · rintro ⟨r, b, hb, hle, hlt⟩
      obtain rfl | hr := eq_or_ne r p
      · rw [ha] at hb
        cases hb
        exact ⟨r, a', update_self .., hle, hpages ▸ hlt⟩
      · exact ⟨r, b, by rw [update_of_ne hr]; exact hb, hle, hlt⟩
    · rintro ⟨r, b, hb, hle, hlt⟩
      obtain ⟨b', hb', hpg, -⟩ := hold hb
      exact ⟨r, b', hb', hle, hpg ▸ hlt⟩

theorem add (hp : p ≠ 0) (hbound : (p + a.pages) * PGSIZE ≤ 2 ^ 32)
    (hfree : ∀ i < a.pages, used (p + i) = false) (hmagic : a.magic = ARENA_MAGIC) (hpos : 0 < a.pages) :
    Pages (update arena p (some a)) (setUsed used p a.pages true) := by
  -- An arena that was there has no page in common with the new one.
  have hother : ∀ {q b}, arena q = some b → q + b.pages ≤ p ∨ p + a.pages ≤ q := by
    intro q b hb
    by_contra hnot
    have hq := h.pos hb
    -- The first page they share.
    have hshare : used (max p q) = true := (h.used _).mpr ⟨q, b, hb, le_max_right _ _, by omega⟩
    have hnone := hfree (max p q - p) (by omega)
    rw [Nat.add_sub_cancel' (le_max_left _ _), hshare] at hnone
    cases hnone
  refine ⟨fun hb => ?_, fun hb => ?_, fun hb => ?_, fun hb => ?_, fun hb hc hlt => ?_, fun q => ?_⟩
  · obtain ⟨-, ⟨⟩⟩ | ⟨-, hb⟩ := update_cases hb
    exacts [hmagic, h.magic hb]
  · obtain ⟨rfl, -⟩ | ⟨-, hb⟩ := update_cases hb
    exacts [hp, h.nonzero hb]
  · obtain ⟨-, ⟨⟩⟩ | ⟨-, hb⟩ := update_cases hb
    exacts [hpos, h.pos hb]
  · obtain ⟨rfl, ⟨⟩⟩ | ⟨-, hb⟩ := update_cases hb
    exacts [hbound, h.bound hb]
  · obtain ⟨rfl, ⟨⟩⟩ | ⟨hne, hold⟩ := update_cases hb
    · obtain ⟨rfl, -⟩ | ⟨-, hold⟩ := update_cases hc
      · omega
      · have := hother hold
        omega
    · obtain ⟨rfl, ⟨⟩⟩ | ⟨-, hold'⟩ := update_cases hc
      · have := hother hold
        omega
      · exact h.apart hold hold' hlt
  · unfold setUsed
    constructor
    · intro hused
      split at hused
      · rename_i hin
        exact ⟨p, a, update_self .., hin.1, hin.2⟩
      · obtain ⟨r, b, hb, hle, hlt⟩ := (h.used q).mp hused
        have hr : r ≠ p := by
          have := hother hb
          omega
        exact ⟨r, b, by rw [update_of_ne hr]; exact hb, hle, hlt⟩
    · rintro ⟨r, b, hb, hle, hlt⟩
      obtain ⟨rfl, ⟨⟩⟩ | ⟨-, hb⟩ := update_cases hb
      · rw [if_pos ⟨hle, hlt⟩]
      · split
        · rfl
        · exact (h.used q).mpr ⟨r, b, hb, hle, hlt⟩

theorem header_eq {q : ℕ} {b : Arena D} (ha : arena p = some a) (hb : arena q = some b) (hle : p ≤ q)
    (hlt : q < p + a.pages) : q = p := by
  by_contra hne
  have := h.apart ha hb (by omega)
  omega

theorem wipe_eq (ha : arena p = some a) :
    (fun q => if p ≤ q ∧ q < p + a.pages then none else arena q) = update arena p none := by
  funext q
  obtain rfl | hq := eq_or_ne q p
  · rw [update_self, if_pos ⟨le_rfl, Nat.lt_add_of_pos_right (h.pos ha)⟩]
  · rw [update_of_ne hq]
    split
    · rename_i hin
      cases hb : arena q with
      | none => rfl
      | some b => exact absurd (h.header_eq ha hb hin.1 hin.2) hq
    · rfl

theorem remove (ha : arena p = some a) : Pages (update arena p none) (setUsed used p a.pages false) := by
  have hcases : ∀ {q b}, update arena p none q = some b → q ≠ p ∧ arena q = some b := fun hb =>
    (update_cases hb).resolve_left (by simp)
  refine ⟨fun hb => h.magic (hcases hb).2, fun hb => h.nonzero (hcases hb).2, fun hb => h.pos (hcases hb).2,
    fun hb => h.bound (hcases hb).2, fun hb hc => h.apart (hcases hb).2 (hcases hc).2, fun q => ?_⟩
  unfold setUsed
  constructor
  · intro hused
    split at hused
    · cases hused
    · rename_i hout
      obtain ⟨r, b, hb, hle, hlt⟩ := (h.used q).mp hused
      have hr : r ≠ p := by
        rintro rfl
        rw [ha] at hb
        cases hb
        exact hout ⟨hle, hlt⟩
      exact ⟨r, b, by rw [update_of_ne hr]; exact hb, hle, hlt⟩
  · rintro ⟨r, b, hb, hle, hlt⟩
    obtain ⟨hr, hb⟩ := hcases hb
    rw [if_neg, h.used]
    · exact ⟨r, b, hb, hle, hlt⟩
    · -- Two arenas that share a page are one.
      rcases Nat.lt_or_gt_of_ne hr with hrp | hrp
      · have := h.apart hb ha hrp
        omega
      · have := h.apart ha hb hrp
        omega

end Pages

/-! ### The invariant -/

/-- The number of blocks of an arena that are not live. -/
def freeBlocks (live : ℕ → Option ℕ) (d : Fin D.length) (p : ℕ) : ℕ :=
  ((Finset.range (D.get d).blocksPerArena).filter fun i => live (blockAt d p i) = none).card

/-- An arena with blocks of descriptor `d` and `cnt` free ones. -/
structure SmallOk (live : ℕ → Option ℕ) (p : ℕ) (idle : Prop) (d : Fin D.length) (cnt : ℕ) : Prop where
  /-- What is live in its page are blocks, and they have the size that was asked for. -/
  block : ∀ b n, pageOf b = p → live b = some n →
    (∃ i < (D.get d).blocksPerArena, b = blockAt d p i) ∧ n ≤ (D.get d).blockSize
  count : cnt = freeBlocks live d p
  /-- A block is live, except in the middle of a call. -/
  some : ¬idle → ∃ i < (D.get d).blocksPerArena, live (blockAt d p i) ≠ none

/-- An arena with one big block of `cnt` pages. -/
structure BigOk (live : ℕ → Option ℕ) (p : ℕ) (cnt : ℕ) : Prop where
  /-- What is live in its page is the block, and it has the size that was asked for. -/
  block : ∀ b n, pageOf b = p → live b = Option.some n → b = bigAt p ∧ n + ARENA_SIZE ≤ cnt * PGSIZE
  /-- The block is live. -/
  some : live (bigAt p) ≠ none

/-- What holds of a page. -/
def PageOk (live : ℕ → Option ℕ) (p : ℕ) (idle : Prop) (o : Option (Arena D)) : Prop :=
  match o with
  | none => ∀ b, pageOf b = p → live b = none
  | some a =>
    match a.desc with
    | some d => SmallOk live p idle d a.freeCnt
    | none => BigOk live p a.freeCnt

variable {live : ℕ → Option ℕ} {idle : Prop}

theorem pageOk_small (hd : a.desc = some d) : PageOk live p idle (some a) ↔ SmallOk live p idle d a.freeCnt := by
  simp only [PageOk, hd]

theorem pageOk_big (hd : a.desc = none) : PageOk live p idle (some a) ↔ BigOk live p a.freeCnt := by
  simp only [PageOk, hd]

/-- `b` is a block of an arena of descriptor `d`, and is not live. -/
def Free (arena : ℕ → Option (Arena D)) (live : ℕ → Option ℕ) (d : Fin D.length) (b : ℕ) : Prop :=
  (∃ a, arena (pageOf b) = some a ∧ a.desc = some d) ∧
    (∃ i < (D.get d).blocksPerArena, b = blockAt d (pageOf b) i) ∧ live b = none

/-- **What holds of the heap.** The arenas of the pages in `idle` need not have a live block. -/
structure Inv (idle : ℕ → Prop) (h : Heap D) (live : ℕ → Option ℕ) : Prop where
  /-- The arenas are apart. -/
  pages : Pages h.arena h.used
  /-- Every page. -/
  page : ∀ p, PageOk live p (idle p) (h.arena p)
  list : ∀ d, Enumerates (h.freeList d) (Free h.arena live d)

variable {o : Option (Arena D)} {live' : ℕ → Option ℕ}

theorem PageOk.congr (hD : Table D) {idle' : Prop}
    (h : PageOk live p idle o) (hlive : ∀ b, pageOf b = p → live' b = live b) (hidle : idle → idle') :
    PageOk live' p idle' o := by
  cases o with
  | none => exact fun b hb => (hlive b hb).trans (h b hb)
  | some a =>
    unfold PageOk at h ⊢
    dsimp only at h ⊢
    split at h
    · rename_i d _
      have hblock : ∀ i, i < (D.get d).blocksPerArena → live' (blockAt d p i) = live (blockAt d p i) := fun i hi =>
        hlive _ (pageOf_blockAt hD hi)
      refine ⟨fun b n hb hn => h.block b n hb (hlive b hb ▸ hn), h.count.trans ?_, fun hnot => ?_⟩
      · unfold freeBlocks
        congr 1
        refine Finset.filter_congr fun i hi => ?_
        rw [hblock i (Finset.mem_range.mp hi)]
      · obtain ⟨i, hi, hsome⟩ := h.some fun hi => hnot (hidle hi)
        exact ⟨i, hi, by rwa [hblock i hi]⟩
    · exact ⟨fun b n hb hn => h.block b n hb (hlive b hb ▸ hn), by rw [hlive _ (pageOf_bigAt p)]; exact h.some⟩

namespace Inv

variable {idle : ℕ → Prop} {h : Heap D} {live : ℕ → Option ℕ} (hinv : Inv idle h live)
include hinv

/-- **One page changes.** The rest of the invariant is as it was. -/
protected theorem update (hD : Table D) {idle' : ℕ → Prop} {h' : Heap D}
    (harena : h'.arena = update h.arena p o) (hlive : ∀ b, pageOf b ≠ p → live' b = live b)
    (hidle : ∀ q, q ≠ p → idle q → idle' q) (hpages : Pages h'.arena h'.used) (hpage : PageOk live' p (idle' p) o)
    (hlist : ∀ d, Enumerates (h'.freeList d) (Free h'.arena live' d)) : Inv idle' h' live' where
  pages := hpages
  page := by
    rw [harena]
    refine (forall_update_iff _ fun q o => PageOk live' q (idle' q) o).mpr ⟨hpage, fun q hq => ?_⟩
    exact (hinv.page q).congr hD (fun b hb => hlive b (hb ▸ hq)) (hidle q hq)
  list := hlist

variable {b : ℕ}

theorem arena_of_live (hb : live b ≠ none) : ∃ a, h.arena (pageOf b) = some a := by
  cases ha : h.arena (pageOf b) with
  | some a => exact ⟨a, rfl⟩
  | none =>
    have hpage := hinv.page (pageOf b)
    rw [ha] at hpage
    exact absurd (hpage b rfl) hb

theorem small (ha : h.arena p = some a) (hd : a.desc = some d) : SmallOk live p (idle p) d a.freeCnt :=
  (pageOk_small hd).mp (ha ▸ hinv.page p)

theorem big (ha : h.arena p = some a) (hd : a.desc = none) : BigOk live p a.freeCnt :=
  (pageOk_big hd).mp (ha ▸ hinv.page p)

end Inv

variable {arena : ℕ → Option (Arena D)}

theorem free_update (hlive : ∀ b, pageOf b ≠ p → live' b = live b) (hb : pageOf b ≠ p) :
    Free (update arena p o) live' d b ↔ Free arena live d b := by
  unfold Free
  rw [update_of_ne hb, hlive b hb]

theorem free_iff {e : Fin D.length} (ha : arena p = some a) (hd : a.desc = some d) (hb : pageOf b = p) :
    Free arena live e b ↔ e = d ∧ (∃ i < (D.get d).blocksPerArena, b = blockAt d p i) ∧ live b = none := by
  unfold Free
  rw [hb]
  constructor
  · rintro ⟨⟨a', ha', he⟩, hblock, hnone⟩
    rw [ha] at ha'
    cases ha'
    rw [hd] at he
    cases he
    exact ⟨rfl, hblock, hnone⟩
  · rintro ⟨rfl, hblock, hnone⟩
    exact ⟨⟨a, ha, hd⟩, hblock, hnone⟩

theorem not_free {e : Fin D.length}
    (hnone : ∀ a, arena p = some a → a.desc = none) (hb : pageOf b = p) : ¬Free arena live e b := by
  rintro ⟨⟨a, ha, he⟩, -⟩
  rw [hb] at ha
  rw [hnone a ha] at he
  cases he

theorem freeBlocks_update (hD : Table D) (hi : i < (D.get d).blocksPerArena) (v : Option ℕ) :
    freeBlocks (update live (blockAt d p i) v) d p + (if live (blockAt d p i) = none then 1 else 0) =
      freeBlocks live d p + (if v = none then 1 else 0) := by
  have hmove := card_filter_move (S := Finset.range (D.get d).blocksPerArena)
    (q := fun j => update live (blockAt d p i) v (blockAt d p j) = none) (t := i) (Finset.mem_range.mpr hi)
    fun j _ hj => by rw [update_of_ne fun heq => hj (blockAt_injective hD heq)]
  rwa [update_self] at hmove

/-! ### What the calls do to the heap -/

section Changes

variable (hD : Table D) {idle idle' : ℕ → Prop} {h : Heap D} {live : ℕ → Option ℕ} {d : Fin D.length} {p : ℕ}
  {a : Arena D}
include hD

variable {l : List ℕ}

section

variable (hinv : Inv idle h live)
include hinv

/-- **A block of an arena is taken or given back**: it becomes live with a size, or free, and the
header has the new count. -/
theorem Inv.setBlock (ha : h.arena p = some a) (hd : a.desc = some d)
    (hi : i < (D.get d).blocksPerArena) (hb : b = blockAt d p i) {v : Option ℕ}
    (hsize : ∀ n, v = some n → n ≤ (D.get d).blockSize) {cnt : ℕ}
    (hcnt : cnt + (if live b = none then 1 else 0) = a.freeCnt + (if v = none then 1 else 0))
    (hl : Enumerates l fun x => if x = b then v = none else x ∈ h.freeList d)
    (hidle : ∀ q, q ≠ p → idle q → idle' q)
    (hsome : ¬idle' p → ∃ j < (D.get d).blocksPerArena, update live b v (blockAt d p j) ≠ none) :
    Inv idle' ⟨update h.arena p (some { a with freeCnt := cnt }), update h.freeList d l, h.used⟩
      (update live b v) := by
  subst hb
  have hpage : pageOf (blockAt d p i) = p := pageOf_blockAt hD hi
  have hlive : ∀ b, pageOf b ≠ p → update live (blockAt d p i) v b = live b := fun b hb =>
    update_of_ne (fun heq : b = _ => hb (by rw [heq, hpage])) _ _
  have hold := hinv.small ha hd
  have hnew : update h.arena p (some { a with freeCnt := cnt }) p = some { a with freeCnt := cnt } :=
    update_self ..
  refine hinv.update hD rfl hlive hidle (hinv.pages.set ha rfl ?_)
    ((pageOk_small (a := { a with freeCnt := cnt }) hd).mpr ?_) fun e => ?_
  · simp [Arena.pages, hd]
  · refine ⟨fun b n hb hn => ?_, ?_, hsome⟩
    · by_cases hbi : b = blockAt d p i
      · subst hbi
        rw [update_self] at hn
        exact ⟨⟨i, hi, rfl⟩, hsize n hn⟩
      · rw [update_of_ne hbi] at hn
        exact hold.block b n hb hn
    · have hfree : freeBlocks (update live (blockAt d p i) v) d p + _ = freeBlocks live d p + _ :=
        freeBlocks_update hD hi v
      have hcount := hold.count
      dsimp only
      omega
  -- The other lists, and the other pages of this one, are as they were.
  · obtain rfl | he := eq_or_ne e d
    · dsimp only
      rw [update_self]
      refine hl.congr fun b => ?_
      by_cases hb : pageOf b = p
      · rw [free_iff hnew hd hb, (hinv.list e).mem_iff, free_iff ha hd hb]
        by_cases hbi : b = blockAt e p i
        · subst hbi
          simpa using fun _ => ⟨i, hi, rfl⟩
        · simp [hbi]
      · rw [free_update hlive hb, if_neg fun heq : b = _ => hb (by rw [heq, hpage]), (hinv.list e).mem_iff]
    · dsimp only
      rw [update_of_ne he]
      refine (hinv.list e).congr fun b => ?_
      by_cases hb : pageOf b = p
      · rw [free_iff hnew hd hb, free_iff ha hd hb]
        simp [he]
      · rw [free_update hlive hb]

/-- **A new arena**: all of its blocks are on the free list. -/
theorem Inv.addArena (hfresh : h.fresh p 1)
    (hl : Enumerates l fun b => b ∈ h.freeList d ∨ ∃ i < (D.get d).blocksPerArena, b = blockAt d p i) :
    Inv (fun q => idle q ∨ q = p) ⟨update h.arena p (some ⟨ARENA_MAGIC, some d, (D.get d).blocksPerArena⟩),
      update h.freeList d l, setUsed h.used p 1 true⟩ live := by
  obtain ⟨hp, hbound, hunused⟩ := hfresh
  have hnone : h.arena p = none := hinv.pages.none_of_unused (hunused 0 Nat.one_pos)
  have hold : ∀ a, h.arena p = some a → a.desc = none := by
    rw [hnone]
    nofun
  have hdead : ∀ b, pageOf b = p → live b = none := by
    have hpage := hinv.page p
    rw [hnone] at hpage
    exact hpage
  have hpages := hinv.pages.add (a := ⟨ARENA_MAGIC, some d, (D.get d).blocksPerArena⟩) hp hbound hunused rfl Nat.one_pos
  have hnew : update h.arena p (some ⟨ARENA_MAGIC, some d, (D.get d).blocksPerArena⟩) p =
      some ⟨ARENA_MAGIC, some d, (D.get d).blocksPerArena⟩ := update_self ..
  refine hinv.update hD rfl (fun _ _ => rfl) (fun q _ hq => .inl hq) hpages ((pageOk_small rfl).mpr ?_) fun e => ?_
  · refine ⟨fun b n hb hn => ?_, ?_, fun hnot => absurd (.inr rfl) hnot⟩
    · rw [hdead b hb] at hn
      cases hn
    · unfold freeBlocks
      rw [Finset.filter_true_of_mem fun i hi => hdead _ (pageOf_blockAt hD (Finset.mem_range.mp hi)), Finset.card_range]
  · obtain rfl | he := eq_or_ne e d
    · dsimp only
      rw [update_self]
      refine hl.congr fun b => ?_
      rw [(hinv.list e).mem_iff]
      by_cases hb : pageOf b = p
      · rw [free_iff hnew rfl hb]
        simp [not_free hold hb, hdead b hb]
      · rw [free_update (fun _ _ => rfl) hb]
        refine or_iff_left ?_
        rintro ⟨i, hi, rfl⟩
        exact hb (pageOf_blockAt hD hi)
    · dsimp only
      rw [update_of_ne he]
      refine (hinv.list e).congr fun b => ?_
      by_cases hb : pageOf b = p
      · rw [free_iff hnew rfl hb]
        simp [not_free hold hb, he]
      · rw [free_update (fun _ _ => rfl) hb]

/-- **An arena without live blocks is given back**: none of its blocks is on the free list any
more. -/
theorem Inv.dropArena (ha : h.arena p = some a) (hd : a.desc = some d)
    (hidle : ∀ q, q ≠ p → idle q → idle' q) (hdead : ∀ i < (D.get d).blocksPerArena, live (blockAt d p i) = none)
    (hl : Enumerates l fun b => b ∈ h.freeList d ∧ ∀ i < (D.get d).blocksPerArena, b ≠ blockAt d p i) :
    Inv idle' ⟨update h.arena p none, update h.freeList d l, setUsed h.used p 1 false⟩ live := by
  have hpages := hinv.pages.remove ha
  have hone : a.pages = 1 := Arena.pages_small hd
  rw [hone] at hpages
  have hnew : ∀ a, update h.arena p none p = some a → a.desc = none := by
    rw [update_self]
    nofun
  refine hinv.update hD rfl (fun _ _ => rfl) hidle hpages ?_ fun e => ?_
  · intro b hb
    by_contra hne
    obtain ⟨n, hn⟩ := Option.ne_none_iff_exists'.mp hne
    obtain ⟨⟨i, hi, rfl⟩, -⟩ := (hinv.small ha hd).block b n hb hn
    exact hne (hdead i hi)
  · obtain rfl | he := eq_or_ne e d
    · dsimp only
      rw [update_self]
      refine hl.congr fun b => ?_
      rw [(hinv.list e).mem_iff]
      by_cases hb : pageOf b = p
      · rw [free_iff ha hd hb]
        refine iff_of_false ?_ (not_free hnew hb)
        rintro ⟨⟨-, ⟨i, hi, hbi⟩, -⟩, hnot⟩
        exact hnot i hi hbi
      · rw [free_update (fun _ _ => rfl) hb]
        refine and_iff_left fun i hi heq => hb ?_
        rw [heq, pageOf_blockAt hD hi]
    · dsimp only
      rw [update_of_ne he]
      refine (hinv.list e).congr fun b => ?_
      by_cases hb : pageOf b = p
      · rw [free_iff ha hd hb]
        exact iff_of_false (fun hfree => he hfree.1) (not_free hnew hb)
      · rw [free_update (fun _ _ => rfl) hb]

theorem Inv.setBig (hold : ∀ a, h.arena p = some a → a.desc = none)
    (hnew : ∀ a, o = some a → a.desc = none) {used : ℕ → Bool} {v : Option ℕ}
    (hpages : Pages (update h.arena p o) used) (hpage : PageOk (update live (bigAt p) v) p (idle p) o) :
    Inv idle ⟨update h.arena p o, h.freeList, used⟩ (update live (bigAt p) v) := by
  have hlive : ∀ b, pageOf b ≠ p → update live (bigAt p) v b = live b := fun b hb =>
    update_of_ne (fun heq : b = _ => hb (by rw [heq, pageOf_bigAt])) _ _
  have hnew' : ∀ a, update h.arena p o p = some a → a.desc = none := by
    rw [update_self]
    exact hnew
  refine hinv.update hD rfl hlive (fun q _ hq => hq) hpages hpage fun e => (hinv.list e).congr fun b => ?_
  by_cases hb : pageOf b = p
  · exact iff_of_false (not_free hold hb) (not_free hnew' hb)
  · rw [free_update hlive hb]

end

end Changes

/-! ### Blocks do not overlap -/

/-- `b` is the address of a block of an arena. -/
def Heap.IsBlock (h : Heap D) (b : ℕ) : Prop :=
  ∃ a, h.arena (pageOf b) = some a ∧
    match a.desc with
    | some d => ∃ i < (D.get d).blocksPerArena, b = blockAt d (pageOf b) i
    | none => b = bigAt (pageOf b)

/-- The bytes of a block. -/
def Heap.room (h : Heap D) (b : ℕ) : ℕ :=
  match h.arena (pageOf b) with
  | some a =>
    match a.desc with
    | some d => (D.get d).blockSize
    | none => a.freeCnt * PGSIZE - ARENA_SIZE
  | none => 0

section Rooms

variable {h : Heap D} {b b' : ℕ}

theorem Heap.room_small (ha : h.arena (pageOf b) = some a) (hd : a.desc = some d) : h.room b = (D.get d).blockSize := by
  simp only [Heap.room, ha, hd]

theorem Heap.room_big (ha : h.arena (pageOf b) = some a) (hd : a.desc = none) :
    h.room b = a.freeCnt * PGSIZE - ARENA_SIZE := by
  simp only [Heap.room, ha, hd]

section

variable (hD : Table D) (hpages : Pages h.arena h.used) (hb : h.IsBlock b)
include hD hpages hb

theorem Heap.IsBlock.inside :
    ∃ a, h.arena (pageOf b) = some a ∧ pageOf b * PGSIZE + ARENA_SIZE ≤ b ∧
      b + h.room b ≤ (pageOf b + a.pages) * PGSIZE := by
  obtain ⟨a, ha, hblock⟩ := hb
  have hpos := hpages.pos ha
  refine ⟨a, ha, ?_⟩
  cases hd : a.desc with
  | some d =>
    rw [hd] at hblock
    obtain ⟨i, hi, hbi⟩ := hblock
    have hend := blockAt_add_le hD (p := pageOf b) hi
    rw [← hbi] at hend
    rw [Heap.room_small ha hd, Arena.pages_small hd]
    refine ⟨?_, hend⟩
    conv_rhs => rw [hbi]
    unfold blockAt
    omega
  | none =>
    rw [hd] at hblock
    rw [Heap.room_big ha hd]
    rw [Arena.pages_big hd] at hpos ⊢
    unfold bigAt at hblock
    have hmul : PGSIZE ≤ a.freeCnt * PGSIZE := Nat.le_mul_of_pos_left _ hpos
    have hsmall : ARENA_SIZE ≤ PGSIZE := by decide
    rw [Nat.add_mul]
    omega

theorem Heap.IsBlock.before (hb' : h.IsBlock b')
    (hlt : pageOf b < pageOf b') : b + h.room b ≤ b' := by
  obtain ⟨a, ha, -, hend⟩ := hb.inside hD hpages
  obtain ⟨a', ha', hstart, -⟩ := hb'.inside hD hpages
  have hmul := Nat.mul_le_mul_right PGSIZE (hpages.apart ha ha' hlt)
  omega

/-- **Two blocks do not overlap.** -/
theorem Heap.IsBlock.disjoint (hb' : h.IsBlock b')
    (hne : b ≠ b') : b + h.room b ≤ b' ∨ b' + h.room b' ≤ b := by
  rcases Nat.lt_trichotomy (pageOf b) (pageOf b') with hlt | heq | hgt
  · exact .inl (hb.before hD hpages hb' hlt)
  · obtain ⟨a, ha, hblock⟩ := hb
    obtain ⟨a', ha', hblock'⟩ := hb'
    have hsame : a' = a := by
      rw [← heq, ha] at ha'
      exact (Option.some.inj ha').symm
    subst hsame
    cases hd : a'.desc with
    | none =>
      rw [hd] at hblock hblock'
      exact absurd (by rw [hblock, hblock', heq]) hne
    | some d =>
      rw [hd] at hblock hblock'
      obtain ⟨i, hi, hbi⟩ := hblock
      obtain ⟨j, hj, hbj⟩ := hblock'
      rw [Heap.room_small ha hd, Heap.room_small ha' hd]
      rcases Nat.lt_trichotomy i j with hij | hij | hij
      · have hle := blockAt_add_le_blockAt (d := d) (p := pageOf b) hij
        rw [← hbi, heq, ← hbj] at hle
        exact .inl hle
      · exact absurd (by rw [hbi, hbj, hij, heq]) hne
      · have hle := blockAt_add_le_blockAt (d := d) (p := pageOf b') hij
        rw [← hbj, ← heq, ← hbi] at hle
        exact .inr hle
  · exact .inr (hb'.before hD hpages hb hgt)

end

end Rooms

end Pintos.Threads.Malloc
