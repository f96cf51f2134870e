import Mathlib.Tactic.Lift
import Pintos.Filesys.Inode

/-!
# A file is a flat array

`inode_read_at` and `inode_write_at` work sector by sector, with a bounce buffer
where a sector is not transferred as a whole. Their callers see a file of `L`
bytes as one array of `L` bytes.

## The abstract file

The contents of a file are a function from `Fin L`. `flatRead` and `flatWrite`
say what access to it is, with no sectors: a call transfers `flatCount` bytes,
those that were asked for and exist.

## The refinement

One passage of a loop is one copy between the caller's buffer and the disk, at
address `512 * start + offset` (`readChunk_eq`, `writeChunk_eq`). Ranges side by
side are one range, so a whole loop is one copy too (`readLoop_eq`,
`writeLoop_eq`), which is what `flatRead` and `flatWrite` do to the contents
(**`inode_flat`**). When no bounce buffer can be allocated the loops end early, at
the first sector that needs one.
-/

namespace Pintos.Filesys

open Memory

/-! ### The abstract file -/

section Flat

variable {L : ℕ}

/-- How many bytes a call transfers. -/
def flatCount (L size offset : ℕ) : ℕ := min size (L - offset)

/-- The buffer after a read. -/
def flatRead (f : Fin L → UInt8) (buffer : Bytes) (size offset : ℕ) : Bytes :=
  fun i => if h : i < flatCount L size offset then f ⟨offset + i, by unfold flatCount at h; omega⟩ else buffer i

/-- The contents with `n` bytes of the buffer from `offset` on. -/
def overwrite (f : Fin L → UInt8) (buffer : Bytes) (offset n : ℕ) : Fin L → UInt8 :=
  fun i => if offset ≤ i ∧ i < offset + n then buffer (i - offset) else f i

/-- The contents after a write. -/
def flatWrite (f : Fin L → UInt8) (buffer : Bytes) (size offset : ℕ) : Fin L → UInt8 :=
  overwrite f buffer offset (flatCount L size offset)

end Flat

/-! ### Where the data are -/

/-- The number of data sectors, `ceil (length / 512)`. -/
def InodeDisk.sectors (data : InodeDisk) : ℕ := (data.length.toNat + 511) / 512

/-- The data sectors of the inode are sectors of the disk. -/
structure Disk.Holds (d : Disk) (data : InodeDisk) : Prop where
  length_nonneg : 0 ≤ data.length
  /-- Every data sector can be accessed. -/
  accessible : ∀ i < data.sectors, d.Accessible (data.start + i)

/-- The contents of the file. -/
def contents (d : Disk) (data : InodeDisk) : Fin data.length.toNat → UInt8 :=
  fun i => d.bytes (512 * data.start + i)

namespace Disk.Holds

variable {d : Disk} {data : InodeDisk} (h : d.Holds data)
include h

theorem accessible_div {pos : ℕ} (hpos : pos < data.length.toNat) : d.Accessible (data.start + pos / 512) := by
  refine h.accessible _ ?_
  unfold InodeDisk.sectors
  omega

theorem byteToSector_eq {pos : ℕ} (hpos : pos < data.length.toNat) :
    byteToSector data pos = data.start + pos / 512 := by
  obtain ⟨-, hlba⟩ := h.accessible_div hpos
  have hlt : (pos : ℤ) < data.length := by omega
  unfold byteToSector
  rw [if_pos hlt, Int.tdiv_eq_ediv_of_nonneg (by omega)]
  omega

theorem congr {d' : Disk} (hcap : d'.capacity = d.capacity) : d'.Holds data :=
  ⟨h.length_nonneg, fun i hi => ⟨by rw [hcap]; exact (h.accessible i hi).1, (h.accessible i hi).2⟩⟩

end Disk.Holds

/-! ### One passage -/

variable {d : Disk} {data : InodeDisk} {offset size : ℕ}

/-- What the head of a loop computes when there is something to transfer: `n` bytes, as many as
asked for, as the file has, or as the sector has. -/
theorem chunk_eq (h : d.Holds data) (hsize : 0 < size) (hoffset : offset < data.length.toNat) :
    ∃ n : ℕ, 0 < n ∧ n ≤ flatCount data.length.toNat size offset ∧ offset % 512 + n ≤ 512 ∧
      (n = flatCount data.length.toNat size offset ∨ offset % 512 + n = 512) ∧
      chunk data size offset =
        ⟨data.start + offset / 512, (offset % 512 : ℕ), (512 - offset % 512 : ℕ), n⟩ := by
  refine ⟨min (flatCount data.length.toNat size offset) (512 - offset % 512), ?_, ?_, ?_, ?_, ?_⟩
  · unfold flatCount; omega
  · omega
  · omega
  · omega
  · have hmod : (offset : ℤ).tmod 512 = (offset % 512 : ℕ) := by
      rw [Int.tmod_eq_emod_of_nonneg (by omega)]; omega
    unfold chunk
    rw [h.byteToSector_eq hoffset, hmod]
    simp only [Chunk.mk.injEq, true_and]
    unfold flatCount
    split_ifs <;> omega

/-- There is nothing to transfer at and after the end. -/
theorem chunk_le_zero (hoffset : data.length.toNat ≤ offset)
    (hsize : 0 < size) : (chunk data size offset).chunkSize ≤ 0 := by
  unfold chunk
  dsimp only
  split_ifs <;> omega

section Passage

variable {d : Disk} {s o n k : ℕ} (mem bounce : Option Bytes) (buffer : Bytes)

/-- A chunk at the start of a sector that is as long as the sector. -/
theorem full_chunk {o n : ℕ} (h : (o : ℤ) = 0 ∧ (n : ℤ) = 512) : o = 0 ∧ n = 512 := by omega

section

variable (hs : d.Accessible s) (hn : o + n ≤ 512)
include hs hn

/-- **One passage of the read loop** copies the chunk, or breaks off for want of a bounce buffer. -/
theorem readChunk_eq :
    (readChunk d mem ⟨s, o, (512 - o : ℕ), n⟩ k (bounce, buffer) = .ok none ∧ mem = none) ∨
      ∃ bounce', readChunk d mem ⟨s, o, (512 - o : ℕ), n⟩ k (bounce, buffer) =
        .ok (some (bounce', copy buffer k d.bytes (512 * s + o) n)) := by
  unfold readChunk
  dsimp only
  split
  · rename_i hfull
    obtain ⟨rfl, rfl⟩ := full_chunk hfull
    refine .inr ⟨bounce, ?_⟩
    rw [diskRead_eq hs]
    rfl
  · cases hb : bounce.or mem with
    | none => exact .inl ⟨rfl, (Option.or_eq_none_iff.mp hb).2⟩
    | some b =>
      refine .inr ⟨some (copy b 0 d.bytes (512 * s) 512), ?_⟩
      have hsrc := copy_copy_src buffer b d.bytes (a := k) (b := 512 * s) (c := 0) hn
      rw [Nat.zero_add] at hsrc
      rw [← hsrc]
      simp only [diskRead_eq hs]
      rfl

/-- The block that goes to a sector is the sector as it was but for the chunk. -/
theorem writeBlock_eq :
    (writeBlock d mem buffer ⟨s, o, (512 - o : ℕ), n⟩ k bounce = .ok none ∧ mem = none) ∨
      ∃ bounce' block, writeBlock d mem buffer ⟨s, o, (512 - o : ℕ), n⟩ k bounce = .ok (some (bounce', block)) ∧
        copy d.bytes (512 * s) block 0 512 = copy d.bytes (512 * s + o) buffer k n := by
  unfold writeBlock
  split
  · rename_i hfull
    obtain ⟨rfl, rfl⟩ := full_chunk hfull
    refine .inr ⟨bounce, _, rfl, ?_⟩
    funext i
    simp [copy]
  · rename_i hpart
    cases hb : bounce.or mem with
    | none => exact .inl ⟨rfl, (Option.or_eq_none_iff.mp hb).2⟩
    | some b =>
      -- A sector that is not transferred as a whole has a rest: it is always read first.
      have hrest : (0 : ℤ) < o ∨ (n : ℤ) < (512 - o : ℕ) := by
        simp only at hpart
        omega
      have hblock := copy_block d.bytes b buffer (a := 512 * s) (b := k) (c := 0) hn
      rw [Nat.zero_add] at hblock
      refine .inr ⟨some (copy (copy b 0 d.bytes (512 * s) 512) o buffer k n), _, ?_, hblock⟩
      simp only [if_pos hrest, diskRead_eq hs]
      rfl

/-- **One passage of the write loop** changes the chunk and nothing else of the disk, or breaks off
for want of a bounce buffer. -/
theorem writeChunk_eq :
    (writeChunk mem buffer ⟨s, o, (512 - o : ℕ), n⟩ k (bounce, d) = .ok none ∧ mem = none) ∨
      ∃ bounce', writeChunk mem buffer ⟨s, o, (512 - o : ℕ), n⟩ k (bounce, d) =
        .ok (some (bounce', { d with bytes := copy d.bytes (512 * s + o) buffer k n })) := by
  unfold writeChunk
  dsimp only
  obtain ⟨hnone, hmem⟩ | ⟨bounce', block, hblock, hcopy⟩ := writeBlock_eq mem bounce buffer (k := k) hs hn
  · rw [hnone]
    exact .inl ⟨rfl, hmem⟩
  · rw [hblock]
    refine .inr ⟨bounce', ?_⟩
    rw [← hcopy]
    simp only [diskWrite_eq hs, bind, Except.bind]
    rfl

end

end Passage

/-! ### The loops -/

/-- A transfer of `n` bytes: all that are asked for and there, unless it breaks off for want of
memory, which it does at the start or between two sectors. -/
structure Moves (data : InodeDisk) (size offset : ℕ) (enough : Prop) (n : ℕ) : Prop where
  le : n ≤ flatCount data.length.toNat size offset
  all : enough → n = flatCount data.length.toNat size offset
  stop : n = 0 ∨ n = flatCount data.length.toNat size offset ∨ (offset + n) % 512 = 0

/-- Nothing is transferred. -/
theorem Moves.zero {enough : Prop} (h : enough → size = 0 ∨ data.length.toNat ≤ offset) :
    Moves data size offset enough 0 := by
  refine ⟨Nat.zero_le _, fun he => ?_, .inl rfl⟩
  have := h he
  unfold flatCount
  omega

/-- **The loop composes its passages.** `moved offset k n s s'` says that `s` becomes `s'` when `n`
bytes are transferred at `offset` of the file and position `k` of the buffer; transfers of ranges
side by side compose. Each passage transfers its chunk, or breaks off because memory ran `short`. -/
theorem transferLoop_eq {σ : Type} (h : d.Holds data)
    (pass : Chunk → ℤ → σ → Except Panic (Option σ)) (short : Prop) (I : σ → Prop)
    (moved : ℕ → ℕ → ℕ → σ → σ → Prop) (hzero : ∀ (offset k : ℕ) (s : σ), moved offset k 0 s s)
    (hadd : ∀ offset k n m s s' s'', moved offset k n s s' → moved (offset + n) (k + n) m s' s'' →
      moved offset k (n + m) s s'')
    (hpass : ∀ (offset k n : ℕ) (s : σ), I s → offset < data.length.toNat → offset % 512 + n ≤ 512 →
      (pass ⟨data.start + offset / 512, (offset % 512 : ℕ), (512 - offset % 512 : ℕ), n⟩ k s = .ok none ∧ short) ∨
        ∃ s', pass ⟨data.start + offset / 512, (offset % 512 : ℕ), (512 - offset % 512 : ℕ), n⟩ k s =
          .ok (some s') ∧ I s' ∧ moved offset k n s s')
    (size : ℕ) : ∀ (offset k : ℕ) (s : σ), I s →
      ∃ n s', Moves data size offset (¬ short) n ∧ moved offset k n s s' ∧
        transferLoop data pass s size offset k = .ok ((k + n : ℕ), s') := by
  induction size using Nat.strongRecOn with
  | ind size ih =>
  intro offset k s hs
  rw [transferLoop]
  obtain rfl | hsize := Nat.eq_zero_or_pos size
  · exact ⟨0, s, .zero fun _ => .inl rfl, hzero .., by simp⟩
  rw [dif_pos (by omega)]
  obtain hoffset | hoffset := Nat.lt_or_ge offset data.length.toNat
  case inr =>
    exact ⟨0, s, .zero fun _ => .inr hoffset, hzero .., by simp [chunk_le_zero hoffset hsize]⟩
  obtain ⟨n, hpos, hle, hn, hend, hc⟩ := chunk_eq h hsize hoffset
  rw [hc, dif_neg (by simp only; omega)]
  obtain ⟨hnone, hshort⟩ | ⟨s', hok, hs', hmoved⟩ := hpass offset k n s hs hoffset hn
  · rw [hnone]
    exact ⟨0, s, .zero fun hne => absurd hshort hne, hzero .., by simp⟩
  · rw [hok]
    unfold flatCount at hle hend
    obtain ⟨m, s'', ⟨hm, hall, hstop⟩, hmoved', hloop⟩ := ih (size - n) (by omega) (offset + n) (k + n) s' hs'
    unfold flatCount at hm hall hstop
    refine ⟨n + m, s'', ⟨by unfold flatCount; omega, fun hne => by rw [hall hne]; unfold flatCount; omega,
      by unfold flatCount; omega⟩, hadd _ _ _ _ _ _ _ hmoved hmoved', ?_⟩
    have hsub : ((size : ℤ) - n) = ((size - n : ℕ) : ℤ) := by omega
    simp only [hsub, ← Int.natCast_add]
    rw [hloop, Nat.add_assoc]

theorem sector_address (start offset : ℕ) : 512 * (start + offset / 512) + offset % 512 = 512 * start + offset := by
  omega

section Calls

variable {d : Disk} {inode : Inode} (h : d.Holds inode.data) (mem : Option Bytes) (buffer : Bytes)
  (size offset : ℕ)
include h

/-- **`inode_read_at` is one copy** from the disk to the buffer. -/
theorem inodeReadAt_eq : ∃ n, Moves inode.data size offset (mem ≠ none) n ∧
    inodeReadAt d inode mem buffer size offset =
      .ok (n, copy buffer 0 d.bytes (512 * inode.data.start + offset) n) := by
  obtain ⟨n, ⟨bounce', buffer'⟩, hn, hmoved, hloop⟩ := transferLoop_eq h
    (readChunk d mem) (mem = none) (fun _ => True)
    (fun offset k n s s' => s'.2 = copy s.2 k d.bytes (512 * inode.data.start + offset) n)
    (fun _ _ _ => (copy_zero ..).symm)
    (fun o k n m s s' s'' h₁ h₂ => by rw [h₂, h₁, ← Nat.add_assoc, copy_copy_add])
    (fun o k n s _ ho hn => by
      obtain ⟨bounce, buf⟩ := s
      obtain hnone | ⟨bounce', hok⟩ := readChunk_eq mem bounce buf (k := k) (h.accessible_div ho) hn
      · exact .inl hnone
      · exact .inr ⟨_, hok, trivial, by rw [sector_address]⟩)
    size offset 0 (none, buffer) trivial
  rw [Nat.zero_add, Int.natCast_zero] at hloop
  refine ⟨n, hn, ?_⟩
  unfold inodeReadAt
  rw [hloop]
  rw [← hmoved]
  rfl

/-- **`inode_write_at` is one copy** from the buffer to the disk. -/
theorem inodeWriteAt_eq (hdeny : inode.denyWriteCnt = 0) : ∃ n, Moves inode.data size offset (mem ≠ none) n ∧
    inodeWriteAt d inode mem buffer size offset =
      .ok (n, { d with bytes := copy d.bytes (512 * inode.data.start + offset) buffer 0 n }) := by
  obtain ⟨n, ⟨bounce', d'⟩, hn, hmoved, hloop⟩ := transferLoop_eq h
    (writeChunk mem buffer) (mem = none) (fun s => s.2.capacity = d.capacity)
    (fun offset k n s s' =>
      s'.2 = { s.2 with bytes := copy s.2.bytes (512 * inode.data.start + offset) buffer k n })
    (fun _ _ _ => by rw [copy_zero])
    (fun o k n m s s' s'' h₁ h₂ => by rw [h₂, h₁, ← Nat.add_assoc]; simp only [copy_copy_add])
    (fun o k n s hs ho hn => by
      obtain ⟨bounce, e⟩ := s
      obtain hnone | ⟨bounce', hok⟩ := writeChunk_eq mem bounce buffer (k := k) ((h.congr hs).accessible_div ho) hn
      · exact .inl hnone
      · exact .inr ⟨_, hok, hs, by rw [sector_address]⟩)
    size offset 0 (none, d) rfl
  rw [Nat.zero_add, Int.natCast_zero] at hloop
  refine ⟨n, hn, ?_⟩
  unfold inodeWriteAt
  rw [if_neg (fun hne => hne hdeny), hloop]
  rw [← hmoved]
  rfl

end Calls

/-! ### Without a bounce buffer -/

section Whole

variable {data : InodeDisk} (buffer : Bytes)

theorem writeChunk_sector {s : ℕ} (hs : d.Accessible s) (mem bounce : Option Bytes) (k : ℤ) :
    writeChunk mem buffer ⟨s, 0, 512, 512⟩ k (bounce, d) =
      .ok (some (bounce, { d with bytes := copy d.bytes (512 * s) (fun i => buffer (k.toNat + i)) 0 512 })) := by
  unfold writeChunk writeBlock
  simp only [and_self, if_true, diskWrite_eq hs, bind, Except.bind, pure, Except.pure]

theorem writeChunk_part {s o n : ℕ} (hpart : ¬ (o = 0 ∧ n = 512)) (k left : ℤ) :
    writeChunk none buffer ⟨s, o, left, n⟩ k (none, d) = .ok none := by
  have hblock : writeBlock d none buffer ⟨s, o, left, n⟩ k none = .ok none := if_neg fun hfull => hpart (full_chunk hfull)
  unfold writeChunk
  dsimp only
  rw [hblock]
  rfl

theorem writeLoop_sectors (mem bounce : Option Bytes) (b : ℕ) : ∀ {d : Disk} (a k : ℕ), d.Holds data →
    512 * (a + b) ≤ data.length.toNat →
      ∃ d', transferLoop data (writeChunk mem buffer) (bounce, d) (512 * b : ℕ) (512 * a : ℕ) k =
        .ok ((k + 512 * b : ℕ), bounce, d') := by
  induction b with
  | zero =>
    intro d a k _ _
    rw [transferLoop, dif_neg (by omega)]
    exact ⟨d, rfl⟩
  | succ b ih =>
    intro d a k h hle
    obtain ⟨n, -, hn, hfit, hend, hc⟩ := chunk_eq h (show 0 < 512 * (b + 1) by omega)
      (show 512 * a < data.length.toNat by omega)
    obtain rfl : n = 512 := by
      unfold flatCount at hn hend
      omega
    have hs : d.Accessible (data.start + 512 * a / 512) := h.accessible_div (by omega)
    rw [Nat.mul_mod_right] at hc
    have hc' : chunk data (512 * (b + 1) : ℕ) (512 * a : ℕ) = ⟨data.start + 512 * a / 512, 0, 512, 512⟩ := hc
    rw [transferLoop, dif_pos (by omega)]
    rw [hc', dif_neg (by simp)]
    simp only [writeChunk_sector buffer hs]
    have hsize : ((512 * (b + 1) : ℕ) : ℤ) - 512 = (512 * b : ℕ) := by omega
    have hoffset : ((512 * a : ℕ) : ℤ) + 512 = (512 * (a + 1) : ℕ) := by omega
    have hdone : (k : ℤ) + 512 = (k + 512 : ℕ) := by omega
    rw [hsize, hoffset, hdone]
    rw [show k + 512 * (b + 1) = k + 512 + 512 * b by omega]
    exact ih (a + 1) (k + 512) (h.congr rfl) (by omega)

theorem writeLoop_no_bounce (h : d.Holds data) (size offset : ℕ) :
    ∃ n s, transferLoop data (writeChunk none buffer) (none, d) size offset 0 = .ok ((n : ℕ), s) ∧ 512 ∣ n ∧
      (n = 0 ∨ 512 ∣ offset) := by
  obtain ⟨n, s, -, hmoved, hloop⟩ := transferLoop_eq h (writeChunk none buffer) True
    (fun s => s.1 = none ∧ s.2.capacity = d.capacity) (fun offset _ n _ _ => 512 ∣ n ∧ (n = 0 ∨ 512 ∣ offset))
    (fun _ _ _ => ⟨Nat.dvd_zero _, .inl rfl⟩)
    (fun o k n m s s' s'' h₁ h₂ => by omega)
    (fun o k n s hs ho hn => by
      obtain ⟨bounce, e⟩ := s
      obtain ⟨rfl, hcap⟩ : bounce = none ∧ e.capacity = d.capacity := hs
      by_cases hfull : o % 512 = 0 ∧ n = 512
      · obtain ⟨h0, rfl⟩ := hfull
        rw [h0]
        exact .inr ⟨_, writeChunk_sector buffer ((h.congr hcap).accessible_div ho) none none k, ⟨rfl, hcap⟩,
          Nat.dvd_refl _, .inr (Nat.dvd_of_mod_eq_zero h0)⟩
      · exact .inl ⟨writeChunk_part buffer hfull _ _, trivial⟩)
    size offset 0 (none, d) ⟨rfl, rfl⟩
  rw [Nat.zero_add] at hloop
  exact ⟨n, s, hloop, hmoved⟩

/-- **All bytes are written** exactly if they are bytes of the file, and there is a bounce buffer or
none is needed. -/
theorem inodeWriteAt_all_iff {inode : Inode} (h : d.Holds inode.data) (hdeny : inode.denyWriteCnt = 0)
    {mem : Option Bytes} (hsize : 0 < size) {r : ℤ × Disk}
    (hwrite : inodeWriteAt d inode mem buffer size offset = .ok r) :
    r.1 = size ↔ offset + size ≤ inode.data.length.toNat ∧ (mem ≠ none ∨ 512 ∣ offset ∧ 512 ∣ size) := by
  obtain ⟨n, ⟨hn, hall, -⟩, heq⟩ := inodeWriteAt_eq h mem buffer size offset hdeny
  obtain rfl := Except.ok.inj (hwrite.symm.trans heq)
  -- what the loop returns is what is returned
  have hloop : ∀ {m : ℕ} {s}, transferLoop inode.data (writeChunk mem buffer) (none, d) size offset 0 = .ok ((m : ℤ), s) →
      n = m := by
    intro m s hloop
    unfold inodeWriteAt at heq
    rw [if_neg (fun hne => hne hdeny), hloop] at heq
    have := congrArg (Except.map Prod.fst) heq
    simp only [bind, Except.bind, pure, Except.pure, Except.map, Except.ok.injEq] at this
    omega
  unfold flatCount at hn hall
  constructor
  · intro heq
    refine ⟨by omega, ?_⟩
    obtain rfl | hmem := eq_or_ne mem none
    · obtain ⟨m, s, hrun, hdvd, hoffset⟩ := writeLoop_no_bounce buffer h size offset
      obtain rfl : m = size := by
        have := hloop hrun
        omega
      exact .inr ⟨hoffset.resolve_left (by omega), hdvd⟩
    · exact .inl hmem
  · rintro ⟨hle, hmem | ⟨⟨a, rfl⟩, ⟨b, rfl⟩⟩⟩
    · have := hall hmem
      omega
    · obtain ⟨d', hrun⟩ := writeLoop_sectors buffer mem none b a 0 h (by omega)
      have := hloop hrun
      omega

end Whole

section Contents

variable (d : Disk) (data : InodeDisk) (buffer : Bytes) (offset : ℕ)

theorem contents_copy (n : ℕ) :
    contents { d with bytes := copy d.bytes (512 * data.start + offset) buffer 0 n } data =
      overwrite (contents d data) buffer offset n := by
  funext i
  unfold contents overwrite
  dsimp only
  split_ifs with hi
  · rw [copy_of_mem (by omega) (by omega)]
    congr 1
    omega
  · exact copy_of_notMem (by omega)

theorem copy_contents (size : ℕ) :
    copy buffer 0 d.bytes (512 * data.start + offset) (flatCount data.length.toNat size offset) =
      flatRead (contents d data) buffer size offset := by
  funext i
  unfold contents flatRead
  split_ifs with hi
  · rw [copy_of_mem (by omega) (by omega), Nat.sub_zero, Nat.add_assoc]
  · exact copy_of_notMem (by omega)

end Contents

/-- The number of bytes transferred, in the integers of the source. -/
theorem flatCount_of_le {L size : ℕ} (h : size ≤ L) : flatCount L size 0 = size := by
  unfold flatCount
  omega

theorem flatCount_cast {length : ℤ} (h : 0 ≤ length) (size offset : ℕ) :
    (flatCount length.toNat size offset : ℤ) = max 0 (min (size : ℤ) (length - offset)) := by
  unfold flatCount
  omega

/-- **Access to a file is access to one flat array.** For every inode whose data lie on the disk,
every offset, size and buffer, with a bounce buffer to be had and writes not denied:
`inode_write_at` returns `max 0 (min size (L - offset))`, changes exactly that many bytes of the
file, from `offset` on, to the first bytes of the buffer, and no other byte of the disk;
`inode_read_at` returns the same count and exactly those bytes of the file. On the contents of the
file they are `flatWrite` and `flatRead`. -/
theorem inode_flat {d : Disk} {inode : Inode} (h : d.Holds inode.data) (hdeny : inode.denyWriteCnt = 0)
    (block buffer : Bytes) (size offset : ℤ) (hsize : 0 ≤ size) (hoffset : 0 ≤ offset) :
    let result := max 0 (min size (inode.data.length - offset))
    let first := 512 * inode.data.start + offset.toNat
    (∃ d', inodeWriteAt d inode (some block) buffer size offset = .ok (result, d') ∧
      d'.capacity = d.capacity ∧
      (∀ i < result.toNat, d'.bytes (first + i) = buffer i) ∧
      (∀ a, a < first ∨ first + result.toNat ≤ a → d'.bytes a = d.bytes a) ∧
      contents d' inode.data = flatWrite (contents d inode.data) buffer size.toNat offset.toNat) ∧
    (∃ buffer', inodeReadAt d inode (some block) buffer size offset = .ok (result, buffer') ∧
      (∀ i < result.toNat, buffer' i = d.bytes (first + i)) ∧
      (∀ i, result.toNat ≤ i → buffer' i = buffer i) ∧
      buffer' = flatRead (contents d inode.data) buffer size.toNat offset.toNat) := by
  lift size to ℕ using hsize
  lift offset to ℕ using hoffset
  intro result first
  have hresult : result = flatCount inode.data.length.toNat size offset :=
    (flatCount_cast h.length_nonneg size offset).symm
  have hcount : result.toNat = flatCount inode.data.length.toNat size offset := by omega
  have hfirst : first = 512 * inode.data.start + offset := by simp [first]
  rw [hcount, hresult, hfirst]
  constructor
  · obtain ⟨n, hn, hwrite⟩ := inodeWriteAt_eq h (some block) buffer size offset hdeny
    rw [hn.all (by simp)] at hwrite
    refine ⟨_, hwrite, rfl, fun i hi => ?_, fun a ha => copy_of_notMem ha, contents_copy ..⟩
    simp only
    rw [copy_of_mem (by omega) (by omega)]
    congr 1
    omega
  · obtain ⟨n, hn, hread⟩ := inodeReadAt_eq h (some block) buffer size offset
    rw [hn.all (by simp)] at hread
    refine ⟨_, hread, fun i hi => ?_, fun i hi => copy_of_notMem (by omega), copy_contents ..⟩
    rw [copy_of_mem (by omega) (by omega), Nat.sub_zero]

/-- A file of 700 bytes in sectors 1 and 2: 400 bytes from byte 500 on are 200 bytes, across the
boundary of the sectors. -/
theorem inode_flat_two_sectors :
    let d : Disk := ⟨3, fun _ => 0⟩
    let inode : Inode := ⟨0, 1, false, ⟨1, 700⟩, 0⟩
    d.Holds inode.data ∧
      ∃ d', inodeWriteAt d inode (some fun _ => 7) (fun i => .ofNat i) 400 500 = .ok (200, d') ∧
        d'.bytes 1011 = 0 ∧ d'.bytes 1012 = 0 ∧ d'.bytes 1013 = 1 ∧ d'.bytes 1211 = 199 ∧ d'.bytes 1212 = 0 := by
  intro d inode
  have h : d.Holds inode.data := by
    refine ⟨by decide, fun i hi => ?_⟩
    have hi' : i < 2 := by simpa [inode, InodeDisk.sectors] using hi
    exact ⟨by simp only [d, inode]; omega, by simp only [inode]; omega⟩
  obtain ⟨⟨d', hwrite, -, hnew, hold, -⟩, -⟩ :=
    inode_flat h rfl (fun _ => 7) (fun i => .ofNat i) 400 500 (by decide) (by decide)
  exact ⟨h, d', hwrite, hold 1011 (.inl (by decide)), hnew 0 (by decide), hnew 1 (by decide),
    hnew 199 (by decide), hold 1212 (.inr (by decide))⟩

end Pintos.Filesys
