import Pintos.Userprog.Load

/-!
# The arithmetic of a segment

What `load` computes from a program header that `validate_segment` accepts, and the loop of
`load_segment` with it (`userprog/process.c`). All fields of the header are chosen by whoever made
the executable, and all arithmetic is that of `uint32_t`.

## The model

`Counters` are the variables of the loop, `advance` is what a round does to them, and `segmentWhile`
is the `while` loop with a bound on its rounds. `Pintos.Userprog.Load` has the loop with a fixed
number of rounds, on natural numbers.

## What is proved

**`validate_segment_exact`**: nothing wraps around, the pages lie in `[PGSIZE, PHYS_BASE)`, no
assertion on what was computed fails, and the loop has one round for each page. The counters of a
round are those of `Left`: the bytes that are left fill the pages that are left.
-/

namespace Pintos.Userprog.Load

open Memory PageTable

/-! ### The loop -/

/-- The variables of the loop of `load_segment`. -/
structure Counters where
  readBytes : BitVec 32
  zeroBytes : BitVec 32
  upage : Addr

namespace Counters

variable (c : Counters)

/-- `read_bytes > 0 || zero_bytes > 0`. -/
def more : Bool := 0#32 < c.readBytes ∨ 0#32 < c.zeroBytes

def pageReadBytes : BitVec 32 := if c.readBytes < 4096#32 then c.readBytes else 4096#32

def pageZeroBytes : BitVec 32 := 4096#32 - c.pageReadBytes

/-- The end of a round. -/
def advance : Counters where
  readBytes := c.readBytes - c.pageReadBytes
  zeroBytes := c.zeroBytes - c.pageZeroBytes
  upage := c.upage + 4096#32

end Counters

/-- The loop of `load_segment`, as the source has it; `none` if it is not over after `fuel`
rounds. -/
def segmentWhile (env : Env) (exe : Executable) (writable : Bool) : (fuel : ℕ) → (c : Counters) → LoadM (Option Bool)
  | 0, _ => return none
  | fuel + 1, c =>
    if c.more then do
      if ← loadPage env exe c.upage c.pageReadBytes.toNat writable then segmentWhile env exe writable fuel c.advance
      else return some false
    else return some true

/-- The counters with which the loop starts. -/
def Phdr.counters (phdr : Phdr) : Counters := ⟨phdr.readBytes, phdr.zeroBytes, phdr.memPage⟩

/-! ### A round -/

/-- `n` pages are left. -/
structure Left (c : Counters) (n : ℕ) : Prop where
  /-- The bytes that are left fill them. -/
  bytes : c.readBytes.toNat + c.zeroBytes.toNat = 4096 * n
  /-- The next page starts at a page boundary. -/
  aligned : c.upage.toNat % 4096 = 0
  /-- The pages are in the user addresses. -/
  user : c.upage.toNat + 4096 * n ≤ PHYS_BASE.toNat

/-- What is true in a round: the subtractions do not go below zero, and the page can be mapped. -/
structure Round (c : Counters) : Prop where
  /-- There is such a round. -/
  more : c.more = true
  read : c.pageReadBytes.toNat ≤ c.readBytes.toNat
  zero : c.pageZeroBytes.toNat ≤ c.zeroBytes.toNat
  /-- The two parts of the page. -/
  page : c.pageReadBytes.toNat + c.pageZeroBytes.toNat = 4096
  ofs : pgOfs c.upage = 0#32
  user : isUserVaddr c.upage = true

variable {c : Counters} {n : ℕ}

theorem Counters.toNat_pageReadBytes (c : Counters) :
    c.pageReadBytes.toNat = if c.readBytes.toNat < 4096 then c.readBytes.toNat else 4096 := by
  unfold pageReadBytes
  rw [apply_ite BitVec.toNat]
  rfl

theorem Counters.toNat_pageZeroBytes (c : Counters) : c.pageZeroBytes.toNat = 4096 - c.pageReadBytes.toNat := by
  have hle : c.pageReadBytes.toNat ≤ 4096 := by
    rw [c.toNat_pageReadBytes]
    split <;> omega
  exact BitVec.toNat_sub_of_le (BitVec.le_def.mpr hle)

theorem Counters.more_iff (c : Counters) : c.more = true ↔ 0 < c.readBytes.toNat + c.zeroBytes.toNat := by
  simp only [more, BitVec.lt_def, decide_eq_true_eq]
  show 0 < _ ∨ 0 < _ ↔ _
  omega

/-- **A round, when there is a page left.** -/
theorem Left.round (h : Left c (n + 1)) : Round c := by
  have hbytes := h.bytes
  have huser : c.upage.toNat + 4096 * (n + 1) ≤ 0xc0000000 := h.user
  have hread := c.toNat_pageReadBytes
  have hzero := c.toNat_pageZeroBytes
  have hle : c.pageReadBytes.toNat ≤ c.readBytes.toNat ∧ c.pageReadBytes.toNat ≤ 4096 := by
    rw [hread]
    split <;> omega
  have hcases : c.pageReadBytes.toNat = c.readBytes.toNat ∨ c.pageReadBytes.toNat = 4096 := by
    rw [hread]
    split <;> omega
  refine ⟨c.more_iff.mpr (by omega), hle.1, by omega, by omega, ?_, isUserVaddr_iff.mpr (by omega)⟩
  apply BitVec.eq_of_toNat_eq
  rw [toNat_pgOfs, h.aligned]
  rfl

theorem Round.toNat_advance (h : Round c) :
    c.advance.readBytes.toNat = c.readBytes.toNat - c.pageReadBytes.toNat ∧
      c.advance.zeroBytes.toNat = c.zeroBytes.toNat - c.pageZeroBytes.toNat :=
  ⟨BitVec.toNat_sub_of_le (BitVec.le_def.mpr h.read), BitVec.toNat_sub_of_le (BitVec.le_def.mpr h.zero)⟩

/-- **After a round there is one page less.** -/
theorem Left.advance (h : Left c (n + 1)) : Left c.advance n ∧ c.advance.upage.toNat = c.upage.toNat + 4096 := by
  have hbytes := h.bytes
  have hround := h.round
  have hpage := hround.page
  have huser : c.upage.toNat + 4096 * (n + 1) ≤ 0xc0000000 := h.user
  obtain ⟨hread, hzero⟩ := hround.toNat_advance
  have hupage : c.advance.upage.toNat = c.upage.toNat + 4096 := toNat_add_ofNat (by omega)
  have hle := hround.read
  have hle' := hround.zero
  have haligned := h.aligned
  refine ⟨⟨by omega, by omega, ?_⟩, hupage⟩
  show _ ≤ 0xc0000000
  omega

theorem Left.over (h : Left c 0) : c.more = false := by
  have hbytes := h.bytes
  rw [Bool.eq_false_iff, ne_eq, c.more_iff]
  omega

/-- **The rounds of the loop**, from the first to the last. -/
theorem Left.iterate (h : Left c n) (k : ℕ) (hk : k ≤ n) :
    Left (Counters.advance^[k] c) (n - k) ∧ (Counters.advance^[k] c).upage.toNat = c.upage.toNat + 4096 * k := by
  induction k with
  | zero =>
    exact ⟨h, rfl⟩
  | succ k ih =>
    obtain ⟨hleft, hupage⟩ := ih (by omega)
    obtain ⟨m, hm⟩ : ∃ m, n - k = m + 1 := ⟨n - k - 1, by omega⟩
    rw [hm] at hleft
    obtain ⟨hnext, hstep⟩ := hleft.advance
    rw [Function.iterate_succ_apply']
    have hsub : n - (k + 1) = m := by omega
    rw [hsub, hstep, hupage, Nat.mul_succ, Nat.add_assoc]
    exact ⟨hnext, rfl⟩

/-- **The loop has as many rounds as there are pages left.** -/
theorem Left.segmentWhile_eq (h : Left c n) (env : Env) (exe : Executable) (writable : Bool) {fuel : ℕ} (hfuel : n < fuel) :
    segmentWhile env exe writable fuel c =
      some <$> segmentLoop env exe writable n c.readBytes.toNat c.zeroBytes.toNat c.upage := by
  induction n generalizing c fuel with
  | zero =>
    obtain _ | fuel := fuel
    · omega
    rw [segmentWhile, h.over, if_neg Bool.false_ne_true, segmentLoop, map_pure]
  | succ n ih =>
    obtain _ | fuel := fuel
    · omega
    have hround := h.round
    obtain ⟨hread, hzero⟩ := hround.toNat_advance
    have hrest := ih h.advance.1 (Nat.lt_of_succ_lt_succ hfuel)
    rw [hread, hzero, c.toNat_pageZeroBytes, c.toNat_pageReadBytes] at hrest
    rw [segmentWhile, hround.more, if_pos rfl, segmentLoop, map_bind, c.toNat_pageReadBytes]
    congr 1
    funext ok
    cases ok with
    | false => rfl
    | true => exact hrest

/-! ### What is computed from a header -/

/-- The computations of `load` do not wrap around: the results are those of the same operations on
natural numbers. -/
structure Exact (phdr : Phdr) : Prop where
  /-- `page_offset + phdr.p_filesz`. -/
  filesz : phdr.pageOffset.toNat + phdr.filesz.toNat < 2 ^ 32
  /-- `page_offset + phdr.p_memsz`, and the addition of `ROUND_UP`. -/
  memsz : phdr.pageOffset.toNat + phdr.memsz.toNat + 4096 < 2 ^ 32
  readBytes : phdr.readBytes.toNat = if 0 < phdr.filesz.toNat then phdr.pageOffset.toNat + phdr.filesz.toNat else 0
  roundUp : (Phdr.roundUp (phdr.pageOffset + phdr.memsz)).toNat =
    (phdr.pageOffset.toNat + phdr.memsz.toNat + 4096 - 1) / 4096 * 4096
  /-- The subtraction of `zero_bytes`. -/
  le : phdr.readBytes.toNat ≤ (Phdr.roundUp (phdr.pageOffset + phdr.memsz)).toNat
  zeroBytes : phdr.zeroBytes.toNat = (Phdr.roundUp (phdr.pageOffset + phdr.memsz)).toNat - phdr.readBytes.toNat

/-- The pages of a segment. -/
structure Pages (phdr : Phdr) (n : ℕ) : Prop where
  /-- There is at least one. -/
  pos : 0 < n
  /-- The bytes fill them, and their number does not wrap around. -/
  bytes : phdr.readBytes.toNat + phdr.zeroBytes.toNat = 4096 * n ∧ (phdr.readBytes + phdr.zeroBytes).toNat = 4096 * n
  /-- The first page is the one of the first address. -/
  first : phdr.memPage.toNat = phdr.vaddr.toNat / 4096 * 4096
  notNull : 4096 ≤ phdr.memPage.toNat
  /-- The last page is in the user addresses. -/
  user : phdr.memPage.toNat + (phdr.readBytes.toNat + phdr.zeroBytes.toNat) ≤ PHYS_BASE.toNat
  ofs : offT phdr.filePage % 4096 = 0
  /-- And it is not negative. -/
  ofs_nonneg : 0 ≤ offT phdr.filePage

section Valid

variable {phdr : Phdr} {fileLength : ℕ} (h : Valid phdr fileLength)
include h

theorem Valid.exact : Exact phdr := by
  have huser : phdr.vaddr.toNat + phdr.memsz.toNat < 0xc0000000 := h.user
  have hsizes := h.sizes
  have hofs : phdr.pageOffset.toNat = phdr.vaddr.toNat % 4096 := toNat_and_PGMASK _
  have hround := h.toNat_roundUp
  have hbytes := h.readBytes_add_zeroBytes
  refine ⟨by omega, by omega, ?_, ?_, by omega, by omega⟩
  · rw [h.toNat_readBytes, hofs]
  · rw [hround, hofs]
    unfold Phdr.pageCnt
    omega

theorem Valid.pages (hlen : fileLength ≤ 2 ^ 31 - 1) : Pages phdr phdr.pageCnt := by
  have hbytes := h.readBytes_add_zeroBytes
  have hend := h.end_le
  have hnull := h.notNull
  have hpos := h.pos
  have hin := h.inFile
  have hfirst := phdr.toNat_memPage
  have hfile := phdr.toNat_filePage
  have hofs : offT phdr.filePage = phdr.filePage.toNat := by
    unfold offT
    rw [BitVec.toInt_eq_toNat_of_lt (by omega)]
  refine ⟨by unfold Phdr.pageCnt; omega, ⟨hbytes, ?_⟩, hfirst, by omega, ?_, by omega, by omega⟩
  · rw [BitVec.toNat_add, hbytes]
    omega
  · show _ ≤ 0xc0000000
    omega

theorem Valid.left : Left phdr.counters phdr.pageCnt where
  bytes := h.readBytes_add_zeroBytes
  aligned := by
    show phdr.memPage.toNat % 4096 = 0
    rw [phdr.toNat_memPage]
    omega
  user := h.end_le

theorem Valid.loadSegment_run (hlen : fileLength ≤ 2 ^ 31 - 1) (env : Env) (exe : Executable) {s : Machine} {pos : ℕ}
    (hfile : s.file = .live pos) :
    loadSegment env exe (offT phdr.filePage) phdr.memPage phdr.readBytes phdr.zeroBytes phdr.writable s =
      segmentLoop env exe phdr.writable phdr.pageCnt phdr.readBytes.toNat phdr.zeroBytes.toNat phdr.memPage
        { s with file := .live phdr.filePage.toNat } := by
  have hpages := h.pages hlen
  have hmod : (phdr.readBytes + phdr.zeroBytes).toNat % 4096 = 0 := by
    rw [hpages.bytes.2]
    omega
  have hmemPage : pgOfs phdr.memPage = 0#32 := by
    rw [pgOfs_eq_zero_iff, hpages.first]
    omega
  have htmod : (offT phdr.filePage).tmod 4096 = 0 := by
    rw [Int.tmod_eq_emod_of_nonneg hpages.ofs_nonneg, hpages.ofs]
  have hpos : (offT phdr.filePage).toNat = phdr.filePage.toNat := by
    have hlt : ¬ 2 ^ 32 ≤ 2 * phdr.filePage.toNat := fun hge => by
      have := BitVec.toInt_neg_iff.mpr hge
      have := hpages.ofs_nonneg
      unfold offT at this
      omega
    rw [offT, BitVec.toInt_eq_toNat_of_lt (by omega)]
    rfl
  have hcnt : (phdr.readBytes.toNat + phdr.zeroBytes.toNat) / 4096 = phdr.pageCnt := by
    rw [hpages.bytes.1]
    omega
  unfold loadSegment fileSeek assert
  rw [if_pos hmod, if_pos hmemPage, if_pos htmod, if_pos hpages.ofs_nonneg, hcnt]
  simp only [pure_bind, bind_assoc, Program.get_bind_run, hfile, hpos]
  rfl

end Valid

/-- **The arithmetic of a segment that `validate_segment` accepts.** Nothing wraps around; the pages
are in `[PGSIZE, PHYS_BASE)`; every round of the loop has what it takes from its counters, and a
page that can be mapped; there are as many rounds as pages. In an open file the assertions of
`load_segment` and of `file_seek` hold, and the loop is the one with that many rounds. -/
theorem validate_segment_exact (phdr : Phdr) (fileLength : ℕ) (hlen : fileLength ≤ 2 ^ 31 - 1)
    (h : validateSegment phdr fileLength = true) :
    Exact phdr ∧ Pages phdr ((phdr.readBytes.toNat + phdr.zeroBytes.toNat) / 4096) ∧
      (∀ k < (phdr.readBytes.toNat + phdr.zeroBytes.toNat) / 4096, Round (Counters.advance^[k] phdr.counters) ∧
        (Counters.advance^[k] phdr.counters).upage.toNat = phdr.memPage.toNat + 4096 * k) ∧
      (Counters.advance^[(phdr.readBytes.toNat + phdr.zeroBytes.toNat) / 4096] phdr.counters).more = false ∧
      ∀ (env : Env) (exe : Executable) (s : Machine) (pos : ℕ), s.file = .live pos →
        ∀ fuel, (phdr.readBytes.toNat + phdr.zeroBytes.toNat) / 4096 < fuel →
          (some <$> loadSegment env exe (offT phdr.filePage) phdr.memPage phdr.readBytes phdr.zeroBytes phdr.writable) s =
            segmentWhile env exe phdr.writable fuel phdr.counters { s with file := .live phdr.filePage.toNat } := by
  have hvalid := validateSegment_eq_true h
  have hpages := hvalid.pages hlen
  have hcnt : (phdr.readBytes.toNat + phdr.zeroBytes.toNat) / 4096 = phdr.pageCnt := by
    rw [hpages.bytes.1]
    omega
  rw [hcnt]
  refine ⟨hvalid.exact, hpages, fun k hk => ?_, ?_, fun env exe s pos hfile fuel hfuel => ?_⟩
  · obtain ⟨hleft, hupage⟩ := hvalid.left.iterate k hk.le
    obtain ⟨m, hm⟩ : ∃ m, phdr.pageCnt - k = m + 1 := ⟨phdr.pageCnt - k - 1, by omega⟩
    rw [hm] at hleft
    exact ⟨hleft.round, hupage⟩
  · have hover := (hvalid.left.iterate phdr.pageCnt le_rfl).1
    rw [Nat.sub_self] at hover
    exact hover.over
  · have hrun := hvalid.loadSegment_run hlen env exe hfile
    rw [hvalid.left.segmentWhile_eq env exe phdr.writable hfuel]
    exact congrArg (· >>= fun r => pure (some r.1, r.2)) hrun

/-- The header of a data segment: 1.5 pages in memory, half a page of them in the file. -/
def dataHeader : Phdr where
  type := PT_LOAD
  offset := 0x1000#32
  vaddr := 0x8049000#32
  filesz := 0x800#32
  memsz := 0x1800#32
  flags := 6#32

theorem validate_segment_exact_data : Pages dataHeader 2 :=
  (validate_segment_exact dataHeader 0x2000 (by decide) (by decide)).2.1

end Pintos.Userprog.Load
