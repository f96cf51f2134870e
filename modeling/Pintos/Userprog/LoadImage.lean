import Pintos.Filesys.InodeFlat
import Pintos.Userprog.LoadMemory
import Pintos.Userprog.Segment

/-!
# The image of a program

What `load` puts into the address space of a process (`userprog/process.c`).

## What is proved

Every function of `load` has one specification. Run by a process with its pages (`Process`), it
ends, and the process has its pages again; the page allocator and the file never stop it. If it
succeeds, the address space has more pages: one for a round of the loop of `load_segment`
(`Running.loadPage`), those of a segment (`Running.loadSegment`), those of all segments
(`Running.headerLoop`). None of them was mapped before.

The result is an `Image`: the stack with the arguments, the pages of the segments with the bytes of
the file and zeros, no page twice, and nothing else (**`load_image`**).
-/

namespace Pintos.Userprog.Load

open Memory PageTable
open Threads (Palloc.State Palloc.PoolName Palloc.Panic Palloc.FreeMemory)

/-! ### Segments in an address space -/

/-- An address space with `n` more bytes. -/
def mapRange (v : AddressSpace) (start n : ℕ) (bytes : Bytes) (writable : Bool) : AddressSpace :=
  fun a => if start ≤ a ∧ a < start + n then some (bytes (a - start), writable) else v a

/-- The byte at an address of the pages of a segment. -/
def Phdr.byteAt (phdr : Phdr) (exe : Executable) (a : ℕ) : UInt8 :=
  if a - phdr.memPage.toNat < phdr.readBytes.toNat then exe.bytes (phdr.filePage.toNat + (a - phdr.memPage.toNat)) else 0

/-- An address space with the pages of a segment. -/
def mapSegment (v : AddressSpace) (exe : Executable) (phdr : Phdr) : AddressSpace :=
  fun a => if phdr.InPages a then some (phdr.byteAt exe a, phdr.writable) else v a

theorem mapRange_zero (v : AddressSpace) (start : ℕ) (bytes : Bytes) (writable : Bool) :
    mapRange v start 0 bytes writable = v := by
  funext a
  exact if_neg (by omega)

theorem mapRange_mapPage (v : AddressSpace) (start n : ℕ) (page rest bytes : Bytes) (writable : Bool)
    (hpage : ∀ j < 4096, bytes j = page j) (hrest : ∀ j, bytes (4096 + j) = rest j) :
    mapRange (mapPage v start page writable) (start + 4096) n rest writable =
    mapRange v start (4096 + n) bytes writable := by
  funext a
  unfold mapRange mapPage
  by_cases h₁ : start + 4096 ≤ a ∧ a < start + 4096 + n
  · rw [if_pos h₁, if_pos (by omega), ← hrest, show 4096 + (a - (start + 4096)) = a - start by omega]
  · rw [if_neg h₁]
    by_cases h₂ : start ≤ a ∧ a < start + 4096
    · rw [if_pos h₂, if_pos (by omega), hpage _ (by omega)]
    · rw [if_neg h₂, if_neg (by omega)]

theorem mapRange_eq (phdr : Phdr) (exe : Executable) (v : AddressSpace) :
    mapRange v phdr.memPage.toNat (4096 * phdr.pageCnt)
      (fun j => if j < phdr.readBytes.toNat then exe.bytes (phdr.filePage.toNat + j) else 0) phdr.writable =
    mapSegment v exe phdr := by
  funext a
  exact if_congr Phdr.inPages_iff.symm rfl rfl

/-- **What is in memory**: the stack, and segments on pages of their own. -/
structure Image (exe : Executable) (stack : Bytes) (segments : List Phdr) (v : AddressSpace) : Prop where
  stack : ∀ a, OnPage stackPage a → v a = some (stack a, true)
  valid : ∀ phdr ∈ segments, Valid phdr exe.length
  segment : ∀ phdr ∈ segments, ∀ a, phdr.InPages a → v a = some (phdr.byteAt exe a, phdr.writable)
  /-- The stack is not part of a segment. -/
  offStack : ∀ phdr ∈ segments, ∀ a, phdr.InPages a → ¬ OnPage stackPage a
  /-- No page is one of two segments. -/
  apart : segments.Pairwise fun phdr phdr' => ∀ a, ¬ (phdr.InPages a ∧ phdr'.InPages a)
  /-- Nothing else is mapped. -/
  only : ∀ a, v a ≠ none → OnPage stackPage a ∨ ∃ phdr ∈ segments, phdr.InPages a

variable {stack : Bytes} {segments : List Phdr} {v : AddressSpace}

/-- **One more segment**, on pages that are not mapped. -/
theorem Image.mapSegment {exe : Executable} {phdr : Phdr}
    (h : Image exe stack segments v) (hvalid : Valid phdr exe.length) (hfree : ∀ a, phdr.InPages a → v a = none) :
    Image exe stack (segments ++ [phdr]) (mapSegment v exe phdr) := by
  -- what was mapped is not on the new pages
  have hkeep : ∀ {a x}, v a = some x → Load.mapSegment v exe phdr a = some x := by
    intro a x hx
    refine (if_neg fun hin => ?_).trans hx
    cases hx.symm.trans (hfree a hin)
  refine ⟨fun a ha => hkeep (h.stack a ha), ?_, ?_, ?_, ?_, ?_⟩
  · exact List.forall_mem_append.mpr ⟨h.valid, List.forall_mem_singleton.mpr hvalid⟩
  · refine List.forall_mem_append.mpr ⟨fun q hq a ha => hkeep (h.segment q hq a ha), List.forall_mem_singleton.mpr ?_⟩
    exact fun a ha => if_pos ha
  · refine List.forall_mem_append.mpr ⟨h.offStack, List.forall_mem_singleton.mpr fun a ha hon => ?_⟩
    cases (h.stack a hon).symm.trans (hfree a ha)
  · refine List.pairwise_append.mpr ⟨h.apart, List.pairwise_singleton _ _, fun q hq q' hq' a ha => ?_⟩
    obtain rfl := List.mem_singleton.mp hq'
    cases (h.segment q hq a ha.1).symm.trans (hfree a ha.2)
  · intro a ha
    by_cases hin : phdr.InPages a
    · exact .inr ⟨phdr, List.mem_append_right _ (List.mem_singleton_self phdr), hin⟩
    · have hv : Load.mapSegment v exe phdr a = v a := if_neg hin
      rw [hv] at ha
      obtain hstack | ⟨q, hq, hin'⟩ := h.only a ha
      · exact .inl hstack
      · exact .inr ⟨q, List.mem_append_left _ hq, hin'⟩

/-! ### The headers of a file -/

/-- Program headers, one after the other in the file. -/
def Executable.headersFrom (exe : Executable) (ofs n : ℕ) : List Phdr :=
  (List.range n).map fun i => Phdr.ofBytes fun j => exe.bytes (ofs + sizeofPhdr * i + j)

/-- The program headers that the header of the file tells of. -/
def Executable.headers (exe : Executable) : List Phdr :=
  let ehdr := Ehdr.ofBytes exe.bytes
  exe.headersFrom ehdr.phoff.toNat ehdr.phnum.toNat

/-- The headers of segments that are to be loaded. -/
def loads (headers : List Phdr) : List Phdr := headers.filter fun phdr => phdr.type = PT_LOAD

theorem Executable.headersFrom_succ (exe : Executable) (ofs n : ℕ) :
    exe.headersFrom ofs (n + 1) = Phdr.ofBytes (fun j => exe.bytes (ofs + j)) :: exe.headersFrom (ofs + sizeofPhdr) n := by
  unfold headersFrom
  rw [List.range_succ_eq_map, List.map_cons, List.map_map]
  refine congrArg _ (List.map_congr_left fun i _ => ?_)
  refine congrArg Phdr.ofBytes (funext fun j => congrArg exe.bytes ?_)
  rw [Nat.succ_eq_add_one, Nat.mul_add, Nat.mul_one]
  omega

/-! ### Loading segments -/

section Segments

variable {E : Stop → Prop} {env : Env} {p : Palloc.State} {used : Usage} {s : Machine} {pd : Addr}
  {pos : ℕ} {v : AddressSpace} {exe : Executable}

/-- A process that reads its executable, at a position of the file. -/
structure Running (env : Env) (p : Palloc.State) (used : Usage) (pd : Addr) (s : Machine) (pos : ℕ)
    (v : AddressSpace) : Prop where
  process : ∃ pages, Process env p used s pd pages v
  file : s.file = .live pos

/-- A part of `load` leaves a process that reads its executable, of which `Q` holds if the part was
successful. -/
def Leaves (env : Env) (p : Palloc.State) (used : Usage) (pd : Addr) (ok : Bool) (t : Machine)
    (Q : ℕ → AddressSpace → Prop) : Prop :=
  ∃ pos v, Running env p used pd t pos v ∧ (ok = true → Q pos v)

theorem Leaves.imp {ok : Bool} {P Q : ℕ → AddressSpace → Prop} (h : Leaves env p used pd ok s P)
    (hPQ : ∀ pos v, P pos v → Q pos v) : Leaves env p used pd ok s Q := by
  obtain ⟨pos, v, hrun, hok⟩ := h
  exact ⟨pos, v, hrun, fun hsuccess => hPQ pos v (hok hsuccess)⟩

/-- How many bytes a read gets. -/
def readCnt (env : Env) (s : Machine) (exe : Executable) (pos size : ℕ) : ℕ :=
  min (min size (exe.length - pos)) (env.readMax s.reads)

theorem readCnt_le (env : Env) (s : Machine) (exe : Executable) (pos size : ℕ) : readCnt env s exe pos size ≤ size :=
  Nat.le_trans (Nat.min_le_left ..) (Nat.min_le_left ..)

theorem fileRead_run (hfile : s.file = .live pos) (size : ℕ) :
    fileRead env exe size s = .ok ((readCnt env s exe pos size, fun j => exe.bytes (pos + j)),
      { s with file := .live (pos + readCnt env s exe pos size), reads := s.reads + 1 }) := by
  unfold fileRead
  simp only [Program.get_bind_run, hfile]
  rfl

theorem headerLoop_of_neg {n : ℕ} {fileOfs : ℤ} (hneg : fileOfs < 0) (hn : n ≠ 0) :
    headerLoop env exe n fileOfs = pure false := by
  cases n with
  | zero => exact absurd rfl hn
  | succ n => rw [headerLoop, if_pos (.inl hneg)]

/-- The executable in an inode. -/
def Executable.ofInode (d : Filesys.Disk) (inode : Filesys.Inode)
    (hlen : inode.data.length.toNat < 2 ^ 31) : Executable where
  length := inode.data.length.toNat
  bytes j := d.bytes (512 * inode.data.start + j)
  le := hlen

/-- **A read is one of `inode_read_at`**: with the memory for a buffer, or without, it gets some
number of bytes, and `file_read` gets the same bytes when these are as many as it can get. -/
theorem fileRead_eq_inodeReadAt {d : Filesys.Disk} {inode : Filesys.Inode} (hd : d.Holds inode.data)
    (hlen : inode.data.length.toNat < 2 ^ 31) (mem : Option Bytes) (buffer : Bytes) (size : ℕ)
    (hfile : s.file = .live pos) :
    ∃ n : ℕ, Filesys.inodeReadAt d inode mem buffer size pos =
        .ok (n, copy buffer 0 (Executable.ofInode d inode hlen).bytes pos n) ∧
      (env.readMax s.reads = n → fileRead env (.ofInode d inode hlen) size s =
        .ok ((n, fun j => (Executable.ofInode d inode hlen).bytes (pos + j)),
          { s with file := .live (pos + n), reads := s.reads + 1 })) := by
  obtain ⟨n, hn, hrun⟩ := Filesys.inodeReadAt_eq hd mem buffer size pos
  refine ⟨n, ?_, fun hmax => ?_⟩
  · have hcopy : copy buffer 0 d.bytes (512 * inode.data.start + pos) n =
        copy buffer 0 (Executable.ofInode d inode hlen).bytes pos n :=
      funext fun i => if_congr Iff.rfl (congrArg d.bytes (Nat.add_assoc ..)) rfl
    rw [hrun, hcopy]
  · have hcnt : readCnt env s (.ofInode d inode hlen) pos size = n := by
      rw [readCnt, hmax]
      exact Nat.min_eq_right hn.le
    rw [fileRead_run hfile, hcnt]

namespace Running

variable (h : Running env p used pd s pos v)
include h

theorem fails {Q : ℕ → AddressSpace → Prop} : Leaves env p used pd false s Q :=
  ⟨pos, v, h, fun hok => by cases hok⟩

theorem seek (newPos : ℕ) : Running env p used pd { s with file := .live newPos } newPos v := by
  obtain ⟨⟨pages, hprocess⟩, -⟩ := h
  exact ⟨⟨pages, hprocess.setFile _ s.reads⟩, rfl⟩

theorem fileSeek (newPos : ℕ) : ∃ t, fileSeek newPos s = .ok ((), t) ∧ Running env p used pd t newPos v := by
  refine ⟨{ s with file := .live newPos }, ?_, h.seek newPos⟩
  unfold Load.fileSeek Load.assert
  rw [if_pos (Int.natCast_nonneg newPos)]
  simp only [pure_bind, Program.get_bind_run, h.file]
  rfl

theorem fileRead (exe : Executable) (size : ℕ) : ∃ t, fileRead env exe size s =
      .ok ((readCnt env s exe pos size, fun j => exe.bytes (pos + j)), t) ∧
    Running env p used pd t (pos + readCnt env s exe pos size) v := by
  obtain ⟨⟨pages, hprocess⟩, hfile⟩ := h
  exact ⟨_, fileRead_run hfile size, ⟨pages, hprocess.setFile ..⟩, rfl⟩

/-- **A round of `load_segment`** maps a page with bytes of the file, and zeros after them. -/
theorem loadPage (hstart : Start env p used) {upage : Addr} {n : ℕ} (writable : Bool) (hofs : pgOfs upage = 0#32)
    (huser : isUserVaddr upage = true) (hn : n ≤ 4096) :
    Program.Ends E (loadPage env exe upage n writable) s fun ok t =>
      Leaves env p used pd ok t fun pos' v' => pos' = pos + n ∧ (∀ a, OnPage upage a → v a = none) ∧
        v' = mapPage v upage.toNat (fun j => if j < n then exe.bytes (pos + j) else 0) writable := by
  obtain ⟨⟨pages, hprocess⟩, hfile⟩ := h
  obtain hrun | ⟨kpage, palloc, hne, hrun, hpage, -⟩ := hprocess.pallocGetPage hstart ⟨false, false, true⟩ rfl
  · refine .run_bind hrun ?_
    rw [if_pos rfl]
    exact .pure (fails ⟨⟨pages, hprocess⟩, hfile⟩)
  · refine .run_bind hrun ?_
    rw [if_neg hne]
    have hfile₁ : Machine.file { s with palloc := palloc, got := kpage :: s.got } = .live pos := hfile
    refine .run_bind (fileRead_run hfile₁ n) (.run_bind (modifyMem_run _ _) ?_)
    have hcnt := readCnt_le env { s with palloc := palloc, got := kpage :: s.got } exe pos n
    generalize readCnt env { s with palloc := palloc, got := kpage :: s.got } exe pos n = cnt at hcnt
    -- what is read goes to the new page
    have hread := (hpage.setFile (.live (pos + cnt)) (s.reads + 1)).write hstart
      (m := copy palloc.mem kpage.toNat (fun j => exe.bytes (pos + j)) 0 cnt) fun a ha =>
        copy_of_notMem (by unfold OnPage at ha; omega)
    by_cases hshort : cnt ≠ n
    · rw [if_pos hshort]
      obtain ⟨palloc', hrun', hprocess'⟩ := hread.free hstart
      exact .run_bind hrun' (.pure (fails ⟨⟨pages, hprocess'⟩, rfl⟩))
    · obtain rfl := not_not.mp hshort
      rw [if_neg hshort]
      refine .run_bind (modifyMem_run _ _) ?_
      have hfill := hread.write hstart
        (m := fill (copy palloc.mem kpage.toNat (fun j => exe.bytes (pos + j)) 0 cnt) (kpage.toNat + cnt) 0 (4096 - cnt))
        fun a ha => fill_of_notMem (by unfold OnPage at ha; omega)
      refine (hfill.installOrFree hstart writable hofs huser).mono fun ok t ht => ?_
      obtain ⟨pages', v', hprocess', hfile', hv⟩ := ht
      refine ⟨_, v', ⟨⟨pages', hprocess'⟩, hfile'⟩, fun hok => ?_⟩
      obtain ⟨hfree, rfl⟩ := hv hok
      refine ⟨rfl, hfree, funext fun a => mapPage_congr (fun j hj => ?_) rfl⟩
      show fill (copy palloc.mem kpage.toNat (fun j => exe.bytes (pos + j)) 0 cnt) (kpage.toNat + cnt) 0 (4096 - cnt)
        (kpage.toNat + j) = _
      split_ifs with hlt
      · rw [fill_of_notMem (by omega), copy_of_mem (by omega) (by omega), Nat.zero_add, Nat.add_sub_cancel_left]
      · exact fill_of_mem (by omega) (by omega)

omit h in
/-- **The loop of `load_segment`** maps the pages one after the other. -/
theorem segmentLoop (hstart : Start env p used) (writable : Bool) (rounds : ℕ) {s : Machine} {pos : ℕ}
    (h : Running env p used pd s pos v) {upage : Addr} {readBytes zeroBytes : ℕ}
    (hbytes : readBytes + zeroBytes = 4096 * rounds) (hofs : pgOfs upage = 0#32)
    (huser : upage.toNat + 4096 * rounds ≤ 0xc0000000) :
    Program.Ends E (segmentLoop env exe writable rounds readBytes zeroBytes upage) s fun ok t =>
      Leaves env p used pd ok t fun _ v' =>
        (∀ a, upage.toNat ≤ a → a < upage.toNat + 4096 * rounds → v a = none) ∧
        v' = mapRange v upage.toNat (4096 * rounds)
        (fun j => if j < readBytes then exe.bytes (pos + j) else 0) writable := by
  induction rounds generalizing s pos v upage readBytes zeroBytes with
  | zero => exact .pure ⟨pos, v, h, fun _ => ⟨fun a ha ha' => absurd ha' (by omega), (mapRange_zero ..).symm⟩⟩
  | succ rounds ih =>
    rw [Load.segmentLoop]
    generalize hn : (if readBytes < 4096 then readBytes else 4096) = n
    have hle : n ≤ 4096 ∧ n ≤ readBytes ∧ (n = 4096 ∨ n = readBytes) := by
      rw [← hn]
      split <;> omega
    refine .bind (h.loadPage hstart writable hofs (isUserVaddr_iff.mpr (by omega)) hle.1) fun ok t ht => ?_
    obtain ⟨pos', v', h', hok⟩ := ht
    cases ok with
    | false => exact .pure h'.fails
    | true =>
      obtain ⟨rfl, hfree, rfl⟩ := hok rfl
      have hnext : (upage + 4096#32).toNat = upage.toNat + 4096 := by
        rw [BitVec.toNat_add, show (4096#32).toNat = 4096 from rfl]
        omega
      have hofs' : pgOfs (upage + 4096#32) = 0#32 := by
        have := pgOfs_eq_zero_iff.mp hofs
        rw [pgOfs_eq_zero_iff, hnext]
        omega
      refine (ih h' (by omega) hofs' (by omega)).mono fun ok t ht => ht.imp ?_
      rintro _ _ ⟨hfree', rfl⟩
      rw [hnext] at hfree' ⊢
      refine ⟨fun a ha ha' => ?_, ?_⟩
      · by_cases hon : OnPage upage a
        · exact hfree a hon
        · have hge : upage.toNat + 4096 ≤ a := Nat.le_of_not_lt fun hlt => hon ⟨ha, hlt⟩
          exact (mapPage_of_not_onPage hon).symm.trans (hfree' a hge (by omega))
      · rw [mapRange_mapPage, show 4096 + 4096 * rounds = 4096 * (rounds + 1) by omega]
        · intro j hj
          exact if_congr (by omega) rfl rfl
        · intro j
          obtain rfl | rfl := hle.2.2
          · rw [Nat.add_assoc]
            exact if_congr (by omega) rfl rfl
          · rw [if_neg (by omega), if_neg (by omega)]

/-- **`load_segment`** maps the pages of a segment that `validate_segment` accepts. -/
theorem loadSegment (hstart : Start env p used) {phdr : Phdr} (hvalid : Valid phdr exe.length) :
    Program.Ends E (loadSegment env exe (offT phdr.filePage) phdr.memPage phdr.readBytes phdr.zeroBytes phdr.writable) s
      fun ok t => Leaves env p used pd ok t fun _ v' =>
        (∀ a, phdr.InPages a → v a = none) ∧ v' = mapSegment v exe phdr := by
  have hmemPage : pgOfs phdr.memPage = 0#32 := by
    rw [pgOfs_eq_zero_iff, phdr.toNat_memPage]
    omega
  have hrun := hvalid.loadSegment_run (Nat.le_sub_one_of_lt exe.le) env exe h.file
  have h' := h.seek phdr.filePage.toNat
  refine .of_run_eq hrun ?_
  refine (segmentLoop hstart phdr.writable phdr.pageCnt h' hvalid.readBytes_add_zeroBytes hmemPage hvalid.end_le).mono
    fun ok t ht => ht.imp ?_
  rintro _ _ ⟨hfree, rfl⟩
  refine ⟨fun a ha => ?_, mapRange_eq _ _ v⟩
  obtain ⟨hge, hlt⟩ := Phdr.inPages_iff.mp ha
  exact hfree a hge hlt

theorem loadHeader (hstart : Start env p used) (himage : Image exe stack segments v) (phdr : Phdr) :
    Program.Ends E (loadHeader env exe phdr) s fun ok t =>
      Leaves env p used pd ok t fun _ v' => Image exe stack (segments ++ loads [phdr]) v' := by
  unfold Load.loadHeader
  by_cases hbad : phdr.type = PT_DYNAMIC ∨ phdr.type = PT_INTERP ∨ phdr.type = PT_SHLIB
  · rw [if_pos hbad]
    exact .pure h.fails
  · rw [if_neg hbad]
    by_cases hload : phdr.type = PT_LOAD
    · rw [if_pos hload]
      by_cases hvalidate : validateSegment phdr exe.length = true
      · have hvalid := validateSegment_eq_true hvalidate
        rw [if_pos hvalidate]
        refine (h.loadSegment hstart hvalid).mono fun ok t ht => ht.imp ?_
        rintro _ _ ⟨hfree, rfl⟩
        have hloads : loads [phdr] = [phdr] := List.filter_cons_of_pos (decide_eq_true hload)
        rw [hloads]
        exact himage.mapSegment hvalid hfree
      · rw [if_neg hvalidate]
        exact .pure h.fails
    · have hloads : loads [phdr] = [] := List.filter_cons_of_neg (by rwa [decide_eq_true_iff])
      rw [if_neg hload, hloads, List.append_nil]
      exact .pure ⟨pos, v, h, fun _ => himage⟩

omit h in
/-- **The loop over the program headers** loads every segment. -/
theorem headerLoop (hstart : Start env p used) (n : ℕ) {s : Machine} {pos : ℕ}
    (h : Running env p used pd s pos v) (himage : Image exe stack segments v) (fileOfs : ℤ) :
    Program.Ends E (headerLoop env exe n fileOfs) s fun ok t =>
      Leaves env p used pd ok t fun _ v' => Image exe stack (segments ++ loads (exe.headersFrom fileOfs.toNat n)) v' := by
  induction n generalizing s pos v segments fileOfs with
  | zero => exact .pure ⟨pos, v, h, fun _ => (List.append_nil segments).symm ▸ himage⟩
  | succ n ih =>
    rw [Load.headerLoop]
    by_cases hout : fileOfs < 0 ∨ exe.length < fileOfs
    · rw [if_pos hout]
      exact .pure h.fails
    · rw [if_neg hout]
      obtain ⟨ofs, rfl⟩ : ∃ ofs : ℕ, fileOfs = ofs := Int.eq_ofNat_of_zero_le (by omega)
      obtain ⟨t, hseek, h₁⟩ := h.fileSeek ofs
      obtain ⟨t', hread, h₂⟩ := h₁.fileRead exe sizeofPhdr
      refine .run_bind hseek (.run_bind hread ?_)
      dsimp only
      split_ifs with hshort
      · exact .pure h₂.fails
      · refine .bind (h₂.loadHeader hstart himage _) fun ok t ht => ?_
        obtain ⟨pos', v', h', hok⟩ := ht
        cases ok with
        | false => exact .pure h'.fails
        | true =>
          refine (ih h' (hok rfl) (ofs + sizeofPhdr)).mono fun ok t ht => ht.imp fun _ _ himage' => ?_
          have hheaders := exe.headersFrom_succ ofs n
          rw [Int.toNat_natCast, hheaders, ← List.singleton_append, loads, List.filter_append, ← List.append_assoc]
          exact himage'

theorem loadFile (hstart : Start env p used) (hpos : pos = 0) (himage : Image exe stack [] v) :
    Program.Ends E (loadFile env exe) s fun eip t =>
      Leaves env p used pd eip.isSome t fun _ v' =>
        eip = some (Ehdr.ofBytes exe.bytes).entry ∧ Image exe stack (loads exe.headers) v' := by
  obtain ⟨t, hread, h'⟩ := h.fileRead exe sizeofEhdr
  have hbytes : (fun j => exe.bytes (pos + j)) = exe.bytes := by
    funext j
    rw [hpos, Nat.zero_add]
  rw [hbytes] at hread
  refine .run_bind hread ?_
  unfold Executable.headers
  dsimp only
  generalize Ehdr.ofBytes exe.bytes = ehdr
  split_ifs with hbad
  · exact .pure h'.fails
  · by_cases hneg : offT ehdr.phoff < 0 ∧ ehdr.phnum.toNat ≠ 0
    · -- no header can be there
      rw [headerLoop_of_neg hneg.1 hneg.2]
      exact .pure h'.fails
    · refine .bind (headerLoop hstart ehdr.phnum.toNat h' himage (offT ehdr.phoff)) fun ok t ht => ?_
      obtain ⟨pos', v', h'', hok⟩ := ht
      cases ok with
      | false => exact .pure h''.fails
      | true =>
        have hheaders : exe.headersFrom (offT ehdr.phoff).toNat ehdr.phnum.toNat =
            exe.headersFrom ehdr.phoff.toNat ehdr.phnum.toNat := by
          by_cases hzero : ehdr.phnum.toNat = 0
          · rw [hzero]
            rfl
          · have hnonneg : 0 ≤ offT ehdr.phoff := Int.not_lt.mp fun hlt => hneg ⟨hlt, hzero⟩
            have hofs : offT ehdr.phoff = ehdr.phoff.toNat := by
              have := ehdr.phoff.isLt
              unfold offT at *
              rw [BitVec.toInt_eq_toNat_cond] at *
              split_ifs at * <;> omega
            rw [hofs, Int.toNat_natCast]
        rw [← hheaders]
        exact .pure ⟨pos', v', h'', fun _ => ⟨rfl, hok rfl⟩⟩

end Running

end Segments

/-! ### `load` -/

/-- The arguments fit in the stack page. -/
def ArgumentsFit (cmdLine : List UInt8) : Prop :=
  ∀ m, ∃ esp stack, Arguments.setupArguments m cmdLine = some (esp, stack) ∧ stackPage.toNat ≤ esp + 4

/-- The stack as it is set up for a command line: a page of zeros, with the arguments. -/
def IsStack (cmdLine : List UInt8) (esp : ℕ) (stack : Bytes) : Prop :=
  ∃ m, (∀ a, OnPage stackPage a → m a = 0) ∧ Arguments.setupArguments m cmdLine =
    some (esp, stack) ∧ stackPage.toNat ≤ esp + 4

theorem isUserVaddr_stackPage : isUserVaddr stackPage = true := by decide

theorem lt_of_onPage_stackPage {a : ℕ} (ha : OnPage stackPage a) : a < 0xc0000000 := by
  have htop : stackPage.toNat + 4096 = 0xc0000000 := rfl
  unfold OnPage at ha
  omega

section Load

variable {E : Stop → Prop} {env : Env} {p : Palloc.State} {used : Usage} {s : Machine} {pd : Addr}
  {pages : List Addr} {v : AddressSpace} (hstart : Start env p used) (cmdLine : List UInt8)
include hstart

/-- **`setup_stack`** maps a page of zeros. -/
theorem Process.setupStack (h : Process env p used s pd pages v) :
    Program.Ends E (setupStack env) s fun ok t =>
      ∃ pages' v', Process env p used t pd pages' v' ∧ t.file = s.file ∧
        (ok = true → v' = mapPage v stackPage.toNat (fun _ => 0) true) := by
  obtain hrun | ⟨kpage, palloc, hne, hrun, hpage, hzero⟩ := h.pallocGetPage hstart ⟨false, true, true⟩ rfl
  · refine .run_bind hrun ?_
    rw [if_neg (not_not.mpr rfl)]
    exact .pure ⟨pages, v, h, rfl, fun hok => (by cases hok)⟩
  · refine .run_bind hrun ?_
    rw [if_pos hne]
    refine (hpage.installOrFree hstart true rfl isUserVaddr_stackPage).mono fun ok t ht => ?_
    obtain ⟨pages', v', hprocess, hfile, hv⟩ := ht
    refine ⟨pages', v', hprocess, hfile, fun hok => ?_⟩
    obtain ⟨-, rfl⟩ := hv hok
    exact funext fun a => mapPage_congr (fun j hj => hzero rfl _ ⟨Nat.le_add_right .., by omega⟩) rfl

omit hstart in
theorem Process.setupArguments (h : Process env p used s pd pages v) (hv : ∀ a, OnPage stackPage a → v a = some (0, true)) :
    Program.Ends (fun e => e = .pageFault ∧ ¬ ArgumentsFit cmdLine) (setupArguments cmdLine) s fun esp t =>
      ∃ stack, IsStack cmdLine esp stack ∧ t.file = s.file ∧
        Process env p used t pd pages fun a => if OnPage stackPage a then some (stack a, true) else v a := by
  -- the frame of the stack
  have hview : ∀ a, OnPage stackPage a → ∃ kpage, lookup (tablesOf s.mem) pd stackPage = some kpage ∧
      s.mem (kpage.toNat + (a - stackPage.toNat)) = 0 := fun a ha =>
    have hlt := lt_of_onPage_stackPage ha
    exists_lookup rfl ha (by omega) ((h.view a hlt).trans (hv a ha))
  obtain ⟨kpage, hlookup, -⟩ := hview stackPage.toNat ⟨Nat.le_refl _, by omega⟩
  have hzero : ∀ a, OnPage stackPage a → s.mem (kpage.toNat + (a - stackPage.toNat)) = 0 := by
    intro a ha
    obtain ⟨k, hk, hbyte⟩ := hview a ha
    cases hlookup.symm.trans hk
    exact hbyte
  have hbind : (s.pagedir.bind fun pd => lookup (tablesOf s.palloc.mem) pd stackPage) = some kpage := by
    rw [h.pagedir]
    exact hlookup
  refine Program.Ends.get_bind ?_
  simp only [hbind]
  cases hargs : Arguments.setupArguments (fun a => s.palloc.mem (kpage.toNat + (a - stackPage.toNat))) cmdLine with
  | none =>
    refine .throw ⟨rfl, fun hfit => ?_⟩
    obtain ⟨esp, stack, hsome, -⟩ := hfit _
    cases hargs.symm.trans hsome
  | some r =>
    obtain ⟨esp, stack⟩ := r
    dsimp only
    split_ifs with hlow
    · refine .throw ⟨rfl, fun hfit => ?_⟩
      obtain ⟨esp', stack', hsome, hle⟩ := hfit _
      cases hargs.symm.trans hsome
      omega
    · refine .run_bind (modifyMem_run _ _) (.pure ⟨stack, ⟨_, hzero, hargs, Nat.le_of_not_lt hlow⟩, rfl, ?_⟩)
      have hm : ∀ a, ¬ OnPage kpage a → copy s.mem kpage.toNat stack stackPage.toNat 4096 a = s.mem a := fun a ha =>
        copy_of_notMem (by unfold OnPage at ha; omega)
      obtain ⟨hspace, hview'⟩ := h.space.writeFrame rfl isUserVaddr_stackPage hlookup hm
      have hmem : kpage ∈ pages := by
        rw [lookup, translate_eq_frameOf] at hlookup
        exact (h.space.frame_mem (pdNo_user isUserVaddr_stackPage) hlookup).1
      refine ⟨h.held.withMem fun a ha => hm a (ha kpage hmem), hspace, h.pagedir, fun a ha => (hview' a ha).trans ?_⟩
      rw [h.view a ha]
      split_ifs with hon
      · rw [hv a hon, Option.map_some]
        unfold OnPage at hon
        rw [copy_of_mem (by omega) (by omega),
          show stackPage.toNat + (kpage.toNat + (a - stackPage.toNat) - kpage.toNat) = a by omega]
      · rfl

/-- What `load` leaves, if it stops before the file is closed: no process, or a process with an
address space which is, if the result is not null, the image of the executable. -/
def Loaded (env : Env) (p : Palloc.State) (used : Usage) (cmdLine : List UInt8)
    (r : Option (Addr × ℕ)) (t : Machine) : Prop :=
  (r = none ∧ t.pagedir = none ∧ Held p used t []) ∨
    ∃ pd pages v, Process env p used t pd pages v ∧ ∀ eip esp, r = some (eip, esp) →
      ∃ exe stack, env.exe = some exe ∧ IsStack cmdLine esp stack ∧ eip = (Ehdr.ofBytes exe.bytes).entry ∧
        Image exe stack (loads exe.headers) v

section

variable (hheld : Held p used s []) (hempty : UserHalfEmpty (tablesOf s.mem) env.basePageDir) (hfile : s.file = .unused)
include hheld hempty hfile

theorem loadImage_ends :
    Program.Ends (fun e => e = .pageFault ∧ ¬ ArgumentsFit cmdLine) (loadImage env cmdLine) s fun r t =>
      (t.file = .unused ∨ ∃ pos, t.file = .live pos) ∧ Loaded env p used cmdLine r t := by
  obtain hrun | ⟨pd, palloc, got, hrun, hprocess⟩ := pagedirCreate_eq hstart hheld hempty
  · refine .run_bind hrun (.modify_bind ?_)
    exact .pure ⟨.inl hfile, .inl ⟨rfl, rfl, hheld.congr rfl rfl rfl⟩⟩
  · refine .run_bind hrun (.modify_bind ?_)
    refine .bind (hprocess.setupStack hstart) fun ok t ht => ?_
    obtain ⟨pages, v, hprocess₁, hfile₁, hv⟩ := ht
    have hfile₁ : t.file = .unused := hfile₁.trans hfile
    cases ok with
    | false =>
      exact .pure ⟨.inl hfile₁, .inr ⟨pd, pages, v, hprocess₁, fun _ _ hr => (by cases hr)⟩⟩
    | true =>
      obtain rfl := hv rfl
      refine .bind (hprocess₁.setupArguments cmdLine fun a ha => mapPage_of_onPage ha) fun esp t ht => ?_
      obtain ⟨stack, hstack, hfile₂, hprocess₂⟩ := ht
      have hfile₂ : t.file = .unused := hfile₂.trans hfile₁
      cases hexe : env.exe with
      | none =>
        have hopen : filesysOpen env t = .ok (none, t) := by
          unfold filesysOpen
          rw [hexe]
          rfl
        exact .run_bind hopen (.pure ⟨.inl hfile₂, .inr ⟨pd, pages, _, hprocess₂, fun _ _ hr => (by cases hr)⟩⟩)
      | some exe =>
        have himage : Image exe stack [] fun a => if OnPage stackPage a then some (stack a, true) else
            mapPage (fun _ => none) stackPage.toNat (fun _ => 0) true a := by
          refine ⟨fun a ha => if_pos ha, fun _ hq => ?_, fun _ hq => ?_, fun _ hq => ?_, .nil, fun a ha => ?_⟩
          · cases hq
          · cases hq
          · cases hq
          · by_cases hon : OnPage stackPage a
            · exact .inl hon
            · exact absurd ((if_neg hon).trans (mapPage_of_not_onPage hon)) ha
        have hrunning : Running env p used pd { t with file := .live 0 } 0 _ := ⟨⟨pages, hprocess₂.setFile _ t.reads⟩, rfl⟩
        have hopen : filesysOpen env t = .ok (some exe, { t with file := .live 0 }) := by
          unfold filesysOpen
          rw [hexe]
          rfl
        refine .run_bind hopen (.bind (hrunning.loadFile hstart rfl himage) fun eip t ht => ?_)
        obtain ⟨pos, v, ⟨⟨pages, hprocess₃⟩, hfile₃⟩, hok⟩ := ht
        refine .pure ⟨.inr ⟨pos, hfile₃⟩, .inr ⟨pd, pages, v, hprocess₃, fun eip' esp' hr => ?_⟩⟩
        obtain ⟨eip, rfl, heq⟩ := Option.map_eq_some_iff.mp hr
        cases heq
        obtain ⟨heip, himage'⟩ := hok rfl
        exact ⟨exe, stack, hexe, hstack, Option.some.inj heip, himage'⟩

/-- **`load`** leaves the executable closed, and no process or one with its pages. -/
theorem load_ends :
    Program.Ends (fun e => e = .pageFault ∧ ¬ ArgumentsFit cmdLine) (load env cmdLine) s fun r t =>
      (t.file = .unused ∨ t.file = .freed) ∧ Loaded env p used cmdLine r t := by
  refine .bind (loadImage_ends hstart cmdLine hheld hempty hfile) fun r t ht => ?_
  obtain ⟨hfile | ⟨pos, hfile⟩, hloaded⟩ := ht
  · have hclose : fileClose t = .ok ((), t) := by
      unfold fileClose
      simp only [Program.get_bind_run, hfile]
      rfl
    exact .run_bind hclose (.pure ⟨.inl hfile, hloaded⟩)
  · have hclose : fileClose t = .ok ((), { t with file := .freed }) := by
      unfold fileClose
      simp only [Program.get_bind_run, hfile]
      rfl
    refine .run_bind hclose (.pure ⟨.inr rfl, ?_⟩)
    obtain ⟨hr, hpd, hheld⟩ | ⟨pd, pages, v, hprocess, himage⟩ := hloaded
    · exact .inl ⟨hr, hpd, hheld.congr rfl rfl rfl⟩
    · exact .inr ⟨pd, pages, v, hprocess.setFile .freed t.reads, himage⟩

end

end Load

/-- **A machine on which a process is to be loaded.** The pools are laid out, pages of them are in
use; `base_page_dir` is in a page that is in use, and has no user pages. The process has nothing
yet. -/
structure Ready (env : Env) (s : Machine) : Prop where
  laid : Laid env.ramPages s.palloc
  base : IsPage env.ramPages env.basePageDir
  inUse : ∀ w, ∀ k < (s.palloc.pool w).usedMap.bitCnt, env.basePageDir.toNat = pageAddr s.palloc w k →
    (s.palloc.pool w).usedMap.bit k = true
  empty : UserHalfEmpty (tablesOf s.mem) env.basePageDir
  pagedir : s.pagedir = none
  file : s.file = .unused
  got : s.got = []
  freed : s.freed = []

namespace Ready

variable {env : Env} {s : Machine} (h : Ready env s)
include h

theorem start : Start env s.palloc (usage s.palloc) := ⟨h.laid, h.base, h.inUse⟩

theorem held : Held s.palloc (usage s.palloc) s [] where
  shape _ := rfl
  nodup := .nil
  free _ hpage := by cases hpage
  bit w k _ := by
    refine ⟨.inl, ?_⟩
    rintro (hused | ⟨page, hpage, -⟩)
    · exact hused
    · cases hpage
  log := by
    rw [h.got, h.freed]
    exact .nil
  frame _ _ := rfl

end Ready

/-- The pools after `palloc_init`, and a page for `base_page_dir` as `paging_init` requests it. -/
def boot (kernelEnd ramPages userPageLimit : ℕ) (mem : Bytes) : Except Palloc.Panic (ℕ × Palloc.State) := do
  let p ← Threads.Palloc.pallocInit kernelEnd ramPages userPageLimit mem
  Threads.Palloc.pallocGetMultiple ⟨true, true, false⟩ 1 p

theorem Ready.of_boot {kernelEnd ramPages userPageLimit base : ℕ} {mem : Bytes} {p : Palloc.State}
    (hm : Palloc.FreeMemory kernelEnd ramPages) (h : boot kernelEnd ramPages userPageLimit mem = .ok (base, p)) {env : Env}
    (hram : env.ramPages = ramPages) (hbase : env.basePageDir.toNat = base) : Ready env ⟨p, none, .unused, 0, [], []⟩ := by
  obtain ⟨p₀, hinit, hget⟩ := Program.ok_of_bind h
  obtain ⟨hlayout, -⟩ := Threads.Palloc.pallocInit_layout hm hinit
  have hstart : 0 < Threads.Palloc.pgRoundUp kernelEnd := Nat.lt_of_lt_of_le (by decide) hm.start
  obtain ⟨k, b, m, hrun, hgroup, hcnt, hbit, -, hzero⟩ | ⟨hrun, -⟩ :=
    Threads.Palloc.pallocGetMultiple_eq hlayout hstart hm.fits ⟨true, true, false⟩ Nat.one_pos
  · cases hget.symm.trans hrun
    have hlaid : Laid env.ramPages { p₀.setMap .kernel b with mem := m } :=
      ⟨kernelEnd, hram ▸ hm, hram ▸ hlayout.congr (Threads.Palloc.shape_setMap hcnt)⟩
    have haddr : env.basePageDir.toNat = pageAddr { p₀.setMap .kernel b with mem := m } .kernel k :=
      hbase.trans (pageAddr_congr (Threads.Palloc.shape_setMap hcnt) .kernel k).symm
    have hk : k < (Palloc.State.pool { p₀.setMap .kernel b with mem := m } .kernel).usedMap.bitCnt := by
      rw [Threads.Palloc.setMap_pool_self, hcnt]
      exact hgroup.1
    refine ⟨hlaid, hlaid.isPage hk haddr, fun w i hi hi' => ?_, fun d _ => ?_, rfl, rfl, rfl, rfl⟩
    · obtain ⟨rfl, rfl⟩ := hlaid.pageAddr_inj hk hi (haddr.symm.trans hi')
      exact (bit_setMap hbit .kernel k).trans (if_pos ⟨rfl, rfl⟩)
    · have hpage : tablesOf m env.basePageDir = tablesOf (fun _ => 0) env.basePageDir :=
        tablesOf_congr fun a ha => hzero rfl a (hbase ▸ ha)
      exact congrFun hpage d
  · cases hget.symm.trans hrun

/-- **The image of a program.** When `load` succeeds, the user finds the bytes of the file at the
addresses that the headers say, zeros after them, and the stack with the arguments. A page of a
segment can be written if its header says so. No page belongs to two segments, and no other user
page is mapped. -/
theorem load_image {env : Env} {s t : Machine} {cmdLine : List UInt8} {eip : Addr} {esp : ℕ} (hready : Ready env s)
    (hload : load env cmdLine s = .ok (some (eip, esp), t)) :
    ∃ exe pd stack, env.exe = some exe ∧ t.pagedir = some pd ∧ IsStack cmdLine esp stack ∧
      eip = (Ehdr.ofBytes exe.bytes).entry ∧
      (∀ phdr ∈ exe.headers, phdr.type = PT_LOAD →
        (∀ a, phdr.vaddr.toNat ≤ a → a < phdr.vaddr.toNat + phdr.filesz.toNat →
          view t.mem pd a = some (exe.bytes (phdr.offset.toNat + (a - phdr.vaddr.toNat)), phdr.writable)) ∧
        (∀ a, phdr.vaddr.toNat + phdr.filesz.toNat ≤ a → a < phdr.vaddr.toNat + phdr.memsz.toNat →
          view t.mem pd a = some (0, phdr.writable)) ∧
        ∀ a, phdr.InPages a → (view t.mem pd a).map Prod.snd = some phdr.writable ∧ ¬ OnPage stackPage a) ∧
      (∀ a, OnPage stackPage a → view t.mem pd a = some (stack a, true)) ∧
      (loads exe.headers).Pairwise (fun phdr phdr' => ∀ a, ¬ (phdr.InPages a ∧ phdr'.InPages a)) ∧
      ∀ a < PHYS_BASE.toNat, view t.mem pd a ≠ none →
        OnPage stackPage a ∨ ∃ phdr ∈ exe.headers, phdr.type = PT_LOAD ∧ phdr.InPages a := by
  obtain ⟨-, hloaded⟩ := (load_ends hready.start cmdLine hready.held hready.empty hready.file).of_ok hload
  obtain ⟨hr, -⟩ | ⟨pd, pages, v, hprocess, himage⟩ := hloaded
  · cases hr
  · obtain ⟨exe, stack, hexe, hstack, heip, himage⟩ := himage eip esp rfl
    have hloads : ∀ phdr, phdr ∈ loads exe.headers ↔ phdr ∈ exe.headers ∧ phdr.type = PT_LOAD := by
      intro phdr
      rw [loads, List.mem_filter, decide_eq_true_iff]
    refine ⟨exe, pd, stack, hexe, hprocess.pagedir, hstack, heip, fun phdr hphdr htype => ?_, fun a ha => ?_, himage.apart,
      fun a ha hmapped => ?_⟩
    · have hmem := (hloads phdr).mpr ⟨hphdr, htype⟩
      have hvalid := himage.valid phdr hmem
      -- the user sees the bytes of the segment
      have hview : ∀ a, phdr.InPages a → view t.mem pd a = some (phdr.byteAt exe a, phdr.writable) := fun a ha =>
        (hprocess.view a (hvalid.lt_of_inPages ha)).trans (himage.segment phdr hmem a ha)
      refine ⟨fun a ha hlt => ?_, fun a ha hlt => ?_, fun a ha => ⟨?_, himage.offStack phdr hmem a ha⟩⟩
      · rw [hview a (Phdr.inPages ha (Nat.lt_of_lt_of_le hlt (Nat.add_le_add_left hvalid.sizes _))), Phdr.byteAt,
          if_pos ((hvalid.read_iff ha).mpr hlt), hvalid.file_offset ha]
      · have hge : phdr.vaddr.toNat ≤ a := Nat.le_trans (Nat.le_add_right ..) ha
        rw [hview a (Phdr.inPages hge hlt), Phdr.byteAt, if_neg fun hread => ?_]
        exact absurd ((hvalid.read_iff hge).mp hread) (Nat.not_lt.mpr ha)
      · rw [hview a ha]
        rfl
    · exact (hprocess.view a (lt_of_onPage_stackPage ha)).trans (himage.stack a ha)
    · rw [hprocess.view a ha] at hmapped
      refine (himage.only a hmapped).imp id fun hsegment => ?_
      obtain ⟨phdr, hmem, hin⟩ := hsegment
      exact ⟨phdr, ((hloads phdr).mp hmem).1, ((hloads phdr).mp hmem).2, hin⟩

/-- An executable: one segment of 84 bytes, the file itself, and 16 zeros after them. -/
def lsExe : Executable where
  length := 84
  bytes a := List.getD [
    0x7f, 0x45, 0x4c, 0x46, 1, 1, 1, 0, 0, 0, 0, 0, 0, 0, 0, 0, 2, 0, 3, 0, 1, 0, 0, 0, 0x54, 0x80, 0x04, 0x08, 52, 0, 0, 0,
    0, 0, 0, 0, 0, 0, 0, 0, 52, 0, 32, 0, 1, 0, 0, 0, 0, 0, 0, 0,
    1, 0, 0, 0, 0, 0, 0, 0, 0, 0x80, 0x04, 0x08, 0, 0x80, 0x04, 0x08, 84, 0, 0, 0, 100, 0, 0, 0, 2,
      0, 0, 0, 0, 0x10, 0, 0] a 0
  le := by decide

/-- A machine with 64 pages of RAM. -/
def lsEnv : Env where
  ramPages := 64
  basePageDir := 0xc0031000#32
  exe := some lsExe
  readMax _ := 4096

theorem load_lsExe : ∃ s t, Ready lsEnv s ∧ load lsEnv [108, 115] s = .ok (some (0x8048054#32, 3221225448), t) := by
  have hm : Palloc.FreeMemory 0xc002ffff 64 := ⟨by decide, by decide, by decide⟩
  have hrun : (boot 0xc002ffff 64 (2 ^ 32 - 1) fun _ => 0).toOption.bind (fun r =>
      (load lsEnv [108, 115] ⟨r.2, none, .unused, 0, [], []⟩).toOption.map fun x => (r.1, x.1)) =
      some (0xc0031000, some (0x8048054#32, 3221225448)) := by decide +kernel
  obtain ⟨⟨base, p⟩, hboot, hload⟩ := Option.bind_eq_some_iff.mp hrun
  obtain ⟨⟨r, t⟩, hload, heq⟩ := Option.map_eq_some_iff.mp hload
  cases heq
  exact ⟨_, t, .of_boot hm (Program.ok_of_toOption hboot) rfl rfl, Program.ok_of_toOption hload⟩

/-- The first bytes of the program, the zeros after it, and an address that is not mapped. -/
theorem load_image_ls : ∃ s t pd, Ready lsEnv s ∧ load lsEnv [108, 115] s = .ok (some (0x8048054#32, 3221225448), t) ∧
    t.pagedir = some pd ∧ view t.mem pd 0x8048001 = some (0x45, true) ∧ view t.mem pd 0x8048063 = some (0, true) ∧
    view t.mem pd 0x8049000 = none := by
  obtain ⟨s, t, hready, hload⟩ := load_lsExe
  obtain ⟨exe, pd, stack, hexe, hpd, -, -, hsegments, -, -, honly⟩ := load_image hready hload
  cases hexe
  obtain ⟨hfile, hzeros, -⟩ := hsegments _ (List.mem_singleton_self _) rfl
  refine ⟨s, t, pd, hready, hload, hpd, hfile _ (by decide) (by decide), hzeros _ (by decide) (by decide), ?_⟩
  by_contra hmapped
  obtain hon | ⟨phdr, hphdr, -, hin⟩ := honly _ (by decide) hmapped
  · revert hon
    decide
  · obtain rfl := List.mem_singleton.mp hphdr
    revert hin
    decide

end Pintos.Userprog.Load
