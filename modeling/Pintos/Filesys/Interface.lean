import Pintos.Filesys.FreeMap

/-!
# Creating, opening and removing files

What the functions of `file.c`, `directory.c` and `filesys.c` do to the store.

While a call runs it has a reference to the root directory, and at the end it has none:
`filesys_create` adds a file with a name or leaves the files as they were
(`filesysCreate_ends`), `filesys_open` adds a reference to a file that has the name
(`filesysOpen_ends`), `filesys_remove` clears a slot (`filesysRemove_ends`), and
`file_close` takes a reference away (`fileClose_ends`). A removed file that nobody has
open is gone.
-/

namespace Pintos.Filesys

open Function InodeTable Lib Memory Program

variable {s t : Fs} {A B : Store} {refs : List (ℕ × ℕ)} {E : Panic → Prop} {x a : ℕ} {data : InodeDisk}

/-- A file system that runs: the file of the free map is open, and there is a root directory. -/
structure Ready (s : Fs) (A : Store) (refs : List (ℕ × ℕ)) : Prop where
  /-- The state is the store. -/
  rep : Rep s A refs
  /-- The file of the free map is open. -/
  file : FileReady s refs
  /-- There is a root directory. -/
  root : ∃ data, A.files 1 = some data

theorem FileReady.congr (h : FileReady s refs) (hlead : Leads A s t) {refs' : List (ℕ × ℕ)} (hsub : refs ⊆ refs') :
    FileReady t refs' := by
  obtain ⟨f, hf, href⟩ := h
  exact ⟨f, hlead.file.trans hf, hsub href⟩

theorem FileReady.mem (h : FileReady s refs) : ∀ f, s.freeMapFile = some f → (0, f.inode) ∈ refs := by
  obtain ⟨f, hf, href⟩ := h
  intro g hg
  obtain rfl : f = g := Option.some.inj (hf.symm.trans hg)
  exact href

theorem Closed.eq (h : Closed A B x) (hx : x = 0 ∨ x = 1 ∨ ¬ A.Unnamed x) : B = A := by
  obtain rfl | ⟨h0, h1, hname, -⟩ := h
  · rfl
  · obtain hx | hx | hx := hx
    · exact absurd hx h0
    · exact absurd hx h1
    · exact absurd hname hx

/-- The files of the free map and of the directory stay. -/
theorem Closed.files_eq (h : Closed A B x) {y : ℕ} (hy : y = 0 ∨ y = 1) : B.files y = A.files y := by
  obtain rfl | ⟨h0, h1, -, hfiles, -⟩ := h
  · rfl
  · rw [hfiles, update_of_ne]
    rintro rfl
    obtain hy | hy := hy
    · exact h0 hy
    · exact h1 hy

/-! ### Files and directories that are open -/

section OpenWith

variable {α : Type} (make : ℕ → α)

theorem openWith_ends (h : Rep s A ((x, a) :: refs)) (hf : x = 0 ∨ x = 1 ∨ FileReady s refs) :
    Ends E (openWith make (some a)) s fun r t => Leads A s t ∧
      ((r = some (make a) ∧ t.disk = s.disk ∧ Rep t A ((x, a) :: refs)) ∨
        (r = none ∧ ¬ s.Plenty ∧ ∃ B, Closed A B x ∧ Undisturbed B s t ∧ Rep t B refs)) := by
  refine calloc_bind (fun hmem => ?_) fun block => ?_
  · refine .bind (inodeClose_ends h.shift hf) ?_
    rintro _ t ⟨hlead, B, hclosed, hundisturbed, hrep⟩
    exact .pure ⟨(Leads.shift A s).trans hlead rfl, .inr ⟨rfl, fun hp => hp 0 hmem, B, hclosed, hundisturbed, hrep⟩⟩
  · exact .pure ⟨.shift A s, .inl ⟨rfl, rfl, h.shift⟩⟩

theorem openWith_none (h : Rep s A refs) :
    Ends E (openWith make none) s fun r t => r = none ∧ Leads A s t ∧ t.disk = s.disk ∧ Rep t A refs := by
  exact ⟨rfl, .shift A s, rfl, h.shift⟩

end OpenWith

theorem dirOpenRoot_ends (h : Rep s A refs) (h1 : A.files 1 = some data) :
    Ends E dirOpenRoot s fun r t => Leads A s t ∧
      ((∃ dir, r = some dir ∧ t.disk = s.disk ∧ Rep t A ((1, dir.inode) :: refs)) ∨
        (r = none ∧ ¬ s.Plenty ∧ Undisturbed A s t ∧ Rep t A refs)) := by
  refine .bind (inodeOpen_ends h h1) ?_
  rintro r t ⟨hlead, hdisk, ⟨a, rfl, hrep⟩ | ⟨rfl, hrep, hshort⟩⟩
  · refine (openWith_ends _ hrep (.inr (.inl rfl))).mono ?_
    rintro r u ⟨hlead', ⟨rfl, hdisk', hrep'⟩ | ⟨rfl, hshort, B, hclosed, hundisturbed, hrep'⟩⟩
    · exact ⟨hlead.trans hlead' rfl, .inl ⟨_, rfl, hdisk'.trans hdisk, hrep'⟩⟩
    · obtain rfl := hclosed.eq (.inr (.inl rfl))
      refine ⟨hlead.trans hlead' rfl, .inr ⟨rfl, fun hp => hshort (hlead.plenty hp), ?_, hrep'⟩⟩
      exact (Undisturbed.of_eq hdisk).trans hundisturbed rfl
  · refine (openWith_none _ hrep).mono ?_
    rintro _ u ⟨rfl, hlead', hdisk', hrep'⟩
    exact ⟨hlead.trans hlead' rfl, .inr ⟨rfl, hshort, .of_eq (hdisk'.trans hdisk), hrep'⟩⟩

theorem dirClose_ends {dir : Dir} (h : Rep s A ((1, dir.inode) :: refs)) :
    Ends E (dirClose (some dir)) s fun _ t => Leads A s t ∧ Undisturbed A s t ∧ Rep t A refs := by
  refine (inodeClose_ends h (.inr (.inl rfl))).mono ?_
  rintro _ t ⟨hlead, B, hclosed, hundisturbed, hrep⟩
  obtain rfl := hclosed.eq (.inr (.inl rfl))
  exact ⟨hlead, hundisturbed, hrep⟩

variable {file : File}

theorem fileClose_eq (hdeny : file.denyWrite = false) : fileClose (some file) = inodeClose (some file.inode) := by
  have hallow : fileAllowWrite file = pure file := by
    unfold fileAllowWrite
    rw [hdeny]
    rfl
  show (fileAllowWrite file >>= fun file => inodeClose (some file.inode)) = _
  rw [hallow, pure_bind]

/-- **`file_close` takes a reference away.** -/
theorem fileClose_ends (h : Rep s A ((x, file.inode) :: refs)) (hdeny : file.denyWrite = false)
    (hf : x = 0 ∨ x = 1 ∨ FileReady s refs) :
    Ends E (fileClose (some file)) s fun _ t => Leads A s t ∧ ∃ B, Closed A B x ∧ Undisturbed B s t ∧ Rep t B refs := by
  rw [fileClose_eq hdeny]
  exact inodeClose_ends h hf

/-! ### A directory as a layer of entries -/

/-- The state with the bytes `c` in the directory, and other memory. -/
def Fs.withDir (s : Fs) (data : InodeDisk) (c : Bytes) (mem : ℕ → Option Bytes) : Fs :=
  { s with
    disk := { s.disk with bytes := copy s.disk.bytes (512 * data.start) c 0 data.length.toNat }
    mem := mem }

/-- The states in which the bytes of the directory are `c`, and nothing else changed but the
memory. -/
def DirState (s : Fs) (data : InodeDisk) (c : Bytes) (t : Fs) : Prop :=
  ∃ mem, (s.Plenty → ∀ n, mem n ≠ none) ∧ t = s.withDir data c mem

theorem fileBytes_withDir (s : Fs) (data : InodeDisk) (c : Bytes) (mem : ℕ → Option Bytes) {i : ℕ}
    (hi : i < data.length.toNat) : fileBytes (s.withDir data c mem).disk data i = c i := by
  show copy s.disk.bytes (512 * data.start) c 0 data.length.toNat (512 * data.start + i) = c i
  rw [copy_of_mem (by omega) (by omega), Nat.zero_add, Nat.add_sub_cancel_left]

theorem withDir_self (s : Fs) (data : InodeDisk) (mem : ℕ → Option Bytes) :
    s.withDir data (fileBytes s.disk data) mem = { s with mem := mem } := by
  unfold Fs.withDir fileBytes
  rw [copy_self]

theorem dirState_self (s : Fs) (data : InodeDisk) : DirState s data (fileBytes s.disk data) s :=
  ⟨s.mem, id, (withDir_self s data s.mem).symm⟩

/-- **An open inode of `n` entries is read and written entry by entry**, when it has one sector of
data or there is memory in plenty. -/
theorem fsOps_layer {i : Inode} {n : ℕ} (hi : s.inodes a = .live i) (hholds : s.disk.Holds i.data)
    (hdeny : i.denyWriteCnt = 0) (hlen : i.data.length = (20 * n : ℕ)) (hone : 20 * n ≤ 512 ∨ s.Plenty) :
    Layer fsOps E a n s.Plenty (DirState s i.data) := by
  have hnat : i.data.length.toNat = 20 * n := by
    rw [hlen]
    rfl
  have hholds : ∀ c mem, (s.withDir i.data c mem).disk.Holds i.data := fun c mem => hholds.congr rfl
  have hcount : ∀ k, flatCount i.data.length.toNat 20 (20 * k) = min 20 (20 * n - 20 * k) := fun k => by rw [hnat]; rfl
  refine ⟨fun c => ⟨?_, ?_, ?_⟩, ?_⟩
  · rintro _ ⟨mem, hmem, rfl⟩
    exact getInode_bind hi (.pure ⟨hlen, mem, hmem, rfl⟩)
  · rintro _ ⟨mem, hmem, rfl⟩
    exact .get_bind (.pure ⟨mem, hmem, rfl⟩)
  · rintro _ e k ⟨mem, hmem, rfl⟩ hk
    refine (readAt_ends (s := s.withDir i.data c mem) hi (hholds c mem) e 20 (20 * k)).mono ?_
    rintro _ _ ⟨cnt, ⟨hcnt, hall, -⟩, rfl, rfl⟩
    rw [hcount] at hcnt hall
    refine ⟨⟨fun n => mem (n + 1), fun hp n => hmem hp (n + 1), rfl⟩, ?_⟩
    obtain rfl | hne := Decidable.em (cnt = 20)
    · refine .inl ⟨by omega, Prod.ext rfl (funext fun l => ?_)⟩
      show copy e 0 (fileBytes (s.withDir i.data c mem).disk i.data) (20 * k) 20 l = copy e 0 c (20 * k) 20 l
      unfold copy
      split
      · exact fileBytes_withDir s i.data c mem (by omega)
      · rfl
    · refine .inr ⟨fun h => hne (Int.ofNat_inj.mp h), fun hp => ?_⟩
      have := hall (hmem hp)
      omega
  · rintro c _ e k ⟨mem, hmem, rfl⟩ hk
    refine (writeAt_ends (s := s.withDir i.data c mem) hi (hholds c mem) e 20 (20 * k) hdeny).mono ?_
    rintro _ _ ⟨cnt, ⟨hcnt, hall, hstop⟩, rfl, rfl⟩
    rw [hcount] at hcnt hall hstop
    have hstate : ∀ c', copy (copy s.disk.bytes (512 * i.data.start) c 0 i.data.length.toNat)
        (512 * i.data.start + 20 * k) e 0 cnt = copy s.disk.bytes (512 * i.data.start) c' 0 i.data.length.toNat →
        DirState s i.data c' ((s.withDir i.data c mem).shift.withBytes
          (copy (s.withDir i.data c mem).disk.bytes (512 * i.data.start + 20 * k) e 0 cnt)) := by
      intro c' hc
      refine ⟨fun n => mem (n + 1), fun hp n => hmem hp (n + 1), ?_⟩
      unfold Fs.withDir
      rw [← hc]
      rfl
    obtain rfl | hne := Decidable.em (cnt = 20)
    · exact .inl ⟨by omega, rfl, hstate _ (copy_copy_place _ _ _ (by omega)).symm⟩
    · obtain rfl : cnt = 0 := by
        obtain hone | hp := hone
        · rw [Nat.mod_eq_of_lt (by omega)] at hstop
          omega
        · have := hall (hmem hp)
          omega
      refine .inr ⟨by decide, hstate _ (copy_zero _ _ _ _), fun hp => ?_⟩
      have := hall (hmem hp)
      omega

/-- The root directory is read and written entry by entry. -/
theorem Rep.layer (h : Rep s A refs) (href : (1, a) ∈ refs) (h1 : A.files 1 = some data) :
    Layer fsOps E a 16 s.Plenty (DirState s data) := by
  obtain ⟨i, hi, -, hfile, hdeny⟩ := h.inode_of_ref href
  obtain rfl : i.data = data := Option.some.inj (hfile.symm.trans h1)
  exact fsOps_layer hi (h.files 1 i.data h1).holds hdeny (h.dir i.data h1).1 (.inl (by decide))

section Entries

variable (h : Rep s A refs) (h1 : A.files 1 = some data)
include h h1

theorem Rep.terminated : Terminated (fileBytes s.disk data) 16 := by
  intro k hk name x hx
  rw [(h.dir data h1).2 k hk] at hx
  exact (h.slots k name x hx).2

omit h1 in
theorem Rep.of_dirState (ht : DirState s data (fileBytes s.disk data) t) :
    Leads A s t ∧ t.disk = s.disk ∧ t.inodes = s.inodes ∧ t.freeMapFile = s.freeMapFile ∧ Rep t A refs := by
  obtain ⟨mem, hmem, rfl⟩ := ht
  rw [withDir_self]
  exact ⟨⟨rfl, rfl, hmem, fun _ _ _ _ hsync => hsync⟩, rfl, rfl, rfl, h.reframe _ _⟩

theorem Rep.writeEntry {k : ℕ} {e : Bytes} (ht : DirState s data (copy (fileBytes s.disk data) (20 * k) e 0 20) t)
    (hk : k < 16) (hshort : ∀ name x, entrySlot e = some (name, x) → name.length ≤ NAME_MAX)
    (hok : (A.setSlot k (entrySlot e)).Ok)
    (hremoved : ∀ a i, s.inodes a = .live i → i.removed = true → (A.setSlot k (entrySlot e)).Unnamed i.sector) :
    Leads A s t ∧ t.inodes = s.inodes ∧ Rep t (A.setSlot k (entrySlot e)) refs := by
  obtain ⟨mem, hmem, rfl⟩ := ht
  have hlen : data.length.toNat = 320 := by
    rw [(h.dir data h1).1]
    rfl
  have hbytes : ∀ b, b < 512 * data.start + 20 * k ∨ 512 * data.start + 20 * k + 20 ≤ b →
      (s.withDir data (copy (fileBytes s.disk data) (20 * k) e 0 20) mem).disk.bytes b = s.disk.bytes b := by
    intro b hb
    show copy s.disk.bytes (512 * data.start) (copy (fileBytes s.disk data) (20 * k) e 0 20) 0 data.length.toNat b = _
    rw [copy_copy_place _ _ _ (by omega), copy_of_notMem (by omega)]
    exact congrFun (copy_self s.disk.bytes (512 * data.start) _) b
  have hstart := h.start_mem_extent h1
  refine ⟨⟨rfl, rfl, hmem, fun d h0 _ _ hsync => ?_⟩, rfl, ?_⟩
  · refine hsync.congr h h0 rfl fun b hb => hbytes b ?_
    have hne : b / 512 ≠ data.start := fun he =>
      Set.disjoint_left.mp (h.ok.disjoint h0 h1 (by decide)) (Set.mem_insert_of_mem 0 hb)
        (Set.mem_insert_of_mem 1 (he ▸ hstart))
    omega
  · refine (h.setSlot (d := (s.withDir data _ mem).disk) h1 hk rfl hbytes ?_ hshort hok hremoved).reframe _ _
    have hentry : slot (fileBytes (s.withDir data (copy (fileBytes s.disk data) (20 * k) e 0 20) mem).disk data) k =
        slot (copy (fileBytes s.disk data) (20 * k) e 0 20) k :=
      entrySlot_congr fun j hj => fileBytes_withDir s data _ mem (by omega)
    rw [hentry, slot_write, update_self]

end Entries

/-! ### The functions of the directory -/

section Directory

variable {dir : Dir} {name : List UInt8} (h : Rep s A refs) (h1 : A.files 1 = some data)
  (hdir : (1, dir.inode) ∈ refs) (hname : (0 : UInt8) ∉ name)
include h h1 hdir hname

theorem Rep.dirAdd_ends (h0x : x ≠ 0) (h1x : x ≠ 1) (hx : A.files x ≠ none) (hun : A.Unnamed x)
    (hclosed : ∀ a i, s.inodes a = .live i → i.sector ≠ x) (hlt : x < 2 ^ 32) :
    Ends E (fsOps.dirAdd dir name x) s fun r t => Leads A s t ∧ t.inodes = s.inodes ∧
      ((r = true ∧ ValidName name ∧ ∃ k < 16, (s.Plenty → A.slots k = none ∧ A.Absent name) ∧
          Rep t (A.setSlot k (some (name, x))) refs) ∨
        (r = false ∧ t.disk = s.disk ∧ Rep t A refs ∧ (s.Plenty → ValidName name →
          (∃ l y, A.slots l = some (name, y)) ∨ ∀ l < 16, A.slots l ≠ none))) := by
  have hslots := (h.dir data h1).2
  refine ((h.layer hdir h1).dirAdd_ends (dirState_self s data) (h.terminated h1) hname hlt).mono ?_
  rintro _ t (⟨hvalid, hk, hfree, hentry, ht⟩ | ⟨hwhy, ht⟩)
  · rename_i k e
    have hremoved : ∀ a i, s.inodes a = .live i → i.removed = true →
        (A.setSlot k (some (name, x))).Unnamed i.sector := by
      intro b i hi hrem l name' hl
      obtain ⟨-, ⟨⟩⟩ | ⟨-, hl⟩ := update_cases hl
      · exact hclosed b i hi rfl
      · exact (h.removed b i hi hrem).2.2 l name' hl
    obtain ⟨hlead, hinodes, hrep⟩ := h.writeEntry h1 ht hk
      (fun n y hn => by rw [hentry, Option.some.injEq, Prod.mk.injEq] at hn; exact hn.1 ▸ hvalid.2)
      (by rw [hentry]; exact h.ok.link k name h0x h1x hx hun) (by rw [hentry]; exact hremoved)
    rw [hentry] at hrep
    refine ⟨hlead, hinodes, .inl ⟨rfl, hvalid, k, hk, fun hp => ?_, hrep⟩⟩
    obtain ⟨hnone, habsent⟩ := hfree hp
    refine ⟨hslots k hk ▸ hnone, fun l y hl => ?_⟩
    have hl16 := (h.slots l name y hl).1
    exact habsent l hl16 y ((hslots l hl16).trans hl)
  · obtain ⟨hlead, hdisk, hinodes, -, hrep⟩ := h.of_dirState ht
    refine ⟨hlead, hinodes, .inr ⟨rfl, hdisk, hrep, fun hp hvalid => ?_⟩⟩
    obtain ⟨l, hl, y, hy⟩ | hfull := hwhy hp hvalid
    · exact .inl ⟨l, y, hslots l hl ▸ hy⟩
    · exact .inr fun l hl => hslots l hl ▸ hfull l hl

theorem Rep.lookup_ends : Ends E (fsOps.lookup dir name) s fun r t =>
    Leads A s t ∧ t.disk = s.disk ∧ t.inodes = s.inodes ∧ t.freeMapFile = s.freeMapFile ∧ Rep t A refs ∧
      ((∃ e l x, r = some (e, 20 * l) ∧ l < 16 ∧ A.First name l x ∧ entrySector e = x) ∨
        (r = none ∧ (s.Plenty → A.Absent name))) := by
  have hslots := (h.dir data h1).2
  refine (((h.layer hdir h1).reads _).lookup_ends (h.terminated h1) hname (dirState_self s data)).mono ?_
  rintro r t ⟨ht, hfound⟩
  obtain ⟨hlead, hdisk, hinodes, hfile, hrep⟩ := h.of_dirState ht
  refine ⟨hlead, hdisk, hinodes, hfile, hrep, ?_⟩
  cases r with
  | none =>
    refine .inr ⟨rfl, fun hp l y hl => ?_⟩
    have hl16 := (h.slots l name y hl).1
    exact hfound hp l (Nat.zero_le l) hl16 y ((hslots l hl16).trans hl)
  | some r =>
    obtain ⟨e, ofs⟩ := r
    obtain ⟨l, rfl, -, hl, hbytes, ⟨x, hx⟩, hfirst⟩ := hfound
    refine .inl ⟨e, l, x, rfl, hl, ⟨hslots l hl ▸ hx, fun i hi y hy => ?_⟩, ?_⟩
    · exact hfirst i (Nat.zero_le i) hi y ((hslots i (by omega)).trans hy)
    · exact entrySector_of_slot hbytes hx

theorem Rep.dirLookup_ends : Ends E (fsOps.dirLookup dir name) s fun r t => Leads A s t ∧ t.disk = s.disk ∧
    ((∃ l x a, r = some a ∧ A.First name l x ∧ Rep t A ((x, a) :: refs)) ∨
      (r = none ∧ Rep t A refs ∧ (s.Plenty → A.Absent name))) := by
  refine .bind (h.lookup_ends h1 hdir hname) ?_
  rintro r t ⟨hlead, hdisk, -, -, hrep, ⟨e, l, x, rfl, -, ⟨hx, hfirst⟩, hsector⟩ | ⟨rfl, hnone⟩⟩
  · obtain ⟨d, hd⟩ := Option.ne_none_iff_exists'.mp (h.ok.named l name x hx).2.2
    show Ends E (inodeOpen (entrySector e)) t _
    rw [hsector]
    refine (inodeOpen_ends hrep hd).mono ?_
    rintro r u ⟨hlead', hdisk', ⟨a, rfl, hrep'⟩ | ⟨rfl, hrep', hshort⟩⟩
    · exact ⟨hlead.trans hlead' rfl, hdisk'.trans hdisk, .inl ⟨l, x, a, rfl, ⟨hx, hfirst⟩, hrep'⟩⟩
    · exact ⟨hlead.trans hlead' rfl, hdisk'.trans hdisk,
        .inr ⟨rfl, hrep', fun hp => absurd (hlead.plenty hp) hshort⟩⟩
  · exact .pure ⟨hlead, hdisk, .inr ⟨rfl, hrep, hnone⟩⟩

omit hname in
theorem Rep.clearEntry_ends {l : ℕ} (hl : l < 16) (e : Bytes) :
    Ends E (writeAt dir.inode (update e 19 0) 20 (20 * l : ℕ)) s fun r t => Leads A s t ∧
      ((r = 20 ∧ t.inodes = s.inodes ∧ Rep t (A.setSlot l none) refs) ∨
        (r ≠ 20 ∧ ¬ s.Plenty ∧ t.disk = s.disk ∧ Rep t A refs)) := by
  have hclear : entrySlot (update e 19 0) = none := entrySlot_clear e
  refine ((h.layer hdir h1).write _ s (update e 19 0) l (dirState_self s data) (by omega)).mono ?_
  rintro r t (⟨-, hr, ht⟩ | ⟨hr, ht, hend⟩)
  · obtain ⟨hlead, hinodes, hrep⟩ := h.writeEntry h1 ht hl (by rw [hclear]; nofun)
      (by rw [hclear]; exact h.ok.unlink l) (by
        exact fun b i hi hrem m n hm => (h.removed b i hi hrem).2.2 m n (Store.slots_unlink hm).2)
    exact ⟨hlead, .inl ⟨hr, hinodes, hrep⟩⟩
  · obtain ⟨hlead, hdisk, -, -, hrep⟩ := h.of_dirState ht
    refine ⟨hlead, .inr ⟨hr, fun hp => ?_, hdisk, hrep⟩⟩
    have := hend hp
    omega

theorem Rep.dirRemove_ends (hf : FileReady s refs) : Ends E (fsOps.dirRemove dir name) s fun r t => Leads A s t ∧
    ((r = true ∧ ∃ l x B, A.First name l x ∧ Closed (A.setSlot l none) B x ∧ Rep t B refs) ∨
      (r = false ∧ Undisturbed A s t ∧ Rep t A refs ∧ (s.Plenty → A.Absent name))) := by
  refine .bind (h.lookup_ends h1 hdir hname) ?_
  rintro r t ⟨hlead, hdisk, -, -, hrep, ⟨e, l, x, rfl, hl, ⟨hx, hfirst⟩, hsector⟩ | ⟨rfl, hnone⟩⟩
  case inr => exact .pure ⟨hlead, .inr ⟨rfl, .of_eq hdisk, hrep, hnone⟩⟩
  obtain ⟨h0x, h1x, hfile⟩ := h.ok.named l name x hx
  obtain ⟨d, hd⟩ := Option.ne_none_iff_exists'.mp hfile
  dsimp only
  rw [hsector]
  refine .bind (inodeOpen_ends hrep hd) ?_
  rintro r u ⟨hlead', hdisk', ⟨a, rfl, hrep⟩ | ⟨rfl, hrep, hshort⟩⟩
  case inr =>
    exact .pure ⟨hlead.trans hlead' rfl, .inr ⟨rfl, .of_eq (hdisk'.trans hdisk), hrep,
      fun hp => absurd (hlead.plenty hp) hshort⟩⟩
  have hopen := hlead.trans hlead' rfl
  have hdisk := hdisk'.trans hdisk
  refine .bind (hrep.clearEntry_ends h1 (List.mem_cons_of_mem _ hdir) hl e) ?_
  rintro r v ⟨hlead', hwrite⟩
  have hlead := hopen.trans hlead' rfl
  have hf' : FileReady v refs := hf.congr hlead (List.Subset.refl _)
  obtain ⟨rfl, -, hrep⟩ | ⟨hr, hshort, hdisk', hrep⟩ := hwrite
  · refine .bind (inodeRemove_ends hrep List.mem_cons_self h0x h1x (h.ok.unnamed_of_unlink hx)) ?_
    rintro _ w ⟨hlead', -, hrep⟩
    have hlead := hlead.trans hlead' rfl
    refine .bind (inodeClose_ends hrep (.inr (.inr (hf'.congr hlead' (List.Subset.refl _))))) ?_
    rintro _ z ⟨hlead', B, hclosed, -, hrep⟩
    exact .pure ⟨hlead.trans hlead' rfl, .inl ⟨rfl, l, x, B, ⟨hx, hfirst⟩, hclosed, hrep⟩⟩
  · rw [if_neg hr]
    refine .bind (inodeClose_ends hrep (.inr (.inr hf'))) ?_
    rintro _ w ⟨hlead', B, hclosed, hundisturbed, hdone⟩
    obtain rfl := hclosed.eq (.inr (.inr fun hun => hun l name hx))
    refine .pure ⟨hlead.trans hlead' rfl, .inr ⟨rfl, ?_, hdone, fun hp => absurd (hopen.plenty hp) hshort⟩⟩
    exact (Undisturbed.of_eq (hdisk'.trans hdisk)).trans hundisturbed rfl

end Directory

/-! ### Creating a file -/

/-- How far `filesys_create` comes before it names the file. -/
inductive Reserved where
  /-- Not far: there is no directory, or no sector for the inode. -/
  | nothing (dir : Option Dir)
  /-- There is a sector for the inode, but none for the data. -/
  | sector (dir : Dir) (inodeSector : ℕ)
  /-- The inode is made. -/
  | file (dir : Dir) (inodeSector : ℕ)

/-- `filesys_create` up to `inode_create`. -/
def reserve (initialSize : ℤ) : FsM Reserved := do
  match ← dirOpenRoot with
  | none => return .nothing none
  | some dir =>
    match ← freeMapAllocate 1 with
    | none => return .nothing (some dir)
    | some inodeSector =>
      if ← inodeCreate inodeSector initialSize then return .file dir inodeSector
      else return .sector dir inodeSector

/-- `filesys_create` from `dir_add` on. -/
def finish (name : List UInt8) : Reserved → FsM Bool
  | .nothing dir => do
    dirClose dir
    return false
  | .sector dir inodeSector => do
    (if inodeSector ≠ 0 then freeMapRelease inodeSector 1 else return ())
    dirClose (some dir)
    return false
  | .file dir inodeSector => do
    let success ← fsOps.dirAdd dir name inodeSector
    (if ¬ success ∧ inodeSector ≠ 0 then freeMapRelease inodeSector 1 else return ())
    dirClose (some dir)
    return success

theorem filesysCreate_eq (name : List UInt8) (initialSize : ℤ) :
    filesysCreate name initialSize = reserve initialSize >>= finish name := by
  unfold filesysCreate reserve
  rw [bind_assoc]
  congr 1
  funext dir
  cases dir with
  | none => rfl
  | some dir =>
    unfold createFile
    simp only [bind_assoc]
    congr 1
    funext sector
    cases sector with
    | none => rfl
    | some sector =>
      simp only [bind_assoc]
      congr 1
      funext created
      cases created with
      | true | false => simp [finish]

/-- The store with a new file that has no name. -/
def Store.added (A : Store) (x : ℕ) (data : InodeDisk) : Store :=
  ((A.take (Set.Ico x (x + 1))).take data.extent).create x data

/-- A file can be added: its sectors are new. -/
structure New (A : Store) (x : ℕ) (data : InodeDisk) : Prop where
  /-- The sector of the inode is not used. -/
  sector : Disjoint (Set.Ico x (x + 1)) A.used
  /-- Nor are the sectors of the data. -/
  extent : Disjoint data.extent (A.used ∪ Set.Ico x (x + 1))

theorem New.notMem (h : New A x data) : x ∉ A.used := fun hx =>
  Set.disjoint_left.mp h.sector ⟨Nat.le_refl x, Nat.lt_succ_self x⟩ hx

/-- What `filesys_create` has at this point. -/
def Reserved.Holds (A : Store) (refs : List (ℕ × ℕ)) (length : ℤ) (t : Fs) : Reserved → Prop
  | .nothing none => Rep t A refs
  | .nothing (some dir) => Rep t A ((1, dir.inode) :: refs)
  | .sector dir x => Disjoint (Set.Ico x (x + 1)) A.used ∧ x < t.disk.capacity ∧
      Rep t (A.take (Set.Ico x (x + 1))) ((1, dir.inode) :: refs)
  | .file dir x => ∃ data : InodeDisk, data.length = length ∧ New A x data ∧
      (∀ a i, t.inodes a = .live i → i.sector ≠ x) ∧ Rep t (A.added x data) ((1, dir.inode) :: refs)

/-- There is room for a file with `n` sectors of data. -/
structure Store.Room (A : Store) (capacity n : ℕ) : Prop where
  /-- A sector for the inode. -/
  sector : ∃ x < capacity, x ∉ A.used
  /-- Sectors for the data, whichever sector the inode gets. -/
  data : ∀ x, x ∉ A.used → ∃ i, i + n ≤ capacity ∧ ∀ k, i ≤ k → k < i + n → k ∉ A.used ∧ k ≠ x

section Create

/-- The sectors of the free map and of the directory are used. -/
theorem Ready.mem_used (h : Ready s A refs) : 0 ∈ A.used ∧ 1 ∈ A.used := by
  obtain ⟨f, -, href⟩ := h.file
  obtain ⟨i, -, -, h0, -⟩ := h.rep.inode_of_ref href
  obtain ⟨data, h1⟩ := h.root
  exact ⟨h.rep.ok.region_subset h0 (Set.mem_insert 0 _), h.rep.ok.region_subset h1 (Set.mem_insert 1 _)⟩

variable (h : Ready s A refs) {length : ℤ}
include h

theorem Ready.ne_of_notMem (hx : x ∉ A.used) : x ≠ 0 ∧ x ≠ 1 :=
  ⟨fun he => hx (he ▸ h.mem_used.1), fun he => hx (he ▸ h.mem_used.2)⟩

theorem reserve_ends (h0 : 0 ≤ length) (hsmall : length < 2 ^ 31) (hE : 2 ^ 28 < s.disk.capacity → E .selectSector) :
    Ends E (reserve length) s fun r t => Leads A s t ∧ Undisturbed A s t ∧ r.Holds A refs length t ∧
      (s.Plenty → A.Room s.disk.capacity (bytesToSectors length) → ∃ dir x, r = .file dir x) := by
  obtain ⟨data, h1⟩ := h.root
  refine .bind (dirOpenRoot_ends h.rep h1) ?_
  rintro _ t ⟨hlead, ⟨dir, rfl, hdisk, hrep⟩ | ⟨rfl, hshort, hundisturbed, hrep⟩⟩
  case inr => exact .pure ⟨hlead, hundisturbed, hrep, fun hp => absurd hp hshort⟩
  have hcap : t.disk.capacity = s.disk.capacity := hlead.capacity
  have hf : FileReady t ((1, dir.inode) :: refs) := h.file.congr hlead (List.subset_cons_self _ _)
  refine .bind (freeMapAllocate_ends hrep hf.mem 1) ?_
  rintro _ u ⟨hlead', hundisturbed, hinodes, ⟨x, rfl, hx, hfree, hrep', -⟩ | ⟨rfl, hrep', hnone⟩⟩
  case inr =>
    refine .pure ⟨hlead.trans hlead' rfl, (Undisturbed.of_eq hdisk).trans hundisturbed rfl, hrep',
      fun hp hroom => ?_⟩
    obtain ⟨x, hx, hmem⟩ := hroom.sector
    refine absurd (hrep.group (hcap ▸ hx) fun k hk hk' => ?_) (hnone (hlead.plenty hp) x)
    obtain rfl : k = x := by omega
    exact hmem
  have hf := hf.congr hlead' (List.Subset.refl _)
  have hlead := hlead.trans hlead' rfl
  have hundisturbed := (Undisturbed.of_eq hdisk).trans hundisturbed rfl
  have hcap' : u.disk.capacity = s.disk.capacity := hlead.capacity
  have hmem : x ∈ Set.Ico x (x + 1) := ⟨Nat.le_refl x, Nat.lt_succ_self x⟩
  refine .bind (inodeCreate_ends hrep' hf.mem (.inr hmem) h0 hsmall (hcap'.symm ▸ hE)) ?_
  rintro _ v ⟨hlead', hundisturbed', hinodes', ⟨rfl, data', hlen, hdisj, hrep'', hon, -, -⟩ | ⟨rfl, hrep'', hnone⟩⟩
  · have hnew : New A x data' := ⟨hfree, hdisj⟩
    obtain ⟨hx0, hx1⟩ := h.ne_of_notMem hnew.notMem
    have hown : x ∉ data'.extent := fun hmem' => Set.disjoint_left.mp hdisj hmem' (.inr hmem)
    have hregion : region x data' ⊆ ((A.take (Set.Ico x (x + 1))).take data'.extent).reserved :=
      Set.insert_subset (.inl (.inr hmem)) Set.subset_union_right
    refine .pure ⟨hlead.trans hlead' rfl, hundisturbed.trans hundisturbed' rfl, ⟨data', hlen, hnew,
      fun a i hi he => ?_, hrep''.create hregion hown hon (fun he => absurd he hx0) fun he => absurd he hx1⟩,
      fun _ _ => ⟨dir, x, rfl⟩⟩
    have hfile : A.files i.sector = some i.data := (hrep''.inodes a i hi).1
    exact hnew.notMem (h.rep.ok.region_subset hfile (he ▸ Set.mem_insert _ _))
  · refine .pure ⟨hlead.trans hlead' rfl, hundisturbed.trans hundisturbed' rfl,
      ⟨hfree, ?_, hrep''⟩, fun hp hroom => ?_⟩
    · rw [hlead'.capacity, hcap', ← hcap]
      exact hx
    · obtain ⟨i, hi, hdata⟩ := hroom.data x fun hused => Set.disjoint_left.mp hfree hmem hused
      refine absurd (hrep'.group (hcap' ▸ hi) fun k hk hk' hused => ?_) (hnone (hlead.plenty hp) i)
      obtain ⟨hnot, hne⟩ := hdata k hk hk'
      obtain hused | hused := hused
      · exact hnot hused
      · exact hne (Nat.le_antisymm (Nat.le_of_lt_succ hused.2) hused.1)

theorem release_ends {dir : Dir} {B : Store} (hrep : Rep t B ((1, dir.inode) :: refs)) (hlead : Leads A s t)
    (hx : x < t.disk.capacity) (hr : Set.Ico x (x + 1) ⊆ B.reserved) (b : Bool) :
    Ends E (do freeMapRelease x 1; dirClose (some dir); return b) t fun r u => r = b ∧ Leads B t u ∧
      Undisturbed B t u ∧ Rep u (B.free (Set.Ico x (x + 1))) refs := by
  refine .bind (freeMapRelease_ends hrep (h.file.congr hlead (List.subset_cons_self _ _)) hx hr) ?_
  rintro _ u ⟨hlead', hundisturbed, -, hrep'⟩
  refine .bind (dirClose_ends hrep') ?_
  rintro _ v ⟨hlead'', hundisturbed', hrep''⟩
  exact .pure ⟨rfl, hlead'.trans hlead'' rfl, hundisturbed.trans hundisturbed' rfl, hrep''⟩

/-- What `filesys_create` does to the store, from where it came to. -/
inductive Created (A : Store) (refs : List (ℕ × ℕ)) (name : List UInt8) (length : ℤ) (s t : Fs) :
    Reserved → Bool → Prop
  /-- There is a new file. -/
  | file {dir : Dir} {x k : ℕ} {data : InodeDisk} (valid : ValidName name) (hlength : data.length = length)
      (new : New A x data) (hk : k < 16)
      (free : s.Plenty → A.slots k = none ∧ A.Absent name)
      (rep : Rep t ((A.added x data).setSlot k (some (name, x))) refs) : Created A refs name length s t (.file dir x) true
  /-- The data of a file that was made and could not be named stay reserved. -/
  | leaked {dir : Dir} {x : ℕ} {data : InodeDisk} (hlength : data.length = length) (new : New A x data)
      (why : s.Plenty → ValidName name → (∃ l y, A.slots l = some (name, y)) ∨ ∀ l < 16, A.slots l ≠ none)
      (undisturbed : Undisturbed A s t) (rep : Rep t (A.take data.extent) refs) :
      Created A refs name length s t (.file dir x) false
  /-- Nothing happened. -/
  | failed {r : Reserved} (hr : ∀ dir x, r ≠ .file dir x) (undisturbed : Undisturbed A s t) (rep : Rep t A refs) :
      Created A refs name length s t r false

theorem finish_ends {name : List UInt8} (hname : (0 : UInt8) ∉ name) (hlead : Leads A s t)
    (hundisturbed : Undisturbed A s t) {r : Reserved} (hr : r.Holds A refs length t) :
    Ends E (finish name r) t fun b u => Leads A s u ∧ Created A refs name length s u r b := by
  have hmem : ∀ x : ℕ, x ∈ Set.Ico x (x + 1) := fun x => ⟨Nat.le_refl x, Nat.lt_succ_self x⟩
  cases r with
  | nothing dir =>
    cases dir with
    | none => exact .pure ⟨hlead, .failed (by simp) hundisturbed hr⟩
    | some dir =>
      refine .bind (dirClose_ends hr) ?_
      rintro _ u ⟨hlead', hundisturbed', hrep'⟩
      have hundisturbed'' := hundisturbed.trans hundisturbed' rfl
      exact .pure ⟨hlead.trans hlead' rfl, .failed (by simp) hundisturbed'' hrep'⟩
  | sector dir x =>
    obtain ⟨hfree, hx, hrep⟩ := hr
    have hx0 : x ≠ 0 := fun he => Set.disjoint_left.mp hfree (he ▸ hmem x) h.mem_used.1
    unfold finish
    dsimp only
    rw [if_pos hx0]
    refine (release_ends h hrep hlead hx (fun y hy => .inr hy) false).mono ?_
    rintro _ u ⟨rfl, hlead', hundisturbed', hrep'⟩
    rw [h.rep.ok.free_take hfree] at hrep'
    exact ⟨hlead.trans hlead' rfl, .failed (by simp) (hundisturbed.trans hundisturbed' rfl) hrep'⟩
  | file dir x =>
    obtain ⟨data, hlen, hnew, hclosed, hrep⟩ := hr
    obtain ⟨hx0, hx1⟩ := h.ne_of_notMem hnew.notMem
    obtain ⟨d, h1⟩ := h.root
    have hfile : (A.added x data).files x = some data := by
      show update A.files x (some data) x = some data
      rw [update_self]
    have hother : ∀ y, y ≠ x → (A.added x data).files y = A.files y := fun y hy => update_of_ne hy _ _
    have hnone : A.files x = none := by
      cases hx : A.files x with
      | none => rfl
      | some d => exact absurd (h.rep.ok.region_subset hx (Set.mem_insert x _)) hnew.notMem
    have hun : A.Unnamed x := fun l n hl => (h.rep.ok.named l n x hl).2.2 hnone
    have hdisk := hrep.files x data hfile
    have hlt : x < 2 ^ 32 := Nat.lt_trans hdisk.accessible.2 (by decide)
    refine .bind (hrep.dirAdd_ends ((hother 1 hx1.symm).trans h1) List.mem_cons_self hname hx0 hx1
      (by rw [hfile]; nofun) hun hclosed hlt) ?_
    rintro _ u ⟨hlead', hinodes, ⟨rfl, hvalid, k, hk, hfree, hrep'⟩ | ⟨rfl, hdisk', hrep', hwhy⟩⟩
    · rw [if_neg fun hand => hand.1 rfl, pure_bind]
      refine .bind (dirClose_ends hrep') ?_
      rintro _ v ⟨hlead'', -, hrep''⟩
      refine .pure ⟨(hlead.trans hlead' (hother 0 hx0.symm).symm).trans hlead'' (hother 0 hx0.symm).symm, ?_⟩
      exact .file hvalid hlen hnew hk (fun hp => hfree (hlead.plenty hp)) hrep''
    · have hgone := hrep'.remove hfile hun (hinodes ▸ hclosed)
      have hfiles : ((A.added x data).remove x data).files = A.files := by
        show update (update A.files x (some data)) x none = A.files
        rw [update_idem, ← hnone, update_eq_self]
      rw [if_pos ⟨Bool.false_ne_true, hx0⟩]
      have hle : x < u.disk.capacity := by
        rw [hdisk']
        exact hdisk.accessible.1
      refine (release_ends h hgone (hlead.trans hlead' (hother 0 hx0.symm).symm) hle ?_ false).mono ?_
      · exact fun y hy => .inr (.inl (Nat.le_antisymm (Nat.le_of_lt_succ hy.2) hy.1))
      · rintro _ v ⟨rfl, hlead'', hundisturbed', hrep''⟩
        rw [show ((A.added x data).remove x data).free _ = _ from
          h.rep.ok.free_remove_create hnew.sector (hmem x) hnew.extent]
          at hrep''
        refine ⟨(hlead.trans hlead' (hother 0 hx0.symm).symm).trans hlead'' (congrFun hfiles 0).symm, ?_⟩
        refine .leaked hlen hnew (fun hp => hwhy (hlead.plenty hp)) (hundisturbed.trans ?_ hfiles.symm) hrep''
        exact (Undisturbed.of_eq hdisk').trans hundisturbed' rfl

/-- **`filesys_create`** adds a file with a name, or leaves the files as they were. -/
theorem filesysCreate_ends {name : List UInt8} (hname : (0 : UInt8) ∉ name) (h0 : 0 ≤ length) (hsmall : length < 2 ^ 31)
    (hE : 2 ^ 28 < s.disk.capacity → E .selectSector) :
    Ends E (filesysCreate name length) s fun b t => Leads A s t ∧ ∃ r, Created A refs name length s t r b := by
  rw [filesysCreate_eq]
  refine .bind (reserve_ends h h0 hsmall hE) ?_
  rintro r t ⟨hlead, hundisturbed, hr, -⟩
  refine (finish_ends h hname hlead hundisturbed hr).mono ?_
  rintro b u ⟨hlead', hcreated⟩
  exact ⟨hlead', r, hcreated⟩

end Create

/-! ### Opening and removing a file -/

section Name

variable {name : List UInt8} (h : Ready s A refs) (hname : (0 : UInt8) ∉ name)
include h hname

/-- **`filesys_open`** adds a reference to the file that has the name. -/
theorem filesysOpen_ends : Ends E (filesysOpen name) s fun r t => Leads A s t ∧ Undisturbed A s t ∧
    ((∃ l x a, r = some ⟨a, 0, false⟩ ∧ A.First name l x ∧ Rep t A ((x, a) :: refs)) ∨
      (r = none ∧ Rep t A refs ∧ (s.Plenty → A.Absent name))) := by
  obtain ⟨data, h1⟩ := h.root
  refine .bind (dirOpenRoot_ends h.rep h1) ?_
  rintro _ t ⟨hroot, ⟨dir, rfl, hdisk, hrep⟩ | ⟨rfl, hshort, hundisturbed, hrep⟩⟩
  case inr =>
    refine (openWith_none _ hrep).mono ?_
    rintro _ u ⟨rfl, hlead', hdisk, hrep'⟩
    exact ⟨hroot.trans hlead' rfl, hundisturbed.trans (.of_eq hdisk) rfl,
      .inr ⟨rfl, hrep', fun hp => absurd hp hshort⟩⟩
  refine .bind (hrep.dirLookup_ends h1 List.mem_cons_self hname) ?_
  rintro _ u ⟨hlead', hdisk', hfound⟩
  have hlead := hroot.trans hlead' rfl
  have hsame : Undisturbed A s u := Undisturbed.of_eq (hdisk'.trans hdisk)
  obtain ⟨l, x, a, rfl, ⟨hx, hfirst⟩, hrep'⟩ | ⟨rfl, hrep', hnone⟩ := hfound
  · refine .bind (dirClose_ends (hrep'.perm (List.Perm.swap _ _ _))) ?_
    rintro _ v ⟨hlead', hundisturbed, hrep''⟩
    have hlead := hlead.trans hlead' rfl
    have hsame := hsame.trans hundisturbed rfl
    refine (openWith_ends _ hrep'' (.inr (.inr (h.file.congr hlead (List.Subset.refl _))))).mono ?_
    rintro _ w ⟨hlead', ⟨rfl, hdisk, hdone⟩ | ⟨rfl, hshort, B, hclosed, hundisturbed', hdone⟩⟩
    · exact ⟨hlead.trans hlead' rfl, hsame.trans (.of_eq hdisk) rfl,
        .inl ⟨l, x, a, rfl, ⟨hx, hfirst⟩, hdone⟩⟩
    · obtain rfl := hclosed.eq (.inr (.inr fun hun => hun l name hx))
      exact ⟨hlead.trans hlead' rfl, hsame.trans hundisturbed' rfl,
        .inr ⟨rfl, hdone, fun hp => absurd (hlead.plenty hp) hshort⟩⟩
  · refine .bind (dirClose_ends hrep') ?_
    rintro _ v ⟨hlead', hundisturbed, hrep''⟩
    refine (openWith_none _ hrep'').mono ?_
    rintro _ w ⟨rfl, hlead'', hdisk, hdone⟩
    refine ⟨(hlead.trans hlead' rfl).trans hlead'' rfl, ?_, .inr ⟨rfl, hdone, fun hp => hnone (hroot.plenty hp)⟩⟩
    exact (hsame.trans hundisturbed rfl).trans (.of_eq hdisk) rfl

/-- **`filesys_remove`** clears the slot with the name. -/
theorem filesysRemove_ends : Ends E (filesysRemove name) s fun r t => Leads A s t ∧
    ((r = true ∧ ∃ l x B, A.slots l = some (name, x) ∧ Closed (A.setSlot l none) B x ∧ Rep t B refs) ∨
      (r = false ∧ Undisturbed A s t ∧ Rep t A refs ∧ (s.Plenty → A.Absent name))) := by
  obtain ⟨data, h1⟩ := h.root
  refine .bind (dirOpenRoot_ends h.rep h1) ?_
  rintro _ t ⟨hlead, ⟨dir, rfl, hdisk, hrep⟩ | ⟨rfl, hshort, hundisturbed, hrep⟩⟩
  case inr => exact .pure ⟨hlead, .inr ⟨rfl, hundisturbed, hrep, fun hp => absurd hp hshort⟩⟩
  refine .bind (hrep.dirRemove_ends h1 List.mem_cons_self hname (h.file.congr hlead (List.subset_cons_self _ _))) ?_
  rintro _ u ⟨hlead', ⟨rfl, l, x, B, ⟨hx, -⟩, hclosed, hrep'⟩ | ⟨rfl, hundisturbed, hrep', hnone⟩⟩
  · refine .bind (dirClose_ends hrep') ?_
    rintro _ v ⟨hlead'', -, hrep''⟩
    exact .pure ⟨(hlead.trans hlead' rfl).trans hlead'' (hclosed.files_eq (.inl rfl)).symm,
      .inl ⟨rfl, l, x, B, hx, hclosed, hrep''⟩⟩
  · refine .bind (dirClose_ends hrep') ?_
    rintro _ v ⟨hlead'', hundisturbed', hrep''⟩
    have hundisturbed := (Undisturbed.of_eq hdisk).trans hundisturbed rfl
    exact .pure ⟨(hlead.trans hlead' rfl).trans hlead'' rfl, .inr ⟨rfl,
      hundisturbed.trans hundisturbed' rfl, hrep'', fun hp => hnone (hlead.plenty hp)⟩⟩

end Name

/-! ### Writing to a file -/

theorem fileWriteAt_ends (h : Rep s A refs) (href : (x, file.inode) ∈ refs) (h0 : x ≠ 0) (h1 : x ≠ 1)
    (buffer : Bytes) (size offset : ℕ) :
    Ends E (fileWriteAt file buffer size offset) s fun _ t => Leads A s t ∧ Rep t A refs := by
  obtain ⟨i, hi, -, hfile, hdeny⟩ := h.inode_of_ref href
  have hdisk := h.files x i.data hfile
  have hlen := length_le_bytesToSectors hdisk.holds.length_nonneg hdisk.small
  refine (writeAt_ends hi hdisk.holds buffer size offset hdeny).mono ?_
  rintro _ _ ⟨n, ⟨hn, -⟩, -, rfl⟩
  have hbytes : ∀ b, b / 512 ∉ i.data.extent →
      copy s.disk.bytes (512 * i.data.start + offset) buffer 0 n b = s.disk.bytes b := by
    intro b hb
    have hnot : ¬ (i.data.start ≤ b / 512 ∧ b / 512 < i.data.start + bytesToSectors i.data.length) := hb
    unfold flatCount at hn
    exact copy_of_notMem (by omega)
  -- The data are those of no other file.
  have hother : ∀ y d, A.files y = some d → y ≠ x → ∀ k ∈ region y d, k ∉ i.data.extent := fun y d hy hne k hk hmem =>
    Set.disjoint_left.mp (h.ok.disjoint hy hfile hne) hk (Set.mem_insert_of_mem x hmem)
  refine ⟨⟨rfl, rfl, fun hp n => hp (n + 1), fun d hd _ _ hsync => ?_⟩, ?_⟩
  · refine hsync.congr h hd rfl fun b hb => hbytes b ?_
    exact hother 0 d hd h0.symm _ (Set.mem_insert_of_mem 0 hb)
  · refine (h.write (d := (s.withBytes (copy s.disk.bytes (512 * i.data.start + offset) buffer 0 n)).disk)
      i.data.extent rfl hbytes ?_ ?_).reframe _ _
    · exact fun y d hy => h.ok.notMem_extent hy hfile
    · exact fun d hd => hother 1 d hd h1.symm _ (Set.mem_insert_of_mem 1 (h.start_mem_extent hd))

end Pintos.Filesys
