import Pintos.Basis.ReadersWriters
import Pintos.Filesys.InodeFlat

/-!
# Concurrent access to an inode

`inode_read_at` and `inode_write_at` (`filesys/inode.c`) on one inode, called by
any number of threads. Readers share the inode and a writer has it for itself: the
semaphore `r_sema` protects `n_readers`, and `w_sema` is held by a writer, or by
the readers from the first one to the last one.

## The model

A thread is where its program counter says, with the local variables of its call.
A step is an operation on a semaphore, a test or an update of `n_readers`, or an
access to the disk in a loop: a reader's passage through its loop is one step, a
writer's passage is two, since between reading a sector into the bounce buffer and
writing it back other threads may run. A thread that calls `sema_down` on a
semaphore that is zero waits (`threads/synch.c`), so the step is disabled.

Two history variables are read by no step: `writes`, the writes that have
completed, and `seen`, what `writes` was when a reader entered its loop.

## What is proved

The control flow is the protocol of `Pintos.Basis.ReadersWriters` (`view_move`), so a
writer in its loop is alone. On top of it: while nobody writes, the file is what
the completed writes made of it; and a reader gets the bytes of the file as it was
when it entered, which nobody changes until it is through
(**`readers_writers`**).
-/

namespace Pintos.Filesys.InodeSync

open Function Memory ReadersWriters

/-! ### The state -/

/-- Where a thread is in its call. -/
inductive Pc where
  /-- In no call. -/
  | idle
  /-- `inode_read_at`: `sema_down (&inode->r_sema)`, the first time. -/
  | readDownR
  /-- `if (inode->n_readers == 0)`, the first time. -/
  | readTest
  /-- `sema_down (&inode->w_sema)`. -/
  | readDownW
  /-- `inode->n_readers++`. -/
  | readInc
  /-- `sema_up (&inode->r_sema)`, the first time. -/
  | readUpR
  | readLoop
  /-- `sema_down (&inode->r_sema)`, the second time. -/
  | exitDownR
  /-- `inode->n_readers--`. -/
  | exitDec
  /-- `if (inode->n_readers == 0)`, the second time. -/
  | exitTest
  /-- `sema_up (&inode->w_sema)`. -/
  | exitUpW
  /-- `sema_up (&inode->r_sema)`, the second time. -/
  | exitUpR
  /-- `inode_read_at` has returned. -/
  | readReturn
  /-- `inode_write_at`: `sema_down (&inode->w_sema)`. -/
  | writeDownW
  | writeLoop
  /-- In the loop, with a block to write to the sector of a chunk. -/
  | writeSector (c : Chunk) (block : Bytes)
  /-- `sema_up (&inode->w_sema)`. -/
  | writeUpW
  /-- `inode_write_at` has returned. -/
  | writeReturn

/-- A write: the bytes `0` to `count - 1` of the buffer went to `offset`. -/
structure Write where
  /-- Where in the file. -/
  offset : ℕ
  /-- The caller's buffer. -/
  buffer : Bytes
  /-- How many bytes. -/
  count : ℕ

structure Thread where
  /-- Where it is. -/
  pc : Pc
  /-- `size`: the bytes still to transfer. -/
  size : ℤ
  /-- `offset`: where in the file it is. -/
  offset : ℤ
  buffer : Bytes
  bounce : Option Bytes
  /-- `bytes_read` or `bytes_written`. -/
  done : ℤ
  /-- The offset of the call. -/
  first : ℕ
  /-- History: the writes that had completed when it entered the loop. -/
  seen : List Write

/-- The inode and its threads. -/
structure State (ι : Type) where
  disk : Disk
  wSema : ℕ
  rSema : ℕ
  nReaders : ℤ
  thread : ι → Thread
  /-- History: the writes that have completed. -/
  writes : List Write

/-- What can happen. -/
inductive Act (ι : Type) where
  /-- Thread `t` calls `inode_read_at`. -/
  | read (t : ι) (buffer : Bytes) (size : ℤ) (offset : ℕ)
  /-- Thread `t` calls `inode_write_at`. -/
  | write (t : ι) (buffer : Bytes) (size : ℤ) (offset : ℕ)
  /-- Thread `t` goes on; `mem` is what `malloc` returns if it is called. -/
  | run (t : ι) (mem : Option Bytes)

variable {ι : Type} [DecidableEq ι]

/-- Thread `t` becomes `th`. -/
def State.setThread (s : State ι) (t : ι) (th : Thread) : State ι := { s with thread := update s.thread t th }

/-- Thread `t` goes to `pc`. -/
def State.goto (s : State ι) (t : ι) (pc : Pc) : State ι := s.setThread t { s.thread t with pc := pc }

/-! ### The steps -/

/-- A thread at the start of a call. -/
def Thread.start (pc : Pc) (buffer : Bytes) (size : ℤ) (offset : ℕ) : Thread :=
  { pc := pc, size := size, offset := offset, buffer := buffer, bounce := none, done := 0, first := offset, seen := [] }

/-- A thread after a chunk. -/
def Thread.advance (th : Thread) (c : Chunk) : Thread :=
  { th with size := th.size - c.chunkSize, offset := th.offset + c.chunkSize, done := th.done + c.chunkSize }

/-- A thread may call. -/
def Pc.ready : Pc → Bool
  | idle | readReturn | writeReturn => true
  | _ => false

/-- A passage through the loop of `inode_read_at`. -/
def readPassage (inode : Inode) (s : State ι) (t : ι) (mem : Option Bytes) : Outcome (State ι) :=
  let th := s.thread t
  let c := chunk inode.data th.size th.offset
  if 0 < th.size ∧ 0 < c.chunkSize then
    match readChunk s.disk mem c th.done (th.bounce, th.buffer) with
    | .error _ => .fault
    | .ok none => .next (s.goto t .exitDownR)
    | .ok (some (bounce, buffer)) => .next (s.setThread t { th.advance c with bounce := bounce, buffer := buffer })
  else .next (s.goto t .exitDownR)

/-- The first half of a passage through the loop of `inode_write_at`. -/
def writePassage (inode : Inode) (s : State ι) (t : ι) (mem : Option Bytes) : Outcome (State ι) :=
  let th := s.thread t
  let c := chunk inode.data th.size th.offset
  if 0 < th.size ∧ 0 < c.chunkSize then
    match writeBlock s.disk mem th.buffer c th.done th.bounce with
    | .error _ => .fault
    | .ok none => .next (s.goto t .writeUpW)
    | .ok (some (bounce, block)) => .next (s.setThread t { th with bounce := bounce, pc := .writeSector c block })
  else .next (s.goto t .writeUpW)

/-- Thread `t` goes on. -/
def runThread (inode : Inode) (s : State ι) (t : ι) (mem : Option Bytes) : Outcome (State ι) :=
  let th := s.thread t
  match th.pc with
  | .idle | .readReturn | .writeReturn => .disabled
  | .readDownR => if s.rSema = 0 then .disabled else .next { s.goto t .readTest with rSema := s.rSema - 1 }
  | .readTest => .next (s.goto t (if s.nReaders = 0 then .readDownW else .readInc))
  | .readDownW => if s.wSema = 0 then .disabled else .next { s.goto t .readInc with wSema := s.wSema - 1 }
  | .readInc => .next { s.goto t .readUpR with nReaders := s.nReaders + 1 }
  | .readUpR => .next { s.setThread t { th with pc := .readLoop, seen := s.writes } with rSema := s.rSema + 1 }
  | .readLoop => readPassage inode s t mem
  | .exitDownR => if s.rSema = 0 then .disabled else .next { s.goto t .exitDec with rSema := s.rSema - 1 }
  | .exitDec => .next { s.goto t .exitTest with nReaders := s.nReaders - 1 }
  | .exitTest => .next (s.goto t (if s.nReaders = 0 then .exitUpW else .exitUpR))
  | .exitUpW => .next { s.goto t .exitUpR with wSema := s.wSema + 1 }
  | .exitUpR => .next { s.goto t .readReturn with rSema := s.rSema + 1 }
  | .writeDownW => if s.wSema = 0 then .disabled else .next { s.goto t .writeLoop with wSema := s.wSema - 1 }
  | .writeLoop => writePassage inode s t mem
  | .writeSector c block =>
    match diskWrite s.disk c.sectorIdx block 0 with
    | .error _ => .fault
    | .ok disk => .next { s.setThread t { th.advance c with pc := .writeLoop } with disk := disk }
  | .writeUpW =>
    .next { s.goto t .writeReturn with
      wSema := s.wSema + 1, writes := s.writes ++ [⟨th.first, th.buffer, th.done.toNat⟩] }

/-- What an action does. -/
def step (inode : Inode) (s : State ι) : Act ι → Outcome (State ι)
  | .read t buffer size offset =>
    if (s.thread t).pc.ready then .next (s.setThread t (.start .readDownR buffer size offset)) else .disabled
  | .write t buffer size offset =>
    if (s.thread t).pc.ready then
      -- Writes that are denied return 0 at once.
      let pc := if inode.denyWriteCnt ≠ 0 then .writeReturn else .writeDownW
      .next (s.setThread t (.start pc buffer size offset))
    else .disabled
  | .run t mem => runThread inode s t mem

/-- An inode that nobody accesses, on the disk `d`. -/
def initial (d : Disk) : State ι :=
  { disk := d, wSema := 1, rSema := 1, nReaders := 0, thread := fun _ => .start .idle (fun _ => 0) 0 0, writes := [] }

/-- All runs of calls on one inode. -/
def accesses (d : Disk) (inode : Inode) : System (State ι) (Act ι) where
  init s := s = initial d
  step := step inode

/-! ### The protocol -/

/-- The phase of the protocol a thread is in. -/
def Pc.phase : Pc → Phase
  | .idle | .readDownR | .readReturn | .writeDownW | .writeReturn => .outside
  | .readTest => .entering
  | .readDownW => .first
  | .readInc => .counting
  | .readUpR => .counted
  | .readLoop | .exitDownR => .reading
  | .exitDec => .uncounting
  | .exitTest => .leaving
  | .exitUpW => .last
  | .exitUpR => .left
  | .writeLoop | .writeSector _ _ | .writeUpW => .writing

/-- The protocol as the inode carries it out. -/
def State.view (s : State ι) : Lock ι := ⟨s.rSema, s.wSema, s.nReaders, fun t => (s.thread t).pc.phase⟩

theorem phase_update (thread : ι → Thread) (t : ι) (th : Thread) :
    (fun u => (update thread t th u).pc.phase) =
      update (fun u => (thread u).pc.phase) t th.pc.phase := by
  funext u
  by_cases hu : u = t
  · subst hu; simp
  · simp [hu]

variable {pc : Pc}

theorem phase_of_ready (h : pc.ready = true) : pc.phase = .outside := by
  cases pc <;> simp_all [Pc.ready, Pc.phase]

variable {inode : Inode} {s s' : State ι} {t : ι} {th : Thread}

theorem view_same (hthread : s'.thread = update s.thread t th) (hphase : th.pc.phase = (s.thread t).pc.phase)
    (hsema : (s'.rSema, s'.wSema, s'.nReaders) = (s.rSema, s.wSema, s.nReaders)) : s'.view = s.view := by
  simp only [Prod.mk.injEq] at hsema
  obtain ⟨hr, hw, hn⟩ := hsema
  simp [State.view, hthread, phase_update, hphase, hr, hw, hn]

theorem step_view {l : Lock ι} (hthread : s'.thread = update s.thread t th) (hst : ReadersWriters.Step s.view t l)
    (hl : l = ⟨s'.rSema, s'.wSema, s'.nReaders, update s.view.phase t th.pc.phase⟩) :
    ReadersWriters.Step s.view t s'.view := by
  have hview : s'.view = l := by
    unfold State.view
    rw [hl, hthread, phase_update]
    rfl
  rwa [hview]

theorem view_runThread (mem : Option Bytes) :
    (runThread inode s t mem).Leads fun s' => s'.view = s.view ∨ ReadersWriters.Step s.view t s'.view := by
  have hview : ∀ {p}, (s.thread t).pc = p → s.view.phase t = p.phase := fun hp => by simp [State.view, hp]
  have hgoto : ∀ pc : Pc, pc.phase = (s.thread t).pc.phase → (s.goto t pc).view = s.view := fun _ h => view_same rfl h rfl
  simp only [runThread]
  cases hpc : (s.thread t).pc with
  | idle | readReturn | writeReturn => trivial
  | readDownR =>
    exact .ite (fun _ => trivial) fun h => .inr (step_view rfl (.enter (hview hpc) (Nat.pos_of_ne_zero h)) rfl)
  | readTest =>
    by_cases hzero : s.nReaders = 0
    · exact .inr (step_view rfl (.isFirst (hview hpc) hzero) (by rw [if_pos hzero]; rfl))
    · exact .inr (step_view rfl (.notFirst (hview hpc) hzero) (by rw [if_neg hzero]; rfl))
  | readDownW =>
    exact .ite (fun _ => trivial) fun h => .inr (step_view rfl (.take (hview hpc) (Nat.pos_of_ne_zero h)) rfl)
  | readInc => exact .inr (step_view rfl (.count (hview hpc)) rfl)
  | readUpR => exact .inr (step_view rfl (.read (hview hpc)) rfl)
  | readLoop =>
    have hexit := hgoto .exitDownR (by rw [hpc]; rfl)
    refine .ite (fun _ => ?_) fun _ => .inl hexit
    split
    · trivial
    · exact .inl hexit
    · exact .inl (view_same rfl rfl rfl)
  | exitDownR =>
    exact .ite (fun _ => trivial) fun h => .inr (step_view rfl (.leave (hview hpc) (Nat.pos_of_ne_zero h)) rfl)
  | exitDec => exact .inr (step_view rfl (.uncount (hview hpc)) rfl)
  | exitTest =>
    by_cases hzero : s.nReaders = 0
    · exact .inr (step_view rfl (.isLast (hview hpc) hzero) (by rw [if_pos hzero]; rfl))
    · exact .inr (step_view rfl (.notLast (hview hpc) hzero) (by rw [if_neg hzero]; rfl))
  | exitUpW => exact .inr (step_view rfl (.give (hview hpc)) rfl)
  | exitUpR => exact .inr (step_view rfl (.exit (hview hpc)) rfl)
  | writeDownW =>
    exact .ite (fun _ => trivial) fun h => .inr (step_view rfl (.write (hview hpc) (Nat.pos_of_ne_zero h)) rfl)
  | writeLoop =>
    have hexit := hgoto .writeUpW (by rw [hpc]; rfl)
    refine .ite (fun _ => ?_) fun _ => .inl hexit
    split
    · trivial
    · exact .inl hexit
    · exact .inl (view_same rfl (by rw [hpc]; rfl) rfl)
  | writeSector c block =>
    dsimp only
    split
    · trivial
    · exact .inl (view_same rfl (by rw [hpc]; rfl) rfl)
  | writeUpW => exact .inr (step_view rfl (.written (hview hpc)) rfl)

/-- **The calls carry out the protocol.** -/
theorem view_step (a : Act ι) :
    (step inode s a).Leads fun s' => s'.view = s.view ∨ ∃ t, ReadersWriters.Step s.view t s'.view := by
  cases a with
  | read t buffer size offset =>
    exact .ite (fun hready => .inl (view_same rfl (phase_of_ready hready).symm rfl)) fun _ => trivial
  | write t buffer size offset =>
    refine .ite (fun hready => .inl (view_same rfl ?_ rfl)) fun _ => trivial
    rw [phase_of_ready hready]
    split <;> rfl
  | run t mem => exact (view_runThread mem).mono fun s' => Or.imp_right fun hst => ⟨t, hst⟩

/-- The invariant of the protocol holds in every state. -/
theorem ok_of_reach [Fintype ι] {d : Disk} (h : (accesses d inode).Reach s) : Ok s.view := by
  refine h.invariant (P := fun s => Ok s.view) ?_ ?_
  · rintro s rfl
    exact ok_initial
  · intro s a s' hok hst
    obtain hsame | ⟨t, hstep⟩ := (view_step a).of_next hst
    · rwa [hsame]
    · exact hok.step hstep

/-! ### The contents -/

/-- The contents of the file after some writes. -/
def contentAfter {L : ℕ} (f : Fin L → UInt8) (ws : List Write) : Fin L → UInt8 :=
  ws.foldl (fun f w => overwrite f w.buffer w.offset w.count) f

/-- The bytes of the disk after some writes. -/
def bytesAfter (data : InodeDisk) (m : Bytes) (ws : List Write) : Bytes :=
  ws.foldl (fun m w => copy m (512 * data.start + w.offset) w.buffer 0 w.count) m

theorem bytesAfter_concat (data : InodeDisk) (m : Bytes) (ws : List Write) (w : Write) :
    bytesAfter data m (ws ++ [w]) =
      copy (bytesAfter data m ws) (512 * data.start + w.offset) w.buffer 0 w.count := by
  simp [bytesAfter]

theorem contents_bytesAfter (d : Disk) (data : InodeDisk) (ws : List Write) :
    contents { d with bytes := bytesAfter data d.bytes ws } data = contentAfter (contents d data) ws := by
  induction ws generalizing d with
  | nil => rfl
  | cons w ws ih =>
    have hw := ih { d with bytes := copy d.bytes (512 * data.start + w.offset) w.buffer 0 w.count }
    rw [contents_copy] at hw
    exact hw

section Invariant

variable (d : Disk) (data : InodeDisk)

/-- A reader has got the bytes of the file as it was when the reader entered its loop. -/
def Got (th : Thread) : Prop :=
  ∃ n : ℕ, th.done = n ∧ th.offset = th.first + n ∧
    ∀ i < n, ∃ hi : th.first + i < data.length.toNat,
      th.buffer i = contentAfter (contents d data) th.seen ⟨th.first + i, hi⟩

/-- A writer has put its bytes to the disk, over what the completed writes left there. -/
def Put (bytes : Bytes) (ws : List Write) (th : Thread) : Prop :=
  ∃ n : ℕ, th.done = n ∧ th.offset = th.first + n ∧
    bytes = copy (bytesAfter data d.bytes ws) (512 * data.start + th.first) th.buffer 0 n

/-- The block a writer is about to write changes the chunk and nothing else. -/
def Prepared (bytes : Bytes) (th : Thread) (c : Chunk) (block : Bytes) : Prop :=
  d.Accessible c.sectorIdx ∧ ∃ n : ℕ, c.chunkSize = n ∧
    copy bytes (512 * c.sectorIdx) block 0 512 =
      copy bytes (512 * data.start + th.offset.toNat) th.buffer th.done.toNat n

/-- What is so of a thread, when the disk has these bytes and these writes have completed. -/
def ThreadOk (bytes : Bytes) (ws : List Write) (th : Thread) : Prop :=
  match th.pc with
  | .idle | .writeReturn => True
  | .readDownR | .readTest | .readDownW | .readInc | .readUpR | .writeDownW => th.done = 0 ∧ th.offset = th.first
  | .readLoop => Got d data th ∧ th.seen = ws
  | .exitDownR | .exitDec | .exitTest | .exitUpW | .exitUpR | .readReturn => Got d data th ∧ th.seen <+: ws
  | .writeLoop | .writeUpW => Put d data bytes ws th
  | .writeSector c block => Put d data bytes ws th ∧ Prepared d data bytes th c block

/-- **What is so of the file.** -/
structure DataOk (s : State ι) : Prop where
  /-- The disk stays as large as it was. -/
  capacity : s.disk.capacity = d.capacity
  /-- While nobody writes the disk is what the completed writes made of it. -/
  quiet : (∀ t, (s.thread t).pc.phase ≠ .writing) → s.disk.bytes = bytesAfter data d.bytes s.writes
  /-- And every thread has what it should have. -/
  thread : ∀ t, ThreadOk d data s.disk.bytes s.writes (s.thread t)

end Invariant

variable {d : Disk} {data : InodeDisk}

theorem ThreadOk.frame {bytes bytes' : Bytes} {ws ws' : List Write}
    (h : ThreadOk d data bytes ws th) (hgrown : ws <+: ws')
    (hwriter : th.pc.phase = .writing → bytes' = bytes ∧ ws' = ws)
    (hreader : th.pc.phase.inCount = true → ws' = ws) : ThreadOk d data bytes' ws' th := by
  unfold ThreadOk at h ⊢
  cases hpc : th.pc with
  | idle | writeReturn => trivial
  | readDownR | readTest | readDownW | readInc | readUpR | writeDownW => simpa [hpc] using h
  | readLoop =>
    simp only [hpc] at h ⊢
    exact ⟨h.1, h.2.trans (hreader (by rw [hpc]; rfl)).symm⟩
  | exitDownR | exitDec | exitTest | exitUpW | exitUpR | readReturn =>
    simp only [hpc] at h ⊢
    exact ⟨h.1, h.2.trans hgrown⟩
  | writeLoop | writeUpW | writeSector =>
    obtain ⟨rfl, rfl⟩ := hwriter (by rw [hpc]; rfl)
    simpa [hpc] using h

/-- A step that touches neither the disk nor the history. -/
theorem DataOk.local (h : DataOk d data s) (hthread : s'.thread = update s.thread t th)
    (hsame : (s'.disk, s'.writes) = (s.disk, s.writes)) (hth : ThreadOk d data s.disk.bytes s.writes th)
    (hphase : (s.thread t).pc.phase = .writing → th.pc.phase = .writing) : DataOk d data s' := by
  obtain ⟨hdisk, hwrites⟩ := Prod.mk.inj hsame
  refine ⟨by rw [hdisk]; exact h.capacity, fun hquiet => ?_, ?_⟩
  · rw [hdisk, hwrites]
    refine h.quiet fun u hu => ?_
    obtain rfl | hut := eq_or_ne u t
    · refine hquiet u ?_
      rw [hthread, update_self]
      exact hphase hu
    · refine hquiet u ?_
      rw [hthread, update_of_ne hut]
      exact hu
  · rw [hdisk, hwrites, hthread]
    exact (forall_update_iff _ fun _ => ThreadOk d data _ _).mpr ⟨hth, fun u _ => h.thread u⟩

/-- A step of a writer that touches the disk or the history: the other threads are not writing and
not in the loop of `inode_read_at`. -/
theorem DataOk.byWriter [Fintype ι] (h : DataOk d data s) (hok : Ok s.view)
    (ht : (s.thread t).pc.phase = .writing) (hthread : s'.thread = update s.thread t th)
    (hcap : s'.disk.capacity = s.disk.capacity) (hgrown : s.writes <+: s'.writes)
    (hth : ThreadOk d data s'.disk.bytes s'.writes th)
    (hquiet : th.pc.phase ≠ .writing → s'.disk.bytes = bytesAfter data d.bytes s'.writes) : DataOk d data s' := by
  refine ⟨hcap.trans h.capacity, fun hall => hquiet ?_, ?_⟩
  · have := hall t
    rwa [hthread, update_self] at this
  · rw [hthread]
    refine (forall_update_iff _ fun _ => ThreadOk d data _ _).mpr ⟨hth, fun u hut => ?_⟩
    obtain ⟨hcount, hwriting⟩ := hok.writer_alone (t := t) ht u
    refine (h.thread u).frame hgrown (fun hu => absurd (hwriting hu) hut) fun hu => ?_
    rw [show (s.thread u).pc.phase.inCount = false from hcount] at hu
    cases hu

/-! ### The loops -/

theorem passage_chunk (h : d.Holds data) {size offset : ℤ} {o : ℕ} (hoffset : offset = o) (hsize : 0 < size)
    (hpos : 0 < (chunk data size offset).chunkSize) :
    ∃ k : ℕ, o + k ≤ data.length.toNat ∧ o < data.length.toNat ∧ o % 512 + k ≤ 512 ∧
      chunk data size offset = ⟨data.start + o / 512, (o % 512 : ℕ), (512 - o % 512 : ℕ), k⟩ := by
  lift size to ℕ using hsize.le
  subst hoffset
  have hsize' : 0 < size := by omega
  obtain hlt | hge := Nat.lt_or_ge o data.length.toNat
  · obtain ⟨k, -, hk, hk512, -, hc⟩ := chunk_eq h hsize' hlt
    unfold flatCount at hk
    exact ⟨k, by omega, hlt, hk512, hc⟩
  · exact absurd (chunk_le_zero hge hsize') (by omega)

/-- **A passage through the loop of `inode_read_at`** gets more bytes of the same contents. -/
theorem Got.pass {d' : Disk} (mem : Option Bytes) (h : d'.Holds data) (hgot : Got d data th)
    (hbytes : d'.bytes = bytesAfter data d.bytes th.seen) (hsize : 0 < th.size)
    (hpos : 0 < (chunk data th.size th.offset).chunkSize) :
    readChunk d' mem (chunk data th.size th.offset) th.done (th.bounce, th.buffer) = .ok none ∨
      ∃ bounce buffer, readChunk d' mem (chunk data th.size th.offset) th.done (th.bounce, th.buffer) =
          .ok (some (bounce, buffer)) ∧
        Got d data { th.advance (chunk data th.size th.offset) with bounce := bounce, buffer := buffer } := by
  obtain ⟨n, hdone, hoffset, hn⟩ := hgot
  obtain ⟨k, hk, hlt, hk512, hc⟩ := passage_chunk h (o := th.first + n) (by omega) hsize hpos
  obtain ⟨hnone, -⟩ | ⟨bounce, hsome⟩ := readChunk_eq mem th.bounce th.buffer (k := n) (h.accessible_div hlt) hk512
  · rw [hc, hdone]
    exact .inl hnone
  · refine .inr ⟨bounce, _, by rw [hc, hdone]; exact hsome, ?_⟩
    refine ⟨n + k, ?_, ?_, fun i hi => ⟨?_, ?_⟩⟩
    · simp [Thread.advance, hc, hdone]
    · simp only [Thread.advance, hc]
      omega
    · simp only [Thread.advance]
      omega
    · simp only [Thread.advance]
      obtain hin | hin := Nat.lt_or_ge i n
      · obtain ⟨hi', hold⟩ := hn i hin
        rw [copy_of_notMem (.inl hin), hold]
      · rw [copy_of_mem hin hi, hbytes, ← contents_bytesAfter]
        simp only [contents]
        congr 1
        omega

/-- The first half of a passage through the loop of `inode_write_at`. -/
theorem Prepared.of_block {d' : Disk} (mem : Option Bytes) (h : d'.Holds data)
    (hcap : d'.capacity = d.capacity) {o k : ℕ} (hoffset : th.offset = o) (hdone : th.done = k) (hsize : 0 < th.size)
    (hpos : 0 < (chunk data th.size th.offset).chunkSize) :
    writeBlock d' mem th.buffer (chunk data th.size th.offset) th.done th.bounce = .ok none ∨
      ∃ bounce block, writeBlock d' mem th.buffer (chunk data th.size th.offset) th.done th.bounce =
          .ok (some (bounce, block)) ∧
        Prepared d data d'.bytes th (chunk data th.size th.offset) block := by
  obtain ⟨n, -, hlt, hn512, hc⟩ := passage_chunk h hoffset hsize hpos
  rw [hc, hdone]
  have hacc := h.accessible_div hlt
  obtain ⟨hnone, -⟩ | ⟨bounce, block, hsome, hcopy⟩ := writeBlock_eq mem th.bounce th.buffer (k := k) hacc hn512
  · exact .inl hnone
  · refine .inr ⟨bounce, block, hsome, ⟨by rw [← hcap]; exact hacc.1, hacc.2⟩, n, rfl, ?_⟩
    rw [hcopy, sector_address, hoffset, hdone]
    rfl

theorem Put.write {bytes : Bytes} {ws : List Write} {c : Chunk} {block : Bytes}
    (hput : Put d data bytes ws th) (hprep : Prepared d data bytes th c block) :
    Put d data (copy bytes (512 * c.sectorIdx) block 0 512) ws { th.advance c with pc := .writeLoop } := by
  obtain ⟨n, hdone, hoffset, hbytes⟩ := hput
  obtain ⟨-, k, hk, hcopy⟩ := hprep
  refine ⟨n + k, ?_, ?_, ?_⟩
  · simp [Thread.advance, hdone, hk]
  · simp only [Thread.advance, hoffset, hk]
    omega
  · have hadd := copy_copy_add (bytesAfter data d.bytes ws) th.buffer (512 * data.start + th.first) 0 n k
    rw [Nat.zero_add] at hadd
    have hto : th.offset.toNat = th.first + n := by omega
    rw [hcopy, hbytes, hdone, hto, ← Nat.add_assoc, Int.toNat_natCast, hadd]
    rfl

/-! ### All runs -/

omit [DecidableEq ι] in
theorem DataOk.bytes_of_reading [Fintype ι] (h : DataOk d inode.data s) (hok : Ok s.view)
    (ht : (s.thread t).pc = .readLoop) : s.disk.bytes = bytesAfter inode.data d.bytes s.writes := by
  refine h.quiet fun u hu => ?_
  obtain ⟨hcount, -⟩ := hok.writer_alone (t := u) hu t
  rw [show s.view.phase t = .reading by simp [State.view, ht, Pc.phase]] at hcount
  cases hcount

section Runs

variable [Fintype ι] (hholds : d.Holds inode.data)
include hholds

theorem DataOk.readPassage (h : DataOk d inode.data s) (hok : Ok s.view) (hpc : (s.thread t).pc = .readLoop)
    (mem : Option Bytes) : (readPassage inode s t mem).Safe (DataOk d inode.data) := by
  have hth := h.thread t
  simp only [ThreadOk, hpc] at hth
  obtain ⟨hgot, hseen⟩ := hth
  have hbytes := h.bytes_of_reading hok hpc
  rw [← hseen] at hbytes
  have hleave : DataOk d inode.data (s.goto t .exitDownR) :=
    h.local rfl rfl ⟨hgot, by rw [hseen]⟩ (by simp [hpc, Pc.phase])
  simp only [InodeSync.readPassage]
  split
  · rename_i hgo
    obtain hnone | ⟨bounce, buffer, hsome, hgot'⟩ := hgot.pass mem (hholds.congr h.capacity) hbytes hgo.1 hgo.2
    · rw [hnone]
      exact hleave
    · rw [hsome]
      refine h.local rfl rfl ?_ (by simp [hpc, Pc.phase])
      simp only [Thread.advance, hpc] at hgot' ⊢
      exact ⟨hgot', hseen⟩
  · exact hleave

omit [Fintype ι] in
theorem DataOk.writePassage (h : DataOk d inode.data s) (hpc : (s.thread t).pc = .writeLoop) (mem : Option Bytes) :
    (writePassage inode s t mem).Safe (DataOk d inode.data) := by
  have hth := h.thread t
  simp only [ThreadOk, hpc] at hth
  have hleave : DataOk d inode.data (s.goto t .writeUpW) := h.local rfl rfl hth (by simp [Pc.phase])
  simp only [InodeSync.writePassage]
  split
  · rename_i hgo
    obtain ⟨n, hdone, hoffset, -⟩ := id hth
    obtain hnone | ⟨bounce, block, hsome, hprep⟩ := Prepared.of_block mem (hholds.congr h.capacity) h.capacity
      (o := (s.thread t).first + n) (by omega) hdone hgo.1 hgo.2
    · rw [hnone]
      exact hleave
    · rw [hsome]
      exact h.local rfl rfl ⟨hth, hprep⟩ (by simp [Pc.phase])
  · exact hleave

/-- A thread that goes on keeps the file in order, and touches only sectors of the disk. -/
theorem DataOk.runThread (h : DataOk d inode.data s) (hok : Ok s.view) (mem : Option Bytes) :
    (runThread inode s t mem).Safe (DataOk d inode.data) := by
  have hth := h.thread t
  simp only [InodeSync.runThread]
  unfold ThreadOk at hth
  cases hpc : (s.thread t).pc with
  | idle | readReturn | writeReturn => trivial
  | readDownR | readDownW | exitDownR =>
    simp only [hpc] at hth
    exact .ite_not fun _ => h.local rfl rfl hth (by simp [hpc, Pc.phase])
  | readTest | exitTest =>
    simp only [hpc] at hth
    refine h.local rfl rfl ?_ (by simp [hpc, Pc.phase])
    split <;> exact hth
  | readInc | exitDec | exitUpW | exitUpR =>
    simp only [hpc] at hth
    exact h.local rfl rfl hth (by simp [hpc, Pc.phase])
  | readUpR =>
    simp only [hpc] at hth
    obtain ⟨hdone, hoffset⟩ := hth
    refine h.local rfl rfl ⟨⟨0, hdone, by simpa using hoffset, ?_⟩, rfl⟩ (by simp [hpc, Pc.phase])
    intro i hi
    omega
  | readLoop => exact h.readPassage hholds hok hpc mem
  | writeDownW =>
    simp only [hpc] at hth
    refine .ite_not fun hroom => ?_
    obtain ⟨hdone, hoffset⟩ := hth
    refine h.local rfl rfl ⟨0, hdone, by simpa using hoffset, ?_⟩ (by simp [hpc, Pc.phase])
    rw [copy_zero]
    -- The room was free, so nobody was writing.
    refine h.quiet fun u hu => ?_
    have hpos := number_pos (· == .writing) s.view.phase (t := u) (by simp [State.view, hu])
    have hone := hok.room
    have hsema : s.view.room = s.wSema := rfl
    omega
  | writeLoop => exact h.writePassage hholds hpc mem
  | writeSector c block =>
    simp only [hpc] at hth
    obtain ⟨hput, hprep⟩ := hth
    obtain ⟨hacc, -⟩ := id hprep
    have hacc' : s.disk.Accessible c.sectorIdx := ⟨by rw [h.capacity]; exact hacc.1, hacc.2⟩
    dsimp only
    rw [diskWrite_eq hacc']
    refine h.byWriter hok (by simp [hpc, Pc.phase]) rfl rfl (List.prefix_refl _) (hput.write hprep) ?_
    intro hne
    exact absurd rfl hne
  | writeUpW =>
    simp only [hpc] at hth
    obtain ⟨n, hdone, -, hbytes⟩ := hth
    refine h.byWriter hok (by simp [hpc, Pc.phase]) rfl rfl (List.prefix_append ..) trivial fun _ => ?_
    simp only
    rw [bytesAfter_concat, hdone, Int.toNat_natCast]
    exact hbytes

theorem DataOk.step (h : DataOk d inode.data s) (hok : Ok s.view) (a : Act ι) :
    (step inode s a).Safe (DataOk d inode.data) := by
  cases a with
  | read t buffer size offset =>
    exact .ite fun hready => h.local rfl rfl ⟨rfl, rfl⟩ (by simp [phase_of_ready hready])
  | write t buffer size offset =>
    refine .ite fun hready => h.local rfl rfl ?_ (by simp [phase_of_ready hready])
    split
    · trivial
    · exact ⟨rfl, rfl⟩
  | run t mem => exact h.runThread hholds hok mem

theorem dataOk_of_reach (h : (accesses d inode).Reach s) : DataOk d inode.data s := by
  induction h with
  | init hs =>
    subst hs
    exact ⟨rfl, fun _ => rfl, fun _ => trivial⟩
  | step hreach hst ih => exact (ih.step hholds (ok_of_reach hreach) _).of_next hst

/-- **No access fails**: every sector that a call touches is a sector of the disk. -/
theorem accesses_ne_fault (h : (accesses d inode).Reach s) (a : Act ι) : step inode s a ≠ .fault :=
  ((dataOk_of_reach hholds h).step hholds (ok_of_reach h) a).ne_fault

end Runs

/-- One thread writes a byte and then another reads it. -/
def oneByteCalls : List (Act Bool) :=
  .write true (fun _ => 7) 1 0 :: List.replicate 5 (.run true (some fun _ => 0)) ++
    .read false (fun _ => 0) 1 0 :: List.replicate 12 (.run false (some fun _ => 0))

theorem oneByte_holds : (⟨1, fun _ => 0⟩ : Disk).Holds ⟨0, 1⟩ := by
  refine ⟨by decide, fun i hi => ?_⟩
  obtain rfl : i = 0 := Nat.lt_one_iff.mp hi
  decide

theorem oneByte_run : ∃ s : State Bool,
    (accesses ⟨1, fun _ => 0⟩ ⟨0, 1, false, ⟨0, 1⟩, 0⟩).replay (initial ⟨1, fun _ => 0⟩) oneByteCalls = .next s ∧
      (s.thread false).pc = .readReturn ∧ (s.thread false).done = 1 ∧
      (s.thread false).first = 0 ∧ (s.thread false).seen = [⟨0, fun _ => 7, 1⟩] :=
  ⟨_, rfl, rfl, rfl, rfl, rfl⟩

/-- The byte is written and read, and then no step fails. -/
theorem accesses_ne_fault_one_byte : ∃ s : State Bool,
    (accesses ⟨1, fun _ => 0⟩ ⟨0, 1, false, ⟨0, 1⟩, 0⟩).replay (initial ⟨1, fun _ => 0⟩) oneByteCalls = .next s ∧
      (s.thread false).pc = .readReturn ∧ ∀ a, step ⟨0, 1, false, ⟨0, 1⟩, 0⟩ s a ≠ .fault := by
  obtain ⟨s, hreplay, hpc, -⟩ := oneByte_run
  exact ⟨s, hreplay, hpc, accesses_ne_fault oneByte_holds (System.Reach.replay (.init rfl) hreplay)⟩

/-! ### Readers and writers -/

/-- In the loop of `inode_read_at`. -/
def Pc.inReadLoop : Pc → Bool
  | .readLoop => true
  | _ => false

/-- In the loop of `inode_write_at`. -/
def Pc.inWriteLoop : Pc → Bool
  | .writeLoop | .writeSector _ _ => true
  | _ => false

/-- After `n_readers++` and before `n_readers--`. -/
def Pc.counted : Pc → Bool
  | .readUpR | .readLoop | .exitDownR | .exitDec => true
  | _ => false

theorem Pc.phase_of_inWriteLoop (h : pc.inWriteLoop = true) : pc.phase = .writing := by
  cases pc <;> simp_all [Pc.inWriteLoop, Pc.phase]

theorem Pc.eq_of_inReadLoop (h : pc.inReadLoop = true) : pc = .readLoop := by
  cases pc <;> simp_all [Pc.inReadLoop]

theorem Pc.counted_eq (pc : Pc) : pc.counted = pc.phase.inCount := by
  cases pc <;> rfl

/-- **Readers share the inode and a writer is alone.** In every run of calls on an inode by any
number of threads:
* while a writer is in its loop no reader and no other writer is in its loop;
* `n_readers` is the number of readers after their increment and before their decrement;
* while a reader is in its loop no thread has `w_sema` to write, no further write completes, and the
  file is what the writes that completed before made of it;
* and so the bytes that `inode_read_at` returns are bytes of that one content. -/
theorem readers_writers [Fintype ι] (hholds : d.Holds inode.data) (h : (accesses d inode).Reach s) :
    (∀ t, (s.thread t).pc.inWriteLoop = true → ∀ u, (s.thread u).pc.inReadLoop = false ∧
      ((s.thread u).pc.inWriteLoop = true → u = t)) ∧
    s.nReaders = (Finset.univ.filter fun t => (s.thread t).pc.counted = true).card ∧
    (∀ t, (s.thread t).pc.inReadLoop = true → (∀ u, (s.thread u).pc.phase ≠ .writing) ∧
      (s.thread t).seen = s.writes ∧
      contents s.disk inode.data = contentAfter (contents d inode.data) s.writes) ∧
    (∀ t, (s.thread t).pc = .readReturn → (s.thread t).seen <+: s.writes ∧
      ∃ n : ℕ, (s.thread t).done = n ∧ ∀ i < n, ∃ hi : (s.thread t).first + i < inode.data.length.toNat,
        (s.thread t).buffer i = contentAfter (contents d inode.data) (s.thread t).seen
          ⟨(s.thread t).first + i, hi⟩) := by
  have hok := ok_of_reach h
  have hdata := dataOk_of_reach hholds h
  have hexcl : ∀ t, (s.thread t).pc.inWriteLoop = true → ∀ u, (s.thread u).pc.inReadLoop = false ∧
      ((s.thread u).pc.inWriteLoop = true → u = t) := by
    intro t ht u
    obtain ⟨hcount, hwriting⟩ := hok.writer_alone (t := t) (Pc.phase_of_inWriteLoop ht) u
    refine ⟨?_, fun hu => hwriting (Pc.phase_of_inWriteLoop hu)⟩
    by_contra hread
    have hpc := Pc.eq_of_inReadLoop (Bool.eq_true_of_not_eq_false hread)
    simp [State.view, hpc, Pc.phase, Phase.inCount] at hcount
  refine ⟨hexcl, ?_, ?_, ?_⟩
  · have hcount := hok.count
    simpa only [State.view, number, ← Pc.counted_eq] using hcount
  · intro t ht
    have hpc := Pc.eq_of_inReadLoop ht
    have hth := hdata.thread t
    simp only [ThreadOk, hpc] at hth
    refine ⟨fun u hu => ?_, hth.2, ?_⟩
    · obtain ⟨hcount, -⟩ := hok.writer_alone (t := u) hu t
      simp [State.view, hpc, Pc.phase, Phase.inCount] at hcount
    · rw [← contents_bytesAfter, ← hdata.bytes_of_reading hok hpc]
      rfl
  · intro t ht
    have hth := hdata.thread t
    simp only [ThreadOk, ht] at hth
    obtain ⟨⟨n, hdone, -, hbytes⟩, hseen⟩ := hth
    exact ⟨hseen, n, hdone, hbytes⟩

/-- One thread writes a byte and then another reads it. -/
theorem readers_writers_one_byte :
    let d : Disk := ⟨1, fun _ => 0⟩
    let inode : Inode := ⟨0, 1, false, ⟨0, 1⟩, 0⟩
    let block : Option Bytes := some fun _ => 0
    ∃ s : State Bool, (accesses d inode).replay (initial d)
        (.write true (fun _ => 7) 1 0 :: List.replicate 5 (.run true block) ++
          .read false (fun _ => 0) 1 0 :: List.replicate 12 (.run false block)) = .next s ∧
      (s.thread false).pc = .readReturn ∧ (s.thread false).done = 1 ∧ (s.thread false).buffer 0 = 7 := by
  intro d inode block
  obtain ⟨s, hreplay, hpc, hdone, hfirst, hseen⟩ := oneByte_run
  obtain ⟨-, -, -, hreturn⟩ := readers_writers oneByte_holds (System.Reach.replay (.init rfl) hreplay)
  obtain ⟨-, n, hn, hbytes⟩ := hreturn false hpc
  obtain ⟨hi, hbyte⟩ := hbytes 0 (by omega)
  refine ⟨s, hreplay, hpc, hdone, ?_⟩
  rw [hbyte, hseen]
  simp [contentAfter, overwrite, hfirst]

end Pintos.Filesys.InodeSync
