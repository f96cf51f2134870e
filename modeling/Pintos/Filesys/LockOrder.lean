import Pintos.Basis.ReadersWriters
import Pintos.Basis.WaitsFor
import Pintos.Filesys.Filesys

/-!
# The locks of the file system

The calls of the file system, run by any number of threads at once, and the order
in which they take `filesys_lock` (`filesys/filesys.c`), `occ_lock`
(`filesys/inode.c`), `free_map_lock` (`filesys/free-map.c`) and the two semaphores
of every inode.

## The model

A call is a `Code`: what is left of it, down to its operations on locks and
semaphores. The functions of the source are functions that put their operations in
front of what comes after them, so the nesting of the locks is the nesting of the
calls in the source. What decides a branch is either in the table of the open
inodes (`open_cnt` and `removed`, which `inode_open` and `inode_close` look at), or
it is left open as a `choose`: whether `malloc` succeeds, what a directory
contains, whether the free map has room. An entry of the root directory names a
sector other than those of the free map and of the root directory.

A thread at `.read i _` or `.write i _` is inside `inode_read_at` or
`inode_write_at`, and is in a phase of the protocol of
`Pintos.Basis.ReadersWriters`. The lock `l` of an inode is not in the model: it is
taken by `file_deny_write` and `file_allow_write` around one update, with nothing
taken inside. An inode keeps its semaphores when it is closed and opened again;
`sema_init` sets them to what they are when nobody is in the inode.

## What is proved

In most calls the order is `filesys_lock`, `occ_lock`, `free_map_lock`, with the
semaphores last. `filesys_done` is the exception: it closes the free map's file,
and so takes `occ_lock`, with `free_map_lock` held. So there is a deadlock exactly
when `filesys_done` has got that far while another thread has closed the last
reference to a removed inode and is about to release its sectors
(**`deadlock_iff`**). Such a state is reached by two threads
(**`filesys_done_deadlocks`**), and there is none as long as the two are kept apart
(**`not_deadlocked_of_apart`**).
-/

namespace Pintos.Filesys.LockOrder

open Function
open ReadersWriters (Phase)

/-! ### The calls -/

inductive LockName where
  /-- `filesys_lock`. -/
  | filesys
  /-- `occ_lock`. -/
  | occ
  /-- `free_map_lock`. -/
  | freeMap
  deriving DecidableEq

instance : Fintype LockName := ⟨{.filesys, .occ, .freeMap}, fun l => by cases l <;> decide⟩

/-- What the calls know of the inodes and files. -/
structure Table where
  /-- `open_cnt` of the inode in a sector; an inode with 0 is not on `open_inodes`. -/
  openCnt : ℕ → ℤ
  removed : ℕ → Bool
  /-- The open files of an inode. -/
  files : ℕ → ℕ

namespace Table

/-- A new inode on `open_inodes`. -/
def opened (T : Table) (i : ℕ) : Table :=
  { T with openCnt := update T.openCnt i 1, removed := update T.removed i false }

/-- `ASSERT (inode->open_cnt != 0); inode->open_cnt++`. -/
def reopened (T : Table) (i : ℕ) : Option Table :=
  if T.openCnt i ≠ 0 then some { T with openCnt := update T.openCnt i (T.openCnt i + 1) } else none

/-- `--inode->open_cnt`. -/
def dropped (T : Table) (i : ℕ) : Table := { T with openCnt := update T.openCnt i (T.openCnt i - 1) }

/-- `inode->removed = true`. -/
def marked (T : Table) (i : ℕ) : Table := { T with removed := update T.removed i true }

/-- A new file. -/
def addFile (T : Table) (i : ℕ) : Table := { T with files := update T.files i (T.files i + 1) }

/-- A file is closed. -/
def dropFile (T : Table) (i : ℕ) : Table := { T with files := update T.files i (T.files i - 1) }

/-- Only inodes that a directory entry can name are removed. -/
def Good (T : Table) : Prop := ∀ i, T.removed i = true → ROOT_DIR_SECTOR < i

end Table

/-- What is left of a call. -/
inductive Code where
  /-- Nothing: the call has returned. -/
  | finished
  | acquire (l : LockName) (k : Code)
  | release (l : LockName) (k : Code)
  /-- `inode_read_at`. -/
  | read (i : ℕ) (k : Code)
  /-- `inode_write_at`, after it has seen that writes are not denied. -/
  | write (i : ℕ) (k : Code)
  /-- Look at the table and change it; the assertion fails if there is no new table. -/
  | act (f : Table → Option Table) (k : Table → Code)
  /-- `if (--inode->open_cnt == 0)`, and `if (inode->removed)` inside it. -/
  | drop (i : ℕ) (last more : Code)
  /-- What the model leaves open. -/
  | choose (k : ℕ → Code)

/-- `free_map_allocate`: no lock is taken. The scan may fail and so may the write. -/
def freeMapAllocate (k : Bool → Code) : Code :=
  .choose fun sector => if sector = 0 then k false else .write FREE_MAP_SECTOR (.choose fun written => k (written ≠ 0))

def freeMapRelease (k : Code) : Code := .acquire .freeMap (.write FREE_MAP_SECTOR (.release .freeMap k))

def inodeCreate (k : Bool → Code) : Code :=
  .acquire .occ <| .choose fun mem =>
    if mem = 0 then .release .occ (k false)
    else freeMapAllocate fun success => .release .occ (k success)

def inodeReopen (i : ℕ) (k : Code) : Code := .acquire .occ (.act (·.reopened i) fun _ => .release .occ k)

def inodeOpen (i : ℕ) (k : Option ℕ → Code) : Code :=
  .acquire .occ <| .act some fun T =>
    if T.openCnt i ≠ 0 then .release .occ (inodeReopen i (k (some i)))
    else .choose fun mem =>
      if mem = 0 then .release .occ (k none)
      else .act (fun T => some (T.opened i)) fun _ => .release .occ (k (some i))

def inodeClose (inode : Option ℕ) (k : Code) : Code :=
  match inode with
  | none => k
  | some i =>
    .acquire .occ (.drop i (freeMapRelease (freeMapRelease (.release .occ k))) (.release .occ k))

/-- `dir_open`; the result says whether there is a directory. -/
def dirOpen (inode : Option ℕ) (k : Bool → Code) : Code :=
  .choose fun mem => if inode.isSome ∧ mem ≠ 0 then k true else inodeClose inode (k false)

def dirOpenRoot (k : Bool → Code) : Code := inodeOpen ROOT_DIR_SECTOR fun inode => dirOpen inode k

/-- `dir_close` of the root directory. -/
def dirClose (dir : Bool) (k : Code) : Code := if dir then inodeClose (some ROOT_DIR_SECTOR) k else k

/-- Passages through a loop over the entries of the root directory. -/
def readEntries : ℕ → Code → Code
  | 0, k => k
  | n + 1, k => .read ROOT_DIR_SECTOR (readEntries n k)

/-- `lookup`: the sector of the entry, if there is one. -/
def lookup (k : Option ℕ → Code) : Code :=
  .choose fun n => readEntries (n + 1) <| .choose fun found =>
    k (if found = 0 then none else some (ROOT_DIR_SECTOR + found))

def dirLookup (k : Option ℕ → Code) : Code :=
  lookup fun e =>
    match e with
    | some i => inodeOpen i k
    | none => k none

def dirAdd (k : Bool → Code) : Code :=
  .choose fun valid =>
    if valid = 0 then k false
    else lookup fun e =>
      if e.isSome then k false
      else .choose fun n => readEntries (n + 1) <| .write ROOT_DIR_SECTOR <| .choose fun written => k (written ≠ 0)

def dirRemove (k : Code) : Code :=
  lookup fun e =>
    match e with
    | none => inodeClose none k
    | some i => inodeOpen i fun inode =>
      if inode.isSome then
        .write ROOT_DIR_SECTOR <| .choose fun written =>
          if written = 0 then inodeClose inode k
          else .act (fun T => some (T.marked i)) fun _ => inodeClose inode k
      else inodeClose none k

def fileOpen (inode : Option ℕ) (k : Code) : Code :=
  .choose fun mem =>
    match inode with
    | some i => if mem ≠ 0 then .act (fun T => some (T.addFile i)) fun _ => k else inodeClose (some i) k
    | none => inodeClose none k

def fileClose (i : ℕ) (k : Code) : Code := inodeClose (some i) k

def fileRead (i : ℕ) : Code := .read i .finished

/-- `file_write`; nothing is done while writes are denied. -/
def fileWrite (i : ℕ) : Code := .choose fun denied => if denied = 0 then .write i .finished else .finished

def filesysCreate : Code :=
  .acquire .filesys <| dirOpenRoot fun dir =>
    let finish : Code := dirClose dir (.release .filesys .finished)
    if dir then freeMapAllocate fun allocated =>
      if allocated then inodeCreate fun created =>
        if created then dirAdd fun added => if added then finish else freeMapRelease finish
        else freeMapRelease finish
      else finish
    else finish

def filesysOpen : Code :=
  .acquire .filesys <| dirOpenRoot fun dir =>
    let finish (inode : Option ℕ) : Code := dirClose dir (.release .filesys (fileOpen inode .finished))
    if dir then dirLookup finish else finish none

def filesysRemove : Code :=
  .acquire .filesys <| dirOpenRoot fun dir =>
    let finish : Code := dirClose dir (.release .filesys .finished)
    if dir then dirRemove finish else finish

def freeMapClose (k : Code) : Code := .acquire .freeMap (fileClose FREE_MAP_SECTOR (.release .freeMap k))

def filesysDone : Code := freeMapClose .finished

inductive Call where
  /-- `filesys_create`. -/
  | create
  /-- `filesys_open`. -/
  | «open»
  /-- `filesys_remove`. -/
  | remove
  /-- `file_close` of a file of inode `i`. -/
  | close (i : ℕ)
  /-- `file_read` from a file of inode `i`. -/
  | read (i : ℕ)
  /-- `file_write` to a file of inode `i`. -/
  | write (i : ℕ)
  /-- `filesys_done`. -/
  | done

/-- What a call does. -/
def Call.code : Call → Code
  | create => filesysCreate
  | «open» => filesysOpen
  | remove => filesysRemove
  | close i => fileClose i .finished
  | read i => fileRead i
  | write i => fileWrite i
  | done => filesysDone

/-! ### The threads -/

/-- What a thread is about, as far as the order of the locks depends on it; no step looks at it. -/
inductive Mode where
  /-- Anything else. -/
  | plain
  /-- In `inode_close`, giving back the sectors of a removed inode. -/
  | releasing
  /-- In `filesys_done`. -/
  | shutdown
  deriving DecidableEq

/-- The mode after a lock was released. -/
def Mode.after (m : Mode) (l : LockName) : Mode := if m = .releasing ∧ l = .occ then .plain else m

/-- The mode of a call at its start. -/
def Call.mode : Call → Mode
  | done => .shutdown
  | _ => .plain

/-- The state of the file system and its threads. -/
structure State (ι : Type) where
  /-- Who holds a lock. -/
  owner : LockName → Option ι
  /-- The semaphores of the inodes, and where the threads are in them. -/
  sync : ℕ → ReadersWriters.Lock ι
  /-- The open inodes. -/
  table : Table
  /-- What is left of the call of a thread. -/
  code : ι → Code
  /-- History: what a thread is about. -/
  mode : ι → Mode

/-- What can happen. -/
inductive Act (ι : Type) where
  /-- Thread `t` makes a call. -/
  | start (t : ι) (c : Call)
  /-- Thread `t` goes on; `n` is what is chosen. -/
  | run (t : ι) (n : ℕ)

variable {ι : Type} [DecidableEq ι]

/-- The next step of `inode_read_at`, and whether it was the last; nothing if the thread waits. -/
def readStep (s : ReadersWriters.Lock ι) (t : ι) : Option (ReadersWriters.Lock ι × Bool) :=
  match s.phase t with
  | .outside => if 0 < s.mutex then some ({ s.goto t .entering with mutex := s.mutex - 1 }, false) else none
  | .entering => if s.count = 0 then some (s.goto t .first, false) else some (s.goto t .counting, false)
  | .first => if 0 < s.room then some ({ s.goto t .counting with room := s.room - 1 }, false) else none
  | .counting => some ({ s.goto t .counted with count := s.count + 1 }, false)
  | .counted => some ({ s.goto t .reading with mutex := s.mutex + 1 }, false)
  | .reading => if 0 < s.mutex then some ({ s.goto t .uncounting with mutex := s.mutex - 1 }, false) else none
  | .uncounting => some ({ s.goto t .leaving with count := s.count - 1 }, false)
  | .leaving => if s.count = 0 then some (s.goto t .last, false) else some (s.goto t .left, false)
  | .last => some ({ s.goto t .left with room := s.room + 1 }, false)
  | .left => some ({ s.goto t .outside with mutex := s.mutex + 1 }, true)
  | .writing => none

/-- The next step of `inode_write_at`, and whether it was the last; nothing if the thread waits. -/
def writeStep (s : ReadersWriters.Lock ι) (t : ι) : Option (ReadersWriters.Lock ι × Bool) :=
  match s.phase t with
  | .outside => if 0 < s.room then some ({ s.goto t .writing with room := s.room - 1 }, false) else none
  | .writing => some ({ s.goto t .outside with room := s.room + 1 }, true)
  | _ => none

namespace State

/-- Thread `t` goes on with `c`. -/
def goto (s : State ι) (t : ι) (c : Code) : State ι := { s with code := update s.code t c }

/-- The thread of a lock changes. -/
def setOwner (s : State ι) (l : LockName) (o : Option ι) : State ι := { s with owner := update s.owner l o }

/-- The mode of thread `t` changes. -/
def setMode (s : State ι) (t : ι) (m : Mode) : State ι := { s with mode := update s.mode t m }

/-- Inode `i` has other semaphores. -/
def setSync (s : State ι) (i : ℕ) (l : ReadersWriters.Lock ι) : State ι := { s with sync := update s.sync i l }

/-- Thread `t` takes a step of `inode_read_at` or `inode_write_at` on inode `i`. -/
def access (s : State ι) (t : ι) (i : ℕ) (here k : Code) (next : Option (ReadersWriters.Lock ι × Bool)) :
    Outcome (State ι) :=
  match next with
  | none => .disabled
  | some (l, last) => .next ((s.setSync i l).goto t (if last then k else here))

end State

open LockOrder.State

/-- Thread `t` goes on. -/
def runThread (s : State ι) (t : ι) (n : ℕ) : Outcome (State ι) :=
  match s.code t with
  | .finished => .disabled
  | .acquire l k =>
    match s.owner l with
    | none => .next ((s.setOwner l (some t)).goto t k)
    -- `ASSERT (!lock_held_by_current_thread (lock))`, otherwise it waits.
    | some u => if u = t then .fault else .disabled
  | .release l k =>
    -- `ASSERT (lock_held_by_current_thread (lock))`.
    if s.owner l = some t then .next (((s.setOwner l none).setMode t ((s.mode t).after l)).goto t k) else .fault
  | .read i k => s.access t i (.read i k) k (readStep (s.sync i) t)
  | .write i k => s.access t i (.write i k) k (writeStep (s.sync i) t)
  | .act f k =>
    match f s.table with
    | some T => .next ({ s with table := T }.goto t (k s.table))
    | none => .fault
  | .drop i last more =>
    if s.table.openCnt i = 1 ∧ s.table.removed i = true then
      .next (({ s with table := s.table.dropped i }.setMode t .releasing).goto t last)
    else .next ({ s with table := s.table.dropped i }.goto t more)
  | .choose k => .next (s.goto t (k n))

/-- Thread `t` makes a call; to close, read or write a file it must be open. -/
def startCall (s : State ι) (t : ι) (c : Call) : Outcome (State ι) :=
  match s.code t with
  | .finished =>
    match c with
    | .close i =>
      if 0 < s.table.files i then .next (({ s with table := s.table.dropFile i }.setMode t .plain).goto t c.code)
      else .disabled
    | .read i | .write i => if 0 < s.table.files i then .next ((s.setMode t .plain).goto t c.code) else .disabled
    | _ => .next ((s.setMode t c.mode).goto t c.code)
  | _ => .disabled

/-- The file system after `filesys_init`: the free map's file is open. -/
def initial : State ι where
  owner _ := none
  sync _ := ⟨1, 1, 0, fun _ => .outside⟩
  table := { openCnt := update (fun _ => 0) FREE_MAP_SECTOR 1, removed := fun _ => false, files := fun _ => 0 }
  code _ := .finished
  mode _ := .plain

/-- The calls of the threads, in any order. -/
def system : System (State ι) (Act ι) where
  init s := s = initial
  step s a :=
    match a with
    | .start t c => startCall s t c
    | .run t n => runThread s t n

/-! ### Holding and waiting -/

/-- What threads wait for. -/
inductive Resource where
  | lock (l : LockName)
  /-- `r_sema` of an inode. -/
  | rSema (i : ℕ)
  /-- `w_sema` of an inode. -/
  | wSema (i : ℕ)

omit [DecidableEq ι] in
/-- Thread `t` holds a resource. The readers of an inode hold its `w_sema` together. -/
def State.Holds (s : State ι) (t : ι) : Resource → Prop
  | .lock l => s.owner l = some t
  | .rSema i => ((s.sync i).phase t).hasMutex = true
  | .wSema i => (s.sync i).phase t = .writing ∨ ((s.sync i).phase t).inCount = true ∨
      ((s.sync i).phase t).hasRoom = true

/-- Thread `t` waits for a resource: it is at a `lock_acquire` or a `sema_down` and cannot go on.
A reader in its loop counts as waiting for `r_sema`, which it needs next. -/
def State.Waits (s : State ι) (t : ι) : Resource → Prop
  | .lock l => (∃ k, s.code t = .acquire l k) ∧ s.owner l ≠ none
  | .rSema i => (∃ k, s.code t = .read i k) ∧
      ((s.sync i).phase t = .outside ∨ (s.sync i).phase t = .reading) ∧ (s.sync i).mutex = 0
  | .wSema i => ((∃ k, s.code t = .read i k) ∧ (s.sync i).phase t = .first ∨
      (∃ k, s.code t = .write i k) ∧ (s.sync i).phase t = .outside) ∧ (s.sync i).room = 0

/-- There is a cycle of threads each of which waits for what the next one holds. -/
def State.Deadlocked (s : State ι) : Prop := Deadlock s.Waits s.Holds

/-- `filesys_done` in thread `a` has the free map's lock and waits for `occ_lock`. -/
def State.Closing (s : State ι) (a : ι) : Prop :=
  s.mode a = .shutdown ∧ s.owner .freeMap = some a ∧ ∃ k, s.code a = .acquire .occ k

/-- `inode_close` in thread `b` has `occ_lock`, for the last reference to a removed inode, and waits
for the free map's lock. -/
def State.Releasing (s : State ι) (b : ι) : Prop :=
  s.mode b = .releasing ∧ s.owner .occ = some b ∧ ∃ k, s.code b = .acquire .freeMap k

/-! ### The order of the locks -/

/-- In mode `m` a thread that holds `h` may take `l`. -/
def Mode.allows (m : Mode) : LockName → LockName → Bool
  | .filesys, .occ => true
  | .filesys, .freeMap => true
  | .occ, .freeMap => m = .releasing
  | .freeMap, .occ => m = .shutdown
  | _, _ => false

/-- What is left of a call takes the locks in the order of its mode when it holds `held`, gives back
only what it has, and ends with nothing. -/
def Orderly (m : Mode) (held : Finset LockName) : Code → Prop
  | .finished => held = ∅
  | .acquire l k => (∀ h ∈ held, m.allows h l = true) ∧ Orderly m (insert l held) k
  | .release l k => l ∈ held ∧ Orderly (m.after l) (held.erase l) k
  | .read _ k => Orderly m held k
  | .write _ k => Orderly m held k
  | .act f k => (∀ T T', T.Good → f T = some T' → T'.Good) ∧ ∀ T, Orderly m held (k T)
  | .drop i last more => (ROOT_DIR_SECTOR < i → m = .plain ∧ Orderly .releasing held last) ∧ Orderly m held more
  | .choose k => ∀ n, Orderly m held (k n)

/-- Nothing but `filesys_lock` is held. -/
def Low (held : Finset LockName) : Prop := ∀ h ∈ held, h = .filesys

theorem low_empty : Low ∅ := by simp [Low]

theorem low_filesys : Low {.filesys} := by simp [Low]

section Orderly

variable {m : Mode} {held : Finset LockName} {l : LockName}

theorem Low.notMem (hlow : Low held) (hl : l ≠ .filesys) : l ∉ held := fun hmem => hl (hlow l hmem)

theorem Low.allows (hlow : Low held) (hl : l ≠ .filesys) : ∀ h ∈ held, m.allows h l = true := by
  intro h hmem
  rw [hlow h hmem]
  cases l with
  | filesys => exact absurd rfl hl
  | occ | freeMap => rfl

variable {k : Code}

theorem orderly_release_insert (hl : l ∉ held) (hk : Orderly (m.after l) held k) :
    Orderly m (insert l held) (.release l k) :=
  ⟨Finset.mem_insert_self l held, by rwa [Finset.erase_insert hl]⟩

theorem orderly_finished : Orderly m ∅ .finished := rfl

variable {c : Code}

theorem orderly_ite {p : Prop} [Decidable p] {d : Code} (hc : Orderly m held c) (hd : Orderly m held d) :
    Orderly m held (if p then c else d) := by
  split
  · exact hc
  · exact hd

theorem orderly_freeMapAllocate {k : Bool → Code} (hk : ∀ b, Orderly m held (k b)) :
    Orderly m held (freeMapAllocate k) := fun _ =>
  orderly_ite (hk false) fun _ => hk _

theorem orderly_freeMapRelease (hallow : ∀ h ∈ held, m.allows h .freeMap = true)
    (hnot : .freeMap ∉ held) (hk : Orderly m held k) : Orderly m held (freeMapRelease k) := by
  refine ⟨hallow, orderly_release_insert hnot ?_⟩
  simpa [Mode.after] using hk

theorem orderly_inodeCreate {k : Bool → Code} (hlow : Low held) (hk : ∀ b, Orderly .plain held (k b)) :
    Orderly .plain held (inodeCreate k) := by
  have hrelease : ∀ b, Orderly .plain (insert .occ held) (.release .occ (k b)) := fun b =>
    orderly_release_insert (hlow.notMem nofun) (hk b)
  exact ⟨hlow.allows nofun, fun _ => orderly_ite (hrelease false) (orderly_freeMapAllocate hrelease)⟩

variable {i : ℕ}

theorem orderly_inodeReopen (hlow : Low held) (hk : Orderly .plain held k) : Orderly .plain held (inodeReopen i k) := by
  refine ⟨hlow.allows nofun, ?_, fun _ => orderly_release_insert (hlow.notMem nofun) hk⟩
  intro T T' hgood hreopen
  obtain ⟨-, hsome⟩ := Option.ite_none_right_eq_some.mp hreopen
  cases hsome
  exact hgood

theorem orderly_inodeOpen {k : Option ℕ → Code} (hlow : Low held) (hk : ∀ o, Orderly .plain held (k o)) :
    Orderly .plain held (inodeOpen i k) := by
  have hrelease : ∀ c, Orderly .plain held c → Orderly .plain (insert .occ held) (.release .occ c) := fun c hc =>
    orderly_release_insert (hlow.notMem nofun) hc
  have hopened : ∀ T T' : Table, T.Good → some (T.opened i) = some T' → T'.Good := by
    intro T T' hgood hsome j hj
    cases hsome
    obtain ⟨-, ⟨⟩⟩ | ⟨-, hj⟩ := update_cases hj
    exact hgood j hj
  refine ⟨hlow.allows nofun, fun T T' hgood hsome => Option.some.inj hsome ▸ hgood, fun T => ?_⟩
  refine orderly_ite (hrelease _ (orderly_inodeReopen hlow (hk _))) fun mem => ?_
  exact orderly_ite (hrelease _ (hk none)) ⟨hopened, fun _ => hrelease _ (hk _)⟩

theorem orderly_inodeClose {inode : Option ℕ} (hlow : Low held) (hk : Orderly .plain held k) :
    Orderly .plain held (inodeClose inode k) := by
  cases inode with
  | none => exact hk
  | some i =>
    have hocc : .occ ∉ held := hlow.notMem nofun
    refine ⟨hlow.allows nofun, fun _ => ⟨rfl, ?_⟩, orderly_release_insert hocc hk⟩
    -- The sectors are released with `occ_lock` held.
    have hallow : ∀ h ∈ insert .occ held, Mode.releasing.allows h .freeMap = true := by
      intro h hmem
      rcases Finset.mem_insert.mp hmem with rfl | hmem
      · rfl
      · exact hlow.allows (l := .freeMap) nofun h hmem
    have hnot : LockName.freeMap ∉ insert .occ held := by simp [hlow.notMem]
    exact orderly_freeMapRelease hallow hnot
      (orderly_freeMapRelease hallow hnot (orderly_release_insert hocc hk))

theorem orderly_dirOpenRoot {k : Bool → Code} (hlow : Low held) (hk : ∀ b, Orderly .plain held (k b)) :
    Orderly .plain held (dirOpenRoot k) :=
  orderly_inodeOpen hlow fun _ _ => orderly_ite (hk true) (orderly_inodeClose hlow (hk false))

theorem orderly_dirClose {dir : Bool} (hlow : Low held) (hk : Orderly .plain held k) :
    Orderly .plain held (dirClose dir k) :=
  orderly_ite (orderly_inodeClose hlow hk) hk

theorem orderly_readEntries (hk : Orderly m held k) (n : ℕ) : Orderly m held (readEntries n k) := by
  induction n with
  | zero => exact hk
  | succ n ih => exact ih

theorem orderly_lookup {k : Option ℕ → Code}
    (hk : ∀ o, (∀ i, o = some i → ROOT_DIR_SECTOR < i) → Orderly m held (k o)) : Orderly m held (lookup k) := by
  intro n
  have hfound : ∀ found, Orderly m held (k (if found = 0 then none else some (ROOT_DIR_SECTOR + found))) := by
    intro found
    refine hk _ fun i hi => ?_
    obtain ⟨hne, hsome⟩ := Option.ite_none_left_eq_some.mp hi
    cases hsome
    omega
  exact orderly_readEntries (k := .choose _) hfound (n + 1)

theorem orderly_dirLookup {k : Option ℕ → Code} (hlow : Low held) (hk : ∀ o, Orderly .plain held (k o)) :
    Orderly .plain held (dirLookup k) := by
  refine orderly_lookup fun e _ => ?_
  cases e with
  | none => exact hk none
  | some i => exact orderly_inodeOpen hlow hk

theorem orderly_dirAdd {k : Bool → Code} (hk : ∀ b, Orderly m held (k b)) : Orderly m held (dirAdd k) := by
  intro valid
  refine orderly_ite (hk false) (orderly_lookup fun e _ => orderly_ite (hk false) fun n => ?_)
  exact orderly_readEntries (k := .write _ (.choose _)) (fun written => hk _) (n + 1)

theorem orderly_dirRemove (hlow : Low held) (hk : Orderly .plain held k) : Orderly .plain held (dirRemove k) := by
  refine orderly_lookup fun e he => ?_
  cases e with
  | none => exact hk
  | some i =>
    have hmarked : ∀ T T' : Table, T.Good → some (T.marked i) = some T' → T'.Good := by
      intro T T' hgood hsome j hj
      cases hsome
      obtain ⟨rfl, -⟩ | ⟨-, hj⟩ := update_cases hj
      exacts [he j rfl, hgood j hj]
    refine orderly_inodeOpen hlow fun inode => orderly_ite (fun written => ?_) hk
    have hclose : Orderly .plain held (inodeClose inode k) := orderly_inodeClose hlow hk
    exact orderly_ite hclose ⟨hmarked, fun _ => hclose⟩

theorem orderly_fileOpen {inode : Option ℕ} (hlow : Low held) (hk : Orderly .plain held k) :
    Orderly .plain held (fileOpen inode k) := by
  intro mem
  cases inode with
  | none => exact hk
  | some i =>
    refine orderly_ite ⟨fun T T' hgood hsome => ?_, fun _ => hk⟩ (orderly_inodeClose hlow hk)
    cases hsome
    exact hgood

theorem orderly_filesys {k : (Bool → Code)} (hk : ∀ b, Orderly .plain {.filesys} (k b)) :
    Orderly .plain ∅ (.acquire .filesys (dirOpenRoot k)) :=
  ⟨nofun, orderly_dirOpenRoot low_filesys hk⟩

theorem orderly_finish {dir : Bool} (hk : Orderly .plain ∅ k) :
    Orderly .plain {.filesys} (dirClose dir (.release .filesys k)) :=
  orderly_dirClose low_filesys (orderly_release_insert (Finset.notMem_empty _) hk)

theorem orderly_filesysCreate : Orderly .plain ∅ filesysCreate := by
  refine orderly_filesys fun dir => ?_
  have hfinish : Orderly .plain {.filesys} (dirClose dir (.release .filesys .finished)) := orderly_finish orderly_finished
  have hundo : Orderly .plain {.filesys} (freeMapRelease (dirClose dir (.release .filesys .finished))) :=
    orderly_freeMapRelease (low_filesys.allows nofun) (low_filesys.notMem nofun) hfinish
  refine orderly_ite (orderly_freeMapAllocate fun allocated => orderly_ite ?_ hfinish) hfinish
  refine orderly_inodeCreate low_filesys fun created => orderly_ite ?_ hundo
  exact orderly_dirAdd fun added => orderly_ite hfinish hundo

theorem orderly_filesysOpen : Orderly .plain ∅ filesysOpen := by
  refine orderly_filesys fun dir => ?_
  have hfinish : ∀ inode, Orderly .plain {.filesys}
      (dirClose dir (.release .filesys (fileOpen inode .finished))) := fun inode =>
    orderly_finish (orderly_fileOpen low_empty orderly_finished)
  exact orderly_ite (orderly_dirLookup low_filesys hfinish) (hfinish none)

theorem orderly_filesysRemove : Orderly .plain ∅ filesysRemove :=
  orderly_filesys fun _ => orderly_ite (orderly_dirRemove low_filesys
    (orderly_finish orderly_finished)) (orderly_finish orderly_finished)

/-- `filesys_done` takes `occ_lock` with the free map's lock held. The free map's inode is never a
removed one. -/
theorem orderly_filesysDone : Orderly .shutdown ∅ filesysDone := by
  refine ⟨nofun, by decide, fun hroot => absurd hroot (by decide), ?_⟩
  exact orderly_release_insert (by decide) (orderly_release_insert (Finset.notMem_empty _) orderly_finished)

theorem orderly_close (i : ℕ) : Orderly .plain ∅ (fileClose i .finished) := orderly_inodeClose low_empty orderly_finished

/-- **Every call takes its locks in the order of its mode.** -/
theorem Call.orderly (c : Call) : Orderly c.mode ∅ c.code := by
  cases c with
  | create => exact orderly_filesysCreate
  | «open» => exact orderly_filesysOpen
  | remove => exact orderly_filesysRemove
  | close i => exact orderly_close i
  | read i => exact orderly_finished (m := .plain)
  | write i => exact fun _ => orderly_ite (orderly_finished (m := .plain)) orderly_finished
  | done => exact orderly_filesysDone

end Orderly

/-! ### The invariant -/

/-- The locks thread `t` holds. -/
def State.held (s : State ι) (t : ι) : Finset LockName := Finset.univ.filter fun l => s.owner l = some t

variable {t : ι} {s : State ι}

@[simp] theorem State.mem_held : l ∈ s.held t ↔ s.owner l = some t := by
  simp [held]

section SetOwner

variable {s : State ι} {t : ι} {l : LockName}

theorem State.held_setOwner_some : (s.setOwner l (some t)).held t = insert l (s.held t) := by
  ext l'
  by_cases hl : l' = l <;> simp [setOwner, hl]

theorem State.held_setOwner_none : (s.setOwner l none).held t = (s.held t).erase l := by
  ext l'
  by_cases hl : l' = l <;> simp [setOwner, hl]

theorem State.held_setOwner_of_ne {o : Option ι} (h : s.owner l ≠ some t) (ho : o ≠ some t) :
    (s.setOwner l o).held t = s.held t := by
  ext l'
  by_cases hl : l' = l
  · simp [setOwner, hl, h, ho]
  · simp [setOwner, hl]

end SetOwner

omit [DecidableEq ι] in
/-- A thread is inside an inode only when its code is at a read or a write of it. -/
def Inside (c : Code) (i : ℕ) (p : Phase) : Prop :=
  p = .outside ∨ (∃ k, c = .read i k ∧ p ≠ .writing) ∨ ∃ k, c = .write i k ∧ p = .writing

attribute [local simp] ReadersWriters.Lock.goto

variable {last : Bool}

theorem readStep_spec {s s' : ReadersWriters.Lock ι} (h : readStep s t = some (s', last)) :
    ReadersWriters.Step s t s' ∧ s'.phase t ≠ .writing ∧ (last = true → s'.phase t = .outside) := by
  cases hphase : s.phase t <;> simp only [readStep, hphase] at h
  case outside =>
    obtain ⟨hpos, heq⟩ := Option.ite_none_right_eq_some.mp h
    cases heq
    exact ⟨.enter hphase hpos, by simp⟩
  case entering =>
    split at h <;> rename_i hcount <;> cases h
    · exact ⟨.isFirst hphase hcount, by simp⟩
    · exact ⟨.notFirst hphase hcount, by simp⟩
  case first =>
    obtain ⟨hpos, heq⟩ := Option.ite_none_right_eq_some.mp h
    cases heq
    exact ⟨.take hphase hpos, by simp⟩
  case counting =>
    cases h
    exact ⟨.count hphase, by simp⟩
  case counted =>
    cases h
    exact ⟨.read hphase, by simp⟩
  case reading =>
    obtain ⟨hpos, heq⟩ := Option.ite_none_right_eq_some.mp h
    cases heq
    exact ⟨.leave hphase hpos, by simp⟩
  case uncounting =>
    cases h
    exact ⟨.uncount hphase, by simp⟩
  case leaving =>
    split at h <;> rename_i hcount <;> cases h
    · exact ⟨.isLast hphase hcount, by simp⟩
    · exact ⟨.notLast hphase hcount, by simp⟩
  case last =>
    cases h
    exact ⟨.give hphase, by simp⟩
  case left =>
    cases h
    exact ⟨.exit hphase, by simp⟩
  case writing => cases h

theorem writeStep_spec {s s' : ReadersWriters.Lock ι} (h : writeStep s t = some (s', last)) :
    ReadersWriters.Step s t s' ∧ (last = false → s'.phase t = .writing) ∧ (last = true → s'.phase t = .outside) := by
  cases hphase : s.phase t <;> simp only [writeStep, hphase] at h
  case outside =>
    obtain ⟨hpos, heq⟩ := Option.ite_none_right_eq_some.mp h
    cases heq
    exact ⟨.write hphase hpos, by simp⟩
  case writing =>
    cases h
    exact ⟨.written hphase, by simp⟩
  all_goals cases h

variable {s' : State ι}

theorem startCall_eq_next {c : Call} (h : startCall s t c = .next s') :
    s.code t = .finished ∧ ∃ T : Table, T.removed = s.table.removed ∧
      s' = ({ s with table := T }.setMode t c.mode).goto t c.code := by
  unfold startCall at h
  split at h
  case h_2 => cases h
  rename_i hcode
  refine ⟨hcode, ?_⟩
  split at h
  case h_1 i =>
    split at h <;> cases h
    exact ⟨s.table.dropFile i, rfl, rfl⟩
  case h_4 =>
    cases h
    exact ⟨s.table, rfl, rfl⟩
  all_goals
    split at h <;> cases h
    exact ⟨s.table, rfl, rfl⟩

section Invariant

variable [Fintype ι]

/-- **What holds in every state**: what is left of a call takes its locks in order, the semaphores
of an inode follow the protocol, and the threads in an inode are those whose code is there. -/
structure Inv (s : State ι) : Prop where
  /-- The order of the locks. -/
  orderly : ∀ t, Orderly (s.mode t) (s.held t) (s.code t)
  /-- The semaphores. -/
  sync : ∀ i, ReadersWriters.Ok (s.sync i)
  /-- Where the threads are. -/
  inside : ∀ t i, Inside (s.code t) i ((s.sync i).phase t)
  /-- The free map and the root directory are not removed. -/
  table : s.table.Good

theorem inv_initial : Inv (initial : State ι) where
  orderly _ := orderly_finished
  sync _ := ReadersWriters.ok_initial
  inside _ _ := .inl rfl
  table _ h := nomatch h

namespace Inv

variable {s : State ι} (h : Inv s)
include h

theorem outside_of_code (hc : s.code t = c) (hread : ∀ i k, c ≠ .read i k) (hwrite : ∀ i k, c ≠ .write i k) (i : ℕ) :
    (s.sync i).phase t = .outside := by
  rcases h.inside t i with hout | ⟨k, hk, -⟩ | ⟨k, hk, -⟩
  · exact hout
  · exact absurd (hc.symm.trans hk) (hread i k)
  · exact absurd (hc.symm.trans hk) (hwrite i k)

/-- **A step of thread `t` that is in no inode**: it is enough to look at what is left of its
call. -/
theorem move (hout : ∀ i, (s.sync i).phase t = .outside) (hsync : s'.sync = s.sync)
    (hothers : ∀ u, u ≠ t → s'.code u = s.code u ∧ s'.mode u = s.mode u ∧ s'.held u = s.held u)
    (htable : s'.table.Good) (horderly : Orderly (s'.mode t) (s'.held t) (s'.code t)) : Inv s' where
  orderly u := by
    by_cases hu : u = t
    · rw [hu]
      exact horderly
    · obtain ⟨hcode, hmode, hheld⟩ := hothers u hu
      rw [hcode, hmode, hheld]
      exact h.orderly u
  sync i := by
    rw [hsync]
    exact h.sync i
  inside u i := by
    rw [hsync]
    by_cases hu : u = t
    · rw [hu]
      exact .inl (hout i)
    · rw [(hothers u hu).1]
      exact h.inside u i
  table := htable

/-- A step of thread `t` that is in no inode and neither takes nor gives back a lock. -/
theorem advance {m : Mode} (hout : ∀ i, (s.sync i).phase t = .outside)
    (hsync : s'.sync = s.sync) (howner : s'.owner = s.owner) (hcode : s'.code = update s.code t c)
    (hmode : s'.mode = update s.mode t m) (htable : s'.table.Good) (horderly : Orderly m (s.held t) c) :
    Inv s' := by
  have hheld : ∀ u, s'.held u = s.held u := fun u => by
    unfold held
    rw [howner]
  refine h.move hout hsync (fun u hu => ?_) htable ?_
  · rw [hcode, hmode, update_of_ne hu, update_of_ne hu]
    exact ⟨rfl, rfl, hheld u⟩
  · rw [hheld, hcode, hmode, update_self, update_self]
    exact horderly

theorem outside_others (hc : s.code t = .read i k ∨ s.code t = .write i k) {j : ℕ}
    (hj : j ≠ i) : (s.sync j).phase t = .outside := by
  rcases h.inside t j with hout | ⟨k', hk, -⟩ | ⟨k', hk, -⟩
  · exact hout
  all_goals
    rcases hc with hc | hc <;> rw [hc] at hk <;> cases hk
    exact absurd rfl hj

/-- **A step of thread `t` in an inode.** -/
theorem moveAccess {l : ReadersWriters.Lock ι} {here : Code}
    (hcode : s.code t = .read i k ∨ s.code t = .write i k) (hstep : ReadersWriters.Step (s.sync i) t l)
    (hhere : Orderly (s.mode t) (s.held t) here) (hk : Orderly (s.mode t) (s.held t) k)
    (hinside : last = false → Inside here i (l.phase t)) (hlast : last = true → l.phase t = .outside) :
    Inv ((s.setSync i l).goto t (if last then k else here)) where
  orderly := (forall_update_iff s.code fun u => Orderly (s.mode u) (s.held u)).mpr
    ⟨orderly_ite hk hhere, fun u _ => h.orderly u⟩
  sync := (forall_update_iff s.sync fun _ => ReadersWriters.Ok).mpr ⟨(h.sync i).step hstep, fun j _ => h.sync j⟩
  inside u j := by
    obtain rfl | hj := eq_or_ne j i
    · by_cases hu : u = t
      · subst hu
        cases last with
        | false => simpa [goto, setSync] using hinside rfl
        | true => simpa [goto, setSync] using .inl (hlast rfl)
      · simpa [goto, setSync, hu, hstep.phase_of_ne hu] using h.inside u j
    · obtain rfl | hu := eq_or_ne u t
      · simpa [goto, setSync, hj] using .inl (h.outside_others hcode hj)
      · simpa [goto, setSync, hj, hu] using h.inside u j
  table := h.table

theorem runThread {n : ℕ} (hrun : runThread s t n = .next s') : Inv s' := by
  have horderly := h.orderly t
  unfold LockOrder.runThread at hrun
  split at hrun <;> rename_i hcode <;> rw [hcode] at horderly
  case h_1 => cases hrun
  case h_2 l k =>
    split at hrun
    · rename_i hfree
      cases hrun
      refine h.move (t := t) (h.outside_of_code hcode nofun nofun) rfl (fun u hu => ?_) h.table ?_
      · refine ⟨update_of_ne hu _ _, rfl, held_setOwner_of_ne ?_ (by simpa using hu.symm)⟩
        simp [hfree]
      · change Orderly (s.mode t) ((s.setOwner l (some t)).held t) (update s.code t k t)
        rw [held_setOwner_some, update_self]
        exact horderly.2
    · split at hrun <;> cases hrun
  case h_3 l k =>
    split at hrun
    · rename_i howner
      cases hrun
      refine h.move (t := t) (h.outside_of_code hcode nofun nofun) rfl (fun u hu => ?_) h.table ?_
      · refine ⟨update_of_ne hu _ _, update_of_ne hu _ _, held_setOwner_of_ne ?_ nofun⟩
        simpa [howner] using hu.symm
      · change Orderly (update s.mode t _ t) ((s.setOwner l none).held t) (update s.code t k t)
        rw [held_setOwner_none, update_self, update_self]
        exact horderly.2
    · cases hrun
  case h_4 i k =>
    unfold access at hrun
    split at hrun
    · cases hrun
    · rename_i l last hstep
      cases hrun
      obtain ⟨hst, hwriting, hlast⟩ := readStep_spec hstep
      exact h.moveAccess (.inl hcode) hst horderly horderly (fun _ => .inr (.inl ⟨k, rfl, hwriting⟩)) hlast
  case h_5 i k =>
    unfold access at hrun
    split at hrun
    · cases hrun
    · rename_i l last hstep
      cases hrun
      obtain ⟨hst, hwriting, hlast⟩ := writeStep_spec hstep
      exact h.moveAccess (.inr hcode) hst horderly horderly (fun hfalse => .inr (.inr ⟨k, rfl, hwriting hfalse⟩)) hlast
  case h_6 f k =>
    split at hrun
    · rename_i T hT
      cases hrun
      exact h.advance (h.outside_of_code hcode nofun nofun) rfl rfl rfl (update_eq_self t _).symm
        (horderly.1 _ _ h.table hT) (horderly.2 _)
    · cases hrun
  case h_7 i last more =>
    split at hrun
    · rename_i hlast
      cases hrun
      -- The inode is a removed one, so it is not that of the free map.
      exact h.advance (h.outside_of_code hcode nofun nofun) rfl rfl rfl rfl h.table
        (horderly.1 (h.table i hlast.2)).2
    · cases hrun
      exact h.advance (h.outside_of_code hcode nofun nofun) rfl rfl rfl (update_eq_self t _).symm
        h.table horderly.2
  case h_8 k =>
    cases hrun
    exact h.advance (h.outside_of_code hcode nofun nofun) rfl rfl rfl (update_eq_self t _).symm
      h.table (horderly n)

theorem startCall {c : Call} (hstart : startCall s t c = .next s') : Inv s' := by
  obtain ⟨hcode, T, hremoved, rfl⟩ := startCall_eq_next hstart
  have hheld : s.held t = ∅ := by
    have horderly := h.orderly t
    rwa [hcode] at horderly
  refine h.advance (h.outside_of_code hcode nofun nofun) rfl rfl rfl rfl (fun i hi => ?_) (hheld ▸ c.orderly)
  exact h.table i (hremoved ▸ hi)

end Inv

/-- **The invariant holds in every run.** -/
theorem inv_of_reach (h : system.Reach s) : Inv s := by
  refine h.invariant (fun s hs => hs ▸ inv_initial) fun s a s' hinv hstep => ?_
  cases a with
  | start t c => exact hinv.startCall hstep
  | run t n => exact hinv.runThread hstep

/-! ### Deadlock -/

/-- How far a thread is in an order of the locks; the semaphores come after all locks, and a reader
waits for `r_sema` before it takes part, for `w_sema` as the first, and for `r_sema` again at the
end. -/
def State.rank (s : State ι) (order : LockName → ℕ) (t : ι) : ℕ :=
  match s.code t with
  | .acquire l _ => order l
  | .read i _ => if (s.sync i).phase t = .reading then 5 else if (s.sync i).phase t = .first then 4 else 3
  | .write _ _ => 4
  | _ => 0

/-- The order of the locks in `inode_close`. -/
def closeOrder : LockName → ℕ
  | .filesys => 0
  | .occ => 1
  | .freeMap => 2

/-- The order of the locks in `filesys_done`. -/
def doneOrder : LockName → ℕ
  | .filesys => 0
  | .freeMap => 1
  | .occ => 2

namespace Inv

variable {s : State ι} (h : Inv s)
include h

variable {u : ι}

/-- A thread that waits inside an inode is a reader: the first one at `w_sema`, or one that
leaves. -/
theorem waits_inside {y : Resource} (hin : (s.sync i).phase u ≠ .outside) (hy : s.Waits u y) :
    ∃ k, s.code u = .read i k ∧ ((s.sync i).phase u = .first ∨ (s.sync i).phase u = .reading) := by
  obtain hout | ⟨k, hk, -⟩ | ⟨k, hk, hwriting⟩ := h.inside u i
  · exact absurd hout hin
  · refine ⟨k, hk, ?_⟩
    cases y with
    | lock l =>
      obtain ⟨⟨k', hk'⟩, -⟩ := hy
      cases hk.symm.trans hk'
    | rSema j =>
      obtain ⟨⟨k', hk'⟩, hphase, -⟩ := hy
      cases hk.symm.trans hk'
      exact hphase.elim (absurd · hin) .inr
    | wSema j =>
      obtain ⟨⟨⟨k', hk'⟩, hphase⟩ | ⟨⟨k', hk'⟩, -⟩, -⟩ := hy
      · cases hk.symm.trans hk'
        exact .inl hphase
      · cases hk.symm.trans hk'
  -- A writer in the room does not wait.
  · cases y with
    | lock l | rSema j =>
      obtain ⟨⟨k', hk'⟩, -⟩ := hy
      cases hk.symm.trans hk'
    | wSema j =>
      obtain ⟨⟨⟨k', hk'⟩, -⟩ | ⟨⟨k', hk'⟩, hphase⟩, -⟩ := hy
      · cases hk.symm.trans hk'
      · cases hk.symm.trans hk'
        exact absurd hphase hin

/-- **A thread waits for one that is further**, for an order that the threads at a `lock_acquire`
keep. -/
theorem rank_lt {order : LockName → ℕ} (hsmall : ∀ l, order l < 3)
    (hkeep : ∀ u l l' k, s.owner l = some u → s.code u = .acquire l' k → order l < order l')
    {x y : Resource} (ht : s.Waits t x) (hu : s.Holds u x) (hu' : s.Waits u y) : s.rank order t < s.rank order u := by
  cases x with
  | lock l =>
    obtain ⟨⟨k, hk⟩, -⟩ := ht
    have hrank : s.rank order t = order l := by simp [rank, hk]
    rw [hrank]
    cases y with
    | lock l' =>
      obtain ⟨⟨k', hk'⟩, -⟩ := hu'
      simpa [rank, hk'] using hkeep u l l' k' hu hk'
    | rSema i =>
      obtain ⟨⟨k', hk'⟩, hphase, -⟩ := hu'
      have := hsmall l
      rcases hphase with hphase | hphase <;> simp [rank, hk', hphase] <;> omega
    | wSema i =>
      have := hsmall l
      obtain ⟨⟨⟨k', hk'⟩, hphase⟩ | ⟨⟨k', hk'⟩, -⟩, -⟩ := hu'
      · simp [rank, hk', hphase]
        omega
      · simp [rank, hk']
        omega
  | rSema i =>
    obtain ⟨⟨k, hk⟩, hphase, -⟩ := ht
    have hin : (s.sync i).phase u ≠ .outside := fun hout => by simp [State.Holds, hout, Phase.hasMutex] at hu
    obtain ⟨k', hk', hfirst | hreading⟩ := h.waits_inside hin hu'
    · have hrank : s.rank order u = 4 := by simp [rank, hk', hfirst]
      rcases hphase with hphase | hphase
      · rw [hrank]
        simp [rank, hk, hphase]
      -- The first reader waits only while nobody is counted.
      · have hzero := (h.sync i).first u hfirst
        have hpos := (h.sync i).count_pos (t := t) (by simp [hphase, Phase.inCount])
        omega
    · simp [State.Holds, hreading, Phase.hasMutex] at hu
  | wSema i =>
    have hrank : s.rank order t = 4 := by
      obtain ⟨⟨⟨k, hk⟩, hphase⟩ | ⟨⟨k, hk⟩, -⟩, -⟩ := ht
      · simp [rank, hk, hphase]
      · simp [rank, hk]
    have hin : (s.sync i).phase u ≠ .outside := fun hout => by
      simp [State.Holds, hout, Phase.inCount, Phase.hasRoom] at hu
    obtain ⟨k', hk', hfirst | hreading⟩ := h.waits_inside hin hu'
    · simp [State.Holds, hfirst, Phase.inCount, Phase.hasRoom] at hu
    · rw [hrank]
      simp [rank, hk', hreading]

/-- The locks a thread at a `lock_acquire` holds are ones from which it may take the next. -/
theorem allows {l' : LockName} (howner : s.owner l = some u) (hcode : s.code u = .acquire l' k) :
    (s.mode u).allows l l' = true := by
  have horderly := h.orderly u
  rw [hcode] at horderly
  exact horderly.1 l (mem_held.mpr howner)

/-- Without a thread in the middle of `filesys_done` the order is that of `inode_close`. -/
theorem not_deadlocked_of_not_closing (hnone : ¬∃ a, s.Closing a) : ¬s.Deadlocked := by
  refine not_deadlock_of_rank (s.rank closeOrder) fun t u x y => h.rank_lt (fun l => by cases l <;> decide) ?_
  intro u l l' k howner hcode
  have hallows := h.allows howner hcode
  cases l <;> cases l' <;> simp [Mode.allows, closeOrder] at hallows ⊢
  exact hnone ⟨u, hallows, howner, k, hcode⟩

/-- Without a thread that releases the sectors of an inode the order is that of `filesys_done`. -/
theorem not_deadlocked_of_not_releasing (hnone : ¬∃ b, s.Releasing b) : ¬s.Deadlocked := by
  refine not_deadlock_of_rank (s.rank doneOrder) fun t u x y => h.rank_lt (fun l => by cases l <;> decide) ?_
  intro u l l' k howner hcode
  have hallows := h.allows howner hcode
  cases l <;> cases l' <;> simp [Mode.allows, doneOrder] at hallows ⊢
  exact hnone ⟨u, hallows, howner, k, hcode⟩

end Inv

/-- **The only deadlock** is that of `filesys_done` with an `inode_close` of a removed inode. -/
theorem deadlock_iff (h : system.Reach s) : s.Deadlocked ↔ (∃ a, s.Closing a) ∧ ∃ b, s.Releasing b := by
  have hinv := inv_of_reach h
  constructor
  · intro hdead
    by_contra hnot
    rw [not_and_or] at hnot
    rcases hnot with hnone | hnone
    · exact hinv.not_deadlocked_of_not_closing hnone hdead
    · exact hinv.not_deadlocked_of_not_releasing hnone hdead
  · rintro ⟨⟨a, -, hfreeMap, ka, hka⟩, b, -, hocc, kb, hkb⟩
    exact Deadlock.of_two (t := a) (u := b) (x := .lock .occ) (y := .lock .freeMap) ⟨⟨ka, hka⟩, by simp [hocc]⟩ hocc
      ⟨⟨kb, hkb⟩, by simp [hfreeMap]⟩ hfreeMap

/-! ### Keeping the two apart -/

/-- The call has returned. -/
def Code.isFinished : Code → Bool
  | .finished => true
  | _ => false

/-- Thread `t` is about to close the last reference to a removed inode. -/
def State.closesRemoved (s : State ι) (t : ι) : Bool :=
  match s.code t with
  | .drop i _ _ => s.table.openCnt i = 1 && s.table.removed i
  | _ => false

/-- `filesys_done` does not start while a thread gives back the sectors of a removed inode, and no
thread closes the last reference to a removed inode while `filesys_done` runs. -/
def apart (s : State ι) : Act ι → Bool
  | .start _ .done => decide (∀ u, s.mode u ≠ .releasing)
  | .start _ _ => true
  | .run t _ => !s.closesRemoved t || decide (∀ u, s.mode u = .shutdown → (s.code u).isFinished = true)

omit [Fintype ι] in
theorem runThread_modes {n : ℕ} (hrun : runThread s t n = .next s') :
    (s.code t).isFinished = false ∧ (∀ u, u ≠ t → s'.code u = s.code u ∧ s'.mode u = s.mode u) ∧
      (s'.mode t = .shutdown → s.mode t = .shutdown) ∧
      (s'.mode t = .releasing → s.mode t = .releasing ∨ s.closesRemoved t = true) := by
  have hcode : ∀ {c : Code} {u}, u ≠ t → update s.code t c u = s.code u := fun hu =>
    update_of_ne hu _ _
  unfold runThread at hrun
  unfold closesRemoved
  split at hrun <;> rename_i hc <;> rw [hc]
  case h_1 => cases hrun
  all_goals refine ⟨rfl, ?_⟩
  case h_2 l k =>
    split at hrun
    · cases hrun
      exact ⟨fun u hu => ⟨hcode hu, rfl⟩, id, .inl⟩
    · split at hrun <;> cases hrun
  case h_3 l k =>
    split at hrun <;> cases hrun
    refine ⟨fun u hu => ⟨hcode hu, update_of_ne hu _ _⟩, ?_⟩
    change (update s.mode t _ t = _ → _) ∧ (update s.mode t _ t = _ → _)
    rw [update_self, Mode.after]
    split
    · exact ⟨nofun, nofun⟩
    · exact ⟨id, .inl⟩
  case h_4 i k | h_5 i k =>
    unfold access at hrun
    split at hrun <;> cases hrun
    exact ⟨fun u hu => ⟨hcode hu, rfl⟩, id, .inl⟩
  case h_6 f k =>
    split at hrun <;> cases hrun
    exact ⟨fun u hu => ⟨hcode hu, rfl⟩, id, .inl⟩
  case h_7 i last more =>
    split at hrun <;> cases hrun
    · rename_i hlast
      refine ⟨fun u hu => ⟨hcode hu, update_of_ne hu _ _⟩, fun hmode => ?_, fun _ => .inr ?_⟩
      · change update s.mode t _ t = _ at hmode
        rw [update_self] at hmode
        cases hmode
      · simpa using hlast
    · exact ⟨fun u hu => ⟨hcode hu, rfl⟩, id, .inl⟩
  case h_8 k =>
    cases hrun
    exact ⟨fun u hu => ⟨hcode hu, rfl⟩, id, .inl⟩

/-- Nobody is in `filesys_done` together with a thread that releases the sectors of an inode. -/
def Apart (s : State ι) : Prop :=
  ∀ a b, s.mode a = .shutdown → (s.code a).isFinished = false → s.mode b = .releasing → False

/-- **The guard keeps them apart.** -/
theorem Apart.step {a : Act ι} (h : Apart s) (hguard : apart s a = true)
    (hstep : system.step s a = .next s') : Apart s' := by
  intro p q hp hcode hq
  cases a with
  | start t c =>
    obtain ⟨-, T, -, rfl⟩ := startCall_eq_next hstep
    have hmode : update s.mode t c.mode t = c.mode := update_self ..
    have hothers : ∀ u, u ≠ t → update s.code t c.code u = s.code u ∧
        update s.mode t c.mode u = s.mode u := fun u hu =>
      ⟨update_of_ne hu _ _, update_of_ne hu _ _⟩
    change update s.mode t c.mode p = _ at hp
    change update s.mode t c.mode q = _ at hq
    change Code.isFinished (update s.code t c.code p) = false at hcode
    have hqt : q ≠ t := by
      rintro rfl
      rw [hmode] at hq
      cases c <;> cases hq
    rw [(hothers q hqt).2] at hq
    obtain rfl | hpt := eq_or_ne p t
    · cases c <;> simp [Call.mode] at hp
      exact (of_decide_eq_true hguard) q hq
    · rw [(hothers p hpt).2] at hp
      rw [(hothers p hpt).1] at hcode
      exact h p q hp hcode hq
  | run t n =>
    obtain ⟨hrunning, hothers, hshutdown, hreleasing⟩ := runThread_modes hstep
    have hp' : s.mode p = .shutdown ∧ (s.code p).isFinished = false := by
      by_cases hpt : p = t
      · exact hpt ▸ ⟨hshutdown (hpt ▸ hp), hrunning⟩
      · rw [(hothers p hpt).2] at hp
        rw [(hothers p hpt).1] at hcode
        exact ⟨hp, hcode⟩
    obtain rfl | hqt := eq_or_ne q t
    · rcases hreleasing hq with hq | hcloses
      · exact h p q hp'.1 hp'.2 hq
      · have hall : ∀ u, s.mode u = .shutdown → (s.code u).isFinished = true := by
          simpa [apart, hcloses] using hguard
        simp [hall p hp'.1] at hp'
    · rw [(hothers q hqt).2] at hq
      exact h p q hp'.1 hp'.2 hq

/-- **No deadlock** in any run in which `filesys_done` is kept apart from the closing of removed
inodes. -/
theorem not_deadlocked_of_apart (h : (system.guard apart).Reach s) : ¬s.Deadlocked := by
  have hapart : Apart s := h.invariant (fun s hs => by subst hs; exact nofun) fun s a s' hs hstep =>
    hs.step (System.guard_step_eq_next.mp hstep).1 (System.guard_step_eq_next.mp hstep).2
  rw [deadlock_iff h.of_guard]
  rintro ⟨⟨a, hshutdown, -, k, hk⟩, b, hreleasing, -⟩
  exact hapart a b hshutdown (by rw [hk]; rfl) hreleasing

/-- **When the file system deadlocks.** In every run, for any number of threads, there is a cycle of
threads that wait for each other exactly when `filesys_done` has the free map's lock and waits for
`occ_lock`, while an `inode_close` has `occ_lock` and waits for the free map's lock; and no run
deadlocks in which the two are kept apart. -/
theorem deadlock_characterised :
    (∀ s : State ι, system.Reach s → (s.Deadlocked ↔ (∃ a, s.Closing a) ∧ ∃ b, s.Releasing b)) ∧
      ∀ s : State ι, (system.guard apart).Reach s → ¬s.Deadlocked :=
  ⟨fun _ => deadlock_iff, fun _ => not_deadlocked_of_apart⟩

end Invariant

/-- Two threads: one is in `filesys_done` and waits for `occ_lock`, which the other holds in
`inode_open`; that is no deadlock. -/
theorem deadlock_characterised_waiting : ∃ s : State (Fin 2),
    (system.guard apart).Reach s ∧ s.Closing 1 ∧ s.Waits 1 (.lock .occ) ∧ s.Holds 0 (.lock .occ) ∧
      (¬∃ b, s.Releasing b) ∧ ¬s.Deadlocked := by
  obtain ⟨s, hrun, hclosing, howner⟩ : ∃ s : State (Fin 2),
      (system.guard apart).replay initial [.start 0 .open, .run 0 0, .run 0 0, .start 1 .done, .run 1 0] = .next s ∧
        s.Closing 1 ∧ s.owner .occ = some 0 := ⟨_, rfl, ⟨rfl, rfl, _, rfl⟩, rfl⟩
  have hreach : (system.guard apart).Reach s := System.Reach.replay (.init rfl) hrun
  have hnot := deadlock_characterised.2 s hreach
  refine ⟨s, hreach, hclosing, ⟨hclosing.2.2, by simp [howner]⟩, howner, fun hreleasing => ?_, hnot⟩
  exact hnot ((deadlock_characterised.1 s hreach.of_guard).mpr ⟨⟨1, hclosing⟩, hreleasing⟩)

/-- Thread 0 opens the file in sector 2 and removes it, and closes its last reference while thread 1
runs `filesys_done`. -/
def deadlockRun : List (Act (Fin 2)) :=
  -- The choices are: memory is there, the directory has one entry and it is the file's, writes succeed.
  let choices (n : ℕ) : List (Act (Fin 2)) := ([1, 1, 1, 1, 1, 1, 1, 0] ++ List.replicate n 1).map (.run 0)
  .start 0 .open :: choices 22 ++ .start 0 .remove :: choices 28 ++
    [.start 0 (.close 2), .run 0 0, .run 0 0, .start 1 .done, .run 1 0]

/-- **`filesys_done` deadlocks** with the `file_close` of a removed file: thread 0 holds `occ_lock`
and waits for `free_map_lock`, and thread 1 the other way round. -/
theorem filesys_done_deadlocks : ∃ s : State (Fin 2), system.Reach s ∧
    s.Holds 0 (.lock .occ) ∧ s.Waits 0 (.lock .freeMap) ∧ s.Holds 1 (.lock .freeMap) ∧ s.Waits 1 (.lock .occ) ∧
      s.Deadlocked := by
  obtain ⟨s, hrun, hocc, hfreeMap, hcode, hcode'⟩ : ∃ s : State (Fin 2), system.replay initial deadlockRun = .next s ∧
      s.owner .occ = some 0 ∧ s.owner .freeMap = some 1 ∧ (∃ k, s.code 0 = .acquire .freeMap k) ∧
        ∃ k, s.code 1 = .acquire .occ k := ⟨_, rfl, rfl, rfl, ⟨_, rfl⟩, _, rfl⟩
  have hwaits : s.Waits 0 (.lock .freeMap) := ⟨hcode, by simp [hfreeMap]⟩
  have hwaits' : s.Waits 1 (.lock .occ) := ⟨hcode', by simp [hocc]⟩
  exact ⟨s, System.Reach.replay (.init rfl) hrun, hocc, hwaits, hfreeMap, hwaits',
    Deadlock.of_two hwaits hfreeMap hwaits' hocc⟩

end Pintos.Filesys.LockOrder
