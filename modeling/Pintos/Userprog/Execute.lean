import Pintos.Basis.History
import Pintos.Basis.Lifetime
import Pintos.Threads.Synch
import Pintos.Userprog.Process

/-!
# A parent in `process_execute` and its child in `start_process`

`process_execute` hands four objects to the thread it creates: a `start_process_info`, the
command line and the semaphore it points to, and a page with the name of the file. The parent
sleeps at the semaphore until the child has loaded the program or failed to; then it frees the
first three, and the child frees the page. `Pintos.Userprog.Process` has one cell for all of
this and a few steps; here every access is a step of its own.

## The model

`Ledger` keeps the life of the objects, and an access that does not fit is a fault. The child
finds its objects by the pointers in `start_process_info`, which are `none` until they are set.
The semaphore is that of `Pintos.Threads.Synch`, with its list of waiters: the parent tests, may
fall asleep, and tests again. Before `thread_create` nobody else knows the objects, so that the
straight part of `process_execute` that fills them is one step. The calls of `malloc` succeed;
`palloc_get_page`, `thread_create` and `load` may fail. What the command line and the name are
does not matter here.

## What is proved

**`execute_correct`**, for every schedule: no access is to an object that is not live, the child
touches nothing but the page after its `sema_up`, and when the parent has returned, the result
and `children_tids` are what `load` returned. Every step leads closer to the end, and at the end
each object that was allocated has been freed, once.

`tree_create` and `tree_step`: the child is made by `execute` of `Pintos.Userprog.Process`, and then
a step here is a step there, or none, on what both have of the two.
-/

namespace Pintos.Userprog.Execute

open Function
open Threads (Semaphore semaInit semaDown semaUp)

/-- Who runs. -/
inductive Thread where
  /-- The thread in `process_execute`. -/
  | parent
  /-- The thread in `start_process`. -/
  | child
  deriving DecidableEq

/-- What `process_execute` allocates. -/
inductive Obj where
  /-- The page with the file name, `name_copy`. -/
  | page
  /-- The copy of the command line, `cmd_copy`. -/
  | cmdCopy
  /-- The `start_process_info`, `sh`. -/
  | info
  /-- The semaphore, `p_sp`. -/
  | sema
  /-- The command line for the child, `cmd_line`. -/
  | cmdLine
  deriving DecidableEq

/-- How an object is used. -/
inductive Use where
  | read
  /-- It is written. -/
  | write
  /-- A pass of the loop of `sema_down`. -/
  | down
  /-- `sema_up`. -/
  | up
  deriving DecidableEq

/-- `struct start_process_info`. -/
structure Info where
  /-- The page with the file name. -/
  fileName : Option Obj
  /-- The command line. -/
  cmdLine : Option Obj
  /-- The semaphore. -/
  pSp : Option Obj
  /-- Whether the load succeeded: `1` or `TID_ERROR`. -/
  cStatus : ℤ

/-- The value of `c_status` for what `load` returned. -/
def statusOf (success : Bool) : ℤ := if success then 1 else TID_ERROR

/-- Where the parent is in `process_execute`. -/
inductive ParentPc where
  /-- At `palloc_get_page`. -/
  | getPage
  /-- It fills the objects. -/
  | prepare
  /-- At `thread_create`. -/
  | create
  /-- `thread_create` has failed; at `palloc_free_page`. -/
  | freePage
  /-- In the loop of `sema_down`, about to test the value. -/
  | down
  /-- Blocked in `sema_down`. -/
  | asleep
  /-- About to read `c_status`. -/
  | status
  /-- At `free (sh->cmd_line)`. -/
  | freeLine (success : Bool)
  /-- At `free (sh->p_sp)`. -/
  | freeSema (success : Bool)
  /-- At `free (sh)`. -/
  | freeInfo (success : Bool)
  /-- About to add the child to `children_tids`. -/
  | push
  | returned (tid : ℤ)
  deriving DecidableEq

/-- Where the child is in `start_process`, with its local variables. -/
inductive ChildPc where
  /-- Not yet created. -/
  | unborn
  /-- About to read `sh->file_name`. -/
  | readName
  /-- About to read `sh->cmd_line`. -/
  | readLine (fileName : Obj)
  | load (fileName line : Obj)
  /-- About to write `c_status`. -/
  | setStatus (fileName : Obj) (success : Bool)
  /-- About to increment `alive_count`. -/
  | increment (fileName : Obj) (success : Bool)
  /-- At `sema_up`. -/
  | up (fileName : Obj) (success : Bool)
  /-- At `palloc_free_page`. -/
  | freePage (fileName : Obj) (success : Bool)
  /-- It has started the user program. -/
  | user
  /-- It has set `ret_status` to -1 and calls `thread_exit`. -/
  | exit
  deriving DecidableEq

/-- What becomes of the objects, and who has used them. -/
abbrev Heap := Ledger Thread Obj Use

/-- The two threads and what they share. -/
structure State where
  parent : ParentPc
  child : ChildPc
  heap : Heap
  /-- The contents of the `start_process_info`. -/
  info : Info
  /-- The contents of the semaphore. -/
  sema : Semaphore Thread
  /-- What `thread_create` has returned. -/
  tid : ℤ
  /-- `children_tids` of the parent. -/
  childrenTids : List ℤ
  /-- `alive_count` of the relation of the two. -/
  aliveCount : ℤ
  /-- What `load` has returned. (For the statements; no step reads it.) -/
  loaded : Option Bool

/-- What can happen. -/
inductive Act where
  /-- `palloc_get_page` returns a page, or fails. -/
  | getPage (success : Bool)
  /-- The objects are filled; `malloc` left `status` in `c_status`. -/
  | prepare (status : ℤ)
  /-- `thread_create` returns the tid of the child, or `TID_ERROR`. -/
  | create (tid : ℤ)
  /-- `load` returns. -/
  | load (success : Bool)
  /-- The thread takes its next step. -/
  | advance (t : Thread)

namespace State

/-- A thread does something to an object. -/
def record (s : State) (t : Thread) (o : Obj) (op : ObjectOp Use) (k : State → Outcome State) : Outcome State :=
  match s.heap.record t o op with
  | some heap => k { s with heap := heap }
  | none => .fault

/-- A thread reads a pointer in the `start_process_info`. -/
def follow (s : State) (t : Thread) (field : Info → Option Obj) (k : Obj → State → Outcome State) : Outcome State :=
  s.record t .info (.use .read) fun s =>
    match field s.info with
    | some o => k o s
    | none => .fault

/-- `palloc_get_page` in `process_execute`. -/
def getPage (s : State) (success : Bool) : Outcome State :=
  if success then s.record .parent .page .alloc fun s => .next { s with parent := .prepare }
  else .next { s with parent := .returned TID_ERROR }

/-- What `process_execute` does to the objects between `palloc_get_page` and `thread_create`. -/
def filling : List (Obj × ObjectOp Use) :=
  -- cmd_copy, and the name in it
  [(.cmdCopy, .alloc), (.cmdCopy, .use .write), (.cmdCopy, .use .read), (.page, .use .write),
  -- sh, p_sp, and sh->file_name
    (.info, .alloc), (.sema, .alloc), (.sema, .use .write), (.info, .use .write),
  -- cmd_line, and sh->cmd_line
    (.cmdLine, .alloc), (.cmdCopy, .use .read), (.cmdLine, .use .write), (.info, .use .write),
  -- cmd_copy is not needed any more; sh->p_sp
    (.cmdCopy, .free), (.info, .use .write),
  -- the name of the thread
    (.info, .use .read), (.page, .use .read)]

/-- `process_execute` between `palloc_get_page` and `thread_create`. -/
def prepare (s : State) (status : ℤ) : Outcome State :=
  match s.heap.recordAll .parent filling with
  | some heap =>
    .next { s with
      heap := heap
      info := { fileName := some .page, cmdLine := some .cmdLine, pSp := some .sema, cStatus := status }
      sema := semaInit 0
      parent := .create }
  | none => .fault

/-- `thread_create` in `process_execute`. -/
def create (s : State) (tid : ℤ) : Outcome State :=
  if tid = TID_ERROR then .next { s with tid := tid, parent := .freePage }
  else .next { s with tid := tid, parent := .down, child := .readName }

/-- The next step of the parent. -/
def advanceParent (s : State) : Outcome State :=
  match s.parent with
  | .freePage => s.record .parent .page .free fun s => .next { s with parent := .freeLine false }
  | .down =>
    s.record .parent .sema (.use .down) fun s =>
      let r := semaDown s.sema .parent
      .next { s with sema := r.1, parent := if r.2 then .status else .asleep }
  | .status =>
    s.record .parent .info (.use .read) fun s =>
      .next { s with parent := .freeLine (decide (s.info.cStatus ≠ TID_ERROR)) }
  | .freeLine success =>
    s.follow .parent Info.cmdLine fun o s =>
    s.record .parent o .free fun s => .next { s with parent := .freeSema success }
  | .freeSema success =>
    s.follow .parent Info.pSp fun o s =>
    s.record .parent o .free fun s => .next { s with parent := .freeInfo success }
  | .freeInfo success =>
    s.record .parent .info .free fun s =>
      .next { s with parent := if success then .push else .returned TID_ERROR }
  | .push => .next { s with childrenTids := s.childrenTids ++ [s.tid], parent := .returned s.tid }
  | .getPage | .prepare | .create | .asleep | .returned _ => .disabled

/-- `thread_unblock`, of the parent: it must be blocked. -/
def unblockParent (s : State) : Outcome State :=
  if s.parent = .asleep then .next { s with parent := .down } else .fault

/-- `load` in `start_process`. -/
def load (s : State) (success : Bool) : Outcome State :=
  match s.child with
  | .load fileName line =>
    s.record .child fileName (.use .read) fun s =>
    s.record .child line (.use .read) fun s =>
    .next { s with child := .setStatus fileName success, loaded := some success }
  | _ => .disabled

/-- The next step of the child. -/
def advanceChild (s : State) : Outcome State :=
  match s.child with
  | .readName => s.follow .child Info.fileName fun o s => .next { s with child := .readLine o }
  | .readLine fileName => s.follow .child Info.cmdLine fun o s => .next { s with child := .load fileName o }
  | .setStatus fileName success =>
    s.record .child .info (.use .write) fun s =>
    .next { s with
      info := { s.info with cStatus := statusOf success }
      child := .increment fileName success }
  | .increment fileName success => .next { s with aliveCount := s.aliveCount + 1, child := .up fileName success }
  | .up fileName success =>
    s.follow .child Info.pSp fun o s =>
    s.record .child o (.use .up) fun s =>
      let r := semaUp s.sema
      let s := { s with sema := r.1, child := .freePage fileName success }
      if r.2 = some .parent then s.unblockParent else .next s
  | .freePage fileName success =>
    s.record .child fileName .free fun s => .next { s with child := if success then .user else .exit }
  | .unborn | .load _ _ | .user | .exit => .disabled

/-- What an action does. -/
def step (s : State) : Act → Outcome State
  | .getPage success => if s.parent = .getPage then s.getPage success else .disabled
  | .prepare status => if s.parent = .prepare then s.prepare status else .disabled
  | .create tid => if s.parent = .create then s.create tid else .disabled
  | .load success => s.load success
  | .advance .parent => s.advanceParent
  | .advance .child => s.advanceChild

end State

open Execute.State

/-- The parent calls `process_execute`, with children `tids`. -/
structure Starts (tids : List ℤ) (s : State) : Prop where
  /-- The parent is at the start. -/
  parent : s.parent = .getPage
  /-- There is no child. -/
  child : s.child = .unborn
  /-- Nothing is allocated. -/
  heap : s.heap = Ledger.empty
  /-- The children so far. -/
  childrenTids : s.childrenTids = tids
  /-- Nothing is loaded. -/
  loaded : s.loaded = none

/-- All schedules. -/
def executions (tids : List ℤ) : System State Act where
  init := Starts tids
  step := State.step

/-! ### The log -/

/-- `sema_up` of the child. -/
def upEvent : ObjectEvent Thread Obj Use := ⟨.child, .sema, .use .up⟩

/-- After its `sema_up` the child touches nothing but the page. -/
def Quiet (log : List (ObjectEvent Thread Obj Use)) : Prop :=
  ∀ l₁ l₂, log = l₁ ++ upEvent :: l₂ → ∀ e ∈ l₂, e.thread = .child → e.object = .page

/-- The log is quiet, and the child has called `sema_up` only if it is past it. -/
structure Logged (signalled : Bool) (log : List (ObjectEvent Thread Obj Use)) : Prop where
  /-- After `sema_up` the child is quiet. -/
  quiet : Quiet log
  /-- Before, there is no `sema_up`. -/
  before : signalled = false → upEvent ∉ log

/-- The child is past `sema_up`. -/
def ChildPc.signalled : ChildPc → Bool
  | .freePage _ _ | .user | .exit => true
  | _ => false

variable {log : List (ObjectEvent Thread Obj Use)} {e : ObjectEvent Thread Obj Use}

theorem Quiet.append (h : Quiet log) (he : e.thread = .child → e.object = .page) : Quiet (log ++ [e]) := by
  intro l₁ l₂ hsplit e' he' hchild
  obtain ⟨-, -, rfl⟩ | ⟨l, rfl, hlog⟩ := append_singleton_eq_append_cons_iff.mp hsplit
  · cases he'
  · obtain hmem | hlast := List.mem_append.mp he'
    · exact h l₁ l hlog e' hmem hchild
    · obtain rfl := List.mem_singleton.mp hlast
      exact he hchild

theorem Quiet.of_notMem (h : upEvent ∉ log) : Quiet (log ++ [e]) := by
  intro l₁ l₂ hsplit e' he'
  obtain ⟨-, -, rfl⟩ | ⟨l, -, rfl⟩ := append_singleton_eq_append_cons_iff.mp hsplit
  · cases he'
  · exact absurd (List.mem_append_right _ List.mem_cons_self) h

namespace Logged

variable {b : Bool}

theorem parent (h : Logged b log) (o : Obj) (op : ObjectOp Use) : Logged b (log ++ [⟨.parent, o, op⟩]) := by
  constructor
  · apply h.quiet.append
    intro hchild
    cases hchild
  · intro hb hmem
    obtain hmem | hlast := List.mem_append.mp hmem
    · exact h.before hb hmem
    · cases List.mem_singleton.mp hlast

theorem parents (h : Logged b log) (ops : List (Obj × ObjectOp Use)) :
    Logged b (log ++ ops.map fun x => ⟨.parent, x.1, x.2⟩) := by
  induction ops generalizing log with
  | nil => simpa using h
  | cons x ops ih => simpa using ih (h.parent x.1 x.2)

variable {op : ObjectOp Use} {o : Obj}

theorem child (h : Logged false log) (hop : op ≠ .use .up) : Logged false (log ++ [⟨.child, o, op⟩]) := by
  constructor
  · exact Quiet.of_notMem (h.before rfl)
  · intro _ hmem
    obtain hmem | hlast := List.mem_append.mp hmem
    · exact h.before rfl hmem
    · cases List.mem_singleton.mp hlast
      exact hop rfl

theorem up (h : Logged false log) : Logged true (log ++ [upEvent]) := ⟨Quiet.of_notMem (h.before rfl), nofun⟩

theorem page (h : Logged true log) (op : ObjectOp Use) : Logged true (log ++ [⟨.child, .page, op⟩]) :=
  ⟨h.quiet.append fun _ => rfl, nofun⟩

end Logged

/-! ### One access -/

section Access

variable {s : State} {P : State → Prop} {k : State → Outcome State} {b : Bool} {o : Obj}

theorem State.record_safe {t : Thread} {x : Life} (hx : (s.heap.life o).next op = some x)
    (hk : ∀ heap : Heap, heap.life = update s.heap.life o x →
      heap.log = s.heap.log ++ [⟨t, o, op⟩] → (k { s with heap := heap }).Safe P) : (s.record t o op k).Safe P := by
  unfold State.record
  rw [Ledger.record_eq_push hx]
  exact hk _ rfl rfl

theorem State.use_safe {t : Thread} {kind : Use} (hlive : s.heap.life o = .live)
    (hk : ∀ heap : Heap, heap.life = s.heap.life →
      heap.log = s.heap.log ++ [⟨t, o, .use kind⟩] → (k { s with heap := heap }).Safe P) :
    (s.record t o (.use kind) k).Safe P := by
  apply record_safe (x := .live)
  · rw [hlive]
    rfl
  · intro heap hlife hlog
    apply hk heap _ hlog
    rw [hlife, ← hlive, update_eq_self]

theorem State.parent_safe {x : Life} (hlog : Logged b s.heap.log) (hx : (s.heap.life o).next op = some x)
    (hk : ∀ heap : Heap, heap.life = update s.heap.life o x → Logged b heap.log →
      (k { s with heap := heap }).Safe P) : (s.record .parent o op k).Safe P := by
  apply record_safe hx
  intro heap hlife hnew
  exact hk heap hlife (hnew ▸ hlog.parent o op)

theorem State.logged_use {t : Thread} {kind : Use} (hlog : Logged b s.heap.log) (ht : t = .child → b = false ∧ kind ≠ .up)
    (hlive : s.heap.life o = .live)
    (hk : ∀ heap : Heap, heap.life = s.heap.life → Logged b heap.log →
      (k { s with heap := heap }).Safe P) : (s.record t o (.use kind) k).Safe P := by
  apply use_safe hlive
  intro heap hlife hnew
  apply hk heap hlife
  rw [hnew]
  cases t with
  | parent => exact hlog.parent o (.use kind)
  | child =>
    obtain ⟨rfl, hkind⟩ := ht rfl
    exact hlog.child (by simpa using hkind)

variable {field : Info → Option Obj}

theorem State.logged_follow {t : Thread} {k : Obj → State → Outcome State}
    (hlog : Logged b s.heap.log) (ht : t = .child → b = false) (hlive : s.heap.life .info = .live)
    (ho : field s.info = some o)
    (hk : ∀ heap : Heap, heap.life = s.heap.life → Logged b heap.log →
      (k o { s with heap := heap }).Safe P) : (s.follow t field k).Safe P := by
  apply logged_use hlog (fun h => ⟨ht h, by simp⟩) hlive
  intro heap hlife hlog
  rw [ho]
  exact hk heap hlife hlog

end Access

/-! ### The invariant -/

/-- How many of the objects that the child got the parent has freed. -/
def ParentPc.freed : ParentPc → ℕ
  | .freeSema _ => 1
  | .freeInfo _ => 2
  | .push => 3
  | .returned _ => 3
  | _ => 0

/-- The life of the objects once they are filled: the parent has freed `n` of them, and `page` is
that of the page. -/
def lives (n : ℕ) (page : Life) : Obj → Life
  | .page => page
  | .cmdCopy => .freed
  | .cmdLine => if 0 < n then .freed else .live
  | .sema => if 1 < n then .freed else .live
  | .info => if 2 < n then .freed else .live

/-- The pointers of the `start_process_info` are set. -/
structure Info.Filled (i : Info) : Prop where
  fileName : i.fileName = some .page
  /-- To the command line. -/
  cmdLine : i.cmdLine = some .cmdLine
  pSp : i.pSp = some .sema

/-- The parent is alone with the filled objects: before `thread_create`, or after it has failed. -/
inductive ParentPc.Alone : Life → ParentPc → Prop where
  | create : Alone .live .create
  | freePage : Alone .live .freePage
  | freeLine : Alone .freed (.freeLine false)
  | freeSema : Alone .freed (.freeSema false)
  | freeInfo : Alone .freed (.freeInfo false)
  | returned : Alone .freed (.returned TID_ERROR)

/-- The child is not past `sema_up`; what it has got from `load`, and what `c_status` is. -/
inductive ChildPc.Loading : Option Bool → ℤ → ChildPc → Prop where
  | readName (status : ℤ) : Loading none status .readName
  | readLine (status : ℤ) : Loading none status (.readLine .page)
  | load (status : ℤ) : Loading none status (.load .page .cmdLine)
  | setStatus (status : ℤ) (success : Bool) : Loading (some success) status (.setStatus .page success)
  | increment (success : Bool) : Loading (some success) (statusOf success) (.increment .page success)
  | up (success : Bool) : Loading (some success) (statusOf success) (.up .page success)

/-- The parent waits; the list of waiters. -/
inductive ParentPc.Waiting : List Thread → ParentPc → Prop where
  | down : Waiting [] .down
  | asleep : Waiting [.parent] .asleep

/-- The child is past `sema_up`; the life of the page. -/
inductive ChildPc.Signalled (success : Bool) : Life → ChildPc → Prop where
  | freePage : Signalled success .live (.freePage .page success)
  | user (h : success = true) : Signalled success .freed .user
  | exit (h : success = false) : Signalled success .freed .exit

/-- The parent after the `sema_up` of the child: the value of the semaphore, and the children. -/
inductive ParentPc.Going (tids : List ℤ) (tid : ℤ) (success : Bool) : UInt32 → List ℤ → ParentPc → Prop where
  | down : Going tids tid success 1 tids .down
  | status : Going tids tid success 0 tids .status
  | freeLine : Going tids tid success 0 tids (.freeLine success)
  | freeSema : Going tids tid success 0 tids (.freeSema success)
  | freeInfo : Going tids tid success 0 tids (.freeInfo success)
  | push (h : success = true) : Going tids tid success 0 tids .push
  | returned (h : success = true) : Going tids tid success 0 (tids ++ [tid]) (.returned tid)
  | failed (h : success = false) : Going tids tid success 0 tids (.returned TID_ERROR)

/-- Nothing is allocated. -/
structure Nothing (tids : List ℤ) (s : State) : Prop where
  parent : s.parent = .getPage ∨ s.parent = .returned TID_ERROR
  child : s.child = .unborn
  life : s.heap.life = fun _ => .unused
  children : s.childrenTids = tids
  loaded : s.loaded = none

/-- There is the page. -/
structure OnlyPage (tids : List ℤ) (s : State) : Prop where
  parent : s.parent = .prepare
  child : s.child = .unborn
  life : s.heap.life = update (fun _ => .unused) .page .live
  children : s.childrenTids = tids
  loaded : s.loaded = none

/-- The objects are filled, and the parent is alone with them. -/
structure Alone (tids : List ℤ) (page : Life) (s : State) : Prop where
  parent : s.parent.Alone page
  child : s.child = .unborn
  life : s.heap.life = lives s.parent.freed page
  filled : s.info.Filled
  sema : s.parent = .create → s.sema = semaInit 0
  children : s.childrenTids = tids
  loaded : s.loaded = none

/-- The child loads. -/
structure Loading (tids : List ℤ) (waiters : List Thread) (result : Option Bool) (status : ℤ) (s : State) : Prop where
  parent : s.parent.Waiting waiters
  child : s.child.Loading result status
  loaded : s.loaded = result
  status : s.info.cStatus = status
  life : s.heap.life = lives 0 .live
  filled : s.info.Filled
  sema : s.sema = ⟨0, waiters⟩
  children : s.childrenTids = tids
  tid : s.tid ≠ TID_ERROR

/-- The child has loaded. -/
structure Signalled (tids : List ℤ) (success : Bool) (page : Life) (value : UInt32) (children : List ℤ) (s : State) :
    Prop where
  parent : s.parent.Going tids s.tid success value children
  child : s.child.Signalled success page
  loaded : s.loaded = some success
  status : s.info.cStatus = statusOf success
  life : s.heap.life = lives s.parent.freed page
  filled : s.info.Filled
  sema : s.sema = ⟨value, []⟩
  children : s.childrenTids = children
  tid : s.tid ≠ TID_ERROR

/-- How far the two have come. -/
inductive Phase (tids : List ℤ) (s : State) : Prop where
  | nothing (h : Nothing tids s)
  | page (h : OnlyPage tids s)
  | alone {page : Life} (h : Alone tids page s)
  | loading {waiters : List Thread} {result : Option Bool} {status : ℤ} (h : Loading tids waiters result status s)
  | signalled {success : Bool} {page : Life} {value : UInt32} {children : List ℤ}
      (h : Signalled tids success page value children s)

structure Inv (tids : List ℤ) (s : State) : Prop where
  /-- The two threads and the objects. -/
  phase : Phase tids s
  log : Logged s.child.signalled s.heap.log

/-- How many steps there are at most to the end, for the parent. -/
def ParentPc.rank : ParentPc → ℕ
  | .getPage => 40
  | .prepare => 39
  | .create => 38
  | .freePage => 10
  | .down => 8
  | .asleep => 7
  | .status => 6
  | .freeLine _ => 5
  | .freeSema _ => 4
  | .freeInfo _ => 3
  | .push => 2
  | .returned _ => 0

/-- The same for the child. -/
def ChildPc.rank : ChildPc → ℕ
  | .unborn => 0
  | .readName => 7
  | .readLine _ => 6
  | .load _ _ => 5
  | .setStatus _ _ => 4
  | .increment _ _ => 3
  | .up _ _ => 2
  | .freePage _ _ => 1
  | .user => 0
  | .exit => 0

/-- A bound for the number of steps to the end: `sema_up` may make the parent test once more. -/
def State.measure (s : State) : ℕ := s.parent.rank + 3 * s.child.rank

/-! ### What the tree of processes sees -/

/-- Where `Pintos.Userprog.Process` has the parent of `c`. -/
def ParentPc.coarse (c : Tid) : ParentPc → Pc
  | .down | .asleep => .execDown c
  | .status | .freeLine _ | .freeSema _ | .freeInfo _ | .push => .execStatus c
  | _ => .run

/-- Where it has the child. -/
def ChildPc.coarse : ChildPc → Pc
  | .unborn => .unborn
  | .readName | .readLine _ | .load _ _ | .setStatus _ _ => .load
  | .increment _ success => .increment success
  | .up _ success => .signal success
  | .freePage _ success => if success then .run else .exitAppend
  | .user => .run
  | .exit => .exitAppend

/-- What it has of the two. -/
structure View where
  parent : Pc
  child : Pc
  info : StartProcessInfo
  aliveCount : ℤ
  childrenTids : List ℤ
  tid : ℤ

def State.view (c : Tid) (s : State) : View where
  parent := s.parent.coarse c
  child := s.child.coarse
  info := ⟨s.sema.value.toNat, s.info.cStatus⟩
  aliveCount := s.aliveCount
  childrenTids := s.childrenTids
  tid := s.tid

/-- A step of the tree, or none, on the view. -/
inductive View.Step (c : Tid) (v : View) : View → Prop where
  | none : Step c v v
  | load (success : Bool) : v.child = .load → v.parent ≠ .run →
      Step c v { v with child := .increment success, info.cStatus := statusOf success }
  | increment {success : Bool} : v.child = .increment success →
      Step c v { v with child := .signal success, aliveCount := v.aliveCount + 1 }
  | signal {success : Bool} : v.child = .signal success → v.parent ≠ .run →
      Step c v { v with child := if success then .run else .exitAppend, info.pSp := v.info.pSp + 1 }
  | down : v.parent = .execDown c → v.info.pSp ≠ 0 →
      Step c v { v with parent := .execStatus c, info.pSp := v.info.pSp - 1 }
  | failed : v.parent = .execStatus c → v.info.cStatus = TID_ERROR → Step c v { v with parent := .run }
  | done : v.parent = .execStatus c → v.info.cStatus ≠ TID_ERROR →
      Step c v { v with parent := .run, childrenTids := v.childrenTids ++ [v.tid] }

theorem ParentPc.Waiting.coarse_ne {p : ParentPc} {waiters : List Thread} (h : p.Waiting waiters) (c : Tid) :
    p.coarse c ≠ .run := by
  cases h with
  | down | asleep => nofun

/-- The invariant holds afterwards, the end is closer, and once there is a child, what the tree sees
is one step of its own, or none. -/
def Closer (tids : List ℤ) (s t : State) : Prop :=
  Inv tids t ∧ t.measure < s.measure ∧ (s.child = .unborn ∨ ∀ c, (s.view c).Step c (t.view c))

/-! ### Steps of the parent alone -/

section Steps

variable {tids : List ℤ} {s t : State}

theorem closer_parent {p : ParentPc} (h : Inv tids t) (hchild : t.child = s.child) (hp : s.parent = p)
    (hrank : decide (t.parent.rank < p.rank) = true)
    (hview : s.child = .unborn ∨ ∀ c, ({ s with parent := p }.view c).Step c (t.view c)) : Closer tids s t := by
  have hlt := of_decide_eq_true hrank
  subst hp
  refine ⟨h, ?_, hview⟩
  rw [State.measure, State.measure, hchild]
  omega

section

variable (hlog : Logged s.child.signalled s.heap.log)
include hlog

theorem getPage_safe (h : Nothing tids s) (hparent : s.parent = .getPage) (success : Bool) :
    (s.getPage success).Safe (Closer tids s) := by
  unfold State.getPage
  cases success with
  | false => exact closer_parent ⟨.nothing { h with parent := .inr rfl }, hlog⟩ rfl hparent rfl (.inl h.child)
  | true =>
    rw [if_pos rfl]
    apply parent_safe hlog (x := .live)
    · rw [h.life]
      rfl
    · intro heap hlife' hlog'
      rw [h.life] at hlife'
      exact closer_parent ⟨.page { h with parent := rfl, life := hlife' }, hlog'⟩ rfl hparent rfl (.inl h.child)

theorem prepare_safe (h : OnlyPage tids s) (status : ℤ) : (s.prepare status).Safe (Closer tids s) := by
  have hfit : ∀ o, lifeAfter o (s.heap.life o)
      (State.filling.map fun x => (⟨.parent, x.1, x.2⟩ : ObjectEvent Thread Obj Use)) =
        some (lives 0 .live o) := by
    rw [h.life]
    intro o
    cases o <;> rfl
  obtain ⟨heap, hheap, hlife', hlog'⟩ := Ledger.recordAll_eq_some hfit
  unfold State.prepare
  rw [hheap]
  refine closer_parent ⟨.alone ⟨.create, h.child, hlife', ⟨rfl, rfl, rfl⟩, fun _ => rfl, h.children, h.loaded⟩, ?_⟩ rfl
    h.parent rfl (.inl h.child)
  rw [hlog']
  exact hlog.parents _

/-- `thread_create`: the child is born, and waits for nobody, or the parent takes everything
back. -/
theorem create_safe {page : Life} (h : Alone tids page s) (hparent : s.parent = .create) (tid : ℤ) :
    (s.create tid).Safe (Closer tids s) := by
  obtain ⟨hpage, hchild, hlife, hfilled, hsema, htids, hloaded⟩ := h
  rw [hparent] at hpage hlife
  cases hpage
  unfold State.create
  by_cases htid : tid = TID_ERROR
  · rw [if_pos htid]
    exact closer_parent ⟨.alone ⟨.freePage, hchild, hlife, hfilled, nofun, htids, hloaded⟩, hlog⟩ rfl hparent rfl
      (.inl hchild)
  · rw [if_neg htid]
    rw [hchild] at hlog
    refine ⟨⟨.loading ⟨.down, .readName _, hloaded, rfl, hlife, hfilled, hsema hparent, htids, htid⟩, hlog⟩, ?_,
      .inl hchild⟩
    unfold State.measure
    rw [hparent, hchild]
    simp [ParentPc.rank, ChildPc.rank]

end

/-- The parent frees its objects in this order. -/
theorem lives_free (page : Life) : update (lives 0 page) .cmdLine .freed = lives 1 page ∧
    update (lives 1 page) .sema .freed = lives 2 page ∧ update (lives 2 page) .info .freed = lives 3 page := by
  refine ⟨?_, ?_, ?_⟩ <;> funext o <;> cases o <;> rfl

theorem lives_freePage (n : ℕ) : update (lives n .live) .page .freed = lives n .freed := by
  funext o
  cases o <;> rfl

theorem State.free_parent {P : State → Prop} {k : State → Outcome State} {b : Bool}
    {n : ℕ} {page : Life} (hlog : Logged b s.heap.log) (hlife : s.heap.life = lives n page)
    (hinfo : lives n page .info = .live) (hlive : lives n page o = .live) (ho : field s.info = some o)
    (hk : ∀ heap : Heap, heap.life = update (lives n page) o .freed → Logged b heap.log →
      (k { s with heap := heap }).Safe P) :
    (s.follow .parent field fun o s => s.record .parent o .free k).Safe P := by
  apply logged_follow hlog (by nofun) (by rw [hlife, hinfo]) ho
  intro heap hlife' hlog'
  apply parent_safe hlog' (x := .freed)
  · rw [hlife', hlife, hlive]
    rfl
  · intro heap' hlife'' hlog''
    apply hk heap' _ hlog''
    rw [hlife'']
    rw [hlife', hlife]

section Frees

variable {success : Bool} {page : Life} (hlog : Logged s.child.signalled s.heap.log)
include hlog

theorem freeLine_safe (hp : s.parent = .freeLine success) (hlife : s.heap.life = lives 0 page) (hfilled : s.info.Filled)
    (hk : ∀ heap : Heap, heap.life = lives 1 page →
      Phase tids { s with heap := heap, parent := .freeSema success }) : s.advanceParent.Safe (Closer tids s) := by
  unfold advanceParent
  rw [hp]
  apply free_parent hlog hlife rfl rfl hfilled.cmdLine
  intro heap hlife' hlog'
  exact closer_parent ⟨hk heap (hlife'.trans (lives_free page).1), hlog'⟩ rfl hp rfl (.inr fun _ => .none)

theorem freeSema_safe (hp : s.parent = .freeSema success) (hlife : s.heap.life = lives 1 page) (hfilled : s.info.Filled)
    (hk : ∀ heap : Heap, heap.life = lives 2 page →
      Phase tids { s with heap := heap, parent := .freeInfo success }) : s.advanceParent.Safe (Closer tids s) := by
  unfold advanceParent
  rw [hp]
  apply free_parent hlog hlife rfl rfl hfilled.pSp
  intro heap hlife' hlog'
  exact closer_parent ⟨hk heap (hlife'.trans (lives_free page).2.1), hlog'⟩ rfl hp rfl (.inr fun _ => .none)

theorem freeInfo_safe (hp : s.parent = .freeInfo success) (hlife : s.heap.life = lives 2 page)
    (hchild : s.child = .unborn ∨ s.info.cStatus = statusOf success)
    (hk : ∀ heap : Heap, heap.life = lives 3 page →
      Phase tids { s with heap := heap, parent := if success then .push else .returned TID_ERROR }) :
    s.advanceParent.Safe (Closer tids s) := by
  unfold advanceParent
  rw [hp]
  apply parent_safe hlog (x := .freed)
  · rw [hlife]
    rfl
  · intro heap hlife' hlog'
    rw [hlife, (lives_free page).2.2] at hlife'
    refine closer_parent ⟨hk heap hlife', hlog'⟩ rfl hp ?_ (hchild.imp_right fun hstatus c => ?_)
    · cases success <;> rfl
    · cases success with
      | true => exact .none
      | false => exact .failed rfl hstatus

end Frees

theorem alone_safe {page : Life} (h : Alone tids page s) (hlog : Logged s.child.signalled s.heap.log) :
    s.advanceParent.Safe (Closer tids s) := by
  have hparent := h.parent
  have hlife := h.life
  generalize hp : s.parent = p at hparent hlife
  cases hparent with
  | create | returned =>
    unfold advanceParent
    rw [hp]
    trivial
  | freePage =>
    unfold advanceParent
    rw [hp]
    apply parent_safe hlog (x := .freed)
    · rw [hlife]
      rfl
    · intro heap hlife' hlog'
      rw [hlife, lives_freePage] at hlife'
      exact closer_parent ⟨.alone { h with parent := .freeLine, life := hlife', sema := nofun }, hlog'⟩ rfl hp rfl
        (.inl h.child)
  | freeLine =>
    exact freeLine_safe hlog hp hlife h.filled fun heap hlife' =>
      .alone { h with parent := .freeSema, life := hlife', sema := nofun }
  | freeSema =>
    exact freeSema_safe hlog hp hlife h.filled fun heap hlife' =>
      .alone { h with parent := .freeInfo, life := hlife', sema := nofun }
  | freeInfo =>
    exact freeInfo_safe hlog hp hlife (.inl h.child) fun heap hlife' =>
      .alone { h with parent := .returned, life := hlife', sema := nofun }

/-! ### The child loads -/

theorem closer_child {c : ChildPc} (h : Inv tids t) (hparent : t.parent = s.parent) (hc : s.child = c)
    (hrank : decide (t.child.rank < c.rank) = true)
    (hview : ∀ d, ({ s with child := c }.view d).Step d (t.view d)) : Closer tids s t := by
  have hlt := of_decide_eq_true hrank
  subst hc
  refine ⟨h, ?_, .inr hview⟩
  rw [State.measure, State.measure, hparent]
  omega

section Loading

variable {waiters : List Thread} {result : Option Bool} {status : ℤ} (h : Loading tids waiters result status s)
  (hlog : Logged s.child.signalled s.heap.log)
include h hlog

/-- `sema_up` of the child: it wakes the parent if it sleeps. -/
theorem up_safe {success : Bool} (hc : s.child = .up .page success) (hloaded : s.loaded = some success)
    (hstatus : s.info.cStatus = statusOf success) : s.advanceChild.Safe (Closer tids s) := by
  obtain ⟨hparent, -, -, -, hlife, hfilled, hsema, htids, htid⟩ := h
  unfold advanceChild
  rw [hc] at hlog ⊢
  apply logged_follow hlog (fun _ => rfl) (by rw [hlife]; rfl) hfilled.pSp
  intro heap hlife' hlog'
  apply use_safe (by rw [hlife', hlife]; rfl)
  intro heap' hlife'' hnew
  have hlog'' : Logged true heap'.log := hnew ▸ hlog'.up
  have hlives := hlife''.trans (hlife'.trans hlife)
  generalize hp : s.parent = p at hparent
  cases hparent with
  | down =>
    have hup : semaUp s.sema = (⟨1, []⟩, none) := by
      rw [hsema]
      rfl
    rw [hup, if_neg (by simp)]
    refine closer_child ⟨.signalled ⟨.down, .freePage, hloaded, hstatus, hlives, hfilled, rfl, htids, htid⟩, hlog''⟩
      hp.symm hc rfl fun _ => ?_
    rw [State.view, hsema, hp]
    exact .signal rfl nofun
  | asleep =>
    have hup : semaUp s.sema = (⟨1, []⟩, some .parent) := by
      rw [hsema]
      rfl
    rw [hup, if_pos rfl]
    refine ⟨⟨.signalled ⟨.down, .freePage, hloaded, hstatus, hlives, hfilled, rfl, htids, htid⟩, hlog''⟩, ?_,
      .inr fun _ => ?_⟩
    -- The parent has to test again, but the child has one step less to go.
    · unfold State.measure
      rw [hc, hp]
      simp [ParentPc.rank, ChildPc.rank]
    · rw [State.view, hsema, hc, hp]
      exact .signal rfl nofun

theorem waiting_safe : s.advanceParent.Safe (Closer tids s) := by
  have hparent := h.parent
  have hsema := h.sema
  unfold advanceParent
  generalize hp : s.parent = p at hparent
  cases hparent with
  | asleep => trivial
  | down =>
    apply logged_use hlog (by nofun) (by rw [h.life]; rfl)
    intro heap hlife' hlog'
    have hdown : semaDown s.sema .parent = (⟨0, [.parent]⟩, false) := by
      rw [hsema]
      rfl
    rw [hdown]
    exact closer_parent ⟨.loading { h with parent := .asleep, life := hlife'.trans h.life, sema := rfl }, hlog'⟩ rfl hp rfl
      (.inr fun _ => by rw [State.view, hsema]; exact .none)

theorem load_safe (success : Bool) : (s.load success).Safe (Closer tids s) := by
  have hchild := h.child
  unfold State.load
  generalize hc : s.child = c at hchild hlog
  cases hchild with
  | load =>
    apply logged_use hlog (fun _ => ⟨rfl, by simp⟩) (by rw [h.life]; rfl)
    intro heap hlife' hlog'
    apply logged_use hlog' (fun _ => ⟨rfl, by simp⟩) (by rw [hlife', h.life]; rfl)
    intro heap' hlife'' hlog''
    have hlives := hlife''.trans (hlife'.trans h.life)
    exact closer_child ⟨.loading { h with child := .setStatus _ success, loaded := rfl, life := hlives }, hlog''⟩ rfl hc rfl
      fun _ => .none
  | readName | readLine | setStatus | increment | up => trivial

theorem loading_safe : s.advanceChild.Safe (Closer tids s) := by
  have hinfo : s.heap.life .info = .live := by
    rw [h.life]
    rfl
  have hchild := h.child
  generalize hc : s.child = c at hchild
  cases hchild with
  | up success => exact up_safe h hlog hc h.loaded h.status
  | readName =>
    unfold advanceChild
    rw [hc] at hlog ⊢
    apply logged_follow hlog (fun _ => rfl) hinfo h.filled.fileName
    intro heap hlife' hlog'
    exact closer_child ⟨.loading { h with child := .readLine _, life := hlife'.trans h.life }, hlog'⟩ rfl hc rfl
      fun _ => .none
  | readLine =>
    unfold advanceChild
    rw [hc] at hlog ⊢
    apply logged_follow hlog (fun _ => rfl) hinfo h.filled.cmdLine
    intro heap hlife' hlog'
    exact closer_child ⟨.loading { h with child := .load _, life := hlife'.trans h.life }, hlog'⟩ rfl hc rfl
      fun _ => .none
  | load =>
    unfold advanceChild
    rw [hc]
    trivial
  | setStatus _ success =>
    unfold advanceChild
    rw [hc] at hlog ⊢
    apply logged_use hlog (fun _ => ⟨rfl, by simp⟩) hinfo
    intro heap hlife' hlog'
    have hfilled : ({ s.info with cStatus := statusOf success } : Info).Filled :=
      ⟨h.filled.fileName, h.filled.cmdLine, h.filled.pSp⟩
    exact closer_child ⟨.loading { h with
      child := .increment success, status := rfl, life := hlife'.trans h.life, filled := hfilled }, hlog'⟩ rfl hc rfl
      fun c => .load success rfl (h.parent.coarse_ne c)
  | increment success =>
    unfold advanceChild
    rw [hc] at hlog ⊢
    exact closer_child ⟨.loading { h with child := .up success }, hlog⟩ rfl hc rfl fun _ => .increment rfl

end Loading

/-! ### The child has loaded -/

section Signalled

variable {success : Bool} {page : Life} {value : UInt32} {children : List ℤ}
  (h : Signalled tids success page value children s) (hlog : Logged s.child.signalled s.heap.log)
include h hlog

/-- The parent passes the semaphore, frees what it has made, and returns. -/
theorem going_safe : s.advanceParent.Safe (Closer tids s) := by
  have hparent := h.parent
  have hlife := h.life
  have hsema := h.sema
  generalize hp : s.parent = p at hparent hlife
  cases hparent with
  | down =>
    unfold advanceParent
    rw [hp]
    apply logged_use hlog (by nofun) (by rw [hlife]; rfl)
    intro heap hlife' hlog'
    have hdown : semaDown s.sema .parent = (⟨0, []⟩, true) := by
      rw [hsema]
      rfl
    rw [hdown]
    exact closer_parent ⟨.signalled { h with parent := .status, life := hlife'.trans hlife, sema := rfl }, hlog'⟩ rfl hp rfl
      (.inr fun _ => by rw [State.view, hsema]; exact .down rfl nofun)
  | status =>
    unfold advanceParent
    rw [hp]
    apply logged_use hlog (by nofun) (by rw [hlife]; rfl)
    intro heap hlife' hlog'
    have hsuccess : decide (s.info.cStatus ≠ TID_ERROR) = success := by
      rw [h.status]
      cases success <;> rfl
    rw [hsuccess]
    exact closer_parent ⟨.signalled { h with parent := .freeLine, life := hlife'.trans hlife }, hlog'⟩ rfl hp rfl
      (.inr fun _ => .none)
  | freeLine =>
    exact freeLine_safe hlog hp hlife h.filled fun heap hlife' => .signalled { h with parent := .freeSema, life := hlife' }
  | freeSema =>
    exact freeSema_safe hlog hp hlife h.filled fun heap hlife' => .signalled { h with parent := .freeInfo, life := hlife' }
  | freeInfo =>
    apply freeInfo_safe hlog hp hlife (.inr h.status)
    intro heap hlife'
    cases success with
    | true => exact .signalled { h with parent := .push rfl, life := hlife' }
    | false => exact .signalled { h with parent := .failed rfl, life := hlife' }
  | push hsuccess =>
    have hloaded : s.info.cStatus ≠ TID_ERROR := by
      rw [h.status, hsuccess]
      decide
    unfold advanceParent
    rw [hp]
    exact closer_parent ⟨.signalled { h with
      parent := .returned hsuccess, life := hlife, children := by rw [h.children] }, hlog⟩ rfl hp rfl
      (.inr fun _ => .done rfl hloaded)
  | returned | failed =>
    unfold advanceParent
    rw [hp]
    trivial

theorem signalled_safe : s.advanceChild.Safe (Closer tids s) := by
  have hchild := h.child
  have hlife := h.life
  unfold advanceChild
  generalize hc : s.child = c at hchild hlog
  cases hchild with
  | freePage =>
    apply record_safe (x := .freed)
    · rw [hlife]
      rfl
    · intro heap hlife' hnew
      rw [hlife, lives_freePage] at hlife'
      have hlog' : Logged true heap.log := hnew ▸ hlog.page _
      cases success with
      | true =>
        exact closer_child ⟨.signalled { h with child := .user rfl, life := hlife' }, hlog'⟩ rfl hc rfl fun _ => .none
      | false =>
        exact closer_child ⟨.signalled { h with child := .exit rfl, life := hlife' }, hlog'⟩ rfl hc rfl fun _ => .none
  | user | exit => trivial

end Signalled

/-! ### Every step -/

/-- **Every step is safe and leads closer to the end.** -/
theorem Inv.step_safe (h : Inv tids s) (a : Act) : (s.step a).Safe (Closer tids s) := by
  obtain ⟨hphase, hlog⟩ := h
  cases hphase with
  | nothing h =>
    have hparent := h.parent
    cases a with
    | getPage success => exact .ite fun hp => getPage_safe hlog h hp success
    | prepare _ | create _ => exact .ite fun hp => by simp [hp] at hparent
    | load success => simp [State.step, State.load, h.child, Outcome.Safe]
    | advance t => obtain hp | hp := hparent <;> cases t <;>
        simp [State.step, advanceParent, advanceChild, hp, h.child, Outcome.Safe]
  | page h =>
    cases a with
    | getPage success | create tid => exact .ite fun hp => by simp [h.parent] at hp
    | prepare status => exact .ite fun _ => prepare_safe hlog h status
    | load success => simp [State.step, State.load, h.child, Outcome.Safe]
    | advance t => cases t <;>
        simp [State.step, advanceParent, advanceChild, h.parent, h.child, Outcome.Safe]
  | alone h =>
    have hparent := h.parent
    cases a with
    | getPage _ | prepare _ => exact .ite fun hp => by rw [hp] at hparent; cases hparent
    | create tid => exact .ite fun hp => create_safe hlog h hp tid
    | load success => simp [State.step, State.load, h.child, Outcome.Safe]
    | advance t =>
      cases t with
      | parent => exact alone_safe h hlog
      | child => simp [State.step, advanceChild, h.child, Outcome.Safe]
  | loading h =>
    have hparent := h.parent
    cases a with
    | getPage _ | prepare _ | create _ => exact .ite fun hp => by rw [hp] at hparent; cases hparent
    | load success => exact load_safe h hlog success
    | advance t =>
      cases t with
      | parent => exact waiting_safe h hlog
      | child => exact loading_safe h hlog
  | signalled h =>
    have hparent := h.parent
    cases a with
    | getPage _ | prepare _ | create _ => exact .ite fun hp => by rw [hp] at hparent; cases hparent
    | load success =>
      have hchild := h.child
      show (s.load success).Safe _
      unfold State.load
      generalize s.child = c at hchild
      cases hchild with
      | freePage | user | exit => trivial
    | advance t =>
      cases t with
      | parent => exact going_safe h hlog
      | child => exact signalled_safe h hlog

theorem inv_of_reach (h : (executions tids).Reach s) : Inv tids s ∧ ∀ a, s.step a ≠ .fault := by
  apply h.safe
  · intro s hs
    refine ⟨.nothing ⟨.inl hs.parent, hs.child, by rw [hs.heap]; rfl, hs.childrenTids, hs.loaded⟩, ?_⟩
    rw [hs.heap]
    exact ⟨fun l₁ l₂ h => by simp [Ledger.empty] at h, fun _ => List.not_mem_nil⟩
  · intro s a hs
    exact (hs.step_safe a).mono fun t ht => ht.1

/-! ### The end -/

/-- The parent has returned, and the child has left `start_process` or was never created. -/
def State.Finished (s : State) : Prop :=
  (∃ tid, s.parent = .returned tid) ∧ (s.child = .unborn ∨ s.child = .user ∨ s.child = .exit)

/-- `process_execute` has returned what it should: the child's tid, which is among the children
then, or an error. -/
structure Returned (tids : List ℤ) (s : State) (tid : ℤ) : Prop where
  /-- When `load` has succeeded. -/
  success : s.loaded = some true → tid = s.tid ∧ tid ≠ TID_ERROR ∧ s.childrenTids = tids ++ [tid]
  /-- When it has failed, or was never called. -/
  failure : s.loaded ≠ some true → tid = TID_ERROR ∧ s.childrenTids = tids

theorem Phase.returned (h : Phase tids s) {tid : ℤ} (hp : s.parent = .returned tid) : Returned tids s tid := by
  cases h with
  | nothing h =>
    have htid : tid = TID_ERROR := by simpa [hp] using h.parent
    exact ⟨fun hload => by simp [h.loaded] at hload, fun _ => ⟨htid, h.children⟩⟩
  | page h => simp [h.parent] at hp
  | alone h =>
    have hparent := h.parent
    rw [hp] at hparent
    cases hparent
    exact ⟨fun hload => by simp [h.loaded] at hload, fun _ => ⟨rfl, h.children⟩⟩
  | loading h =>
    have hparent := h.parent
    rw [hp] at hparent
    cases hparent
  | signalled h =>
    have hparent := h.parent
    rw [hp] at hparent
    cases hparent with
    | returned hsuccess =>
      exact ⟨fun _ => ⟨rfl, h.tid, h.children⟩, fun hload => by simp [h.loaded, hsuccess] at hload⟩
    | failed hsuccess => exact ⟨fun hload => by simp [h.loaded, hsuccess] at hload, fun _ => ⟨rfl, h.children⟩⟩

theorem Phase.not_live (h : Phase tids s) (hf : s.Finished) (o : Obj) : s.heap.life o ≠ .live := by
  obtain ⟨⟨tid, hp⟩, hc⟩ := hf
  cases h with
  | nothing h =>
    rw [h.life]
    simp
  | page h => simp [h.parent] at hp
  | alone h =>
    obtain ⟨hparent, -, hlife, -⟩ := h
    rw [hp] at hparent hlife
    cases hparent
    rw [hlife]
    cases o <;> simp [lives, ParentPc.freed]
  | loading h =>
    have hparent := h.parent
    rw [hp] at hparent
    cases hparent
  | @signalled success page _ _ h =>
    have hchild := h.child
    have hpage : page = .freed := by
      generalize s.child = c at hchild hc
      cases hchild with
      | freePage => simp at hc
      | user | exit => rfl
    rw [h.life, hp, hpage]
    cases o <;> simp [lives, ParentPc.freed]

section Progress

variable {k : State → Outcome State}

theorem State.record_eq_disabled {t : Thread} : s.record t o op k = .disabled ↔
    ∃ heap, s.heap.record t o op = some heap ∧ k { s with heap := heap } = .disabled := by
  cases hheap : s.heap.record t o op with
  | none | some heap => simp [State.record, hheap]

theorem State.follow_eq_disabled {k : Obj → State → Outcome State} {t : Thread} : s.follow t field k = .disabled ↔
    ∃ heap, s.heap.record t .info (.use .read) = some heap ∧
      ∃ o, field s.info = some o ∧ k o { s with heap := heap } = .disabled := by
  cases hfield : field s.info with
  | none | some o => simp [State.follow, record_eq_disabled, hfield]

end Progress

theorem parent_enabled (hreturned : ∀ tid, s.parent ≠ .returned tid) (hasleep : s.parent ≠ .asleep) :
    ∃ a, s.step a ≠ .disabled := by
  have hadvance : s.advanceParent ≠ .disabled → ∃ a, s.step a ≠ .disabled := fun h => ⟨.advance .parent, h⟩
  cases hp : s.parent with
  | getPage => exact ⟨.getPage false, by simp [State.step, hp, State.getPage]⟩
  | prepare =>
    refine ⟨.prepare 0, ?_⟩
    simp only [State.step, hp, if_true, State.prepare]
    split <;> simp
  | create => exact ⟨.create TID_ERROR, by simp [State.step, hp, State.create]⟩
  | asleep => exact absurd hp hasleep
  | returned tid => exact absurd hp (hreturned tid)
  | push | freePage | down | status | freeInfo | freeLine | freeSema =>
    exact hadvance (by simp [advanceParent, hp, record_eq_disabled, follow_eq_disabled])

theorem child_enabled (hunborn : s.child ≠ .unborn) (huser : s.child ≠ .user) (hexit : s.child ≠ .exit) :
    ∃ a, s.step a ≠ .disabled := by
  have hadvance : s.advanceChild ≠ .disabled → ∃ a, s.step a ≠ .disabled := fun h => ⟨.advance .child, h⟩
  cases hc : s.child with
  | unborn => exact absurd hc hunborn
  | user => exact absurd hc huser
  | exit => exact absurd hc hexit
  | load fileName line => exact ⟨.load true, by simp [State.step, State.load, hc, record_eq_disabled]⟩
  | increment | readName | readLine | setStatus | freePage | up =>
    exact hadvance (by simp [advanceChild, hc, record_eq_disabled, follow_eq_disabled,
      unblockParent, ite_eq_iff])

/-- **The two can go on until both are at the end.** -/
theorem Inv.progress (h : Inv tids s) : s.Finished ∨ ∃ a t, s.step a = .next t := by
  have hnext : (∃ a, s.step a ≠ .disabled) → ∃ a t, s.step a = .next t := by
    rintro ⟨a, ha⟩
    obtain ⟨t, ht⟩ := (h.step_safe a).exists_next ha
    exact ⟨a, t, ht⟩
  by_cases hchild : s.child = .unborn ∨ s.child = .user ∨ s.child = .exit
  · by_cases hparent : ∃ tid, s.parent = .returned tid
    · exact .inl ⟨hparent, hchild⟩
    · right
      apply hnext
      apply parent_enabled (fun tid hp => hparent ⟨tid, hp⟩)
      intro hp
      -- A parent that sleeps has a child that is not done.
      cases h.phase with
      | nothing h | page h => simpa [hp] using h.parent
      | alone h | signalled h =>
        have hparent := h.parent
        rw [hp] at hparent
        cases hparent
      | loading h =>
        have hloading := h.child
        generalize s.child = c at hloading hchild
        cases hloading <;> simp at hchild
  · rw [not_or, not_or] at hchild
    exact .inr (hnext (child_enabled hchild.1 hchild.2.1 hchild.2.2))

/-- **A parent and its child, in every schedule.** No access is to an object that is not live. The
child touches nothing but the page after its `sema_up`, and nobody touches what was freed. When
`process_execute` has returned, the result and the children are what `load` says. Every step leads
closer to the end; there is always one until both are at the end, and then every object has been
freed, once. -/
theorem execute_correct (h : (executions tids).Reach s) :
    (∀ a, (executions tids).step s a ≠ .fault) ∧ Quiet s.heap.log ∧
      (∀ l₁ l₂ t o, s.heap.log = l₁ ++ ⟨t, o, .free⟩ :: l₂ → ∀ e ∈ l₂, e.object ≠ o) ∧
      (∀ tid, s.parent = .returned tid → Returned tids s tid) ∧
      (∀ a t, (executions tids).step s a = .next t → t.measure < s.measure) ∧
      (s.Finished ∨ ∃ a t, (executions tids).step s a = .next t) ∧
      (s.Finished → ∀ o, (∃ e ∈ s.heap.log, e.object = o) → s.heap.log.countP (·.frees o) = 1) := by
  obtain ⟨hinv, hfault⟩ := inv_of_reach h
  refine ⟨hfault, hinv.log.quiet, ?_, ?_, ?_, hinv.progress, ?_⟩
  · intro l₁ l₂ t o hlog
    exact s.heap.ne_of_mem_after_free hlog
  · intro tid hp
    exact hinv.phase.returned hp
  · intro a t ht
    exact ((hinv.step_safe a).of_next ht).2.1
  · rintro hf o ⟨e, he, ho⟩
    exact s.heap.count_free_of_not_live (hinv.phase.not_live hf o) he ho

/-! ### The tree follows -/

/-- The tree has the parent `p` and its child `c` so. -/
structure Shows (p c : Tid) (v : View) (tree : Userprog.State) : Prop where
  parent : (tree.proc p).pc = v.parent
  child : (tree.proc c).pc = v.child
  /-- The info is there until the parent returns. -/
  info : v.parent ≠ .run → tree.sh c = .live v.info
  relation : ∃ r, tree.rel p = .live r ∧ r.aliveCount = v.aliveCount
  children : v.childrenTids = (tree.proc p).childrenTids.map (↑)
  tid : v.tid = c
  pRel : (tree.proc c).pRel = some p
  ne : c ≠ p

section Tree

open Userprog.State (goto setProc setSh setRel)

variable {p c : Tid} {tree : Userprog.State}

theorem Shows.step {v v' : View} (h : Shows p c v tree) (hv : v.Step c v') :
    Shows p c v' tree ∨ ∃ a tree', Userprog.step tree a = .next tree' ∧ Shows p c v' tree' := by
  have hsame := h
  obtain ⟨hparent, hchild, hinfo, ⟨r, hr, halive⟩, hchildren, htid, hrel, hne⟩ := h
  cases hv with
  | none => exact .inl hsame
  | load success hc hp =>
    refine .inr ⟨.load c success, _, by rw [Userprog.step, if_pos (hchild.trans hc), hinfo hp]; rfl, ?_⟩
    constructor <;> simp_all [goto, setProc, setSh, hne.symm, statusOf]
  | increment hc =>
    refine .inr ⟨.advance c, _, by simp only [Userprog.step, advance, hchild, hc, withParent, hrel, hr]; rfl, ?_⟩
    constructor <;> simp_all [goto, setProc, setRel, hne.symm]
  | @signal success hc hp =>
    rw [hc] at hchild
    cases success <;> refine .inr ⟨.advance c, _, by simp only [Userprog.step, advance, hchild, hinfo hp]; rfl, ?_⟩ <;>
      constructor <;> simp_all [goto, setProc, setSh, hne.symm]
  | down hp hv =>
    have hsh := hinfo (by simp [hp])
    refine .inr ⟨.advance p, _, by simp only [Userprog.step, advance, hparent, hp, hsh, Cell.access, if_neg hv]; rfl, ?_⟩
    constructor <;> simp_all [goto, setProc, setSh]
  | failed hp he | done hp he =>
    have hsh := hinfo (by simp [hp])
    refine .inr ⟨.advance p, _, by simp only [Userprog.step, advance, hparent, hp, hsh, Cell.access, he]; rfl, ?_⟩
    constructor <;> simp_all [goto, setProc, setSh]

/-- **The child is made by `execute`**, in a tree with the parent and its children. -/
theorem tree_create {page : Life} (h : Alone tids page s) (hparent : s.parent = .create)
    (hp : (tree.proc p).pc = .run) (hr : ∃ r, tree.rel p = .live r ∧ r.aliveCount = s.aliveCount)
    (hchildren : s.childrenTids = (tree.proc p).childrenTids.map (↑)) (hne : tree.nextTid ≠ p) (awaited : ℤ) :
    ∃ t tree', s.step (.create tree.nextTid) = .next t ∧
      Userprog.step tree (.execute p awaited s.info.cStatus) = .next tree' ∧
      Shows p tree.nextTid (t.view tree.nextTid) tree' := by
  obtain ⟨r, hr, halive⟩ := hr
  have hsema := h.sema hparent
  refine ⟨_, _, by rw [State.step, if_pos hparent, State.create, if_neg nofun],
    by rw [Userprog.step, if_pos hp, hr]; rfl, ?_⟩
  constructor <;>
    simp_all [goto, setProc, threadCreate, hne.symm, State.view, ParentPc.coarse, ChildPc.coarse, semaInit]

/-- **Then a step here is a step of the tree, or none.** -/
theorem tree_step (h : (executions tids).Reach s) {a : Act} (hstep : s.step a = .next t) (hborn : s.child ≠ .unborn)
    (hs : Shows p c (s.view c) tree) :
    Shows p c (t.view c) tree ∨ ∃ b tree', Userprog.step tree b = .next tree' ∧ Shows p c (t.view c) tree' := by
  obtain ⟨-, -, hview⟩ := ((inv_of_reach h).1.step_safe a).of_next hstep
  exact hs.step (hview.resolve_left hborn c)

end Tree

end Steps

/-- A parent with no children, at the start. -/
def start : State where
  parent := .getPage
  child := .unborn
  heap := Ledger.empty
  info := ⟨none, none, none, 0⟩
  sema := semaInit 0
  tid := 0
  childrenTids := []
  aliveCount := 1
  loaded := none

/-- The parent falls asleep, the load succeeds, and the child's tid 3 is in the list. -/
theorem execute_correct_loaded : ∃ s : State, (executions []).Reach s ∧ s.Finished ∧ Returned [] s 3 ∧
    s.heap.log.countP (·.frees .page) = 1 := by
  have hstart : (executions []).Reach start := .init ⟨rfl, rfl, rfl, rfl, rfl⟩
  obtain ⟨s, hrun, hparent, hchild, hlog⟩ : ∃ s, (executions []).replay start
      [.getPage true, .prepare 0, .create 3, .advance .child, .advance .parent, .advance .child,
        .load true, .advance .child,
        .advance .child, .advance .child, .advance .parent, .advance .parent, .advance .parent, .advance .parent,
        .advance .child, .advance .parent, .advance .parent] = .next s ∧
      s.parent = .returned 3 ∧ s.child = .user ∧ ⟨.parent, .page, .alloc⟩ ∈ s.heap.log :=
    ⟨_, rfl, rfl, rfl, List.mem_cons_self⟩
  have hreach := hstart.replay hrun
  have hfinished : s.Finished := ⟨⟨3, hparent⟩, .inr (.inl hchild)⟩
  obtain ⟨-, -, -, hreturned, -, -, hfreed⟩ := execute_correct hreach
  exact ⟨s, hreach, hfinished, hreturned 3 hparent, hfreed hfinished .page ⟨_, hlog, rfl⟩⟩

end Pintos.Userprog.Execute
