import Pintos.Basis.Transition

/-!
# Processes: execute, wait, exit

The process tree of `userprog/process.c` as a transition system. A process is
created by `process_execute`, which calls `thread_create` (`threads/thread.c`)
and then waits until the new thread has loaded its program (`start_process`);
it waits for a child with `process_wait`; it ends with `process_exit`.

Parent and children share a `thread_relation`: the parent's `c_rel` is the
children's `p_rel`. It counts who still uses it (`alive_count`), holds the exit
records of the children (`return_list`), the child the parent waits for
(`awaited_tid`) and the semaphore on which the parent sleeps (`p_sema`).

## The model

A relation is named by the tid of its owner, the parent; the shared
`start_process_info` of an execute is named by the tid of the child. Both live
in memory cells (`Cell`) that are allocated once and may be freed; any access to
a cell that is not live is a fault, and so is freeing it again. The locks
`return_lock` and `alive_lock` protect the sections that are single steps here.
The list, the locks and the semaphore of a relation are freed with it, in the
same section, so that they share its cell.

Every thread has a program counter (`Pc`), one value for each point between two
steps. What a `malloc` leaves uninitialised (`awaited_tid`, `c_status`) is an
argument of the action that allocates it. The initial thread has no `p_rel` and
does not exit. The semaphores are their values: `sema_down` can be taken when
the value is positive.
-/

namespace Pintos.Userprog

open Function

/-- A thread identifier that `allocate_tid` has given out. -/
abbrev Tid := ℕ

def TID_ERROR : ℤ := -1

/-- `struct child_return`. -/
structure ChildReturn where
  /-- The child. -/
  tid : Tid
  /-- Its exit status. -/
  returnedVal : ℤ
  deriving DecidableEq

/-- `struct thread_relation`. -/
structure Relation where
  /-- Set when the relation is made, and never changed. -/
  parentAlive : Bool
  /-- The value of the semaphore the parent waits on. -/
  pSema : ℕ
  /-- How many processes use the relation. -/
  aliveCount : ℤ
  /-- The child the parent waits for. -/
  awaitedTid : ℤ
  /-- The exit records of the children, oldest first. -/
  returnList : List ChildReturn
  deriving DecidableEq

/-- The part of `struct start_process_info` that parent and child share. -/
structure StartProcessInfo where
  /-- The value of the semaphore the parent waits on until the child has loaded. -/
  pSp : ℕ
  /-- Whether the load succeeded: `1` or `TID_ERROR`. -/
  cStatus : ℤ
  deriving DecidableEq

/-- Where a thread is. -/
inductive Pc where
  /-- Not yet created. -/
  | unborn
  /-- `start_process`: in `load`. -/
  | load
  /-- `start_process`: `c_status` is set; about to increment `alive_count`. -/
  | increment (success : Bool)
  /-- `start_process`: about to `sema_up (sh->p_sp)`. -/
  | signal (success : Bool)
  /-- Outside the functions of this module. -/
  | run
  /-- `process_execute`: at `sema_down (p_sp)`, for `child`. -/
  | execDown (child : Tid)
  /-- `process_execute`: about to read `c_status` and free the shared info. -/
  | execStatus (child : Tid)
  /-- `process_wait`: about to test whether `returned_children` is empty. -/
  | waitEmpty (tid : Tid)
  /-- `process_wait`: about to search `returned_children`. -/
  | waitSearch (tid : Tid)
  /-- `process_wait`: at `sema_down (p_sema)`, with `returned_child` as the first search left it. -/
  | waitDown (tid : Tid) (ret : Option ChildReturn)
  /-- `process_wait`: about to search `returned_children` again. -/
  | waitAgain (tid : Tid) (ret : Option ChildReturn)
  /-- `process_exit`: about to append the exit record. -/
  | exitAppend
  /-- `process_exit`: about to compare `tid` with `awaited_tid`. -/
  | exitCompare
  /-- `process_exit`: about to `sema_up (p_sema)`. -/
  | exitUp
  /-- `process_exit`: about to decrement the count of the own relation. -/
  | exitChildRel
  /-- `process_exit`: about to decrement the count of the parent's relation. -/
  | exitParentRel
  /-- Past `process_exit`. -/
  | dead
  deriving DecidableEq

/-- The part of `struct thread` these functions use; `c_rel` is the relation named by
the thread's own tid. -/
structure Proc where
  /-- The owner of the relation `p_rel` points to. -/
  pRel : Option Tid
  /-- Where the thread is. -/
  pc : Pc
  /-- The children that can be waited for. -/
  childrenTids : List Tid
  retStatus : ℤ
  /-- The last `process_wait` that passed the waitable check: its child, and what it
  returned. (For the statements; no step reads it.) -/
  waited : Option (Tid × ℤ)
  deriving DecidableEq

/-- The state of the process tree. -/
structure State where
  /-- The next tid of `allocate_tid`. -/
  nextTid : Tid
  /-- The relations, by owner. -/
  rel : Tid → Cell Relation
  /-- The shared infos, by child. -/
  sh : Tid → Cell StartProcessInfo
  /-- The threads. -/
  proc : Tid → Proc

/-- What can happen. -/
inductive Act where
  /-- `p` calls `process_execute`, and `thread_create` succeeds; `awaited` and `status` are
  what `malloc` left in the new thread's `awaited_tid` and in `c_status`. -/
  | execute (p : Tid) (awaited status : ℤ)
  /-- `p` calls `process_execute`, and `thread_create` fails. -/
  | executeFail (p : Tid)
  /-- `load` returns in `c`. -/
  | load (c : Tid) (success : Bool)
  /-- `p` calls `process_wait (tid)`. -/
  | wait (p : Tid) (tid : ℤ)
  /-- `x` terminates with `status`. -/
  | exit (x : Tid) (status : ℤ)
  /-- `t` takes the next step of the function it is in. -/
  | advance (t : Tid)
  deriving DecidableEq

namespace State

def setProc (s : State) (t : Tid) (pr : Proc) : State :=
  { s with proc := update s.proc t pr }

/-- `t` goes on to `pc`. -/
def goto (s : State) (t : Tid) (pc : Pc) : State := s.setProc t { s.proc t with pc := pc }

/-- Set the cell of a relation. -/
def setRel (s : State) (o : Tid) (c : Cell Relation) : State :=
  { s with rel := update s.rel o c }

/-- Set the cell of a shared info. -/
def setSh (s : State) (c : Tid) (x : Cell StartProcessInfo) : State :=
  { s with sh := update s.sh c x }

/-- `process_wait (tid)` returns `v` in `p`. -/
def returnWait (s : State) (p tid : Tid) (v : ℤ) : State :=
  s.setProc p { s.proc p with pc := .run, waited := some (tid, v) }

section

variable (s : State)
include s

@[simp] theorem setProc_self (t : Tid) (pr : Proc) : (s.setProc t pr).proc t = pr :=
  update_self _ _ _

theorem setProc_of_ne {t u : Tid} (pr : Proc) (h : u ≠ t) : (s.setProc t pr).proc u = s.proc u :=
  update_of_ne h _ _

@[simp] theorem setRel_self (o : Tid) (c : Cell Relation) : (s.setRel o c).rel o = c :=
  update_self _ _ _

theorem setRel_of_ne {o u : Tid} (c : Cell Relation) (h : u ≠ o) : (s.setRel o c).rel u = s.rel u :=
  update_of_ne h _ _

theorem setProc_proc (t : Tid) (pr : Proc) (u : Tid) :
    (s.setProc t pr).proc u = if u = t then pr else s.proc u := update_apply _ _ _ _

theorem setRel_rel (o : Tid) (c : Cell Relation) (u : Tid) :
    (s.setRel o c).rel u = if u = o then c else s.rel u := update_apply _ _ _ _

end

end State

/-- A relation as `thread_create` makes it. -/
def newRelation (awaited : ℤ) : Relation :=
  { parentAlive := true, pSema := 0, aliveCount := 1, awaitedTid := awaited, returnList := [] }

/-- `thread_create`, called by `process_execute` in `p`: a new thread whose `p_rel` is `p`'s
`c_rel`, with a relation of its own, and the info it shares with `p`. -/
def threadCreate (s : State) (p : Tid) (awaited status : ℤ) : State :=
  { nextTid := s.nextTid + 1
    rel := update s.rel s.nextTid (.live (newRelation awaited))
    sh := update s.sh s.nextTid (.live { pSp := 0, cStatus := status })
    proc := update s.proc s.nextTid
      { pRel := some p, pc := .load, childrenTids := [], retStatus := 0, waited := none } }

section threadCreate

variable (s : State) (p : Tid) (awaited status : ℤ)

theorem threadCreate_proc_self : (threadCreate s p awaited status).proc s.nextTid =
    { pRel := some p, pc := .load, childrenTids := [], retStatus := 0, waited := none } :=
  update_self _ _ _

theorem threadCreate_proc_of_ne {u : Tid} (h : u ≠ s.nextTid) : (threadCreate s p awaited status).proc u = s.proc u :=
  update_of_ne h _ _

theorem threadCreate_rel_self : (threadCreate s p awaited status).rel s.nextTid = .live (newRelation awaited) :=
  update_self _ _ _

theorem threadCreate_rel_of_ne {o : Tid} (h : o ≠ s.nextTid) : (threadCreate s p awaited status).rel o = s.rel o :=
  update_of_ne h _ _

end threadCreate

/-- The search of `process_wait` through `returned_children`: whether the record of `tid` is
there, and the record `returned_child` points to afterwards, the last one looked at. -/
def search (tid : Tid) : List ChildReturn → Option ChildReturn → Bool × Option ChildReturn
  | [], ret => (false, ret)
  | c :: l, _ => if c.tid = tid then (true, some c) else search tid l (some c)

/-- `process_wait` up to setting `awaited_tid`: the child's entry is removed from
`children_tids`. A tid without an entry makes it return `-1` at once. -/
def processWait (s : State) (p : Tid) (tid : ℤ) : Outcome State :=
  match (s.proc p).childrenTids.find? fun (c : Tid) => decide ((c : ℤ) = tid) with
  | none => .next s
  | some c =>
    (s.rel p).access fun r =>
      let pr := { s.proc p with pc := .waitEmpty c, childrenTids := (s.proc p).childrenTids.erase c }
      .next ((s.setRel p (.live { r with awaitedTid := tid })).setProc p pr)

/-- A relation after one decrement of its count: freed when the count is `0`. -/
def Relation.release (r : Relation) : Cell Relation :=
  if r.aliveCount - 1 = 0 then .freed else .live { r with aliveCount := r.aliveCount - 1 }

/-- A section under `alive_lock` of `process_exit`, on the relation of `o`. -/
def decAlive (s : State) (o : Tid) (k : State → Outcome State) : Outcome State :=
  (s.rel o).access fun r => k (s.setRel o r.release)

/-- Follow the `p_rel` of `t`: its owner must be there, and the relation live. -/
def withParent (s : State) (t : Tid) (k : Tid → Relation → Outcome State) : Outcome State :=
  match (s.proc t).pRel with
  | none => .fault
  | some o => (s.rel o).access fun r => k o r

/-- The next step of `t` in the function it is in. -/
def advance (s : State) (t : Tid) : Outcome State :=
  match (s.proc t).pc with
  | .increment success =>
    withParent s t fun o r =>
      .next ((s.setRel o (.live { r with aliveCount := r.aliveCount + 1 })).goto t (.signal success))
  | .signal success =>
    (s.sh t).access fun x =>
      let s' := s.setSh t (.live { x with pSp := x.pSp + 1 })
      -- a failed load exits at once, with status -1
      if success then .next (s'.goto t .run)
      else .next (s'.setProc t { s.proc t with pc := .exitAppend, retStatus := -1 })
  | .execDown child =>
    (s.sh child).access fun x =>
      if x.pSp = 0 then .disabled
      else .next ((s.setSh child (.live { x with pSp := x.pSp - 1 })).goto t (.execStatus child))
  | .execStatus child =>
    (s.sh child).access fun x =>
      let s' := s.setSh child .freed
      if x.cStatus = TID_ERROR then .next (s'.goto t .run)
      else .next (s'.setProc t
        { s.proc t with pc := .run, childrenTids := (s.proc t).childrenTids ++ [child] })
  | .waitEmpty tid =>
    (s.rel t).access fun r =>
      if r.returnList = [] then .next (s.goto t (.waitDown tid none)) else .next (s.goto t (.waitSearch tid))
  | .waitSearch tid =>
    (s.rel t).access fun r =>
      match search tid r.returnList none with
      | (true, some c) => .next (s.returnWait t tid c.returnedVal)
      | (_, ret) => .next (s.goto t (.waitDown tid ret))
  | .waitDown tid ret =>
    (s.rel t).access fun r =>
      if r.pSema = 0 then .disabled
      else .next ((s.setRel t (.live { r with pSema := r.pSema - 1 })).goto t (.waitAgain tid ret))
  | .waitAgain tid ret =>
    (s.rel t).access fun r =>
      -- returned_child is read whether or not the record was found
      match (search tid r.returnList ret).2 with
      | some c => .next (s.returnWait t tid c.returnedVal)
      | none => .fault
  | .exitAppend =>
    withParent s t fun o r =>
      if r.parentAlive then
        .next ((s.setRel o (.live { r with returnList := r.returnList ++ [⟨t, (s.proc t).retStatus⟩] })).goto t
          .exitCompare)
      else .next (s.goto t .exitChildRel)
  | .exitCompare =>
    withParent s t fun _ r =>
      if (t : ℤ) = r.awaitedTid then .next (s.goto t .exitUp) else .next (s.goto t .exitChildRel)
  | .exitUp =>
    withParent s t fun o r => .next ((s.setRel o (.live { r with pSema := r.pSema + 1 })).goto t .exitChildRel)
  | .exitChildRel => decAlive s t fun s' => .next (s'.goto t .exitParentRel)
  | .exitParentRel =>
    match (s.proc t).pRel with
    | none => .fault
    | some o => decAlive s o fun s' => .next (s'.goto t .dead)
  | .unborn | .load | .run | .dead => .disabled

/-- What an action does. -/
def step (s : State) : Act → Outcome State
  | .execute p awaited status =>
    if (s.proc p).pc = .run then
      (s.rel p).access fun _ => .next ((threadCreate s p awaited status).goto p (.execDown s.nextTid))
    else .disabled
  | .executeFail p => if (s.proc p).pc = .run then .next s else .disabled
  | .load c success =>
    if (s.proc c).pc = .load then
      (s.sh c).access fun x =>
        .next ((s.setSh c (.live { x with cStatus := if success then 1 else TID_ERROR })).goto c (.increment success))
    else .disabled
  | .wait p tid => if (s.proc p).pc = .run then processWait s p tid else .disabled
  | .exit x status =>
    if (s.proc x).pc = .run ∧ (s.proc x).pRel ≠ none then
      .next (s.setProc x { s.proc x with pc := .exitAppend, retStatus := status })
    else .disabled
  | .advance t => advance s t

/-- The tree at the start: the initial thread, with tid `1` and the relation its first
`thread_create` made; `awaited` is what `malloc` left in `awaited_tid`. Tid `2` is that of the
idle thread, which takes no part. -/
def initial (awaited : ℤ) : State :=
  { nextTid := 3
    rel := update (fun _ => .unused) 1 (.live (newRelation awaited))
    sh := fun _ => .unused
    proc := update
      (fun _ => { pRel := none, pc := .unborn, childrenTids := [], retStatus := 0, waited := none })
      1 { pRel := none, pc := .run, childrenTids := [], retStatus := 0, waited := none } }

/-- The process tree as a system. -/
def processes : System State Act where
  init s := ∃ awaited, s = initial awaited
  step := step

/-! ### What a step can do -/

/-- Every way in which an action leads from `s` to another state: where the thread is, what it
finds, and what it leaves. -/
inductive Move (s : State) : Act → State → Prop where
  | execute {p : Tid} {awaited status : ℤ} {r : Relation} : (s.proc p).pc = .run → s.rel p = .live r →
      Move s (.execute p awaited status) ((threadCreate s p awaited status).goto p (.execDown s.nextTid))
  | executeFail {p : Tid} : (s.proc p).pc = .run → Move s (.executeFail p) s
  | load {c : Tid} {success : Bool} {x : StartProcessInfo} : (s.proc c).pc = .load → s.sh c = .live x →
      Move s (.load c success)
        ((s.setSh c (.live { x with cStatus := if success then 1 else TID_ERROR })).goto c (.increment success))
  | refuse {p : Tid} {tid : ℤ} : (s.proc p).pc = .run → (∀ c ∈ (s.proc p).childrenTids, (c : ℤ) ≠ tid) →
      Move s (.wait p tid) s
  | wait {p c : Tid} {r : Relation} : (s.proc p).pc = .run → c ∈ (s.proc p).childrenTids → s.rel p = .live r →
      Move s (.wait p c)
        ((s.setRel p (.live { r with awaitedTid := c })).setProc p
          { s.proc p with pc := .waitEmpty c, childrenTids := (s.proc p).childrenTids.erase c })
  | exit {x o : Tid} {status : ℤ} : (s.proc x).pc = .run → (s.proc x).pRel = some o →
      Move s (.exit x status)
        (s.setProc x { s.proc x with pc := .exitAppend, retStatus := status })
  | increment {t o : Tid} {success : Bool} {r : Relation} : (s.proc t).pc = .increment success →
      (s.proc t).pRel = some o → s.rel o = .live r →
      Move s (.advance t)
        ((s.setRel o (.live { r with aliveCount := r.aliveCount + 1 })).goto t (.signal success))
  | signal {t : Tid} {x : StartProcessInfo} : (s.proc t).pc = .signal true → s.sh t = .live x →
      Move s (.advance t) ((s.setSh t (.live { x with pSp := x.pSp + 1 })).goto t .run)
  | signalFailed {t : Tid} {x : StartProcessInfo} : (s.proc t).pc = .signal false → s.sh t = .live x →
      Move s (.advance t)
        ((s.setSh t (.live { x with pSp := x.pSp + 1 })).setProc t
          { s.proc t with pc := .exitAppend, retStatus := -1 })
  | execDown {t child : Tid} {x : StartProcessInfo} : (s.proc t).pc = .execDown child → s.sh child = .live x →
      0 < x.pSp →
      Move s (.advance t) ((s.setSh child (.live { x with pSp := x.pSp - 1 })).goto t (.execStatus child))
  | execFailed {t child : Tid} {x : StartProcessInfo} : (s.proc t).pc = .execStatus child →
      s.sh child = .live x → x.cStatus = TID_ERROR → Move s (.advance t) ((s.setSh child .freed).goto t .run)
  | execDone {t child : Tid} {x : StartProcessInfo} : (s.proc t).pc = .execStatus child →
      s.sh child = .live x → x.cStatus ≠ TID_ERROR →
      Move s (.advance t)
        ((s.setSh child .freed).setProc t
          { s.proc t with pc := .run, childrenTids := (s.proc t).childrenTids ++ [child] })
  | waitNone {t tid : Tid} {r : Relation} : (s.proc t).pc = .waitEmpty tid → s.rel t = .live r →
      r.returnList = [] → Move s (.advance t) (s.goto t (.waitDown tid none))
  | waitSome {t tid : Tid} {r : Relation} : (s.proc t).pc = .waitEmpty tid → s.rel t = .live r →
      r.returnList ≠ [] → Move s (.advance t) (s.goto t (.waitSearch tid))
  | waitFound {t tid : Tid} {r : Relation} {c : ChildReturn} : (s.proc t).pc = .waitSearch tid →
      s.rel t = .live r → search tid r.returnList none = (true, some c) →
      Move s (.advance t) (s.returnWait t tid c.returnedVal)
  | waitMissed {t tid : Tid} {r : Relation} {ret : Option ChildReturn} : (s.proc t).pc = .waitSearch tid →
      s.rel t = .live r → search tid r.returnList none = (false, ret) →
      Move s (.advance t) (s.goto t (.waitDown tid ret))
  | waitDown {t tid : Tid} {r : Relation} {ret : Option ChildReturn} : (s.proc t).pc = .waitDown tid ret →
      s.rel t = .live r → 0 < r.pSema →
      Move s (.advance t) ((s.setRel t (.live { r with pSema := r.pSema - 1 })).goto t (.waitAgain tid ret))
  | waitAgain {t tid : Tid} {r : Relation} {ret : Option ChildReturn} {c : ChildReturn} :
      (s.proc t).pc = .waitAgain tid ret → s.rel t = .live r → (search tid r.returnList ret).2 = some c →
      Move s (.advance t) (s.returnWait t tid c.returnedVal)
  | append {t o : Tid} {r : Relation} : (s.proc t).pc = .exitAppend → (s.proc t).pRel = some o →
      s.rel o = .live r → r.parentAlive = true →
      Move s (.advance t)
        ((s.setRel o (.live { r with returnList := r.returnList ++ [⟨t, (s.proc t).retStatus⟩] })).goto t
          .exitCompare)
  | orphan {t o : Tid} {r : Relation} : (s.proc t).pc = .exitAppend → (s.proc t).pRel = some o →
      s.rel o = .live r → r.parentAlive = false → Move s (.advance t) (s.goto t .exitChildRel)
  | awaited {t o : Tid} {r : Relation} : (s.proc t).pc = .exitCompare → (s.proc t).pRel = some o →
      s.rel o = .live r → (t : ℤ) = r.awaitedTid → Move s (.advance t) (s.goto t .exitUp)
  | unawaited {t o : Tid} {r : Relation} : (s.proc t).pc = .exitCompare → (s.proc t).pRel = some o →
      s.rel o = .live r → (t : ℤ) ≠ r.awaitedTid → Move s (.advance t) (s.goto t .exitChildRel)
  | up {t o : Tid} {r : Relation} : (s.proc t).pc = .exitUp → (s.proc t).pRel = some o → s.rel o = .live r →
      Move s (.advance t) ((s.setRel o (.live { r with pSema := r.pSema + 1 })).goto t .exitChildRel)
  | leaveOwn {t : Tid} {r : Relation} : (s.proc t).pc = .exitChildRel → s.rel t = .live r →
      Move s (.advance t) ((s.setRel t r.release).goto t .exitParentRel)
  | leaveParent {t o : Tid} {r : Relation} : (s.proc t).pc = .exitParentRel → (s.proc t).pRel = some o →
      s.rel o = .live r → Move s (.advance t) ((s.setRel o r.release).goto t .dead)

theorem search_found {tid : Tid} {l : List ChildReturn} {ret : Option ChildReturn} :
    (search tid l ret).1 = true → ∃ c, (search tid l ret).2 = some c := by
  induction l generalizing ret with
  | nil => intro h; cases h
  | cons d l ih =>
    unfold search
    split
    · exact fun _ => ⟨d, rfl⟩
    · exact ih

theorem withParent_eq_next {s t : State} {x : Tid} {k : Tid → Relation → Outcome State}
    (h : withParent s x k = .next t) :
    ∃ o r, (s.proc x).pRel = some o ∧ s.rel o = .live r ∧ k o r = .next t := by
  unfold withParent at h
  split at h
  · cases h
  · rename_i o ho
    obtain ⟨r, hr, hk⟩ := Cell.access_eq_next h
    exact ⟨o, r, ho, hr, hk⟩

theorem advance_move {s t : State} {x : Tid} (h : advance s x = .next t) : Move s (.advance x) t := by
  unfold advance at h
  split at h
  · rename_i success hpc
    obtain ⟨o, r, ho, hr, hk⟩ := withParent_eq_next h
    cases hk
    exact .increment hpc ho hr
  · rename_i success hpc
    obtain ⟨y, hy, hk⟩ := Cell.access_eq_next h
    cases success with
    | true => cases hk; exact .signal hpc hy
    | false => cases hk; exact .signalFailed hpc hy
  · rename_i child hpc
    obtain ⟨y, hy, hk⟩ := Cell.access_eq_next h
    split_ifs at hk with h0
    cases hk
    exact .execDown hpc hy (Nat.pos_of_ne_zero h0)
  · rename_i child hpc
    obtain ⟨y, hy, hk⟩ := Cell.access_eq_next h
    split_ifs at hk with h0 <;> cases hk
    · exact .execFailed hpc hy h0
    · exact .execDone hpc hy h0
  · rename_i tid hpc
    obtain ⟨r, hr, hk⟩ := Cell.access_eq_next h
    split_ifs at hk with h0 <;> cases hk
    · exact .waitNone hpc hr h0
    · exact .waitSome hpc hr h0
  · rename_i tid hpc
    obtain ⟨r, hr, hk⟩ := Cell.access_eq_next h
    split at hk
    · rename_i c hc
      cases hk
      exact .waitFound hpc hr hc
    · rename_i found ret hne hs
      cases hk
      -- a search that has found the record has one to return
      have hfalse : found = false := by
        cases found with
        | false => rfl
        | true =>
          obtain ⟨c, hc⟩ := @search_found tid r.returnList none (by rw [hs])
          rw [hs] at hc
          exact absurd rfl (hne c · (by rw [← hc]))
      exact .waitMissed hpc hr (by rw [hs, hfalse])
  · rename_i tid ret hpc
    obtain ⟨r, hr, hk⟩ := Cell.access_eq_next h
    split_ifs at hk with h0
    cases hk
    exact .waitDown hpc hr (Nat.pos_of_ne_zero h0)
  · rename_i tid ret hpc
    obtain ⟨r, hr, hk⟩ := Cell.access_eq_next h
    split at hk
    · rename_i c hc
      cases hk
      exact .waitAgain hpc hr hc
    · cases hk
  · rename_i hpc
    obtain ⟨o, r, ho, hr, hk⟩ := withParent_eq_next h
    split_ifs at hk with h0 <;> cases hk
    · exact .append hpc ho hr h0
    · exact .orphan hpc ho hr (by simpa using h0)
  · rename_i hpc
    obtain ⟨o, r, ho, hr, hk⟩ := withParent_eq_next h
    split_ifs at hk with h0 <;> cases hk
    · exact .awaited hpc ho hr h0
    · exact .unawaited hpc ho hr h0
  · rename_i hpc
    obtain ⟨o, r, ho, hr, hk⟩ := withParent_eq_next h
    cases hk
    exact .up hpc ho hr
  · rename_i hpc
    obtain ⟨r, hr, hk⟩ := Cell.access_eq_next h
    cases hk
    exact .leaveOwn hpc hr
  · rename_i hpc
    split at h
    · cases h
    · rename_i o ho
      obtain ⟨r, hr, hk⟩ := Cell.access_eq_next h
      cases hk
      exact .leaveParent hpc ho hr
  all_goals cases h

/-- **Every step is one of the moves.** -/
theorem step_move {s t : State} {a : Act} (h : step s a = .next t) : Move s a t := by
  cases a with
  | execute p awaited status =>
    obtain ⟨hpc, h⟩ := Outcome.ite_eq_next.mp h
    obtain ⟨r, hr, hk⟩ := Cell.access_eq_next h
    cases hk
    exact .execute hpc hr
  | executeFail p =>
    obtain ⟨hpc, h⟩ := Outcome.ite_eq_next.mp h
    cases h
    exact .executeFail hpc
  | load c success =>
    obtain ⟨hpc, h⟩ := Outcome.ite_eq_next.mp h
    obtain ⟨x, hx, hk⟩ := Cell.access_eq_next h
    cases hk
    exact .load hpc hx
  | wait p tid =>
    obtain ⟨hpc, h⟩ := Outcome.ite_eq_next.mp h
    unfold processWait at h
    split at h
    · rename_i hnone
      cases h
      exact .refuse hpc (by simpa using hnone)
    · rename_i c hc
      obtain ⟨r, hr, hk⟩ := Cell.access_eq_next h
      cases hk
      have hctid : (c : ℤ) = tid := by simpa using List.find?_some hc
      subst hctid
      exact .wait hpc (List.mem_of_find?_eq_some hc) hr
  | exit x status =>
    obtain ⟨hpc, h⟩ := Outcome.ite_eq_next.mp h
    cases h
    obtain ⟨o, ho⟩ := Option.ne_none_iff_exists'.mp hpc.2
    exact .exit hpc.1 ho
  | advance x => exact advance_move h

end Pintos.Userprog
