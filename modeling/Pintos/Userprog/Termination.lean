import Pintos.Userprog.SyscallHandler
import Pintos.Userprog.Wait

/-!
# What a process reports when it ends

When a process ends, `process_exit` puts its `ret_status` into the record that its parent will
find. The field is `0` in a new thread and is set on the way to `thread_exit`: by `call_exit`
(`userprog/syscall.c`), whether the process asked for it or a system call was refused, and by
`start_process` when the load fails. `kill` (`userprog/exception.c`) goes to `thread_exit` too.

## The model

The process tree of `Pintos.Userprog.Process` leaves open why and with what status a process
exits. Here it is run by what happens to the processes: a system call is handled by
`syscall_handler`, on whatever stack and memory the process has then, and an exception by the
handler that `exception_init` has registered. Beside the tree we keep why each process ended.

**`recorded_status_iff`**: the record of a process is right exactly if it was not killed because
of an exception. `kill` leaves `ret_status` alone, and the parent is told `0`.
-/

namespace Pintos.Userprog

open Function Trace

/-! ### Why a process ends -/

/-- Why a process ends. -/
inductive Cause where
  /-- It called `SYS_EXIT`. -/
  | exit (status : BitVec 32)
  /-- A system call was refused: an invalid pointer, number or descriptor. -/
  | refused
  /-- Its program could not be loaded. -/
  | loadFailed
  /-- The kernel killed it because of an exception. -/
  | killed (vecNo : ℕ)
  deriving DecidableEq

/-- What its parent has to be told. -/
def Cause.required : Cause → ℤ
  | .exit status => status.toInt
  | .refused | .loadFailed | .killed _ => -1

/-- The process was killed. -/
def Cause.isKilled : Cause → Bool
  | .killed _ => true
  | _ => false

/-- What `ret_status` is. -/
def Cause.status : Cause → ℤ
  | .killed _ => 0
  | c => c.required

theorem Cause.status_eq_required_iff (c : Cause) : c.status = c.required ↔ c.isKilled = false := by
  cases c <;> simp [status, required, isKilled]

/-- What a process asks for with `SYS_EXIT`: the word above the number, if the pointers pass the
check. -/
def exitRequest (m : Machine) (esp : Addr) : Option (BitVec 32) :=
  if m.ptrOk esp = true ∧ SyscallNr.ofWord (m.wordAt esp) = some .sysExit ∧ m.ptrOk (esp + 4#32) = true then
    some (m.wordAt (esp + 4#32))
  else none

/-- Why a system call ends its process. -/
def syscallCause (m : Machine) (esp : Addr) : Cause :=
  match exitRequest m esp with
  | some status => .exit status
  | none => .refused

/-! ### The exits of the handler -/

/-- If it is a `call_exit`, then with status `v`. -/
def End.ExitsWith (v : ℤ) : End → Prop
  | .exit w => w = v
  | _ => True

section Stops

variable {m : Machine} {v : ℤ}

@[simp] theorem readWord_stops (a : Addr) : (readWord m a).Stops (End.ExitsWith v) := by
  intro x hx
  simp only [readWord, emit_bind] at hx
  split_ifs at hx
  cases hx
  trivial

@[simp] theorem check_stops (a : Addr) : (checkUserPtr m a).Stops (End.ExitsWith v) :=
  stops_of_out (checkUserPtr_out a)

@[simp] theorem checkUserStrPtr_stops (ptr : Addr) : (checkUserStrPtr m ptr).Stops (End.ExitsWith v) := by
  intro x hx
  by_cases hpanic : (checkUserStrPtr m ptr).out = .error .panic
  · rw [hpanic] at hx
    cases hx
    trivial
  · obtain ⟨b, hb⟩ := (checkUserStrPtr_returns hpanic).1
    rw [hb] at hx
    cases hx

@[simp] theorem checkUserBufPtr_stops (ptr : Addr) (size : BitVec 32) :
    (checkUserBufPtr m ptr size).Stops (End.ExitsWith v) := by
  rw [checkUserBufPtr, stops_bind]
  refine ⟨stops_of_out (bufLoop_out ptr size.toNat 0), fun i _ => ?_⟩
  cases i <;> simp

@[simp] theorem touchRange_stops (write : Bool) (buffer : Addr) (n : ℕ) :
    (touchRange m write buffer n 0).Stops (End.ExitsWith v) := by
  intro x hx
  rcases touchRange_out (m := m) write buffer n 0 with h | h <;> rw [h] at hx <;> cases hx
  trivial

@[simp] theorem callExit_stops {α : Type} {w : ℤ} : (callExit w : Sys α).Stops (End.ExitsWith v) ↔ w = v := stops_stop

@[simp] theorem callRead_stops (fd : ℤ) (buffer : Addr) (size : BitVec 32) :
    (callRead m fd buffer size).Stops (End.ExitsWith (-1)) := by
  unfold callRead
  cases getFileFromFd m fd <;> simp [and_bind]

@[simp] theorem callWrite_stops (fd : ℤ) (buffer : Addr) (size : BitVec 32) :
    (callWrite m fd buffer size).Stops (End.ExitsWith (-1)) := by
  unfold callWrite
  cases getFileFromFd m fd <;> simp

variable {esp : Addr}

theorem dispatch_stops {nr : Option SyscallNr} (hnr : nr ≠ some .sysExit) :
    (dispatch m esp nr).Stops (End.ExitsWith (-1)) := by
  cases nr with
  | none => simp [dispatch]
  | some n =>
    cases n with
    | sysHalt => exact stops_stop.mpr trivial
    | sysExit => exact absurd rfl hnr
    | sysExec => simp [dispatch, sysExec, oneString, and_bind]
    | sysWait => simp [dispatch, sysWait, oneWord]
    | sysCreate => simp [dispatch, sysCreate, and_bind]
    | sysRemove => simp [dispatch, sysRemove, oneString, and_bind]
    | sysOpen => simp [dispatch, sysOpen]
    | sysFilesize => simp [dispatch, sysFilesize, oneWord]
    | sysRead => simp [dispatch, sysRead, and_bind]
    | sysWrite => simp [dispatch, sysWrite, and_bind]
    | sysSeek => simp [dispatch, sysSeek, and_bind]
    | sysTell => simp [dispatch, sysTell, oneWord]
    | sysClose => simp [dispatch, callClose, and_bind]

end Stops

variable {m : Machine}

theorem stops_check {a : Addr} {f : Bool → Sys Result} {v : ℤ} :
    (checkUserPtr m a >>= f).Stops (End.ExitsWith v) ↔ (f (m.ptrOk a)).Stops (End.ExitsWith v) := by
  simp [checkUserPtr_out]

theorem stops_word {a : Addr} {f : BitVec 32 → Sys Result} {v : ℤ}
    (hf : (f (m.wordAt a)).Stops (End.ExitsWith v)) : (readWord m a >>= f).Stops (End.ExitsWith v) := by
  rw [stops_bind]
  refine ⟨readWord_stops a, fun w hw => ?_⟩
  simp only [readWord, emit_bind] at hw
  split_ifs at hw
  · exact Except.ok.inj hw ▸ hf
  · cases hw

/-- **The status of a `call_exit`** is what the cause requires. -/
theorem syscallHandler_stops (m : Machine) (esp : Addr) :
    (syscallHandler m esp).Stops (End.ExitsWith (syscallCause m esp).required) := by
  rw [syscallHandler, stops_check]
  cases hesp : m.ptrOk esp with
  | false => simp [syscallCause, exitRequest, hesp, Cause.required]
  | true =>
    refine stops_word ?_
    by_cases hnr : SyscallNr.ofWord (m.wordAt esp) = some .sysExit
    · rw [hnr, dispatch, sysExit, oneWord, stops_check]
      cases hptr : m.ptrOk (esp + 4#32) with
      | false => simp [syscallCause, exitRequest, hptr, Cause.required]
      | true =>
        refine stops_word ?_
        simp [syscallCause, exitRequest, hesp, hptr, hnr, Cause.required]
    · have hcause : syscallCause m esp = .refused := by simp [syscallCause, exitRequest, hnr]
      rw [hcause]
      exact dispatch_stops hnr

/-! ### Exceptions -/

/-- The selector of the user code segment. -/
def SEL_UCSEG : BitVec 16 := 0x1B#16

/-- The selector of the kernel code segment. -/
def SEL_KCSEG : BitVec 16 := 0x08#16

/-- How the handler of an exception ends. -/
inductive KillEnd where
  | threadExit
  /-- The kernel panics. -/
  | panic
  deriving DecidableEq

/-- `kill`, by the code segment of the frame. -/
def kill (cs : BitVec 16) : KillEnd :=
  if cs = SEL_UCSEG then .threadExit
  else if cs = SEL_KCSEG then .panic
  else .threadExit

def pageFault (cs : BitVec 16) : KillEnd := kill cs

/-- The handler that `exception_init` registers for an interrupt. -/
def exceptionHandler (vecNo : ℕ) : Option (BitVec 16 → KillEnd) :=
  if vecNo ∈ [3, 4, 5, 0, 1, 6, 7, 11, 12, 13, 16, 19] then some kill
  else if vecNo = 14 then some pageFault
  else none

/-! ### Processes and what happens to them -/

/-- The process tree, with the reasons. -/
structure UserState where
  /-- The process tree. -/
  tree : State
  /-- Why a process ended or is going to end. -/
  cause : Tid → Option Cause

/-- What can happen. -/
inductive UserAct where
  /-- A step of the process tree other than an exit. -/
  | tree (a : Act)
  /-- `x` makes a system call. -/
  | syscall (x : Tid) (m : Machine) (esp : Addr)
  /-- `x` raises an exception. -/
  | exception (x : Tid) (vecNo : ℕ) (cs : BitVec 16)

/-- `thread_exit` in `x`, with `ret_status` set to `status`. -/
def threadExit (s : UserState) (x : Tid) (status : ℤ) (c : Cause) : Outcome UserState :=
  (processes.step s.tree (.exit x status)).map fun t => ⟨t, update s.cause x (some c)⟩

/-- A load that fails is a reason to end. -/
def loadCause (cause : Tid → Option Cause) : Act → Tid → Option Cause
  | .load c false => update cause c (some .loadFailed)
  | _ => cause

/-- What a system call does to its process. -/
def userSyscall (s : UserState) (x : Tid) (m : Machine) (esp : Addr) : Outcome UserState :=
  match (syscallHandler m esp).out with
  | .ok _ => .next s
  | .error (.exit status) => threadExit s x status (syscallCause m esp)
  | .error .panic => .fault
  | .error .powerOff => .disabled

/-- What an exception does to its process: `ret_status` stays. -/
def userException (s : UserState) (x : Tid) (vecNo : ℕ) (cs : BitVec 16) : Outcome UserState :=
  match exceptionHandler vecNo with
  | none => .disabled
  | some handler =>
    match handler cs with
    | .threadExit => threadExit s x (s.tree.proc x).retStatus (.killed vecNo)
    | .panic => .fault

/-- A user process runs: `x` is outside the functions of the tree, and not the initial thread. -/
def UserState.runs (s : UserState) (x : Tid) : Bool := (s.tree.proc x).pc = .run && (s.tree.proc x).pRel ≠ none

/-- The processes and what happens to them. -/
def userProcesses : System UserState UserAct where
  init s := processes.init s.tree ∧ s.cause = fun _ => none
  step s
    | .tree (.exit _ _) => .disabled
    | .tree a => (processes.step s.tree a).map fun t => ⟨t, loadCause s.cause a⟩
    | .syscall x m esp => if s.runs x then userSyscall s x m esp else .disabled
    | .exception x vecNo cs => if s.runs x then userException s x vecNo cs else .disabled

variable {x : Tid} {status : ℤ}

theorem exit_step {s t : State} (h : processes.step s (.exit x status) = .next t) :
    (s.proc x).pc = .run ∧ t = s.setProc x { s.proc x with pc := .exitAppend, retStatus := status } := by
  have hm : Move s (.exit x status) t := step_move h
  cases hm with
  | exit hpc _ => exact ⟨hpc, rfl⟩

variable {s : UserState}

/-- Every way in which something leads to another state. -/
inductive UserMove (s : UserState) : UserState → Prop where
  | stay : UserMove s s
  | tree {a : Act} {t : State} : (∀ x v, a ≠ .exit x v) → processes.step s.tree a = .next t →
      UserMove s ⟨t, loadCause s.cause a⟩
  | called {x : Tid} {m : Machine} {esp : Addr} {t : State} :
      processes.step s.tree (.exit x (syscallCause m esp).required) = .next t →
      UserMove s ⟨t, update s.cause x (some (syscallCause m esp))⟩
  | killed {x : Tid} {vecNo : ℕ} {t : State} : processes.step s.tree (.exit x (s.tree.proc x).retStatus) = .next t →
      UserMove s ⟨t, update s.cause x (some (.killed vecNo))⟩

variable {t : UserState}

theorem threadExit_eq_next {c : Cause} (h : threadExit s x status c = .next t) :
    ∃ u, processes.step s.tree (.exit x status) = .next u ∧ t = ⟨u, update s.cause x (some c)⟩ := by
  obtain ⟨u, hu, ht⟩ := Outcome.map_eq_next.mp h
  exact ⟨u, hu, ht.symm⟩

theorem userSyscall_move (h : userSyscall s x m esp = .next t) : UserMove s t := by
  unfold userSyscall at h
  split at h
  · cases h
    exact .stay
  · rename_i status hout
    obtain ⟨u, hu, rfl⟩ := threadExit_eq_next h
    have hstatus : status = (syscallCause m esp).required := syscallHandler_stops m esp _ hout
    rw [hstatus] at hu
    exact .called hu
  · cases h
  · cases h

theorem userException_move {cs : BitVec 16} (h : userException s x vecNo cs = .next t) : UserMove s t := by
  unfold userException at h
  split at h
  · cases h
  · split at h
    · obtain ⟨u, hu, rfl⟩ := threadExit_eq_next h
      exact .killed hu
    · cases h

theorem userProcesses_move {a : UserAct} (h : userProcesses.step s a = .next t) : UserMove s t := by
  cases a with
  | tree a =>
    by_cases hexit : ∃ x v, a = .exit x v
    · obtain ⟨x, v, rfl⟩ := hexit
      cases h
    · have hne : ∀ x v, a ≠ .exit x v := fun x v ha => hexit ⟨x, v, ha⟩
      have hstep : (processes.step s.tree a).map (fun u => (⟨u, loadCause s.cause a⟩ : UserState)) = .next t := by
        cases a with
        | exit x v => exact absurd rfl (hne x v)
        | _ => exact h
      obtain ⟨u, hu, rfl⟩ := Outcome.map_eq_next.mp hstep
      exact .tree hne hu
  | syscall x m esp =>
    by_cases hruns : s.runs x = true
    · exact userSyscall_move ((if_pos hruns).symm.trans h)
    · cases (if_neg hruns).symm.trans h
  | exception x vecNo cs =>
    by_cases hruns : s.runs x = true
    · exact userException_move ((if_pos hruns).symm.trans h)
    · cases (if_neg hruns).symm.trans h

/-! ### The invariant -/

/-- The load has failed, and the thread has not exited yet. -/
def Pc.failing : Pc → Bool
  | .increment success => !success
  | .signal success => !success
  | _ => false

/-- `ret_status` of a thread, and why it ended. -/
structure Accounts (pr : Proc) (c : Option Cause) : Prop where
  /-- It is `0` as long as the thread is not on the way out. -/
  zero : pr.pc.departing = false → pr.retStatus = 0
  /-- Then it has been set for a reason. -/
  reason : pr.pc.departing = true → ∃ d, c = some d ∧ pr.retStatus = d.status
  /-- A thread whose load has failed is going to end for that. -/
  failing : pr.pc.failing = true → c = some .loadFailed

/-- Every thread is accounted for. -/
def Accounted (s : State) (cause : Tid → Option Cause) : Prop := ∀ x, Accounts (s.proc x) (cause x)

variable {pr : Proc} {c : Option Cause} {q : Pc}

theorem Accounts.goto (h : Accounts pr c) {pr' : Proc} (hpc : pr.pc = q)
    (hret : pr'.retStatus = pr.retStatus) (hdep : pr'.pc.departing = q.departing)
    (hfail : pr'.pc.failing = true → q.failing = true) : Accounts pr' c := by
  subst hpc
  refine ⟨?_, ?_, ?_⟩
  · intro hd
    rw [hret]
    exact h.zero (hdep.symm.trans hd)
  · intro hd
    rw [hret]
    exact h.reason (hdep.symm.trans hd)
  · intro hf
    exact h.failing (hfail hf)

/-- A thread that is not on the way out, and whose load has not failed. -/
theorem Accounts.early (hdep : pr.pc.departing = false) (hfail : pr.pc.failing = false)
    (hret : pr.retStatus = 0) : Accounts pr c := by
  refine ⟨fun _ => hret, ?_, ?_⟩
  · intro hd
    rw [hdep] at hd
    cases hd
  · intro hf
    rw [hfail] at hf
    cases hf

theorem Accounts.failed (hdep : pr.pc.departing = false) (hret : pr.retStatus = 0) :
    Accounts pr (some .loadFailed) := by
  refine ⟨fun _ => hret, ?_, fun _ => rfl⟩
  intro hd
  rw [hdep] at hd
  cases hd

theorem Accounts.exit {d : Cause} (hpc : pr.pc = .exitAppend) (hret : pr.retStatus = d.status) :
    Accounts pr (some d) := by
  refine ⟨?_, ?_, ?_⟩
  · intro hd
    rw [hpc] at hd
    cases hd
  · intro _
    exact ⟨d, rfl, hret⟩
  · intro hf
    rw [hpc] at hf
    cases hf

namespace Accounted

variable {s : State} {cause : Tid → Option Cause}

section

variable (h : Accounted s cause)
include h

/-- One thread changes, and the reason it will end for. -/
theorem setProc (hx : Accounts pr c) : Accounted (s.setProc x pr) (update cause x c) := by
  intro u
  obtain rfl | hu := eq_or_ne u x
  · rw [State.setProc_self, update_self]
    exact hx
  · rw [State.setProc_of_ne s pr hu, update_of_ne hu]
    exact h u

theorem setThread (hx : Accounts pr (cause x)) : Accounted (s.setProc x pr) cause := by
  have hset : Accounted (s.setProc x pr) (update cause x (cause x)) := h.setProc hx
  rw [update_eq_self] at hset
  exact hset

theorem setRel (o : Tid) (c : Cell Relation) : Accounted (s.setRel o c) cause := h

theorem setSh (c : Tid) (x : Cell StartProcessInfo) : Accounted (s.setSh c x) cause := h

theorem keep (hpc : (s.proc x).pc = q)
    (hret : pr.retStatus = (s.proc x).retStatus) (hdep : pr.pc.departing = q.departing) (hfail : pr.pc.failing = false) :
    Accounted (s.setProc x pr) cause := by
  apply h.setThread ((h x).goto hpc hret hdep ?_)
  intro hf
  rw [hfail] at hf
  cases hf

theorem goto {q' : Pc} (hpc : (s.proc x).pc = q) (hdep : q'.departing = q.departing)
    (hfail : q'.failing = false) : Accounted (s.goto x q') cause := h.keep hpc rfl hdep hfail

theorem create (p : Tid) (awaited status : ℤ) :
    Accounted (threadCreate s p awaited status) cause := by
  intro u
  by_cases hu : u = s.nextTid
  · rw [hu, threadCreate_proc_self]
    exact Accounts.early rfl rfl rfl
  · rw [threadCreate_proc_of_ne _ _ _ _ hu]
    exact h u

end

theorem move (hok : (view s).Ok) (h : Accounted s cause) {a : Act} {t : State} (hm : Move s a t)
    (hexit : ∀ x v, a ≠ .exit x v) : Accounted t (loadCause cause a) := by
  cases hm with
  | @execute p awaited status r hpc hr =>
    obtain ⟨-, hpc'⟩ := caller_of_create hok.toLinks hpc awaited status
    exact (h.create p awaited status).goto hpc' rfl rfl
  | executeFail _ | refuse _ _ => exact h
  | @load c success x hpc hx =>
    cases success with
    | true => exact (h.setSh _ _).goto hpc rfl rfl
    | false =>
      have hzero : (s.proc c).retStatus = 0 := (h c).zero (by rw [hpc]; rfl)
      exact (h.setSh _ _).setProc (Accounts.failed rfl hzero)
  | wait hpc _ _ => exact (h.setRel _ _).keep hpc rfl rfl rfl
  | exit _ _ => exact absurd rfl (hexit _ _)
  | @increment x o success r hpc _ _ =>
    exact (h.setRel _ _).setThread ((h x).goto hpc rfl rfl id)
  | signal hpc _ | execDown hpc _ _ | execFailed hpc _ _ => exact (h.setSh _ _).goto hpc rfl rfl
  | @signalFailed x y hpc hy =>
    have hcause : cause x = some .loadFailed := (h x).failing (by rw [hpc]; rfl)
    refine (h.setSh _ _).setThread ?_
    rw [hcause]
    exact Accounts.exit rfl rfl
  | execDone hpc _ _ => exact (h.setSh _ _).keep hpc rfl rfl rfl
  | waitNone hpc _ _ | waitSome hpc _ _ | waitMissed hpc _ _ | orphan hpc _ _ _ | awaited hpc _ _ _
  | unawaited hpc _ _ _ => exact h.goto hpc rfl rfl
  | waitFound hpc _ _ | waitAgain hpc _ _ => exact h.keep hpc rfl rfl rfl
  | waitDown hpc _ _ | append hpc _ _ _ | up hpc _ _ | leaveOwn hpc _ | leaveParent hpc _ _ =>
    exact (h.setRel _ _).goto hpc rfl rfl

theorem exited (h : Accounted s cause) {t : State} {c : Cause}
    (hstep : processes.step s (.exit x status) = .next t) (hstatus : status = c.status) :
    Accounted t (update cause x (some c)) := by
  rw [(exit_step hstep).2]
  exact h.setProc (Accounts.exit rfl hstatus)

end Accounted

theorem syscallCause_not_killed (m : Machine) (esp : Addr) : (syscallCause m esp).isKilled = false := by
  unfold syscallCause
  split <;> rfl

theorem accounted_move (hreach : processes.Reach s.tree) (h : Accounted s.tree s.cause)
    (hm : UserMove s t) : processes.Reach t.tree ∧ Accounted t.tree t.cause := by
  cases hm with
  | stay => exact ⟨hreach, h⟩
  | tree hexit hstep => exact ⟨hreach.step hstep, h.move (ok_of_reach hreach) (step_move hstep) hexit⟩
  | @called x m esp t hstep =>
    refine ⟨hreach.step hstep, h.exited hstep ?_⟩
    exact ((Cause.status_eq_required_iff _).mpr (syscallCause_not_killed m esp)).symm
  | @killed x vecNo t hstep =>
    -- the process runs, so that its `ret_status` is still what `init_thread` has left
    have hzero : (s.tree.proc x).retStatus = 0 := (h x).zero (by rw [(exit_step hstep).1]; rfl)
    exact ⟨hreach.step hstep, h.exited hstep hzero⟩

theorem accounted_of_reach (h : userProcesses.Reach s) : processes.Reach s.tree ∧ Accounted s.tree s.cause := by
  induction h with
  | @init s hs =>
    obtain ⟨⟨awaited, hinit⟩, -⟩ := hs
    refine ⟨.init ⟨awaited, hinit⟩, ?_⟩
    intro x
    rw [hinit]
    obtain rfl | hx := eq_or_ne x 1
    · exact Accounts.early rfl rfl rfl
    · have hproc : (initial awaited).proc x = (initial awaited).proc 0 := by simp [initial, hx]
      rw [hproc]
      exact Accounts.early rfl rfl rfl
  | step _ hst ih => exact accounted_move ih.1 ih.2 (userProcesses_move hst)

/-- **What a process reports.** In every run, when a process has put its record into the relation of
its parent, there is one record of it, and the process ended for one of the reasons. What is
recorded is what its parent has to be told if and only if it was not killed. -/
theorem recorded_status_iff (s : UserState) (h : userProcesses.Reach s) (x o : Tid) (r : Relation)
    (hparent : (s.tree.proc x).pRel = some o) (hrecorded : (s.tree.proc x).pc.recorded = true)
    (hr : s.tree.rel o = .live r) :
    ∃ c v, s.cause x = some c ∧ r.returnList.filter (fun d => d.tid = x) = [⟨x, v⟩] ∧
      (v = c.required ↔ c.isKilled = false) := by
  obtain ⟨hreach, haccounted⟩ := accounted_of_reach h
  have hdep : (s.tree.proc x).pc.departing = true := by
    cases hpc : (s.tree.proc x).pc <;> rw [hpc] at hrecorded <;> first | rfl | cases hrecorded
  obtain ⟨c, hc, hstatus⟩ := (haccounted x).reason hdep
  refine ⟨c, c.status, hc, ?_, c.status_eq_required_iff⟩
  rw [(returnLists_of_reach hreach).list_of_recorded hr hparent hrecorded, hstatus]

theorem recorded_status_exit :
    ∃ s r, userProcesses.Reach s ∧ s.cause 3 = some (.exit 7#32) ∧ s.tree.rel 1 = .live r ∧
      r.returnList.filter (fun d => d.tid = 3) = [⟨3, 7⟩] := by
  have hrun : ∃ s r, userProcesses.replay ⟨initial 0, fun _ => none⟩ ((executeOk 3).map .tree ++
      [.syscall 3 ⟨onePage, stackOf 1#32 7#32 0#32 0#32, fun _ => none⟩ 0x08048000#32, .tree (.advance 3)]) = .next s ∧
      s.cause 3 = some (.exit 7#32) ∧ (s.tree.proc 3).pRel = some 1 ∧ (s.tree.proc 3).pc.recorded = true ∧
      s.tree.rel 1 = .live r := ⟨_, _, rfl, rfl, rfl, rfl, rfl⟩
  obtain ⟨s, r, hs, hcause, hparent, hrecorded, hr⟩ := hrun
  have hreach := (System.Reach.init ⟨⟨0, rfl⟩, rfl⟩ : userProcesses.Reach ⟨initial 0, fun _ => none⟩).replay hs
  obtain ⟨c, v, hc, hlist, hiff⟩ := recorded_status_iff s hreach 3 1 r hparent hrecorded hr
  cases hcause.symm.trans hc
  rw [hiff.mpr rfl] at hlist
  exact ⟨s, r, hreach, hcause, hr, hlist⟩

/-- **A process that is killed reports success.** Process 3 divides by zero in user mode. Its
record says `0`, and that is what the wait of its parent returns. -/
theorem killed_reports_zero :
    ∃ s r, userProcesses.Reach s ∧ s.cause 3 = some (.killed 0) ∧ s.tree.rel 1 = .live r ∧
      r.returnList.filter (fun d => d.tid = 3) = [⟨3, 0⟩] ∧ (s.tree.proc 1).waited = some (3, 0) := by
  have hrun : ∃ s r, userProcesses.replay ⟨initial 0, fun _ => none⟩ ((executeOk 3).map .tree ++
      [.exception 3 0 SEL_UCSEG, .tree (.advance 3), .tree (.wait 1 3), .tree (.advance 1), .tree (.advance 1)]) =
        .next s ∧
      s.cause 3 = some (.killed 0) ∧ s.tree.rel 1 = .live r ∧
      r.returnList.filter (fun d => d.tid = 3) = [⟨3, 0⟩] ∧ (s.tree.proc 1).waited = some (3, 0) :=
    ⟨_, _, rfl, rfl, rfl, rfl, rfl⟩
  obtain ⟨s, r, hs, hend⟩ := hrun
  have hinit : userProcesses.Reach ⟨initial 0, fun _ => none⟩ := .init ⟨⟨0, rfl⟩, rfl⟩
  exact ⟨s, r, hinit.replay hs, hend⟩

end Pintos.Userprog
