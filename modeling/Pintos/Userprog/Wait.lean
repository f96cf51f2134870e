import Pintos.Userprog.Relation

/-!
# Waiting for a child

`process_wait (tid)` sets `awaited_tid`, searches the exit records for that of
`tid`, sleeps at `p_sema` if it is not there, and searches again; a child that
exits appends its record, compares its tid with `awaited_tid`, and ups `p_sema`
when they agree. This module settles when what a wait returns is the exit status
of the child it waited for.

It is, as long as a child ups `p_sema` only for a parent that is going to take
the token: one that is at `sema_down` for it, or one that waits no more. This is
`wakesWaiter`, a condition on the steps of a run. In a run that satisfies it the
exit records are right (`Records`), the semaphore is up only for a parent at
`sema_down`, by the child it waits for (`Tokens`), and so every wait returns what
its child has recorded (`wait_returns_status`).

The code does not see to it. A child may append its record, and its parent find
it, before the child compares its tid with `awaited_tid`; the child then ups a
semaphore on which nobody sleeps. The next wait of that parent, for another
child, takes the token while that child still runs, and returns the record the
search happened to end at (`wait_returns_wrong_status`).
-/

namespace Pintos.Userprog

/-- The thread has appended its exit record. -/
def Pc.recorded : Pc → Bool
  | .exitCompare | .exitUp | .exitChildRel | .exitParentRel | .dead => true
  | _ => false

/-- The thread is past `sema_up`. -/
def Pc.passed : Pc → Bool
  | .exitChildRel | .exitParentRel | .dead => true
  | _ => false

/-- The thread is on the way out, or gone. -/
def Pc.departing (pc : Pc) : Bool := pc.phase.departing

/-- The child the thread waits for, in `process_wait`. -/
def Pc.waitsFor : Pc → Option Tid
  | .waitEmpty c | .waitSearch c | .waitDown c _ | .waitAgain c _ => some c
  | _ => none

/-- The child the thread waits for, at `sema_down`. -/
def Pc.atDown : Pc → Option Tid
  | .waitDown c _ => some c
  | _ => none

/-- The child the thread waits for, past `sema_down`. -/
def Pc.pastDown : Pc → Option Tid
  | .waitAgain c _ => some c
  | _ => none

theorem Pc.recorded_of_passed {pc : Pc} (h : pc.passed = true) : pc.recorded = true := by
  cases pc <;> first | rfl | cases h

/-! ### The lists of records -/

/-- The exit records are those of the children that have appended theirs. -/
structure ReturnLists (s : State) : Prop where
  /-- `parent_alive` is never cleared. -/
  alive : ∀ o r, s.rel o = .live r → r.parentAlive = true
  /-- There is one record of each of these children, with its exit status. -/
  list : ∀ o r t, s.rel o = .live r → r.returnList.filter (fun c => c.tid = t) =
    if (s.proc t).pRel = some o ∧ (s.proc t).pc.recorded = true then [⟨t, (s.proc t).retStatus⟩] else []

namespace ReturnLists

variable {s : State} {r : Relation} {o c : Tid}

theorem list_of_recorded (h : ReturnLists s) (hr : s.rel o = .live r)
    (ho : (s.proc c).pRel = some o) (hc : (s.proc c).pc.recorded = true) :
    r.returnList.filter (fun d => d.tid = c) = [⟨c, (s.proc c).retStatus⟩] := by
  rw [h.list o r c hr, if_pos ⟨ho, hc⟩]

theorem list_of_not_recorded (h : ReturnLists s) (hr : s.rel o = .live r)
    (hc : (s.proc c).pc.recorded = false) : r.returnList.filter (fun d => d.tid = c) = [] := by
  rw [h.list o r c hr, if_neg (by simp [hc])]

variable {t : Tid} {pr : Proc}

section

variable (h : ReturnLists s)
include h

theorem setProc (hp : pr.pRel = (s.proc t).pRel) (hrec : pr.pc.recorded = (s.proc t).pc.recorded)
    (hret : pr.pc.recorded = true → pr.retStatus = (s.proc t).retStatus) : ReturnLists (s.setProc t pr) := by
  refine ⟨h.alive, ?_⟩
  intro o r u hr
  rw [h.list o r u hr, State.setProc_proc]
  obtain rfl | hu := eq_or_ne u t
  · rw [if_pos rfl, hp, ← hrec]
    split_ifs with hlisted
    · rw [hret hlisted.2]
    · rfl
  · rw [if_neg hu]

/-- A thread that has appended no record, and appends none. -/
theorem setEarly {q : Pc} (hpc : (s.proc t).pc = q)
    (hp : pr.pRel = (s.proc t).pRel) (hrec : pr.pc.recorded = false) (hq : q.recorded = false) :
    ReturnLists (s.setProc t pr) := by
  apply h.setProc hp
  · rw [hpc, hrec, hq]
  · intro hpr
    rw [hrec] at hpr
    cases hpr

theorem goto {q q' : Pc} (hpc : (s.proc t).pc = q)
    (hrec : q'.recorded = q.recorded) : ReturnLists (s.goto t q') := by
  refine h.setProc rfl ?_ fun _ => rfl
  rw [hpc]
  exact hrec

theorem setRel {c : Cell Relation} (hr : s.rel o = .live r)
    (hc : ∀ r', c = .live r' → r'.parentAlive = r.parentAlive ∧ r'.returnList = r.returnList) :
    ReturnLists (s.setRel o c) := by
  refine ⟨fun o' r' hr' => ?_, fun o' r' t hr' => ?_⟩
  · rw [State.setRel_rel] at hr'
    split_ifs at hr' with ho
    · rw [(hc r' hr').1]
      exact h.alive o r hr
    · exact h.alive o' r' hr'
  · rw [State.setRel_rel] at hr'
    split_ifs at hr' with ho
    · subst ho
      rw [(hc r' hr').2]
      exact h.list o' r t hr
    · exact h.list o' r' t hr'

theorem setSh (c : Tid) (x : Cell StartProcessInfo) : ReturnLists (s.setSh c x) := ⟨h.alive, h.list⟩

end

variable {p : Tid}

theorem create (h : ReturnLists s) (awaited status : ℤ) (hok : (view s).Ok) (hp : p < s.nextTid) :
    ReturnLists (threadCreate s p awaited status) := by
  have hself := threadCreate_proc_self s p awaited status
  have hkeep : ∀ {u}, u ≠ s.nextTid → _ := fun {u} hu => threadCreate_proc_of_ne s p awaited status (u := u) hu
  refine ⟨fun o r hr => ?_, fun o r u hr => ?_⟩
  · by_cases ho : o = s.nextTid
    · rw [ho, threadCreate_rel_self] at hr
      cases hr
      rfl
    · rw [threadCreate_rel_of_ne s p awaited status ho] at hr
      exact h.alive o r hr
  · obtain rfl | ho := eq_or_ne o s.nextTid
    · rw [threadCreate_rel_self] at hr
      cases hr
      rw [if_neg]
      · rfl
      · rintro ⟨hu, -⟩
        by_cases hun : u = s.nextTid
        · rw [hun, hself] at hu
          exact Nat.ne_of_lt hp (Option.some.inj hu)
        · rw [hkeep hun] at hu
          exact hok.next_no_child u hu
    · rw [threadCreate_rel_of_ne s p awaited status ho] at hr
      rw [h.list o r u hr]
      obtain rfl | hun := eq_or_ne u s.nextTid
      · rw [if_neg fun hu => hok.next_no_parent o hu.1, hself, if_neg fun hu => by cases hu.2]
      · rw [hkeep hun]

variable {x : Tid}

theorem append (h : ReturnLists s) (hpc : (s.proc x).pc = .exitAppend)
    (ho : (s.proc x).pRel = some o) (hr : s.rel o = .live r) :
    ReturnLists ((s.setRel o (.live { r with returnList := r.returnList ++ [⟨x, (s.proc x).retStatus⟩] })).goto x
      .exitCompare) := by
  set s₁ := s.setRel o (.live { r with returnList := r.returnList ++ [⟨x, (s.proc x).retStatus⟩] })
  have hkeep : ∀ u, u ≠ x → (s₁.goto x .exitCompare).proc u = s.proc u := fun u hu =>
    State.setProc_of_ne s₁ _ hu
  have hself : (s₁.goto x .exitCompare).proc x = { s.proc x with pc := .exitCompare } := State.setProc_self _ _ _
  have hrel : ∀ o', (s₁.goto x .exitCompare).rel o' =
      if o' = o then .live { r with returnList := r.returnList ++ [⟨x, (s.proc x).retStatus⟩] } else s.rel o' :=
    fun o' => State.setRel_rel s o _ o'
  refine ⟨fun o' r' hr' => ?_, fun o' r' u hr' => ?_⟩
  · rw [hrel] at hr'
    split_ifs at hr' with ho'
    · cases hr'
      exact h.alive o r hr
    · exact h.alive o' r' hr'
  · rw [hrel] at hr'
    obtain rfl | hu := eq_or_ne u x
    · rw [hself]
      have hnot : (s.proc u).pc.recorded = false := by rw [hpc]; rfl
      split_ifs at hr' with ho'
      · -- the relation of the parent: `u` had no record, and has this one
        cases hr'
        rw [List.filter_append, h.list_of_not_recorded hr hnot, ho', if_pos ⟨ho, rfl⟩]
        simp
      · rw [h.list_of_not_recorded hr' hnot, if_neg]
        rintro ⟨hu, -⟩
        exact ho' (Option.some.inj (hu.symm.trans ho))
    · rw [hkeep u hu]
      split_ifs at hr' with ho'
      · cases hr'
        rw [ho', List.filter_append, h.list o r u hr, List.filter_cons_of_neg (by simpa using Ne.symm hu)]
        exact List.append_nil _
      · exact h.list o' r' u hr'

variable {t : State} {a : Act}

theorem move (hok : (view s).Ok) (h : ReturnLists s) (hm : Move s a t) : ReturnLists t := by
  cases hm with
  | @execute p awaited status r hpc hr =>
    obtain ⟨hp, hpc'⟩ := caller_of_create hok.toLinks hpc awaited status
    exact (h.create awaited status hok hp).goto hpc' rfl
  | executeFail _ | refuse _ _ => exact h
  | load hpc _ | signal hpc _ | execDown hpc _ _ | execFailed hpc _ _ => exact (h.setSh _ _).goto hpc rfl
  | wait hpc _ hr =>
    exact (h.setRel hr fun r' hr' => by cases hr'; exact ⟨rfl, rfl⟩).setEarly hpc rfl rfl rfl
  | exit hpc _ | waitFound hpc _ _ | waitAgain hpc _ _ => exact h.setEarly hpc rfl rfl rfl
  | increment hpc _ hr | waitDown hpc hr _ | up hpc _ hr =>
    exact (h.setRel hr fun r' hr' => by cases hr'; exact ⟨rfl, rfl⟩).goto hpc rfl
  | signalFailed hpc _ | execDone hpc _ _ => exact (h.setSh _ _).setEarly hpc rfl rfl rfl
  | waitNone hpc _ _ | waitSome hpc _ _ | waitMissed hpc _ _ | awaited hpc _ _ _ | unawaited hpc _ _ _ =>
    exact h.goto hpc rfl
  | append hpc ho hr _ => exact h.append hpc ho hr
  | @orphan x o r _ _ hr hna =>
    rw [h.alive o r hr] at hna
    cases hna
  | leaveOwn hpc hr | leaveParent hpc _ hr =>
    exact (h.setRel hr fun r' hr' => (release_keeps hr').imp_right And.left).goto hpc rfl

end ReturnLists

/-! ### The waits -/

/-- What the records say of the waits. -/
structure Targets (s : State) : Prop where
  /-- What can be waited for is a child. -/
  own : ∀ p, ∀ c ∈ (s.proc p).childrenTids, (s.proc c).pRel = some p
  /-- What is waited for is a child. -/
  target : ∀ p c, (s.proc p).pc.waitsFor = some c → (s.proc c).pRel = some p
  /-- What a wait has returned is the exit status of the child. -/
  result : ∀ p c v, (s.proc p).waited = some (c, v) →
    (s.proc c).pRel = some p ∧ (s.proc c).pc.recorded = true ∧ (s.proc c).retStatus = v

/-- The exit records are right, and the waits that have returned. -/
structure Records (s : State) : Prop extends ReturnLists s, Targets s

namespace Targets

variable {s : State}

section

variable (h : Targets s)
include h

/-- A thread that moves; a record that it has appended stays. -/
theorem setProc {q : Pc} (hpc : (s.proc t).pc = q) (hp : pr.pRel = (s.proc t).pRel)
    (hrec : q.recorded = true → pr.pc.recorded = true ∧ pr.retStatus = (s.proc t).retStatus)
    (hown : ∀ c ∈ pr.childrenTids, (s.proc c).pRel = some t)
    (htarget : ∀ c, pr.pc.waitsFor = some c → (s.proc c).pRel = some t)
    (hres : ∀ c v, pr.waited = some (c, v) →
      (s.proc c).pRel = some t ∧ (s.proc c).pc.recorded = true ∧ (s.proc c).retStatus = v) :
    Targets (s.setProc t pr) := by
  have hparent : ∀ u, ((s.setProc t pr).proc u).pRel = (s.proc u).pRel := fun u => by
    rw [State.setProc_proc]
    split_ifs with hu
    · rw [hu, hp]
    · rfl
  have hkeep : ∀ u, (s.proc u).pc.recorded = true → ((s.setProc t pr).proc u).pc.recorded = true ∧
      ((s.setProc t pr).proc u).retStatus = (s.proc u).retStatus := fun u hu' => by
    rw [State.setProc_proc]
    split_ifs with hu
    · subst hu
      exact hrec (hpc ▸ hu')
    · exact ⟨hu', rfl⟩
  refine ⟨fun p c hc => ?_, fun p c hc => ?_, fun p c v hc => ?_⟩
  · rw [hparent]
    rw [State.setProc_proc] at hc
    split_ifs at hc with hpt
    · exact hpt ▸ hown c hc
    · exact h.own p c hc
  · rw [hparent]
    rw [State.setProc_proc] at hc
    split_ifs at hc with hpt
    · exact hpt ▸ htarget c hc
    · exact h.target p c hc
  · obtain ⟨hold, hrecorded, hstatus⟩ :
        (s.proc c).pRel = some p ∧ (s.proc c).pc.recorded = true ∧ (s.proc c).retStatus = v := by
      rw [State.setProc_proc] at hc
      split_ifs at hc with hpt
      · exact hpt ▸ hres c v hc
      · exact h.result p c v hc
    obtain ⟨hrecorded', hstatus'⟩ := hkeep c hrecorded
    exact ⟨(hparent c).trans hold, hrecorded', hstatus'.trans hstatus⟩

section

variable {q q' : Pc} (hpc : (s.proc t).pc = q) (hrec : q.recorded = true → q'.recorded = true)
include hpc hrec

/-- The same, for a thread that only goes on. -/
theorem goto (htarget : ∀ c, q'.waitsFor = some c → (s.proc c).pRel = some t) : Targets (s.goto t q') :=
  h.setProc hpc rfl (fun hq => ⟨hrec hq, rfl⟩) (h.own t) htarget (h.result t)

theorem gotoIdle (hidle : q'.waitsFor = none) : Targets (s.goto t q') := by
  refine h.goto hpc hrec fun c hc => ?_
  rw [hidle] at hc
  cases hc

end

/-- A thread that has not exited and does not wait after the step. -/
theorem setIdle {q : Pc} (hpc : (s.proc t).pc = q)
    (hp : pr.pRel = (s.proc t).pRel) (hq : q.recorded = false)
    (hown : ∀ c ∈ pr.childrenTids, (s.proc c).pRel = some t) (hidle : pr.pc.waitsFor = none)
    (hres : ∀ c v, pr.waited = some (c, v) →
      (s.proc c).pRel = some t ∧ (s.proc c).pc.recorded = true ∧ (s.proc c).retStatus = v) :
    Targets (s.setProc t pr) := by
  refine h.setProc hpc hp (fun hq' => ?_) hown (fun c hc => ?_) hres
  · rw [hq] at hq'
    cases hq'
  · rw [hidle] at hc
    cases hc

theorem setRel (o : Tid) (c : Cell Relation) : Targets (s.setRel o c) := ⟨h.own, h.target, h.result⟩

theorem setSh (c : Tid) (x : Cell StartProcessInfo) : Targets (s.setSh c x) :=
  ⟨h.own, h.target, h.result⟩

theorem create (awaited status : ℤ) (hok : (view s).Ok) :
    Targets (threadCreate s p awaited status) := by
  have hself := threadCreate_proc_self s p awaited status
  have hkeep : ∀ {u}, u ≠ s.nextTid → _ := fun {u} hu => threadCreate_proc_of_ne s p awaited status (u := u) hu
  -- a child of somebody is not the new thread
  have hchild : ∀ {p' c}, (s.proc c).pRel = some p' → (threadCreate s p awaited status).proc c = s.proc c := by
    intro p' c hc
    refine hkeep ?_
    rintro rfl
    exact hok.next_no_parent p' hc
  refine ⟨fun p' c hc => ?_, fun p' c hc => ?_, fun p' c v hc => ?_⟩
  · by_cases hp' : p' = s.nextTid
    · rw [hp', hself] at hc
      cases hc
    · rw [hkeep hp'] at hc
      rw [hchild (h.own p' c hc)]
      exact h.own p' c hc
  · by_cases hp' : p' = s.nextTid
    · rw [hp', hself] at hc
      cases hc
    · rw [hkeep hp'] at hc
      rw [hchild (h.target p' c hc)]
      exact h.target p' c hc
  · by_cases hp' : p' = s.nextTid
    · rw [hp', hself] at hc
      cases hc
    · rw [hkeep hp'] at hc
      rw [hchild (h.result p' c v hc).1]
      exact h.result p' c v hc

end

end Targets

/-! ### The tokens -/

/-- If `c` is a child about to up the semaphore of `p`, then `p` is at `sema_down` for it. -/
def GivesToken (s : State) (p c : Tid) : Prop :=
  ∀ r, s.rel p = .live r → (s.proc p).pc.departing = false → (s.proc c).pRel = some p → (s.proc c).pc = .exitUp →
    (s.proc p).pc.atDown = some c ∧ r.pSema = 0

/-- If the semaphore of `p` is up, then `p` is at `sema_down`, and the child it waits for has upped
it. -/
def TakesToken (s : State) (p : Tid) : Prop :=
  ∀ r, s.rel p = .live r → (s.proc p).pc.departing = false → r.pSema ≠ 0 →
    r.pSema = 1 ∧ ∃ c, (s.proc p).pc.atDown = some c ∧ (s.proc c).pc.passed = true

/-- The semaphore of a parent that still waits is up only where the parent takes the token. -/
structure Tokens (s : State) : Prop where
  up : ∀ p c, GivesToken s p c
  token : ∀ p, TakesToken s p
  /-- A parent past `sema_down` was woken by the child it waits for. -/
  past : ∀ p c, (s.proc p).pc.pastDown = some c → (s.proc c).pc.recorded = true

/-- A move from `q` to `q'` that has to do with no semaphore. -/
structure Pc.Quiet (q q' : Pc) : Prop where
  /-- A record stays. -/
  recorded : q.recorded = true → q'.recorded = true
  /-- A token given stays given. -/
  passed : q.passed = true → q'.passed = true
  /-- No token is about to be given. -/
  up : q' ≠ .exitUp
  /-- No token is waited for, or it does not matter any more. -/
  down : q'.departing = true ∨ q.departing = false ∧ q.atDown = none
  /-- No token was taken. -/
  past : q'.pastDown = none

theorem Pc.Quiet.before {q q' : Pc} (hrec : q.recorded = false) (hup : q' ≠ .exitUp)
    (hdown : q'.departing = true ∨ q.departing = false ∧ q.atDown = none) (hpast : q'.pastDown = none) : q.Quiet q' where
  recorded hq := by
    rw [hrec] at hq
    cases hq
  passed hq := by
    rw [Pc.recorded_of_passed hq] at hrec
    cases hrec
  up := hup
  down := hdown
  past := hpast

namespace Tokens

variable {s : State}

section

variable (h : Tokens s)
include h

theorem sema_eq_zero (hr : s.rel p = .live r)
    (hdep : (s.proc p).pc.departing = false) (hdown : (s.proc p).pc.atDown = none) : r.pSema = 0 := by
  by_contra hne
  obtain ⟨-, c, hc, -⟩ := h.token p r hr hdep hne
  rw [hdown] at hc
  cases hc

/-- **A step of thread `x`** that changes no relation but that of `o`: only these two have to be
looked at. -/
theorem frame {s' : State} (hkeep : ∀ u, u ≠ x → s'.proc u = s.proc u) (hrel : ∀ p, p ≠ o → s'.rel p = s.rel p)
    (hpassed : (s.proc x).pc.passed = true → (s'.proc x).pc.passed = true)
    (hrecorded : (s.proc x).pc.recorded = true → (s'.proc x).pc.recorded = true)
    (hup : ∀ p c, p = x ∨ p = o ∨ c = x → GivesToken s' p c) (htoken : ∀ p, p = x ∨ p = o → TakesToken s' p)
    (hpast : ∀ c, (s'.proc x).pc.pastDown = some c → (s'.proc c).pc.recorded = true) : Tokens s' := by
  refine ⟨fun p c => ?_, fun p => ?_, fun p c hc => ?_⟩
  · by_cases hsame : p = x ∨ p = o ∨ c = x
    · exact hup p c hsame
    · obtain ⟨hpx, hother⟩ := not_or.mp hsame
      obtain ⟨hpo, hcx⟩ := not_or.mp hother
      unfold GivesToken
      rw [hrel p hpo, hkeep p hpx, hkeep c hcx]
      exact h.up p c
  · by_cases hsame : p = x ∨ p = o
    · exact htoken p hsame
    · obtain ⟨hpx, hpo⟩ := not_or.mp hsame
      unfold TakesToken
      rw [hrel p hpo, hkeep p hpx]
      intro r hr hdep hne
      obtain ⟨hone, c, hc, hpass⟩ := h.token p r hr hdep hne
      refine ⟨hone, c, hc, ?_⟩
      obtain rfl | hcx := eq_or_ne c x
      · exact hpassed hpass
      · rwa [hkeep c hcx]
  · obtain rfl | hpx := eq_or_ne p x
    · exact hpast c hc
    · rw [hkeep p hpx] at hc
      have hold := h.past p c hc
      obtain rfl | hcx := eq_or_ne c x
      · exact hrecorded hold
      · rwa [hkeep c hcx]

/-- A thread that moves without touching a semaphore. -/
theorem setProc {q : Pc} (hpc : (s.proc t).pc = q)
    (hp : pr.pRel = (s.proc t).pRel) (hq : q.Quiet pr.pc) : Tokens (s.setProc t pr) := by
  have hself := s.setProc_self t pr
  refine h.frame (x := t) (o := t) (fun u hu => s.setProc_of_ne pr hu) (fun _ _ => rfl) ?_ ?_ ?_ ?_ ?_
  · rw [hself, hpc]
    exact hq.passed
  · rw [hself, hpc]
    exact hq.recorded
  · intro p c hsame r hr hdep hc hup
    have hct : c ≠ t := by
      rintro rfl
      rw [hself] at hup
      exact hq.up hup
    obtain rfl : p = t := hsame.elim id (·.resolve_right hct)
    rw [s.setProc_of_ne pr hct] at hc hup
    rw [hself] at hdep
    obtain ⟨hd, hnone⟩ := hq.down.resolve_left (by simp [hdep])
    have hold := (h.up p c r hr (hpc ▸ hd) hc hup).1
    rw [hpc, hnone] at hold
    cases hold
  · intro p hsame r hr hdep hne
    obtain rfl : p = t := hsame.elim id id
    rw [hself] at hdep
    obtain ⟨hd, hnone⟩ := hq.down.resolve_left (by simp [hdep])
    exact absurd (h.sema_eq_zero hr (hpc ▸ hd) (hpc ▸ hnone)) hne
  · rw [hself, hq.past]
    nofun

/-- The same, for a thread that only goes on. -/
theorem goto {q q' : Pc} (hpc : (s.proc t).pc = q) (hq : q.Quiet q') : Tokens (s.goto t q') :=
  h.setProc hpc rfl hq

theorem setRel {c : Cell Relation} (hr : s.rel o = .live r)
    (hc : ∀ r', c = .live r' → r'.pSema = r.pSema) : Tokens (s.setRel o c) := by
  refine ⟨fun p d r' hr' hdep hd hup => ?_, fun p r' hr' hdep hne => ?_, h.past⟩
  · rw [State.setRel_rel] at hr'
    split_ifs at hr' with hpo
    · subst hpo
      rw [hc r' hr']
      exact h.up p d r hr hdep hd hup
    · exact h.up p d r' hr' hdep hd hup
  · rw [State.setRel_rel] at hr'
    split_ifs at hr' with hpo
    · subst hpo
      rw [hc r' hr'] at hne ⊢
      exact h.token p r hr hdep hne
    · exact h.token p r' hr' hdep hne

theorem setSh (c : Tid) (x : Cell StartProcessInfo) : Tokens (s.setSh c x) :=
  ⟨h.up, h.token, h.past⟩

theorem create (p : Tid) (awaited status : ℤ) (hok : (view s).Ok) :
    Tokens (threadCreate s p awaited status) := by
  have hpc : (s.proc s.nextTid).pc = .unborn := Pc.phase_unborn.mp (hok.unborn _ le_rfl)
  have hself := threadCreate_proc_self s p awaited status
  refine h.frame (fun u hu => threadCreate_proc_of_ne s p awaited status hu)
    (fun o ho => threadCreate_rel_of_ne s p awaited status ho) ?_ ?_ ?_ ?_ ?_
  · rw [hpc]
    nofun
  · rw [hpc]
    nofun
  · intro o c hsame r hr hdep hc hup
    have hcn : c ≠ s.nextTid := by
      rintro rfl
      rw [hself] at hup
      cases hup
    obtain rfl : o = s.nextTid := hsame.elim id (·.resolve_right hcn)
    rw [threadCreate_proc_of_ne s p awaited status hcn] at hc
    exact absurd hc (hok.next_no_child c)
  · intro o hsame r hr hdep hne
    obtain rfl : o = s.nextTid := hsame.elim id id
    rw [threadCreate_rel_self] at hr
    cases hr
    exact absurd rfl hne
  · rw [hself]
    nofun

end

variable {ret : Option ChildReturn}

theorem down (h : Tokens s) (hpc : (s.proc x).pc = .waitDown c ret) (hr : s.rel x = .live r) (h0 : 0 < r.pSema) :
    Tokens ((s.setRel x (.live { r with pSema := r.pSema - 1 })).goto x (.waitAgain c ret)) := by
  set s₁ := s.setRel x (.live { r with pSema := r.pSema - 1 })
  have hdep : (s.proc x).pc.departing = false := by rw [hpc]; rfl
  obtain ⟨hone, d, hd, hpass⟩ := h.token x r hr hdep (Nat.ne_of_gt h0)
  rw [hpc] at hd
  cases hd
  have hkeep : ∀ u, u ≠ x → (s₁.goto x (.waitAgain c ret)).proc u = s.proc u := fun _ hu => s₁.setProc_of_ne _ hu
  have hself : (s₁.goto x (.waitAgain c ret)).proc x = { s.proc x with pc := .waitAgain c ret } := s₁.setProc_self _ _
  refine h.frame (o := x) hkeep (fun p hp => s.setRel_of_ne _ hp) ?_ ?_ ?_ ?_ ?_
  · rw [hpc]
    nofun
  · rw [hpc]
    nofun
  · intro p d hsame r' hr' _ hd hup
    have hdx : d ≠ x := by
      rintro rfl
      rw [hself] at hup
      cases hup
    obtain rfl : p = x := hsame.elim id (·.resolve_right hdx)
    rw [hkeep d hdx] at hd hup
    have hzero := (h.up p d r hr hdep hd hup).2
    omega
  · intro p hsame r' hr' _ hne
    obtain rfl : p = x := hsame.elim id id
    obtain rfl : { r with pSema := r.pSema - 1 } = r' := Cell.live.inj ((s.setRel_self p _).symm.trans hr')
    exact absurd (by simp [hone]) hne
  · intro d hd
    rw [hself] at hd
    cases hd
    -- the child that gave the token is not the parent, which has not exited
    have hcx : c ≠ x := by
      rintro rfl
      rw [hpc] at hpass
      cases hpass
    rw [hkeep c hcx]
    exact Pc.recorded_of_passed hpass

/-- A child that finds its parent at `sema_down` for it, or on the way out. -/
theorem awaited (h : Tokens s) (hpc : (s.proc x).pc = .exitCompare)
    (ho : (s.proc x).pRel = some o) (hr : s.rel o = .live r)
    (hdown : (s.proc o).pc.departing = true ∨ (s.proc o).pc.atDown = some x) : Tokens (s.goto x .exitUp) := by
  have hkeep : ∀ u, u ≠ x → (s.goto x .exitUp).proc u = s.proc u := fun _ hu => s.setProc_of_ne _ hu
  have hself : (s.goto x .exitUp).proc x = { s.proc x with pc := .exitUp } := s.setProc_self _ _
  refine h.frame (o := x) hkeep (fun _ _ => rfl) ?_ ?_ ?_ ?_ ?_
  · rw [hpc]
    nofun
  · rw [hself]
    exact fun _ => rfl
  · intro p d hsame r' hr' hdep hd hup
    have hpx : p ≠ x := by
      rintro rfl
      rw [hself] at hdep
      cases hdep
    obtain rfl : d = x := (hsame.resolve_left hpx).resolve_left hpx
    rw [hself] at hd
    cases ho.symm.trans hd
    cases hr.symm.trans hr'
    rw [hkeep o hpx] at hdep ⊢
    have hat := hdown.resolve_left (by simp [hdep])
    refine ⟨hat, ?_⟩
    -- a token would be that of `d`, which has not given it
    by_contra hne
    obtain ⟨-, e, he, hpass⟩ := h.token o r hr hdep hne
    cases hat.symm.trans he
    rw [hpc] at hpass
    cases hpass
  · intro p hsame r' hr' hdep _
    obtain rfl : p = x := hsame.elim id id
    rw [hself] at hdep
    cases hdep
  · rw [hself]
    nofun

theorem give (h : Tokens s) (hpc : (s.proc x).pc = .exitUp) (ho : (s.proc x).pRel = some o) (hr : s.rel o = .live r) :
    Tokens ((s.setRel o (.live { r with pSema := r.pSema + 1 })).goto x .exitChildRel) := by
  set s₁ := s.setRel o (.live { r with pSema := r.pSema + 1 })
  have hkeep : ∀ u, u ≠ x → (s₁.goto x .exitChildRel).proc u = s.proc u := fun _ hu => s₁.setProc_of_ne _ hu
  have hself : (s₁.goto x .exitChildRel).proc x = { s.proc x with pc := .exitChildRel } := s₁.setProc_self _ _
  have hparent : ∀ {p}, ((s₁.goto x .exitChildRel).proc p).pc.departing = false → p ≠ x := by
    rintro p hdep rfl
    rw [hself] at hdep
    cases hdep
  refine h.frame hkeep (fun p hp => s.setRel_of_ne _ hp) ?_ ?_ ?_ ?_ ?_
  · rw [hself]
    exact fun _ => rfl
  · rw [hself]
    exact fun _ => rfl
  · intro p d hsame r' hr' hdep hd hup
    have hpx := hparent hdep
    have hdx : d ≠ x := by
      rintro rfl
      rw [hself] at hup
      cases hup
    obtain rfl : p = o := (hsame.resolve_left hpx).resolve_right hdx
    rw [hkeep p hpx] at hdep
    rw [hkeep d hdx] at hd hup
    have hx := (h.up p x r hr hdep ho hpc).1
    have hd' := (h.up p d r hr hdep hd hup).1
    exact absurd (Option.some.inj (hd'.symm.trans hx)) hdx
  · intro p hsame r' hr' hdep hne
    have hpx := hparent hdep
    obtain rfl : p = o := hsame.resolve_left hpx
    rw [hkeep p hpx] at hdep ⊢
    obtain rfl : { r with pSema := r.pSema + 1 } = r' := Cell.live.inj ((s.setRel_self p _).symm.trans hr')
    obtain ⟨hat, hzero⟩ := h.up p x r hr hdep ho hpc
    exact ⟨by simp [hzero], x, hat, by rw [hself]; rfl⟩
  · rw [hself]
    nofun

end Tokens

/-! ### Searching -/

theorem search_of_filter {tid : Tid} {l : List ChildReturn} {d : ChildReturn}
    (h : l.filter (fun c => c.tid = tid) = [d]) : search tid l ret = (true, some d) := by
  induction l generalizing ret with
  | nil => cases h
  | cons c l ih =>
    unfold search
    by_cases hc : c.tid = tid
    · rw [List.filter_cons_of_pos (by simpa using hc)] at h
      rw [if_pos hc, (List.cons.inj h).1]
    · rw [List.filter_cons_of_neg (by simpa using hc)] at h
      rw [if_neg hc]
      exact ih h

theorem search_mem_filter {tid : Tid} {l : List ChildReturn} {d : ChildReturn}
    (h : search tid l ret = (true, some d)) : d ∈ l.filter fun c => c.tid = tid := by
  induction l generalizing ret with
  | nil => cases h
  | cons c l ih =>
    unfold search at h
    by_cases hc : c.tid = tid
    · rw [if_pos hc] at h
      cases h
      simp [hc]
    · rw [if_neg hc] at h
      rw [List.filter_cons_of_neg (by simpa using hc)]
      exact ih h

/-! ### Runs -/

/-- The condition on a step: a child that finds itself awaited finds its parent at `sema_down` for
it, or on the way out. -/
def wakesWaiter (s : State) : Act → Bool
  | .advance c =>
    match (s.proc c).pc, (s.proc c).pRel with
    | .exitCompare, some p =>
      match s.rel p with
      | .live r => (c : ℤ) ≠ r.awaitedTid || (s.proc p).pc.departing || (s.proc p).pc.atDown = some c
      | _ => true
    | _, _ => true
  | _ => true

theorem wakesWaiter_awaited (hg : wakesWaiter s (.advance c) = true)
    (hpc : (s.proc c).pc = .exitCompare) (hp : (s.proc c).pRel = some p) (hr : s.rel p = .live r)
    (haw : (c : ℤ) = r.awaitedTid) : (s.proc p).pc.departing = true ∨ (s.proc p).pc.atDown = some c := by
  simpa [wakesWaiter, hpc, hp, hr, haw] using hg

theorem Targets.move (hok : (view s).Ok) (htok : Tokens s) (hlists : ReturnLists s) (h : Targets s)
    (hm : Move s a t) : Targets t := by
  cases hm with
  | @execute p awaited status r hpc hr =>
    obtain ⟨-, hpc'⟩ := caller_of_create hok.toLinks hpc awaited status
    exact (h.create awaited status hok).gotoIdle hpc' id rfl
  | executeFail _ | refuse _ _ => exact h
  | load hpc _ | signal hpc _ | execDown hpc _ _ | execFailed hpc _ _ => exact (h.setSh _ _).gotoIdle hpc id rfl
  | @wait p c r hpc hc hr =>
    refine (h.setRel _ _).setProc hpc rfl (fun hq => ?_) ?_ ?_ (h.result p)
    · cases hq
    · exact fun d hd => h.own p d (List.mem_of_mem_erase hd)
    · intro d hd
      cases hd
      exact h.own p c hc
  | exit hpc _ => exact h.setIdle hpc rfl rfl (h.own _) rfl (h.result _)
  | increment hpc _ _ | up hpc _ _ | leaveOwn hpc _ | leaveParent hpc _ _ => exact (h.setRel _ _).gotoIdle hpc id rfl
  | signalFailed hpc _ => exact (h.setSh _ _).setIdle hpc rfl rfl (h.own _) rfl (h.result _)
  | @execDone x child y hpc _ _ =>
    have hchild : (s.proc child).pRel = some x :=
      (hok.expected x child (by rw [view_phase hpc]; simp [Pc.phase, Phase.expects])).1
    refine (h.setSh child _).setIdle hpc rfl rfl (fun c hc => ?_) rfl (h.result x)
    rcases List.mem_append.mp hc with hc | hc
    · exact h.own x c hc
    · rw [List.mem_singleton.mp hc]
      exact hchild
  | waitNone hpc _ _ | waitSome hpc _ _ | waitMissed hpc _ _ =>
    exact h.goto hpc id fun c hc => h.target _ c (by rw [hpc]; exact hc)
  | @waitFound x tid r c hpc hr hs =>
    have hmem := search_mem_filter hs
    rw [hlists.list x r tid hr] at hmem
    refine h.setIdle hpc rfl rfl (h.own x) rfl fun d v hd => ?_
    cases hd
    split_ifs at hmem with hrec
    · rw [List.mem_singleton.mp hmem]
      exact ⟨hrec.1, hrec.2, rfl⟩
    · cases hmem
  | waitDown hpc _ _ => exact (h.setRel _ _).goto hpc id fun c hc => h.target _ c (by rw [hpc]; exact hc)
  | @waitAgain x tid r ret c hpc hr hs =>
    -- the child has been recorded, so that the second search finds it
    have htid := h.target x tid (by rw [hpc]; rfl)
    have hrec := htok.past x tid (by rw [hpc]; rfl)
    rw [search_of_filter (hlists.list_of_recorded hr htid hrec)] at hs
    cases hs
    refine h.setIdle hpc rfl rfl (h.own x) rfl fun d v hd => ?_
    cases hd
    exact ⟨htid, hrec, rfl⟩
  | append hpc _ _ _ => exact (h.setRel _ _).gotoIdle hpc (fun _ => rfl) rfl
  | @orphan x o r _ _ hr hna =>
    rw [hlists.alive o r hr] at hna
    cases hna
  | awaited hpc _ _ _ | unawaited hpc _ _ _ => exact h.gotoIdle hpc id rfl

theorem Records.move (hok : (view s).Ok) (htok : Tokens s) (h : Records s) (hm : Move s a t) : Records t :=
  ⟨h.toReturnLists.move hok hm, Targets.move hok htok h.toReturnLists h.toTargets hm⟩

theorem Tokens.move (hok : (view s).Ok) (hrec : Records s) (h : Tokens s)
    (hg : wakesWaiter s a = true) (hm : Move s a t) : Tokens t := by
  cases hm with
  | @execute p awaited status r hpc hr =>
    obtain ⟨-, hpc'⟩ := caller_of_create hok.toLinks hpc awaited status
    exact (h.create p awaited status hok).goto hpc' (.before rfl (by simp) (.inr ⟨rfl, rfl⟩) rfl)
  | executeFail _ | refuse _ _ => exact h
  | load hpc _ | signal hpc _ | execDown hpc _ _ | execFailed hpc _ _ =>
    exact (h.setSh _ _).goto hpc (.before rfl (by simp) (.inr ⟨rfl, rfl⟩) rfl)
  | wait hpc _ hr =>
    exact (h.setRel hr fun r' hr' => by cases hr'; rfl).setProc hpc rfl (.before rfl (by simp) (.inr ⟨rfl, rfl⟩) rfl)
  | exit hpc _ => exact h.setProc hpc rfl (.before rfl (by simp) (.inl rfl) rfl)
  | increment hpc _ hr =>
    exact (h.setRel hr fun r' hr' => by cases hr'; rfl).goto hpc (.before rfl (by simp) (.inr ⟨rfl, rfl⟩) rfl)
  | signalFailed hpc _ => exact (h.setSh _ _).setProc hpc rfl (.before rfl (by simp) (.inl rfl) rfl)
  | execDone hpc _ _ => exact (h.setSh _ _).setProc hpc rfl (.before rfl (by simp) (.inr ⟨rfl, rfl⟩) rfl)
  | waitNone hpc _ _ | waitSome hpc _ _ | waitMissed hpc _ _ =>
    exact h.goto hpc (.before rfl (by simp) (.inr ⟨rfl, rfl⟩) rfl)
  | waitFound hpc _ _ | waitAgain hpc _ _ => exact h.setProc hpc rfl (.before rfl (by simp) (.inr ⟨rfl, rfl⟩) rfl)
  | waitDown hpc hr h0 => exact h.down hpc hr h0
  | append hpc _ hr _ =>
    exact (h.setRel hr fun r' hr' => by cases hr'; rfl).goto hpc (.before rfl (by simp) (.inl rfl) rfl)
  | @orphan x o r _ _ hr hna =>
    rw [hrec.alive o r hr] at hna
    cases hna
  | @awaited x o r hpc ho hr haw => exact h.awaited hpc ho hr (wakesWaiter_awaited hg hpc ho hr haw)
  | unawaited hpc _ _ _ => exact h.goto hpc ⟨fun _ => rfl, fun _ => rfl, by simp, .inl rfl, rfl⟩
  | up hpc ho hr => exact h.give hpc ho hr
  | leaveOwn hpc hr | leaveParent hpc _ hr =>
    exact (h.setRel hr fun r' hr' => (release_keeps hr').2.2).goto hpc
      ⟨fun _ => rfl, fun _ => rfl, by simp, .inl rfl, rfl⟩

theorem records_initial (awaited : ℤ) : Records (initial awaited) := by
  have hproc : ∀ t, (initial awaited).proc t =
      { pRel := none, pc := if t = 1 then .run else .unborn, childrenTids := [], retStatus := 0, waited := none } :=
    fun t => by by_cases ht : t = 1 <;> simp [initial, ht]
  have hrel : ∀ o r, (initial awaited).rel o = .live r → r = newRelation awaited := fun o r hr => by
    by_cases ho : o = 1
    · rw [ho] at hr
      exact (Cell.live.inj hr).symm
    · simp [initial, ho] at hr
  refine ⟨⟨fun o r hr => ?_, fun o r t hr => ?_⟩, fun p c hc => ?_, fun p c hc => ?_, fun p c v hc => ?_⟩
  · rw [hrel o r hr]
    rfl
  · rw [hrel o r hr, hproc, if_neg (by simp)]
    rfl
  · rw [hproc] at hc
    cases hc
  · rw [hproc] at hc
    by_cases hp : p = 1 <;> simp [hp, Pc.waitsFor] at hc
  · rw [hproc] at hc
    cases hc

theorem returnLists_of_reach (h : processes.Reach s) : ReturnLists s := by
  induction h with
  | init hs =>
    obtain ⟨awaited, rfl⟩ := hs
    exact (records_initial awaited).toReturnLists
  | step hs hst ih => exact ih.move (ok_of_reach hs) (step_move hst)

theorem tokens_initial (awaited : ℤ) : Tokens (initial awaited) := by
  have hparent : ∀ t, ((initial awaited).proc t).pRel = none := fun t => by
    by_cases ht : t = 1 <;> simp [initial, ht]
  refine ⟨fun p c r _ _ hc _ => ?_, fun p r hr _ hne => ?_, fun p c hc => ?_⟩
  · rw [hparent] at hc
    cases hc
  · by_cases hp : p = 1
    · rw [hp] at hr
      cases hr
      exact absurd rfl hne
    · simp [initial, hp] at hr
  · by_cases hp : p = 1 <;> simp [initial, hp, Pc.pastDown] at hc

/-- The invariants hold in every run that satisfies the condition. -/
theorem records_tokens_of_reach (h : (processes.guard wakesWaiter).Reach s) : Records s ∧ Tokens s := by
  induction h with
  | init hs =>
    obtain ⟨awaited, rfl⟩ := hs
    exact ⟨records_initial awaited, tokens_initial awaited⟩
  | step hs hst ih =>
    obtain ⟨hg, hst⟩ := System.guard_step_eq_next.mp hst
    have hok := ok_of_reach hs.of_guard
    have hm := step_move hst
    exact ⟨ih.1.move hok ih.2 hm, ih.2.move hok ih.1 hg hm⟩

/-- **A wait returns the status of its child**, in every run in which a child that finds itself
awaited finds its parent at `sema_down` for it, or on the way out: when `process_wait` has
returned `v` for `t`, then `t` is a child of `p` that has recorded its exit, once, with `v`. -/
theorem wait_returns_status (s : State) (h : (processes.guard wakesWaiter).Reach s) (p t : Tid) (v : ℤ)
    (hpc : (s.proc p).pc = .run) (hw : (s.proc p).waited = some (t, v)) :
    (s.proc t).pRel = some p ∧
      ∃ r, s.rel p = .live r ∧ r.returnList.filter (fun c => c.tid = t) = [⟨t, v⟩] := by
  have hrec := (records_tokens_of_reach h).1
  obtain ⟨ho, hrecorded, hstatus⟩ := hrec.result p t v hw
  obtain ⟨r, hr⟩ := own_live (ok_of_reach h.of_guard) hpc rfl
  refine ⟨ho, r, hr, ?_⟩
  rw [hrec.list_of_recorded hr ho hrecorded, hstatus]

/-- The actions with which the initial thread executes a program that loads, as process `c`. -/
def executeOk (c : Tid) : List Act :=
  [.execute 1 0 0, .load c true, .advance c, .advance c, .advance 1, .advance 1]

/-- A child that exits with `7` while its parent sleeps. -/
theorem wait_returns_status_sleeping :
    ∃ s r, (processes.guard wakesWaiter).Reach s ∧ (s.proc 1).waited = some (3, 7) ∧ s.rel 1 = .live r ∧
      r.returnList.filter (fun c => c.tid = 3) = [⟨3, 7⟩] := by
  have hrun : ∃ s, (processes.guard wakesWaiter).replay (initial 0)
      (executeOk 3 ++ [.wait 1 3, .advance 1, .exit 3 7, .advance 3, .advance 3, .advance 3, .advance 1, .advance 1]) =
        .next s ∧ (s.proc 1).pc = .run ∧ (s.proc 1).waited = some (3, 7) := ⟨_, rfl, rfl, rfl⟩
  obtain ⟨s, hs, hpc, hw⟩ := hrun
  have hinit : (processes.guard wakesWaiter).Reach (initial 0) := .init ⟨0, rfl⟩
  obtain ⟨-, r, hr, hlist⟩ := wait_returns_status s (hinit.replay hs) 1 3 7 hpc hw
  exact ⟨s, r, hinit.replay hs, hw, hr, hlist⟩

/-- **A wait may return the status of another child.** The initial thread waits for `3`, which
appends its record; the search finds it, and only then does `3` compare its tid with `awaited_tid`
and up the semaphore. The wait for `4` takes that token and returns the status of `3`, while `4`
has not exited and has no record. -/
theorem wait_returns_wrong_status :
    ∃ s r, processes.Reach s ∧ (s.proc 1).pc = .run ∧ (s.proc 1).waited = some (4, 7) ∧
      (s.proc 4).pc = .run ∧ (s.proc 4).pRel = some 1 ∧
      s.rel 1 = .live r ∧ r.returnList.filter (fun c => c.tid = 4) = [] := by
  have hrun : ∃ s r, processes.replay (initial 0)
      (executeOk 3 ++ executeOk 4 ++
        [.wait 1 3, .exit 3 7, .advance 3, .advance 1, .advance 1, .advance 3, .advance 3,
          .wait 1 4, .advance 1, .advance 1, .advance 1, .advance 1]) = .next s ∧
      (s.proc 1).pc = .run ∧ (s.proc 1).waited = some (4, 7) ∧ (s.proc 4).pc = .run ∧
      (s.proc 4).pRel = some 1 ∧ s.rel 1 = .live r ∧ r.returnList.filter (fun c => c.tid = 4) = [] :=
    ⟨_, _, rfl, rfl, rfl, rfl, rfl, rfl, rfl⟩
  obtain ⟨s, r, hs, hend⟩ := hrun
  have hinit : processes.Reach (initial 0) := .init ⟨0, rfl⟩
  exact ⟨s, r, hinit.replay hs, hend⟩

end Pintos.Userprog
