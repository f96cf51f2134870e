import Pintos.Basis.History
import Pintos.Userprog.Wait

/-!
# Who can be waited for

`process_wait` first looks for its argument in `children_tids` of the calling process. If it is
not there it returns -1 at once; otherwise the entry is removed. (The test also asks whether the
name of the thread is `"main"`, but compares two addresses that always differ.) `process_execute`
adds the entry when the load has succeeded.

Here the runs of the process tree are logged: which tids `process_execute` has returned, and
which calls of `process_wait` passed the check or were refused. **`waitable_once`** says that
the check is passed once for each tid, by the process that has executed it, and that every other
call returns -1 and leaves everything as it was.
-/

namespace Pintos.Userprog

open Function

/-- The waitable check of `process_wait`: the entry that is found, or what is returned at once. -/
def waitCheck (s : State) (p : Tid) (tid : ℤ) : Except ℤ Tid :=
  match (s.proc p).childrenTids.find? fun (c : Tid) => decide ((c : ℤ) = tid) with
  | none => .error (-1)
  | some c => .ok c

/-- What is logged. -/
inductive WaitEvent where
  /-- `process_execute` in `p` returns `c`. -/
  | executed (p c : Tid)
  /-- `process_wait (c)` in `p` passes the check. -/
  | passed (p c : Tid)
  /-- `process_wait (tid)` in `p` returns a value at once. -/
  | refused (p : Tid) (tid value : ℤ)
  deriving DecidableEq

/-- A call passes the check for `c`. -/
def WaitEvent.passes (c : Tid) : WaitEvent → Bool
  | .passed _ c' => decide (c' = c)
  | _ => false

/-- What an action logs. -/
def waitEvents (s : State) : Act → List WaitEvent
  | .wait p tid =>
    match waitCheck s p tid with
    | .ok c => [.passed p c]
    | .error v => [.refused p tid v]
  | .advance t =>
    match (s.proc t).pc with
    | .execStatus child =>
      match s.sh child with
      | .live x => if x.cStatus = TID_ERROR then [] else [.executed t child]
      | _ => []
    | _ => []
  | _ => []

/-- The process tree with a log. -/
def loggedProcesses : System (State × List WaitEvent) Act where
  init s := processes.init s.1 ∧ s.2 = []
  step s a := (processes.step s.1 a).map fun t => (t, s.2 ++ waitEvents s.1 a)

variable {s : State}

theorem loggedProcesses_step_eq_next {t : State} {l l' : List WaitEvent} {a : Act} :
    loggedProcesses.step (s, l) a = .next (t, l') ↔ processes.step s a = .next t ∧ l' = l ++ waitEvents s a := by
  refine Outcome.map_eq_next.trans ?_
  constructor
  · rintro ⟨u, hu, heq⟩
    cases heq
    exact ⟨hu, rfl⟩
  · rintro ⟨ht, rfl⟩
    exact ⟨t, ht, rfl⟩

/-! ### The check -/

theorem waitCheck_eq_ok {p c : Tid} {tid : ℤ} : waitCheck s p tid = .ok c ↔ tid = c ∧ c ∈ (s.proc p).childrenTids := by
  unfold waitCheck
  cases hfind : (s.proc p).childrenTids.find? fun (c : Tid) => decide ((c : ℤ) = tid) with
  | none =>
    have hnone := List.find?_eq_none.mp hfind
    simp only [reduceCtorEq, false_iff, not_and]
    rintro rfl hc
    exact hnone c hc (by simp)
  | some d =>
    have hd : (d : ℤ) = tid := by simpa using List.find?_some hfind
    have hmem := List.mem_of_find?_eq_some hfind
    simp only [Except.ok.injEq]
    constructor
    · rintro rfl
      exact ⟨hd.symm, hmem⟩
    · rintro ⟨rfl, -⟩
      exact Int.ofNat_inj.mp hd

/-- A call that does not pass the check returns -1, and nothing changes. -/
theorem waitCheck_refused {p : Tid} {tid : ℤ} (hpc : (s.proc p).pc = .run) (h : ∀ c, waitCheck s p tid ≠ .ok c) :
    waitCheck s p tid = .error (-1) ∧ processes.step s (.wait p tid) = .next s := by
  unfold waitCheck at h ⊢
  simp only [processes, step, if_pos hpc, processWait]
  cases hfind : (s.proc p).childrenTids.find? fun (c : Tid) => decide ((c : ℤ) = tid) with
  | none => exact ⟨rfl, rfl⟩
  | some c =>
    rw [hfind] at h
    exact absurd rfl (h c)

/-! ### The law -/

variable {x : Tid}

/-- An update that keeps `p_rel` keeps it for every thread. -/
theorem setProc_pRel {pr : Proc} (hpRel : pr.pRel = (s.proc x).pRel) (q : Tid) :
    ((s.setProc x pr).proc q).pRel = (s.proc q).pRel := by
  rw [State.setProc_proc]
  split
  · rename_i hq
    rw [hq, hpRel]
  · rfl

/-- The log says who can be waited for. -/
structure WaitLaw (s : State) (log : List WaitEvent) : Prop where
  /-- What a process has executed is a child of it, and has been taken over. -/
  executed : ∀ p c, .executed p c ∈ log → (s.proc c).pRel = some p ∧ s.sh c = .freed
  /-- The entries are the children that were executed and not yet waited for. -/
  children : ∀ p c, c ∈ (s.proc p).childrenTids ↔ .executed p c ∈ log ∧ ∀ q, .passed q c ∉ log
  /-- There is one entry for a child. -/
  nodup : ∀ p, (s.proc p).childrenTids.Nodup
  /-- The check was passed once at most. -/
  once : ∀ c, log.countP (·.passes c) ≤ 1
  /-- It was passed after the execute. -/
  before : Lawful (fun past e => ∀ p c, e = .passed p c → .executed p c ∈ past) log

namespace WaitLaw

variable {s t : State} {log : List WaitEvent}

section

variable (h : WaitLaw s log)
include h

theorem keep (hchildren : ∀ q, (t.proc q).childrenTids = (s.proc q).childrenTids)
    (hpRel : ∀ q, (t.proc q).pRel = (s.proc q).pRel) (hsh : ∀ c, s.sh c = .freed → t.sh c = .freed) :
    WaitLaw t log := by
  refine ⟨?_, ?_, ?_, h.once, h.before⟩
  · intro p c hc
    obtain ⟨hp, hfreed⟩ := h.executed p c hc
    exact ⟨(hpRel c).trans hp, hsh c hfreed⟩
  · intro p c
    rw [hchildren]
    exact h.children p c
  · intro p
    rw [hchildren]
    exact h.nodup p

theorem setProc {pr : Proc} (hchildren : pr.childrenTids = (s.proc x).childrenTids)
    (hpRel : pr.pRel = (s.proc x).pRel) : WaitLaw (s.setProc x pr) log := by
  apply h.keep
  · intro q
    rw [State.setProc_proc]
    split
    · rename_i hq
      rw [hq, hchildren]
    · rfl
  · exact setProc_pRel hpRel
  · intro c hc
    exact hc

theorem goto (x : Tid) (pc : Pc) : WaitLaw (s.goto x pc) log := h.setProc rfl rfl

theorem setRel (o : Tid) (c : Cell Relation) : WaitLaw (s.setRel o c) log :=
  h.keep (fun _ => rfl) (fun _ => rfl) fun _ hc => hc

theorem setSh {c : Tid} {x : StartProcessInfo} (hx : s.sh c = .live x) (y : Cell StartProcessInfo) :
    WaitLaw (s.setSh c y) log := by
  refine h.keep (fun _ => rfl) (fun _ => rfl) ?_
  intro d hd
  have hne : d ≠ c := by
    rintro rfl
    rw [hx] at hd
    cases hd
  exact (update_of_ne hne _ _).trans hd

theorem create (hlinks : (view s).Links) (p : Tid) (awaited status : ℤ) :
    WaitLaw (threadCreate s p awaited status) log := by
  have hnext : ∀ q, .executed q s.nextTid ∉ log := fun q hq => hlinks.next_no_parent q (h.executed q _ hq).1
  have hempty : (s.proc s.nextTid).childrenTids = [] := by
    apply List.eq_nil_iff_forall_not_mem.mpr
    intro c hc
    exact hlinks.next_no_child c (h.executed _ c ((h.children _ c).mp hc).1).1
  have hchildren : ∀ q, ((threadCreate s p awaited status).proc q).childrenTids = (s.proc q).childrenTids := by
    intro q
    by_cases hq : q = s.nextTid
    · rw [hq, threadCreate_proc_self, hempty]
    · rw [threadCreate_proc_of_ne _ _ _ _ hq]
  refine ⟨?_, ?_, ?_, h.once, h.before⟩
  · intro q c hc
    have hne : c ≠ s.nextTid := by
      rintro rfl
      exact hnext q hc
    obtain ⟨hq, hfreed⟩ := h.executed q c hc
    rw [threadCreate_proc_of_ne _ _ _ _ hne]
    exact ⟨hq, (update_of_ne hne _ _).trans hfreed⟩
  · intro q c
    rw [hchildren]
    exact h.children q c
  · intro q
    rw [hchildren]
    exact h.nodup q

theorem executed_of_passed {p c : Tid} (hc : .passed p c ∈ log) : .executed p c ∈ log := by
  obtain ⟨past, rest, rfl, hpast⟩ := h.before.of_mem hc
  exact List.mem_append_left _ (hpast p c rfl)

theorem refuse (p : Tid) (tid v : ℤ) : WaitLaw s (log ++ [.refused p tid v]) := by
  refine ⟨?_, ?_, h.nodup, ?_, h.before.append fun q c hq => by cases hq⟩
  · intro q c hc
    exact h.executed q c (by simpa using hc)
  · intro q c
    simpa using h.children q c
  · intro c
    simpa [WaitEvent.passes] using h.once c

theorem done {p c : Tid} {x : StartProcessInfo} (hp : (s.proc c).pRel = some p)
    (hx : s.sh c = .live x) :
    WaitLaw ((s.setSh c .freed).setProc p
      { s.proc p with pc := .run, childrenTids := (s.proc p).childrenTids ++ [c] }) (log ++ [.executed p c]) := by
  -- the info of the child is live, so nobody has taken it over
  have hnew : ∀ q, .executed q c ∉ log := by
    intro q hq
    have hfreed := (h.executed q c hq).2
    rw [hx] at hfreed
    cases hfreed
  have hunpassed : ∀ q, .passed q c ∉ log := fun q hq => hnew q (h.executed_of_passed hq)
  refine ⟨?_, ?_, ?_, ?_, h.before.append fun q d hq => by cases hq⟩
  · intro q d hd
    rcases List.mem_append.mp hd with hlog | hlast
    · obtain ⟨hq, hfreed⟩ := h.executed q d hlog
      have hne : d ≠ c := by
        rintro rfl
        exact hnew q hlog
      exact ⟨(setProc_pRel (by rfl) d).trans hq, (update_of_ne hne _ _).trans hfreed⟩
    · cases List.mem_singleton.mp hlast
      exact ⟨(setProc_pRel (by rfl) c).trans hp, update_self _ _ _⟩
  · intro q d
    obtain rfl | hq := eq_or_ne q p
    · by_cases hd : d = c
      · subst hd
        simpa using hunpassed
      · simpa [hd] using h.children q d
    · rw [State.setProc_of_ne _ _ hq]
      have hother := h.children q d
      simp only [List.mem_append, List.mem_singleton, WaitEvent.executed.injEq, hq, false_and, or_false, reduceCtorEq]
      exact hother
  · refine (forall_update_iff s.proc fun _ pr => pr.childrenTids.Nodup).mpr ⟨?_, fun q _ => h.nodup q⟩
    have hc : c ∉ (s.proc p).childrenTids := fun hc => hnew p ((h.children p c).mp hc).1
    exact List.nodup_append.mpr ⟨h.nodup p, List.nodup_singleton c, by grind⟩
  · intro d
    simpa [WaitEvent.passes] using h.once d

theorem pass {p c : Tid} (hc : c ∈ (s.proc p).childrenTids) :
    WaitLaw (s.setProc p { s.proc p with pc := .waitEmpty c, childrenTids := (s.proc p).childrenTids.erase c })
      (log ++ [.passed p c]) := by
  obtain ⟨hexecuted, hunpassed⟩ := (h.children p c).mp hc
  refine ⟨?_, ?_, ?_, ?_, h.before.append fun q d hq => by cases hq; exact hexecuted⟩
  · intro q d hd
    obtain ⟨hq, hfreed⟩ := h.executed q d (by simpa using hd)
    exact ⟨(setProc_pRel (by rfl) d).trans hq, hfreed⟩
  · intro q d
    obtain rfl | hq := eq_or_ne q p
    · rw [State.setProc_self]
      rw [(h.nodup q).mem_erase_iff, h.children q d]
      grind
    · rw [State.setProc_of_ne _ _ hq, h.children q d]
      have hne : .executed q d ∈ log → d ≠ c := by
        rintro hd rfl
        have hparent := (h.executed q d hd).1.symm.trans (h.executed p d hexecuted).1
        exact hq (Option.some.inj hparent)
      grind
  · refine (forall_update_iff s.proc fun _ pr => pr.childrenTids.Nodup).mpr ⟨?_, fun q _ => h.nodup q⟩
    exact (h.nodup p).erase c
  · intro d
    rw [List.countP_append]
    obtain rfl | hd := eq_or_ne c d
    · have hzero : log.countP (·.passes c) = 0 := by
        apply List.countP_eq_zero.mpr
        rintro (_ | ⟨q, d⟩ | _) he hpass
        · cases hpass
        · cases of_decide_eq_true hpass
          exact hunpassed q he
        · cases hpass
      rw [hzero, List.countP_singleton]
      split
      · rfl
      · exact Nat.zero_le 1
    · simpa [WaitEvent.passes, hd] using h.once d

end

/-- Only the end of `process_execute` is logged of the steps inside a function. -/
theorem quiet {pc : Pc} (hpc : (s.proc x).pc = pc) (hne : ∀ child, pc ≠ .execStatus child)
    (h : WaitLaw t log) : WaitLaw t (log ++ waitEvents s (.advance x)) := by
  have hnone : waitEvents s (.advance x) = [] := by
    unfold waitEvents
    dsimp only
    split
    · rename_i child hchild
      exact absurd (hpc.symm.trans hchild) (hne child)
    · rfl
  rw [hnone, List.append_nil]
  exact h

theorem move (hlinks : (view s).Links) (h : WaitLaw s log) {a : Act} (hm : Move s a t) :
    WaitLaw t (log ++ waitEvents s a) := by
  cases hm with
  | execute _ _ =>
    rw [show waitEvents s (.execute _ _ _) = [] from rfl, List.append_nil]
    exact (h.create hlinks _ _ _).goto _ _
  | executeFail _ =>
    rw [show waitEvents s (.executeFail _) = [] from rfl, List.append_nil]
    exact h
  | load _ hx =>
    rw [show waitEvents s (.load _ _) = [] from rfl, List.append_nil]
    exact (h.setSh hx _).goto _ _
  | @refuse p tid hpc hno =>
    have hcheck := (@waitCheck_refused s p tid hpc fun c hc => by
      obtain ⟨htid, hmem⟩ := waitCheck_eq_ok.mp hc
      exact hno c hmem htid.symm).1
    simp only [waitEvents, hcheck]
    exact h.refuse p tid _
  | @wait p c r hpc hc hr =>
    have hcheck : waitCheck s p c = .ok c := waitCheck_eq_ok.mpr ⟨rfl, hc⟩
    simp only [waitEvents, hcheck]
    exact (h.setRel p _).pass hc
  | exit _ _ =>
    rw [show waitEvents s (.exit _ _) = [] from rfl, List.append_nil]
    exact h.setProc rfl rfl
  | increment hpc _ _ | waitDown hpc _ _ | append hpc _ _ _ | up hpc _ _ | leaveOwn hpc _ | leaveParent hpc _ _ =>
    exact quiet hpc (by simp) ((h.setRel _ _).goto _ _)
  | signal hpc hx | execDown hpc hx _ => exact quiet hpc (by simp) ((h.setSh hx _).goto _ _)
  | signalFailed hpc hx => exact quiet hpc (by simp) ((h.setSh hx _).setProc rfl rfl)
  | @execFailed p c x hpc hx hstatus =>
    simp only [waitEvents, hpc, hx, if_pos hstatus, List.append_nil]
    exact (h.setSh hx _).goto _ _
  | @execDone p c x hpc hx hstatus =>
    simp only [waitEvents, hpc, hx, if_neg hstatus]
    exact h.done (hlinks.expected p c (by rw [view_phase hpc]; simp [Pc.phase, Phase.expects])).1 hx
  | waitNone hpc _ _ | waitSome hpc _ _ | waitMissed hpc _ _ | orphan hpc _ _ _ | awaited hpc _ _ _
  | unawaited hpc _ _ _ => exact quiet hpc (by simp) (h.goto _ _)
  | waitFound hpc _ _ | waitAgain hpc _ _ => exact quiet hpc (by simp) (h.setProc rfl rfl)

end WaitLaw

theorem waitLaw_initial (awaited : ℤ) : WaitLaw (initial awaited) [] := by
  have hnone : ∀ p, ((initial awaited).proc p).childrenTids = [] := by
    intro p
    by_cases hp : p = 1 <;> simp [initial, hp]
  refine ⟨by simp, ?_, ?_, by simp, Lawful.nil⟩
  · simp [hnone]
  · simp [hnone]

theorem waitLaw_of_reach {log : List WaitEvent} (h : loggedProcesses.Reach (s, log)) :
    processes.Reach s ∧ WaitLaw s log := by
  generalize hsl : (s, log) = sl at h
  induction h generalizing s log with
  | init hs =>
    subst hsl
    obtain ⟨⟨awaited, rfl⟩, rfl⟩ := hs
    exact ⟨.init ⟨awaited, rfl⟩, waitLaw_initial awaited⟩
  | @step sl _ a _ hst ih =>
    subst hsl
    obtain ⟨hstep, rfl⟩ := loggedProcesses_step_eq_next.mp hst
    obtain ⟨hreach, hlaw⟩ := ih rfl
    exact ⟨hreach.step hstep, hlaw.move (ok_of_reach hreach).toLinks (step_move hstep)⟩

/-- **Each child can be waited for once, by its parent.** In every run a tid passes the check of
`process_wait` at most once, after a `process_execute` in the same process has returned it. A
call by a process passes if and only if that process has executed the tid and it was not waited
for before; any other call returns -1 and leaves the whole state as it was. -/
theorem waitable_once (s : State) (log : List WaitEvent) (h : loggedProcesses.Reach (s, log)) :
    (∀ c, log.countP (·.passes c) ≤ 1) ∧
      (∀ l₁ l₂ p c, log = l₁ ++ .passed p c :: l₂ → .executed p c ∈ l₁) ∧
      (∀ p q c, .executed p c ∈ log → .executed q c ∈ log → p = q) ∧
      ∀ p tid, (s.proc p).pc = .run →
        (∀ c, waitCheck s p tid = .ok c ↔ tid = c ∧ .executed p c ∈ log ∧ ∀ q, .passed q c ∉ log) ∧
        ((∀ c : Tid, tid = c → .executed p c ∈ log → ∃ q, .passed q c ∈ log) →
          waitCheck s p tid = .error (-1) ∧ loggedProcesses.step (s, log) (.wait p tid) =
            .next (s, log ++ [.refused p tid (-1)])) := by
  have hlaw := (waitLaw_of_reach h).2
  have hcheck : ∀ p (tid : ℤ) c,
      waitCheck s p tid = .ok c ↔ tid = c ∧ .executed p c ∈ log ∧ ∀ q, .passed q c ∉ log := by
    intro p tid c
    rw [waitCheck_eq_ok, hlaw.children p c]
  refine ⟨hlaw.once, ?_, ?_, ?_⟩
  · intro l₁ l₂ p c hlog
    exact hlaw.before l₁ _ l₂ hlog p c rfl
  · intro p q c hp hq
    exact Option.some.inj ((hlaw.executed p c hp).1.symm.trans (hlaw.executed q c hq).1)
  · intro p tid hpc
    refine ⟨hcheck p tid, ?_⟩
    intro hother
    obtain ⟨herror, hstep⟩ := @waitCheck_refused s p tid hpc fun c hc => by
      obtain ⟨htid, hexecuted, hunpassed⟩ := (hcheck p tid c).mp hc
      obtain ⟨q, hq⟩ := hother c htid hexecuted
      exact hunpassed q hq
    refine ⟨herror, loggedProcesses_step_eq_next.mpr ⟨hstep, ?_⟩⟩
    simp only [waitEvents, herror]

/-- A child that has been waited for: the second call is refused. -/
theorem waitable_once_twice :
    ∃ s, loggedProcesses.Reach (s, [.executed 1 3, .passed 1 3]) ∧ (s.proc 1).pc = .run ∧
      waitCheck s 1 3 = .error (-1) := by
  have hrun : ∃ s, loggedProcesses.replay (initial 0, [])
      (executeOk 3 ++ [.wait 1 3, .advance 1, .exit 3 7, .advance 3, .advance 3, .advance 3, .advance 1, .advance 1]) =
        .next (s, [.executed 1 3, .passed 1 3]) ∧ (s.proc 1).pc = .run := ⟨_, rfl, rfl⟩
  obtain ⟨s, hs, hpc⟩ := hrun
  have hreach := (System.Reach.init ⟨⟨0, rfl⟩, rfl⟩ : loggedProcesses.Reach (initial 0, [])).replay hs
  obtain ⟨-, -, -, hcall⟩ := waitable_once s _ hreach
  refine ⟨s, hreach, hpc, ((hcall 1 3 hpc).2 ?_).1⟩
  intro c hc _
  exact ⟨1, by simp [← Int.ofNat_inj.mp hc]⟩

end Pintos.Userprog
