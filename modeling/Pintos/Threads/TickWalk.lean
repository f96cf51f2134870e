import Pintos.Lib.KernelList
import Pintos.Threads.ThreadLists

/-!
# The walk of `thread_tick` over the links of `waiting_list`

`thread_tick` goes through `waiting_list` with `list_next`, and takes threads off the list on its
way: it goes on from an element that it has just removed, by the links that `list_remove` has left
in it. `Pintos.Threads.Thread` has the walk as one over a sequence of threads; here it is one over
the links.

A thread has two elements, one for `ready_list` and one for `waiting_list`. `Linked` says that links
and states are those of a `Kernel`. **`tick_walk`**: in every state that the kernel can reach, at
any tick, the walk over the links comes to its end without a failed assertion, and makes ready the
threads that are due, in their order.
-/

namespace Pintos.Threads.TickWalk

open Function Lib.KernelList Program

/-- What is linked: the ends of the two lists, and the two elements of a thread. -/
inductive Node where
  | readyHead
  | readyTail
  | waitingHead
  | waitingTail
  /-- `t->elem`. -/
  | elem (t : ℕ)
  /-- `t->waiting_elem`. -/
  | waitingElem (t : ℕ)
  deriving DecidableEq

/-- The two lists: `waiting_list`, or else `ready_list`. -/
def ends : Bool → Sentinels Node
  | false => ⟨.readyHead, .readyTail⟩
  | true => ⟨.waitingHead, .waitingTail⟩

/-- The part of the memory that the walk is about. -/
structure State where
  links : Links Node
  status : ℕ → Option ThreadStatus

abbrev Walk := Program State Fault

/-- A function of `list.c`. -/
def onLinks {α : Type} (f : Elems Node α) : Walk α := fun s =>
  match f s.links with
  | .ok (a, links) => .ok (a, { s with links := links })
  | .error e => .error e

def threadUnblock (t : ℕ) : Walk Unit := do
  if (← get).status t = some .blocked then
    onLinks (listPushBack (ends false) (some (.elem t)))
    modify fun s => { s with status := update s.status t (some .ready) }
  else throw .assertion

/-- What the walk does when the thread of an element is due. -/
def wake (e : Option Node) (t : ℕ) : Walk Unit := do
  let prev ← onLinks (read .prev e)
  let next ← onLinks (read .next e)
  if prev ≠ none ∧ next ≠ none then
    threadUnblock t
    let _ ← onLinks (listRemove e)

/-- The loop of `thread_tick`. -/
def tickLoop (wakeTick : ℕ → ℤ) (ticks : ℤ) : (fuel : ℕ) → (e : Option Node) → Walk Unit
  | 0, _ => throw .diverges
  | fuel + 1, e =>
    if e = listEnd (ends true) then return ()
    else
      match e with
      | some (.waitingElem t) => do
        if wakeTick t ≤ ticks then wake e t
        tickLoop wakeTick ticks fuel (← onLinks (listNext e))
      -- not the `waiting_elem` of a thread
      | _ => throw .nullPointer

/-- The walk, from `list_begin` on. -/
def tickWalk (wakeTick : ℕ → ℤ) (ticks : ℤ) (fuel : ℕ) : Walk Unit := do
  tickLoop wakeTick ticks fuel (← onLinks (listBegin (ends true)))

variable {S : Type} {k : Kernel S} {s : State}

/-- The elements of the two lists. -/
def entries (k : Kernel S) : Bool → List Node
  | false => k.readyList.map .elem
  | true => k.waitingList.map .waitingElem

/-- The links are those of the lists, and the states those of the threads. -/
structure Linked (s : State) (k : Kernel S) : Prop where
  lists : s.links.IsLists ends (entries k)
  status : s.status = k.status

theorem onLinks_run {α : Type} {f : Elems Node α} {a : α} {h : Links Node} (hf : f s.links = .ok (a, h)) :
    onLinks f s = .ok (a, { s with links := h }) := by
  rw [onLinks, hf]

/-- **A thread that is due** goes from the one list to the other, and its element still has its link
to the next one. -/
theorem wake_run {t : ℕ} {kept l : List ℕ} (hs : Linked s k) (hl : k.waitingList = kept ++ t :: l)
    (hready : t ∉ k.readyList)
    (hblocked : k.status t = some .blocked) {k' : Kernel S} (hready' : k'.readyList = k.readyList ++ [t])
    (hwaiting' : k'.waitingList = kept ++ l) (hstatus' : k'.status = update k.status t (some .ready)) :
    ∃ s', wake (some (.waitingElem t)) t s = .ok ((), s') ∧ Linked s' k' ∧
      s'.links.next (.waitingElem t) = (l.map Node.waitingElem ++ [(ends true).tail]).head? := by
  have hentry : entries k true = kept.map Node.waitingElem ++ .waitingElem t :: l.map Node.waitingElem := by
    simp [entries, hl]
  have hmem : Node.waitingElem t ∈ entries k true := by simp [hentry]
  have hfree : ¬ On ends (entries k) (.elem t) := by
    rintro ⟨_ | _, hmem⟩ <;> simp [ends, entries, Sentinels.nodes, hready] at hmem
  obtain ⟨h, hinsert, hlists, -⟩ := insert_lists (i := false) (d := []) hs.lists (List.append_nil _).symm rfl hfree
  obtain ⟨h', hremove, hlists', -, -, hnext⟩ := remove_lists (i := true) hlists ((update_of_ne (by decide) ..).trans hentry)
  refine ⟨⟨h', update s.status t (some .ready)⟩, ?_, ⟨?_, ?_⟩, hnext⟩
  · have hunblock : threadUnblock t s = .ok ((), ⟨h, update s.status t (some .ready)⟩) := by
      unfold threadUnblock
      rw [get_bind_run, if_pos (hs.status ▸ hblocked)]
      exact bind_run_ok (onLinks_run (show listPushBack (ends false) (some (.elem t)) s.links = _ from hinsert))
    have hlist := hs.lists.list true
    unfold wake
    rw [bind_run_ok (onLinks_run (read_prev _ _)), bind_run_ok (onLinks_run (read_next _ _)),
      if_pos ⟨Lib.KernelList.IsList.prev_ne_none hlist hmem, Lib.KernelList.IsList.next_ne_none hlist hmem⟩,
      bind_run_ok hunblock, bind_run_ok (onLinks_run hremove)]
    rfl
  · have heq : entries k' = update (update (entries k) false (entries k false ++ [.elem t])) true
        (kept.map Node.waitingElem ++ l.map Node.waitingElem) := by
      funext b
      cases b <;> simp [entries, hready', hwaiting']
    rw [heq]
    exact hlists'
  · rw [hstatus', hs.status]

theorem tickLoop_run {r : Option ℕ} (h : Kernel.Inv k r) {kept l : List ℕ}
    (hl : k.waitingList = kept ++ l) (hs : Linked s k)
    {fuel : ℕ} (hfuel : l.length < fuel) :
    ∃ k' s', k.wakeThreads l = .ok (k', l.filter fun t => k.wakeTick t ≤ k.ticks) ∧
      tickLoop k.wakeTick k.ticks fuel (l.map Node.waitingElem ++ [(ends true).tail]).head? s =
      .ok ((), s') ∧ Linked s' k' ∧
      k'.readyList = k.readyList ++ l.filter (fun t => k.wakeTick t ≤ k.ticks) ∧
      k'.waitingList = kept ++ l.filter fun t => ¬ k.wakeTick t ≤ k.ticks := by
  induction l generalizing k s kept fuel with
  | nil =>
    obtain _ | fuel := fuel
    · simp at hfuel
    exact ⟨k, s, rfl, rfl, hs, (List.append_nil _).symm, hl⟩
  | cons t l ih =>
    obtain _ | fuel := fuel
    · omega
    have hfuel : l.length < fuel := by simpa using hfuel
    obtain ⟨-, -, y, v, -, hright⟩ := exists_neighbours (ends true) [] (l.map Node.waitingElem)
    have hmem : t ∈ k.waitingList := by simp [hl]
    rw [List.map_cons, List.cons_append, List.head?_cons, tickLoop, if_neg (by simp [listEnd, ends])]
    by_cases hdue : k.wakeTick t ≤ k.ticks
    · obtain ⟨hinv, hloose, hb, hi⟩ := h.awake hmem
      obtain ⟨k₁, -, hk₁, hinv₁⟩ := hinv.unblock hloose hb hi
      have hnd : (kept ++ t :: l).Nodup := hl ▸ h.sleepersNodup
      have hwaiting : k₁.waitingList = kept ++ l := by
        have hkept : t ∉ kept := fun hk => List.disjoint_of_nodup_append hnd hk List.mem_cons_self
        rw [hk₁]
        show k.waitingList.erase t = kept ++ l
        rw [hl, List.erase_append_right _ hkept, List.erase_cons_head]
      have hready : t ∉ k.readyList := fun hr => by
        cases hb.symm.trans ((h.placed t).ready.mp hr).1
      have hready₁ : k₁.readyList = k.readyList ++ [t] := by rw [hk₁]; rfl
      have hstatus₁ : k₁.status = update k.status t (some .ready) := by rw [hk₁]; rfl
      obtain ⟨s₁, hwake, hs₁, hnext⟩ := wake_run hs hl hready hb hready₁ hwaiting hstatus₁
      obtain ⟨k', s', hk', hrun, hs', hready', hwaiting'⟩ := ih hinv₁ hwaiting hs₁ hfuel
      subst hk₁
      refine ⟨k', s', ?_, ?_, hs', ?_, ?_⟩
      · have hstep : k.threadUnblock t = .ok ({ k with readyList := k.readyList ++ [t] }.setStatus t .ready) := by
          simp [Kernel.threadUnblock, hb]
        rw [Kernel.wakeThreads, if_pos hdue, hstep, List.filter_cons_of_pos (by simpa using hdue)]
        exact congrArg (fun x => x >>= fun p => pure (p.1, t :: p.2)) hk'
      · rw [hright, List.head?_cons] at hnext hrun
        simp only [if_pos hdue]
        rw [bind_run_ok hwake, bind_run_ok (onLinks_run (listNext_run hnext))]
        exact hrun
      · rw [hready', List.filter_cons_of_pos (by simpa using hdue)]
        simp
      · rw [hwaiting', List.filter_cons_of_neg (by simpa using hdue)]
        rfl
    · obtain ⟨k', s', hk', hrun, hs', hready', hwaiting'⟩ := ih h (show _ = (kept ++ [t]) ++ l by simp [hl]) hs hfuel
      refine ⟨k', s', ?_, ?_, hs', ?_, ?_⟩
      · rw [Kernel.wakeThreads, if_neg hdue, List.filter_cons_of_neg (by simpa using hdue)]
        exact hk'
      · have hnodes : (ends true).nodes (entries k true) =
            ((ends true).head :: kept.map Node.waitingElem) ++ .waitingElem t :: y :: v := by
          rw [← hright]
          simp [Sentinels.nodes, entries, hl]
        have hnext := (Lib.KernelList.IsList.adjacent (hs.lists.list true) hnodes).1
        rw [hright, List.head?_cons] at hrun
        simp only [if_neg hdue]
        rw [bind_run_ok (onLinks_run (listNext_run hnext))]
        exact hrun
      · rw [hready', List.filter_cons_of_neg (by simpa using hdue)]
      · rw [hwaiting', List.filter_cons_of_pos (by simpa using hdue)]
        simp

/-- **The walk over the links is the walk over the threads**: at any tick it comes to its end, and
the threads that are due have gone from `waiting_list` to the end of `ready_list`, in their
order. -/
theorem tick_walk [DecidableEq S] (h : Kernel.system.Reach k) (hs : Linked s k) (ticks : ℤ) (threadTicks : ℕ) {fuel : ℕ}
    (hfuel : k.waitingList.length < fuel) :
    ∃ k' s', Kernel.wakeThreads { k with ticks := ticks, threadTicks := threadTicks } k.waitingList =
        .ok (k', k.waitingList.filter fun t => k.wakeTick t ≤ ticks) ∧
      tickWalk k.wakeTick ticks fuel s = .ok ((), s') ∧ Linked s' k' ∧
      k'.readyList = k.readyList ++ k.waitingList.filter (fun t => k.wakeTick t ≤ ticks) ∧
      k'.waitingList = k.waitingList.filter fun t => ¬ k.wakeTick t ≤ ticks := by
  have hinv := (Kernel.reach_inv h).history k.wakeTick ticks threadTicks k.log
  obtain ⟨k', s', hk', hrun, hrest⟩ := tickLoop_run hinv (List.nil_append _).symm ⟨hs.lists, hs.status⟩ hfuel
  refine ⟨k', s', hk', ?_, hrest⟩
  unfold tickWalk
  rw [bind_run_ok (onLinks_run (listBegin_run _ _)), Lib.KernelList.IsList.next_head (hs.lists.list true)]
  exact hrun

/-- The links when thread 0 sleeps and no thread is ready. -/
def oneSleeper : Links Node where
  next
    | .readyHead => some .readyTail
    | .waitingHead => some (.waitingElem 0)
    | .waitingElem 0 => some .waitingTail
    | _ => none
  prev
    | .readyTail => some .readyHead
    | .waitingTail => some (.waitingElem 0)
    | .waitingElem 0 => some .waitingHead
    | _ => none

/-- The initial thread sleeps and the idle thread runs; then the initial thread is due. -/
theorem tick_walk_one : ∃ (k k' : Kernel Unit) (s' : State), k.waitingList = [0] ∧
    tickWalk k.wakeTick 9 2 ⟨oneSleeper, k.status⟩ = .ok ((), s') ∧ Linked s' k' ∧
      k'.readyList = [0] ∧ k'.waitingList = [] := by
  have hrun : Kernel.system.replay (Kernel.boot : Kernel Unit)
    [.tick, .setIdle, .idleUp, .tick, .down (), .sleep 2, .join, .tick, .idleBlock] = .next _ := rfl
  obtain ⟨k, hreach, hready, hwaiting, hdue⟩ : ∃ k : Kernel Unit, Kernel.system.Reach k ∧ k.readyList = [] ∧
      k.waitingList = [0] ∧ k.wakeTick 0 ≤ 9 := ⟨_, .replay (.init Kernel.boot_init) hrun, rfl, rfl, by decide⟩
  have hlists : oneSleeper.IsLists ends (entries k) := by
    constructor
    · rintro (_ | _)
      · simp only [entries, hready]
        exact ⟨rfl, rfl, by simp [Links.Chain, Links.Adjacent, Sentinels.nodes, ends, oneSleeper], by decide⟩
      · simp only [entries, hwaiting]
        exact ⟨rfl, rfl, by simp [Links.Chain, Links.Adjacent, Sentinels.nodes, ends, oneSleeper], by decide⟩
    · simp [entries, hready, hwaiting, Sentinels.nodes, ends]
  obtain ⟨k', s', -, hwalk, hs', hready', hwaiting'⟩ := tick_walk (s := ⟨oneSleeper, k.status⟩) hreach ⟨hlists, rfl⟩ 9 0
    (by simp [hwaiting] : _ < 2)
  exact ⟨k, k', s', hwaiting, hwalk, hs', by simp [hready', hready, hwaiting, hdue], by simp [hwaiting', hwaiting, hdue]⟩

end Pintos.Threads.TickWalk
