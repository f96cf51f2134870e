import Pintos.Userprog.Process
import Mathlib.Data.Set.Card

/-!
# The life of a relation

A `thread_relation` is shared by its owner and the owner's children, who exit in
any order; the last one out frees it. This module proves that the count of a
relation is right in every state of the process tree, that a relation is freed
when its owner and all the owner's children have exited and not before, and that
no step touches a relation that has been freed.

## The abstract model

`Tree` keeps of the process tree what sharing is about: who is whose parent, in
which phase each process is, the count of each relation and the token
(`p_sp`) with which a child tells its parent that it has loaded. `Tree.Step` are
the ways in which it changes, and `Tree.Ok` is the invariant. The steps of the
process tree are steps of its `Tree` (`view_move`), most of them the step that
changes nothing; so the invariant holds of the process tree (`ok_of_reach`).

The reason that a relation is still there when a child joins it is the
handshake: a child joins while its parent waits for its token
(`Tree.Links.handshake`), and a parent that waits has not exited.
-/

namespace Pintos.Userprog

open Function

/-! ### The abstract model -/

/-- The phase of a process. -/
inductive Phase where
  /-- Not yet created. -/
  | unborn
  /-- Created, and not yet counted by its parent's relation. -/
  | starting
  /-- Counted, and about to give its parent the token. -/
  | signalling
  /-- Alive. -/
  | active
  /-- On the way out, and still in its own relation. -/
  | exiting
  /-- Waits for the token of child `c`. -/
  | awaiting (c : Tid)
  /-- Has taken the token of child `c`. -/
  | reading (c : Tid)
  /-- Has left its own relation. -/
  | leaving
  /-- Has left its parent's relation too. -/
  | dead
  deriving DecidableEq

/-- The process has not left its own relation. -/
def Phase.owning : Phase → Bool
  | .unborn | .leaving | .dead => false
  | _ => true

/-- The process is counted by its parent's relation. -/
def Phase.counted : Phase → Bool
  | .unborn | .starting | .dead => false
  | _ => true

/-- The process has not given its parent the token. -/
def Phase.early : Phase → Bool
  | .starting | .signalling => true
  | _ => false

/-- The process is on the way out, or gone. -/
def Phase.departing : Phase → Bool
  | .exiting | .leaving | .dead => true
  | _ => false

/-- The process waits for `c` to load, or has seen that it has. -/
def Phase.expects (c : Tid) : Phase → Bool
  | .awaiting d => c = d
  | .reading d => c = d
  | _ => false

/-- The process tree, as far as the relations are concerned. -/
structure Tree where
  nextTid : Tid
  parent : Tid → Option Tid
  phase : Tid → Phase
  /-- The counts of the relations. -/
  count : Tid → Cell ℤ
  token : Tid → Cell ℕ

/-- One less user: the last one frees. -/
def Cell.release (n : ℤ) : Cell ℤ := if n - 1 = 0 then .freed else .live (n - 1)

/-- The tree after `p` has created a process. -/
def Tree.created (T : Tree) (p : Tid) : Tree where
  nextTid := T.nextTid + 1
  parent := update T.parent T.nextTid (some p)
  phase := update (update T.phase T.nextTid .starting) p (.awaiting T.nextTid)
  count := update T.count T.nextTid (.live 1)
  token := update T.token T.nextTid (.live 0)

/-- The ways in which the tree changes. -/
inductive Tree.Step : Tree → Tree → Prop where
  /-- Nothing that is kept here changes. -/
  | stay {T : Tree} : Tree.Step T T
  /-- `p` creates a process and waits for it. -/
  | create {T : Tree} {p : Tid} : T.phase p = .active →
      Tree.Step T (T.created p)
  /-- `c` joins the relation of its parent `o`. -/
  | join {T : Tree} {c o : Tid} {n : ℤ} : T.phase c = .starting → T.parent c = some o → T.count o = .live n →
      Tree.Step T
        { T with phase := update T.phase c .signalling
                 count := update T.count o (.live (n + 1)) }
  /-- `c` gives its token, and exits at once if its load failed. -/
  | signal {T : Tree} {c : Tid} {k : ℕ} (success : Bool) : T.phase c = .signalling → T.token c = .live k →
      Tree.Step T
        { T with phase := update T.phase c (if success then .active else .exiting)
                 token := update T.token c (.live (k + 1)) }
  | take {T : Tree} {p c : Tid} {k : ℕ} : T.phase p = .awaiting c → T.token c = .live k → 0 < k →
      Tree.Step T
        { T with phase := update T.phase p (.reading c)
                 token := update T.token c (.live (k - 1)) }
  /-- `p` is done with the creation of `c`. -/
  | collect {T : Tree} {p c : Tid} : T.phase p = .reading c →
      Tree.Step T
        { T with phase := update T.phase p .active
                 token := update T.token c .freed }
  /-- `x` begins to exit. -/
  | exit {T : Tree} {x o : Tid} : T.phase x = .active → T.parent x = some o →
      Tree.Step T { T with phase := update T.phase x .exiting }
  /-- `x` leaves its own relation. -/
  | leaveOwn {T : Tree} {x : Tid} {n : ℤ} : T.phase x = .exiting → T.count x = .live n →
      Tree.Step T
        { T with phase := update T.phase x .leaving
                 count := update T.count x (Cell.release n) }
  /-- `x` leaves the relation of its parent `o`. -/
  | leaveParent {T : Tree} {x o : Tid} {n : ℤ} : T.phase x = .leaving → T.parent x = some o →
      T.count o = .live n →
      Tree.Step T
        { T with phase := update T.phase x .dead
                 count := update T.count o (Cell.release n) }

namespace Tree

/-- The children of `o` that its relation counts. -/
def members (T : Tree) (o : Tid) : Finset Tid :=
  (Finset.range T.nextTid).filter fun c => T.parent c = some o ∧ (T.phase c).counted = true

/-- How many processes should be counted by the relation of `o`. -/
def users (T : Tree) (o : Tid) : ℤ := (if (T.phase o).owning then 1 else 0) + ((T.members o).card : ℤ)

/-- Who is whose parent, and who waits for whom. -/
structure Links (T : Tree) : Prop where
  /-- Processes are created one after the other. -/
  unborn : ∀ t, T.nextTid ≤ t → T.phase t = .unborn
  /-- A parent is there before its child. -/
  lineage : ∀ t o, T.parent t = some o → o < t ∧ T.phase t ≠ .unborn ∧ T.phase o ≠ .unborn
  /-- The process without a parent neither starts nor exits. -/
  root : ∀ t, T.parent t = none → (T.phase t).early = false ∧ (T.phase t).departing = false
  /-- A process that has not given its token has its parent waiting for it. -/
  handshake : ∀ c o, T.parent c = some o → (T.phase c).early = true → T.phase o = .awaiting c
  /-- A process that has not given its token has given none. -/
  silent : ∀ c, (T.phase c).early = true → T.token c = .live 0
  /-- What a process waits for is a child of it, whose token is there. -/
  expected : ∀ p c, (T.phase p).expects c = true → T.parent c = some p ∧ (T.token c).isLive = true

/-- The counts of the relations are right. -/
structure Counts (T : Tree) : Prop where
  /-- A count is the number of users. -/
  right : ∀ o n, T.count o = .live n → n = T.users o
  /-- A relation in use is live. -/
  live : ∀ o, 0 < T.users o → ∃ n, T.count o = .live n
  /-- A live relation is in use. -/
  used : ∀ o n, T.count o = .live n → 0 < n
  /-- Every process that was created has its relation made. -/
  made : ∀ o, T.count o = .unused ↔ T.phase o = .unborn

/-- The invariant of the tree. -/
structure Ok (T : Tree) : Prop extends Links T, Counts T

variable {t : Tid}

theorem Links.born {T : Tree} (h : T.Links) (ht : T.phase t ≠ .unborn) : t < T.nextTid := by
  by_contra hlt
  exact ht (h.unborn t (Nat.le_of_not_lt hlt))

theorem Links.next_no_child {T : Tree} (h : T.Links) (u : Tid) : T.parent u ≠ some T.nextTid := fun hu =>
  (h.lineage u _ hu).2.2 (h.unborn _ le_rfl)

theorem Links.next_no_parent {T : Tree} (h : T.Links) (o : Tid) : T.parent T.nextTid ≠ some o := fun ho =>
  (h.lineage _ o ho).2.1 (h.unborn _ le_rfl)

/-- What process `x`, in phase `ph`, contributes to the relation of `o`. -/
def share (T : Tree) (o x : Tid) (ph : Phase) : ℤ :=
  (if o = x ∧ ph.owning = true then 1 else 0) + (if T.parent x = some o ∧ ph.counted = true then 1 else 0)

theorem users_nonneg (T : Tree) (o : Tid) : 0 ≤ T.users o := by
  unfold users
  split_ifs <;> omega

variable {T' : Tree} {ph : Phase} {x : Tid}

/-- **How the users of a relation change** when one process changes its phase. -/
theorem users_update {T : Tree} (hx : x < T.nextTid) (hn : T'.nextTid = T.nextTid)
    (hp : T'.parent = T.parent) (hph : T'.phase = update T.phase x ph) (o : Tid) :
    T'.users o + T.share o x (T.phase x) = T.users o + T.share o x ph := by
  have hown : (if (T'.phase o).owning then (1 : ℤ) else 0) +
        (if o = x ∧ (T.phase x).owning = true then 1 else 0) =
      (if (T.phase o).owning then 1 else 0) + (if o = x ∧ ph.owning = true then 1 else 0) := by
    rw [hph]
    obtain rfl | ho := eq_or_ne o x
    · simp only [update_self, true_and]
      omega
    · simp [ho]
  have hmem : (T'.members o).card + (if T.parent x = some o ∧ (T.phase x).counted = true then 1 else 0) =
      (T.members o).card + (if T.parent x = some o ∧ ph.counted = true then 1 else 0) := by
    have hmove := card_filter_move (p := fun c => T.parent c = some o ∧ (T.phase c).counted = true)
      (q := fun c => T'.parent c = some o ∧ (T'.phase c).counted = true) (Finset.mem_range.mpr hx)
      (fun u _ hu => by rw [hp, hph, update_of_ne hu])
    rw [hp, hph, update_self] at hmove
    unfold members
    rw [hn, hp, hph]
    exact hmove
  unfold users share
  split_ifs at hmem hown ⊢ <;> omega

/-- The counts stay right when at most the relation of `o₀` changes, and what it becomes is
right. -/
protected theorem Counts.update {T : Tree} (h : T.Counts) (o₀ : Tid) (hu : ∀ o, o ≠ o₀ → T'.users o = T.users o)
    (hc : ∀ o, o ≠ o₀ → T'.count o = T.count o) (hborn : ∀ o, T'.phase o = .unborn ↔ o ≠ o₀ ∧ T.phase o = .unborn)
    (h₀ : T'.count o₀ = .live (T'.users o₀) ∧ 0 < T'.users o₀ ∨ T'.count o₀ = .freed ∧ T'.users o₀ = 0) :
    T'.Counts := by
  have hcase : ∀ o, T'.count o = .live (T'.users o) ∧ 0 < T'.users o ∨
      (∀ n, T'.count o ≠ .live n) ∧ ¬ 0 < T'.users o := by
    intro o
    obtain rfl | hoo := eq_or_ne o o₀
    · exact h₀.imp_right fun h0 => ⟨by simp [h0.1], h0.2.not_gt⟩
    · rw [hu o hoo, hc o hoo]
      by_cases hpos : 0 < T.users o
      · obtain ⟨n, hn⟩ := h.live o hpos
        exact .inl ⟨by rw [hn, h.right o n hn], hpos⟩
      · exact .inr ⟨fun n hn => hpos (h.right o n hn ▸ h.used o n hn), hpos⟩
  have hright : ∀ o n, T'.count o = .live n → n = T'.users o ∧ 0 < T'.users o := by
    intro o n hn
    obtain ⟨hlive, hpos⟩ := (hcase o).resolve_right fun hnone => hnone.1 n hn
    cases hlive.symm.trans hn
    exact ⟨rfl, hpos⟩
  refine ⟨fun o n hn => (hright o n hn).1, fun o ho => ⟨_, ((hcase o).resolve_right fun hnone => hnone.2 ho).1⟩,
    fun o n hn => (hright o n hn).1 ▸ (hright o n hn).2, fun o => ?_⟩
  rw [hborn]
  obtain rfl | hoo := eq_or_ne o o₀
  · rcases h₀ with ⟨h₀, -⟩ | ⟨h₀, -⟩ <;> simp [h₀]
  · rw [hc o hoo, h.made o, and_iff_right hoo]

theorem release_right {n u : ℤ} (hn : n - 1 = u) (hu : 0 ≤ u) :
    Cell.release n = .live u ∧ 0 < u ∨ Cell.release n = .freed ∧ u = 0 := by
  unfold Cell.release
  by_cases h : n - 1 = 0
  · rw [if_pos h]
    exact .inr ⟨rfl, by omega⟩
  · rw [if_neg h, hn]
    exact .inl ⟨rfl, by omega⟩

variable {o : Tid}

/-- A process that goes on was created, and nobody else is. -/
theorem update_unborn {T : Tree} (hx : T.phase x ≠ .unborn) (hph : ph ≠ .unborn) :
    update T.phase x ph o = .unborn ↔ T.phase o = .unborn := by
  obtain rfl | hox := eq_or_ne o x
  · simp [hx, hph]
  · rw [update_of_ne hox]

variable {c : Tid}

/-- A process that does not wait has no child that is still to give its token. -/
theorem Links.no_early_child {T : Tree} (h : T.Links) (hx : T.phase x ≠ .awaiting c)
    (hc : T.parent c = some x) : (T.phase c).early = false := by
  by_contra hearly
  rw [Bool.not_eq_false] at hearly
  exact hx (h.handshake c x hc hearly)

variable {p : Tid}

/-- When `p` goes to a phase in which it has given its token, and so has `c`, the token of `c` is
none of those that are still to be given. -/
theorem token_of_early {T : Tree} {d : Tid} {v : Cell ℕ} (hph : ph.early = false)
    (hc : c ≠ p → (T.phase c).early = false) (hd : (update T.phase p ph d).early = true) :
    update T.token c v d = T.token d := by
  refine update_of_ne (fun hdc => ?_) _ _
  rw [hdc] at hd
  by_cases hcp : c = p
  · rw [hcp, update_self, hph] at hd
    cases hd
  · rw [update_of_ne hcp, hc hcp] at hd
    cases hd

section

variable {T : Tree} (h : T.Links) (hnext : T'.nextTid = T.nextTid) (hparent : T'.parent = T.parent)
  (hphase : T'.phase = update T.phase x ph)
include h hnext hparent hphase

/-- **One process changes its phase.** The links hold as long as its children that are still to give
their token find it waiting, and as long as the tokens that matter stay. -/
theorem Links.move (hborn : T.phase x ≠ .unborn) (hborn' : ph ≠ .unborn)
    (hroot : T.parent x = none → ph.early = false ∧ ph.departing = false)
    (hkids : ∀ c, T.parent c = some x → (T.phase c).early = true → ph = .awaiting c)
    (hearly : ph.early = true → (T.phase x).early = true)
    (htoken : ∀ c, (T'.phase c).early = true → T'.token c = T.token c)
    (hexpects : ∀ c, ph.expects c = true → T.parent c = some x ∧ (T'.token c).isLive = true)
    (hlive : ∀ p c, p ≠ x → (T.phase p).expects c = true → (T'.token c).isLive = true) : T'.Links := by
  have hself : T'.phase x = ph := by rw [hphase, update_self]
  have hother : ∀ u, u ≠ x → T'.phase u = T.phase u := fun u hu => by rw [hphase, update_of_ne hu]
  have hunborn : ∀ u, T'.phase u = .unborn ↔ T.phase u = .unborn := fun u => by rw [hphase, update_unborn hborn hborn']
  have hstays : ∀ u, (T'.phase u).early = true → (T.phase u).early = true := by
    intro u hu
    by_cases hux : u = x
    · rw [hux] at hu ⊢
      exact hearly (hself ▸ hu)
    · rwa [hother u hux] at hu
  constructor
  · intro t ht
    rw [hunborn]
    exact h.unborn t (hnext ▸ ht)
  · intro t o ho
    rw [hparent] at ho
    rw [ne_eq, ne_eq, hunborn, hunborn]
    exact h.lineage t o ho
  · intro t ht
    rw [hparent] at ht
    obtain rfl | htx := eq_or_ne t x
    · rw [hself]
      exact hroot ht
    · rw [hother t htx]
      exact h.root t ht
  · intro c o ho hc
    rw [hparent] at ho
    by_cases hox : o = x
    · have hcx : c ≠ x := (hox ▸ (h.lineage c o ho).1).ne'
      rw [hother c hcx] at hc
      rw [hox] at ho ⊢
      rw [hself]
      exact hkids c ho hc
    · rw [hother o hox]
      exact h.handshake c o ho (hstays c hc)
  · intro c hc
    rw [htoken c hc]
    exact h.silent c (hstays c hc)
  · intro p c hp
    rw [hparent]
    obtain rfl | hpx := eq_or_ne p x
    · rw [hself] at hp
      exact hexpects c hp
    · rw [hother p hpx] at hp
      exact ⟨(h.expected p c hp).1, hlive p c hpx hp⟩

/-- A process that neither waits nor begins to wait goes on, and no token changes. -/
theorem Links.advance (htoken : T'.token = T.token)
    (hborn : T.phase x ≠ .unborn) (hborn' : ph ≠ .unborn) (hwaits : ∀ c, T.phase x ≠ .awaiting c)
    (hroot : T.parent x = none → ph.early = false ∧ ph.departing = false)
    (hearly : ph.early = true → (T.phase x).early = true) (hexpects : ∀ c, ph.expects c = false) : T'.Links := by
  refine h.move hnext hparent hphase hborn hborn' hroot (fun c hc hce => ?_) hearly (fun c _ => by rw [htoken])
    (fun c hc => ?_) fun p c _ hp => ?_
  · rw [h.no_early_child (hwaits c) hc] at hce
    cases hce
  · rw [hexpects c] at hc
    cases hc
  · rw [htoken]
    exact (h.expected p c hp).2

end

/-- A step keeps the links. What matters is the order: a process gives its token before its
parent goes on, and a process that leaves has no child that is still to give its token. -/
theorem Links.step {T : Tree} (h : T.Links) (hs : T.Step T') : T'.Links := by
  cases hs with
  | stay => exact h
  | @create p hp =>
    obtain ⟨hunborn, hlineage, hroot, hhand, hsilent, hexp⟩ := h
    -- the new process has no child, and nobody waits for it but `p`
    constructor <;> simp only [created] <;>
      grind [update_apply, Phase.early, Phase.departing, Phase.expects, Cell.isLive]
  | @join c o n hc ho hn =>
    refine h.advance rfl rfl rfl rfl (by simp [hc]) nofun (by simp [hc]) (fun hnone => ?_) (fun _ => ?_) fun _ => rfl
    · rw [ho] at hnone
      cases hnone
    · rw [hc]
      rfl
  | @signal c k success hc hk =>
    have hnot : ∀ d, T.phase c ≠ .awaiting d := by simp [hc]
    have hph : (if success then Phase.active else .exiting).early = false := by cases success <;> rfl
    refine h.move rfl rfl rfl (by simp [hc]) (by cases success <;> nofun) (fun hnone => ?_)
      (fun d hd hde => ?_) (fun he => ?_)
      (fun d hd => ?_) (fun d hd => ?_) fun p d _ hd => ?_
    · have := (h.root c hnone).1
      rw [hc] at this
      cases this
    · rw [h.no_early_child (hnot d) hd] at hde
      cases hde
    · rw [hph] at he
      cases he
    · exact token_of_early hph (absurd rfl) hd
    · cases success <;> cases hd
    · obtain rfl | hdc := eq_or_ne d c
      · dsimp only
        rw [update_self]
        rfl
      · dsimp only
        rw [update_of_ne hdc]
        exact (h.expected p d hd).2
  | @take p c k hp hk h0 =>
    -- a child that is still to give its token has given none
    have hgiven : (T.phase c).early = false := by
      by_contra hne
      rw [Bool.not_eq_false] at hne
      rw [h.silent c hne] at hk
      cases hk
      omega
    have hlive : ∀ d, (T.token d).isLive = true → (update T.token c (.live (k - 1)) d).isLive = true := by
      intro d hd
      by_cases hdc : d = c
      · rw [hdc, update_self]
        rfl
      · rwa [update_of_ne hdc]
    refine h.move rfl rfl rfl (by simp [hp]) nofun (fun _ => ⟨rfl, rfl⟩) (fun d hd hde => ?_) nofun (fun d hd => ?_)
      (fun d hd => ?_) fun q d _ hq => hlive d (h.expected q d hq).2
    · cases hp.symm.trans (h.handshake d p hd hde)
      rw [hgiven] at hde
      cases hde
    · exact token_of_early rfl (fun _ => hgiven) hd
    · obtain rfl : d = c := of_decide_eq_true hd
      have hexpected := h.expected p d (by rw [hp]; exact decide_eq_true rfl)
      exact ⟨hexpected.1, hlive d hexpected.2⟩
  | @collect p c hp =>
    have hparent : T.parent c = some p := (h.expected p c (by rw [hp]; exact decide_eq_true rfl)).1
    have hgiven : (T.phase c).early = false := h.no_early_child (by simp [hp]) hparent
    refine h.move rfl rfl rfl (by simp [hp]) nofun (fun _ => ⟨rfl, rfl⟩) (fun d hd hde => ?_) nofun (fun d hd => ?_) nofun
      fun q d hq hqd => ?_
    · rw [h.no_early_child (by simp [hp]) hd] at hde
      cases hde
    · exact token_of_early rfl (fun _ => hgiven) hd
    · obtain ⟨hqparent, hlive⟩ := h.expected q d hqd
      have hdc : d ≠ c := by
        rintro rfl
        rw [hparent] at hqparent
        exact hq (Option.some.inj hqparent).symm
      dsimp only
      rwa [update_of_ne hdc]
  | exit hx ho | leaveParent hx ho _ =>
    refine h.advance rfl rfl rfl rfl (by simp [hx]) nofun (by simp [hx]) (fun hnone => ?_) nofun fun _ => rfl
    rw [ho] at hnone
    cases hnone
  | @leaveOwn x n hx hn =>
    refine h.advance rfl rfl rfl rfl (by simp [hx]) nofun (by simp [hx]) (fun hnone => ?_) nofun fun _ => rfl
    -- the process without a parent does not exit
    have := (h.root x hnone).2
    rw [hx] at this
    cases this

/-- A process that changes its phase and nobody's share leaves the counts right. -/
theorem Counts.same {T : Tree} (h : T.Counts) (hx : x < T.nextTid)
    (hn : T'.nextTid = T.nextTid) (hp : T'.parent = T.parent) (hph : T'.phase = update T.phase x ph)
    (hc : T'.count = T.count) (hborn : T.phase x ≠ .unborn) (hborn' : ph ≠ .unborn) (ho : ph.owning = (T.phase x).owning)
    (hm : ph.counted = (T.phase x).counted) : T'.Counts := by
  have hu : ∀ o, T'.users o = T.users o := fun o => by
    have := users_update hx hn hp hph o
    unfold share at this
    rw [ho, hm] at this
    omega
  refine ⟨fun o n => ?_, fun o => ?_, fun o n => ?_, fun o => ?_⟩
  · rw [hc, hu]; exact h.right o n
  · rw [hc, hu]; exact h.live o
  · rw [hc]; exact h.used o n
  · rw [hc, hph, update_unborn hborn hborn']; exact h.made o

/-- A process `x` that changes its phase, and its share in the relation of `o₀` only, leaves the
counts right if the relation of `o₀` becomes what its users say. -/
theorem Counts.move {T : Tree} (h : T.Counts) {o₀ : Tid} {c : Cell ℤ} (hx : x < T.nextTid)
    (hn : T'.nextTid = T.nextTid) (hp : T'.parent = T.parent) (hph : T'.phase = update T.phase x ph)
    (hc : T'.count = update T.count o₀ c) (hborn : T.phase x ≠ .unborn) (hborn' : ph ≠ .unborn)
    (hborn₀ : T.phase o₀ ≠ .unborn)
    (hsame : ∀ o, o ≠ o₀ → T.share o x ph = T.share o x (T.phase x))
    (h₀ : ∀ u, 0 ≤ u → u = T.users o₀ + T.share o₀ x ph - T.share o₀ x (T.phase x) →
      c = .live u ∧ 0 < u ∨ c = .freed ∧ u = 0) : T'.Counts := by
  have hu := users_update hx hn hp hph
  have hc₀ : T'.count o₀ = c := by rw [hc, update_self]
  have hnew := h₀ (T'.users o₀) (T'.users_nonneg o₀) (by have := hu o₀; omega)
  have husers : ∀ o, o ≠ o₀ → T'.users o = T.users o := fun o ho => by
    have := hu o
    rw [hsame o ho] at this
    omega
  refine h.update o₀ husers (fun o ho => by rw [hc, update_of_ne ho]) (fun o => ?_) (by rwa [hc₀])
  rw [hph, update_unborn hborn hborn']
  exact (and_iff_right_of_imp (by rintro ho rfl; exact hborn₀ ho)).symm

theorem members_created {T : Tree} (hpn : p < T.nextTid) (hp : T.phase p = .active)
    (o : Tid) : (T.created p).members o = T.members o := by
  ext c
  rw [members, members, Finset.mem_filter, Finset.mem_filter]
  simp only [created, Finset.mem_range]
  obtain rfl | hc := eq_or_ne c T.nextTid
  · simp [update_of_ne (Nat.ne_of_gt hpn), Phase.counted]
  · rw [Nat.lt_succ_iff_lt_or_eq, or_iff_left hc, update_of_ne hc]
    by_cases hcp : c = p
    · simp [hcp, hp, Phase.counted]
    · rw [update_of_ne hcp, update_of_ne hc]

theorem Counts.step {T : Tree} (hl : T.Links) (h : T.Counts) (hs : T.Step T') : T'.Counts := by
  cases hs with
  | stay => exact h
  | @create p hp =>
    have hpn : p < T.nextTid := hl.born (by simp [hp])
    -- the new process is not counted by its parent, and counts no child
    have hmem := members_created hpn hp
    have hfresh : T.members T.nextTid = ∅ := by
      exact Finset.filter_eq_empty_iff.mpr fun c _ hc => hl.next_no_child c hc.1
    have hself : (T.created p).users T.nextTid = 1 := by
      unfold users
      rw [hmem, hfresh]
      simp [created, update_of_ne (Nat.ne_of_gt hpn), Phase.owning]
    have hothers : ∀ o, o ≠ T.nextTid → (T.created p).users o = T.users o := fun o ho => by
      unfold users
      rw [hmem]
      by_cases hop : o = p
      · simp [created, hop, hp, Phase.owning]
      · simp [created, update_of_ne hop, update_of_ne ho]
    refine h.update T.nextTid hothers (fun o ho => update_of_ne ho _ _) (fun o => ?_)
      (.inl ⟨by rw [hself]; exact update_self _ _ _, by rw [hself]; exact Int.one_pos⟩)
    simp only [created]
    grind [update_apply]
  | @join c o n hc ho hn =>
    have hborn : T.phase c ≠ .unborn := by simp [hc]
    refine h.move (hl.born hborn) rfl rfl rfl rfl hborn nofun (hl.lineage c o ho).2.2 (fun o' ho' => ?_)
      (fun u _ hu => ?_)
    · simp [share, hc, ho, Phase.owning, ho'.symm]
    · have hright := h.right o n hn
      have hpos := h.used o n hn
      simp only [share, hc, ho, Phase.owning, Phase.counted] at hu
      simp at hu ⊢
      omega
  | @signal c k success hc hk =>
    have hborn : T.phase c ≠ .unborn := by simp [hc]
    exact h.same (hl.born hborn) rfl rfl rfl rfl hborn (by cases success <;> nofun)
      (by rw [hc]; cases success <;> rfl) (by rw [hc]; cases success <;> rfl)
  | @take x _ _ hx _ _ | @collect x _ hx | @exit x _ hx _ =>
    have hborn : T.phase x ≠ .unborn := by simp [hx]
    exact h.same (hl.born hborn) rfl rfl rfl rfl hborn nofun (by rw [hx]; rfl) (by rw [hx]; rfl)
  | @leaveOwn x n hx hn =>
    have hborn : T.phase x ≠ .unborn := by simp [hx]
    refine h.move (hl.born hborn) rfl rfl rfl rfl hborn nofun hborn (fun o' ho' => ?_) (fun u hu0 hu => ?_)
    · simp [share, hx, ho', Phase.counted]
    · have hright := h.right x n hn
      -- `x` is not its own parent
      have hself : T.parent x ≠ some x := fun hp => absurd (hl.lineage x x hp).1 (lt_irrefl x)
      simp only [share, hx, Phase.owning, Phase.counted] at hu
      refine release_right ?_ hu0
      simp [hself] at hu
      omega
  | @leaveParent x o n hx ho hn =>
    have hborn : T.phase x ≠ .unborn := by simp [hx]
    refine h.move (hl.born hborn) rfl rfl rfl rfl hborn nofun (hl.lineage x o ho).2.2 (fun o' ho' => ?_)
      (fun u hu0 hu => ?_)
    · simp [share, hx, ho, ho'.symm, Phase.owning]
    · have hright := h.right o n hn
      simp only [share, hx, ho, Phase.owning, Phase.counted] at hu
      refine release_right ?_ hu0
      simp at hu
      omega

theorem Ok.step {T : Tree} (h : T.Ok) (hs : T.Step T') : T'.Ok :=
  { h.toLinks.step hs, h.toCounts.step h.toLinks hs with }

end Tree

/-! ### The process tree refines it -/

/-- The phase of a program point. -/
def Pc.phase : Pc → Phase
  | .unborn => .unborn
  | .load | .increment _ => .starting
  | .signal _ => .signalling
  | .execDown c => .awaiting c
  | .execStatus c => .reading c
  | .exitAppend | .exitCompare | .exitUp | .exitChildRel => .exiting
  | .exitParentRel => .leaving
  | .dead => .dead
  | _ => .active

/-- What the abstract model keeps of a state. -/
def view (s : State) : Tree where
  nextTid := s.nextTid
  parent t := (s.proc t).pRel
  phase t := (s.proc t).pc.phase
  count o := (s.rel o).map (·.aliveCount)
  token c := (s.sh c).map (·.pSp)

theorem view_setProc (s : State) {pr : Proc} (h : pr.pRel = (s.proc t).pRel) :
    view (s.setProc t pr) = { view s with phase := update (view s).phase t pr.pc.phase } := by
  simp only [view, State.setProc, Tree.mk.injEq, true_and]
  refine ⟨?_, ?_, trivial⟩ <;> funext u <;> by_cases hu : u = t
  · subst hu; simpa using h
  · simp [hu]
  · subst hu; simp
  · simp [hu]

theorem view_goto (s : State) (t : Tid) (pc : Pc) :
    view (s.goto t pc) = { view s with phase := update (view s).phase t pc.phase } :=
  view_setProc s rfl

theorem view_setRel (s : State) (o : Tid) (c : Cell Relation) :
    view (s.setRel o c) = { view s with count := update (view s).count o (c.map (·.aliveCount)) } := by
  simp only [view, State.setRel, Tree.mk.injEq, true_and, and_true]
  funext u
  by_cases hu : u = o
  · subst hu; simp
  · simp [hu]

theorem view_setSh (s : State) (c : Tid) (x : Cell StartProcessInfo) :
    view (s.setSh c x) = { view s with token := update (view s).token c (x.map (·.pSp)) } := by
  simp only [view, State.setSh, Tree.mk.injEq, true_and]
  funext u
  by_cases hu : u = c
  · subst hu; simp
  · simp [hu]

theorem Tree.Step.idle {T : Tree} (hph : T.phase t = ph)
    (hT : T' = { T with phase := update T.phase t ph }) : T.Step T' := by
  rw [hT, ← hph, update_eq_self]
  exact .stay

theorem Tree.Step.idleRel {T : Tree} {c : Cell ℤ} (hph : T.phase t = ph) (hc : T.count o = c)
    (hT : T' = { T with phase := update T.phase t ph, count := update T.count o c }) :
    T.Step T' := by
  rw [hT, ← hph, ← hc, update_eq_self, update_eq_self]
  exact .stay

theorem view_threadCreate (s : State) (p : Tid) (awaited status : ℤ) (hp : p ≠ s.nextTid) :
    view ((threadCreate s p awaited status).goto p (.execDown s.nextTid)) = (view s).created p := by
  simp only [view, threadCreate, State.goto, State.setProc, Tree.created, Tree.mk.injEq, true_and]
  refine ⟨?_, ?_, ?_, ?_⟩ <;> funext u <;> grind [update_apply, Cell.map, Pc.phase, newRelation]

variable {s : State} {pc : Pc}

theorem view_phase (h : (s.proc t).pc = pc) : (view s).phase t = pc.phase := by
  rw [← h]
  rfl

theorem caller_of_create (hl : (view s).Links) (hpc : (s.proc p).pc = .run) (awaited status : ℤ) :
    p < s.nextTid ∧ ((threadCreate s p awaited status).proc p).pc = .run := by
  have hp : p < s.nextTid := hl.born (by rw [view_phase hpc]; simp [Pc.phase])
  refine ⟨hp, ?_⟩
  rw [threadCreate_proc_of_ne s p awaited status (Nat.ne_of_lt hp), hpc]

variable {r : Relation}

theorem view_count (h : s.rel o = .live r) : (view s).count o = .live r.aliveCount := by
  simp [view, h, Cell.map]

theorem view_token {x : StartProcessInfo} (h : s.sh c = .live x) : (view s).token c = .live x.pSp := by
  simp [view, h, Cell.map]

theorem map_release (r : Relation) : r.release.map (·.aliveCount) = Cell.release r.aliveCount := by
  unfold Relation.release Cell.release
  split_ifs <;> rfl

variable {a : Act}

/-- **The process tree refines the abstract tree**: every move is a step of the view. -/
theorem view_move {t : State} (hl : (view s).Links) (h : Move s a t) : (view s).Step (view t) := by
  cases h with
  | @execute p awaited status r hpc hr =>
    have hborn : (view s).phase p ≠ .unborn := by rw [view_phase hpc]; simp [Pc.phase]
    rw [view_threadCreate s p awaited status (Nat.ne_of_lt (hl.born hborn))]
    exact .create (view_phase hpc)
  | executeFail _ | refuse _ _ => exact .stay
  | @load c success x hpc hx =>
    refine .idle (view_phase hpc) ?_
    rw [view_goto, view_setSh]
    simp only [Cell.map, ← view_token hx, update_eq_self]
    rfl
  | @wait p c r hpc _ hr =>
    refine .idleRel (view_phase hpc) (view_count hr) ?_
    rw [view_setProc, view_setRel] <;> rfl
  | @exit x o status hpc ho =>
    rw [view_setProc]
    · exact .exit (view_phase hpc) ho
    · rfl
  | @increment x o success r hpc ho hr =>
    rw [view_goto, view_setRel]
    exact .join (view_phase hpc) ho (view_count hr)
  | @signal x y hpc hy =>
    rw [view_goto, view_setSh]
    exact .signal true (view_phase hpc) (view_token hy)
  | @signalFailed x y hpc hy =>
    rw [view_setProc, view_setSh]
    · exact .signal false (view_phase hpc) (view_token hy)
    · rfl
  | @execDown x child y hpc hy h0 =>
    rw [view_goto, view_setSh]
    exact .take (view_phase hpc) (view_token hy) h0
  | @execFailed x child y hpc hy _ =>
    rw [view_goto, view_setSh]
    exact .collect (view_phase hpc)
  | @execDone x child y hpc hy _ =>
    rw [view_setProc, view_setSh]
    · exact .collect (view_phase hpc)
    · rfl
  | waitNone hpc _ _ | waitSome hpc _ _ | waitMissed hpc _ _ | orphan hpc _ _ _ | awaited hpc _ _ _
  | unawaited hpc _ _ _ => exact .idle (view_phase hpc) (view_goto _ _ _)
  | waitFound hpc _ _ | waitAgain hpc _ _ => exact .idle (view_phase hpc) (view_setProc _ rfl)
  | waitDown hpc hr _ | append hpc _ hr _ | up hpc _ hr =>
    refine .idleRel (view_phase hpc) (view_count hr) ?_
    rw [view_goto, view_setRel]
    rfl
  | @leaveOwn x r hpc hr =>
    rw [view_goto, view_setRel, map_release]
    exact .leaveOwn (view_phase hpc) (view_count hr)
  | @leaveParent x o r hpc ho hr =>
    rw [view_goto, view_setRel, map_release]
    exact .leaveParent (view_phase hpc) ho (view_count hr)

/-! ### Every state of the process tree -/

theorem ok_initial (awaited : ℤ) : (view (initial awaited)).Ok := by
  have hphase : ∀ t, (view (initial awaited)).phase t = if t = 1 then .active else .unborn := fun t => by
    by_cases ht : t = 1 <;> simp [view, initial, ht, Pc.phase]
  have hparent : ∀ t, (view (initial awaited)).parent t = none := fun t => by
    by_cases ht : t = 1 <;> simp [view, initial, ht]
  have hcount : ∀ o, (view (initial awaited)).count o = if o = 1 then .live 1 else .unused := fun o => by
    by_cases ho : o = 1 <;> simp [view, initial, ho, Cell.map, newRelation]
  have husers : ∀ o, (view (initial awaited)).users o = if o = 1 then 1 else 0 := fun o => by
    have hmem : (view (initial awaited)).members o = ∅ := by
      exact Finset.filter_eq_empty_iff.mpr fun c _ hc => by simp [hparent] at hc
    unfold Tree.users
    rw [hmem, hphase]
    by_cases ho : o = 1 <;> simp [ho, Phase.owning]
  constructor
  · have hnext : (view (initial awaited)).nextTid = 3 := rfl
    constructor <;> grind [Phase.early, Phase.departing, Phase.expects]
  · refine ⟨fun o n hn => ?_, fun o ho => ⟨1, ?_⟩, fun o n hn => ?_, fun o => ?_⟩ <;> grind

/-- The invariant holds in every state of the process tree. -/
theorem ok_of_reach (h : processes.Reach s) : (view s).Ok := by
  induction h with
  | init hs =>
    obtain ⟨awaited, rfl⟩ := hs
    exact ok_initial awaited
  | step _ hst ih => exact ih.step (view_move ih.toLinks (step_move hst))

section

variable (h : (view s).Ok)
include h

theorem live_of_users (ho : 0 < (view s).users o) : ∃ r, s.rel o = .live r := by
  obtain ⟨n, hn⟩ := h.live o ho
  cases hr : s.rel o with
  | live r => exact ⟨r, rfl⟩
  | unused | freed => simp [view, hr, Cell.map] at hn

/-- A process that has not left its own relation finds it. -/
theorem own_live (hpc : (s.proc o).pc = pc) (ho : pc.phase.owning = true) : ∃ r, s.rel o = .live r := by
  refine live_of_users h ?_
  unfold Tree.users
  rw [if_pos (by rwa [view_phase hpc])]
  omega

theorem parent_live (ho : (s.proc c).pRel = some o)
    (hc : ((view s).phase c).counted = true) : ∃ r, s.rel o = .live r := by
  have hborn : c < (view s).nextTid := h.born (h.lineage c o ho).2.1
  have hmem : 0 < ((view s).members o).card := card_filter_pos (Finset.mem_range.mpr hborn) ⟨ho, hc⟩
  refine live_of_users h ?_
  unfold Tree.users
  split_ifs <;> omega

/-- A process that exits has a parent, whose relation it finds. -/
theorem exit_live (hpc : (s.proc c).pc = pc) (hd : pc.phase.departing = true) (hc : pc.phase.counted = true) :
    ∃ o r, (s.proc c).pRel = some o ∧ s.rel o = .live r := by
  rw [← view_phase hpc] at hd hc
  cases ho : (s.proc c).pRel with
  | none => rw [(h.root c ho).2] at hd; cases hd
  | some o =>
    obtain ⟨r, hr⟩ := parent_live h ho hc
    exact ⟨o, r, rfl, hr⟩

/-- A process that starts has a parent, whose relation it finds: the parent waits for it. -/
theorem start_live (hpc : (s.proc c).pc = pc) (hc : pc.phase.early = true) :
    ∃ o r, (s.proc c).pRel = some o ∧ s.rel o = .live r := by
  rw [← view_phase hpc] at hc
  cases ho : (s.proc c).pRel with
  | none => rw [(h.root c ho).1] at hc; cases hc
  | some o =>
    obtain ⟨r, hr⟩ := own_live h rfl (by rw [← view_phase rfl, h.handshake c o ho hc]; rfl)
    exact ⟨o, r, rfl, hr⟩

omit h in
theorem token_live (h : ((view s).token c).isLive = true) : ∃ x, s.sh c = .live x := by
  cases hx : s.sh c with
  | live x => exact ⟨x, rfl⟩
  | unused | freed => simp [view, hx, Cell.map, Cell.isLive] at h

theorem early_live (hpc : (s.proc c).pc = pc) (hc : pc.phase.early = true) : ∃ x, s.sh c = .live x :=
  token_live (by rw [h.silent c (by rwa [view_phase hpc])]; rfl)

theorem expected_live (hpc : (s.proc p).pc = pc) (hc : pc.phase.expects c = true) : ∃ x, s.sh c = .live x :=
  token_live (h.expected p c (by rwa [view_phase hpc])).2

end

/-! ### The records -/

/-- A thread that is past its append, with the record not yet signalled. -/
def Pc.appended : Pc → Bool
  | .exitCompare | .exitUp => true
  | _ => false

/-- A thread that searches after `sema_down`. -/
def Pc.again : Pc → Bool
  | .waitAgain _ _ => true
  | _ => false

/-- What is signalled has been recorded: the list of a relation is not empty when its semaphore
is up or about to be upped, or its owner is past `sema_down`. -/
def Recorded (s : State) : Prop :=
  ∀ o r, s.rel o = .live r →
    (0 < r.pSema ∨ (s.proc o).pc.again = true ∨
      ∃ c, (s.proc c).pRel = some o ∧ (s.proc c).pc.appended = true) →
    r.returnList ≠ []

theorem release_keeps {r' : Relation} (h : r.release = .live r') :
    r'.parentAlive = r.parentAlive ∧ r'.returnList = r.returnList ∧ r'.pSema = r.pSema := by
  unfold Relation.release at h
  split_ifs at h
  cases h
  exact ⟨rfl, rfl, rfl⟩

theorem Recorded.setProc (h : Recorded s) {pr : Proc} (hp : pr.pRel = (s.proc t).pRel)
    (ha : pr.pc.again = true → ∀ r, s.rel t = .live r → r.returnList ≠ [])
    (hb : pr.pc.appended = true → ∀ o r, (s.proc t).pRel = some o → s.rel o = .live r → r.returnList ≠ []) :
    Recorded (s.setProc t pr) := by
  intro o r hr hor
  rcases hor with hsema | hagain | ⟨c, hc, happ⟩
  · exact h o r hr (.inl hsema)
  · obtain rfl | hot := eq_or_ne o t
    · rw [State.setProc_self] at hagain
      exact ha hagain r hr
    · rw [State.setProc_of_ne s pr hot] at hagain
      exact h o r hr (.inr (.inl hagain))
  · obtain rfl | hct := eq_or_ne c t
    · rw [State.setProc_self] at hc happ
      exact hb happ o r (hp ▸ hc) hr
    · rw [State.setProc_of_ne s pr hct] at hc happ
      exact h o r hr (.inr (.inr ⟨c, hc, happ⟩))

theorem Recorded.setRel (h : Recorded s) {c : Cell Relation} (hr : s.rel o = .live r)
    (hc : ∀ r', c = .live r' → r'.returnList ≠ [] ∨ r'.returnList = r.returnList ∧ r'.pSema ≤ r.pSema) :
    Recorded (s.setRel o c) := by
  intro o' r' hr' hor
  obtain ⟨rfl, hlive⟩ | ⟨-, hr'⟩ := update_cases hr'
  · rcases hc r' hlive with hne | ⟨hl, hs⟩
    · exact hne
    · rw [hl]
      exact h o' r hr (hor.imp_left fun h0 => Nat.lt_of_lt_of_le h0 hs)
  · exact h o' r' hr' hor

theorem Recorded.move {t : State} (hl : (view s).Links) (h : Recorded s) (hm : Move s a t) : Recorded t := by
  cases hm with
  | @execute p awaited status r hpc hr =>
    -- nobody is a child of the new process
    have hnone : ∀ c, (s.proc c).pRel ≠ some s.nextTid := hl.next_no_child
    unfold Recorded at h ⊢
    simp only [threadCreate, State.goto, State.setProc]
    grind [update_apply, Pc.again, Pc.appended, newRelation]
  | executeFail _ | refuse _ _ => exact h
  | load _ _ | signal _ _ | signalFailed _ _ | execDown _ _ _ | execFailed _ _ _ | execDone _ _ _ =>
    exact Recorded.setProc (by exact h) rfl nofun nofun
  | wait _ _ hr | increment _ _ hr =>
    exact (h.setRel hr fun r' hr' => by cases hr'; exact .inr ⟨rfl, le_rfl⟩).setProc rfl nofun nofun
  | exit _ _ | waitNone _ _ _ | waitSome _ _ _ | waitFound _ _ _ | waitMissed _ _ _ | waitAgain _ _ _ | orphan _ _ _ _
  | unawaited _ _ _ _ => exact h.setProc rfl nofun nofun
  | @waitDown x tid r ret hpc hr h0 =>
    refine (h.setRel hr fun r' hr' => by cases hr'; exact .inr ⟨rfl, Nat.sub_le _ _⟩).setProc rfl ?_ nofun
    intro _ r' hr'
    cases (State.setRel_self _ _ _).symm.trans hr'
    exact h x r hr (.inl h0)
  | @append x o r hpc ho hr _ =>
    refine (h.setRel hr fun r' hr' => by cases hr'; exact .inl (by simp)).setProc rfl nofun ?_
    intro _ o' r' ho' hr'
    cases ho.symm.trans ho'
    cases (State.setRel_self _ _ _).symm.trans hr'
    simp
  | @awaited x o r hpc ho hr _ =>
    refine h.setProc rfl nofun fun _ o' r' ho' hr' => ?_
    exact h o' r' hr' (.inr (.inr ⟨x, ho', by rw [hpc]; rfl⟩))
  | @up x o r hpc ho hr =>
    have hne : r.returnList ≠ [] := h o r hr (.inr (.inr ⟨x, ho, by rw [hpc]; rfl⟩))
    exact (h.setRel hr fun r' hr' => by cases hr'; exact .inl hne).setProc rfl nofun nofun
  | leaveOwn _ hr | leaveParent _ _ hr =>
    exact (h.setRel hr fun r' hr' => .inr ((release_keeps hr').2.imp_right le_of_eq)).setProc rfl nofun nofun

theorem recorded_initial (awaited : ℤ) : Recorded (initial awaited) := by
  intro o r hr hor
  obtain rfl | ho := eq_or_ne o 1
  · have hr1 : Cell.live (newRelation awaited) = .live r := hr
    cases hr1
    rcases hor with h | h | ⟨c, hc, -⟩
    · cases h
    · cases h
    · by_cases hc1 : c = 1 <;> simp [initial, hc1] at hc
  · simp [initial, ho] at hr

theorem recorded_of_reach (h : processes.Reach s) : Recorded s := by
  induction h with
  | init hs =>
    obtain ⟨awaited, rfl⟩ := hs
    exact recorded_initial awaited
  | step hs hst ih => exact ih.move (ok_of_reach hs).toLinks (step_move hst)

theorem search_ne_none {tid : Tid} {l : List ChildReturn} {ret : Option ChildReturn} (h : l ≠ [] ∨ ret ≠ none) :
    (search tid l ret).2 ≠ none := by
  induction l generalizing ret with
  | nil => simpa [search] using h
  | cons c l ih =>
    unfold search
    split_ifs
    · simp
    · exact ih (.inr (by simp))

/-! ### No fault -/

theorem withParent_ne_fault {k : Tid → Relation → Outcome State}
    (h : ∃ o r, (s.proc x).pRel = some o ∧ s.rel o = .live r) (hk : ∀ o r, k o r ≠ .fault) :
    withParent s x k ≠ .fault := by
  obtain ⟨o, r, ho, hr⟩ := h
  simp only [withParent, ho, hr, Cell.access_live]
  exact hk o r

/-- A thread inside a function finds what it needs. -/
theorem advance_ne_fault (h : (view s).Ok) (hrec : Recorded s) (x : Tid) : advance s x ≠ .fault := by
  unfold advance
  split
  · rename_i success hpc
    exact withParent_ne_fault (start_live h hpc rfl) fun _ _ => nofun
  · rename_i success hpc
    refine Cell.access_ne_fault (early_live h hpc rfl) fun y _ => ?_
    cases success <;> nofun
  · rename_i child hpc
    refine Cell.access_ne_fault (expected_live h hpc (decide_eq_true rfl)) fun y _ => ?_
    split_ifs <;> nofun
  · rename_i child hpc
    refine Cell.access_ne_fault (expected_live h hpc (decide_eq_true rfl)) fun y _ => ?_
    split_ifs <;> nofun
  · rename_i tid hpc
    refine Cell.access_ne_fault (own_live h hpc rfl) fun r _ => ?_
    split_ifs <;> nofun
  · rename_i tid hpc
    refine Cell.access_ne_fault (own_live h hpc rfl) fun r _ => ?_
    split <;> nofun
  · rename_i tid ret hpc
    refine Cell.access_ne_fault (own_live h hpc rfl) fun r _ => ?_
    split_ifs <;> nofun
  · rename_i tid ret hpc
    refine Cell.access_ne_fault (own_live h hpc rfl) fun r hr => ?_
    -- somebody has been recorded, so that `returned_child` points somewhere
    have hne := hrec x r hr (.inr (.inl (by rw [hpc]; rfl)))
    split
    · nofun
    · rename_i hnone
      exact absurd hnone (search_ne_none (.inl hne))
  · rename_i hpc
    refine withParent_ne_fault (exit_live h hpc rfl rfl) fun o r => ?_
    split_ifs <;> nofun
  · rename_i hpc
    refine withParent_ne_fault (exit_live h hpc rfl rfl) fun o r => ?_
    split_ifs <;> nofun
  · rename_i hpc
    exact withParent_ne_fault (exit_live h hpc rfl rfl) fun _ _ => nofun
  · rename_i hpc
    exact Cell.access_ne_fault (own_live h hpc rfl) fun _ _ => nofun
  · rename_i hpc
    obtain ⟨o, r, ho, hr⟩ := exit_live h hpc rfl rfl
    simp only [ho]
    exact Cell.access_ne_fault ⟨r, hr⟩ fun _ _ => nofun
  all_goals nofun

/-- **No step touches what has been freed.** -/
theorem step_ne_fault (h : (view s).Ok) (hrec : Recorded s) (a : Act) : step s a ≠ .fault := by
  cases a with
  | execute p awaited status =>
    simp only [step]
    split_ifs with hpc
    · exact Cell.access_ne_fault (own_live h hpc rfl) fun _ _ => nofun
    · nofun
  | executeFail p | exit x status =>
    simp only [step]
    split_ifs <;> nofun
  | load c success =>
    simp only [step]
    split
    · rename_i hpc
      exact Cell.access_ne_fault (early_live h hpc rfl) fun _ _ => nofun
    · nofun
  | wait p tid =>
    simp only [step]
    split_ifs with hpc
    · unfold processWait
      split
      · nofun
      · exact Cell.access_ne_fault (own_live h hpc rfl) fun _ _ => nofun
    · nofun
  | advance x => exact advance_ne_fault h hrec x

/-! ### What is shared is freed once, and not too early -/

/-- The thread has decremented the count of its own relation. -/
def Pc.leftOwn : Pc → Bool
  | .exitParentRel | .dead => true
  | _ => false

/-- The thread has incremented the count of its parent's relation. -/
def Pc.joined : Pc → Bool
  | .unborn | .load | .increment _ => false
  | _ => true

theorem Pc.owning_iff (h : pc ≠ .unborn) : pc.phase.owning = true ↔ pc.leftOwn = false := by
  cases pc <;> simp_all [Pc.phase, Phase.owning, Pc.leftOwn]

theorem Pc.counted_iff (pc : Pc) : pc.phase.counted = true ↔ pc.joined = true ∧ pc ≠ .dead := by
  cases pc <;> simp [Pc.phase, Phase.counted, Pc.joined]

theorem Pc.phase_unborn : pc.phase = .unborn ↔ pc = .unborn := by
  cases pc <;> simp [Pc.phase]

/-- The children of `o` that have incremented the count of its relation and not decremented it. -/
theorem card_members (h : (view s).Ok) (o : Tid) : ((view s).members o).card =
      {c | (s.proc c).pRel = some o ∧ (s.proc c).pc.joined = true ∧ (s.proc c).pc ≠ .dead}.ncard := by
  rw [← Set.ncard_coe_finset]
  congr 1
  ext c
  simp only [Tree.members, Finset.coe_filter, Finset.mem_range, Set.mem_ofPred_eq, view, Pc.counted_iff]
  exact and_iff_right_of_imp fun hc => h.born (h.lineage c o hc.1).2.1

/-- A relation that was freed stays freed: only a live one is changed, and a new one is new. -/
theorem freed_move {t : State} (h : (view s).Ok) (hm : Move s a t) (ho : s.rel o = .freed) : t.rel o = .freed := by
  have hset : ∀ {o' r} (c : Cell Relation), s.rel o' = .live r → (s.setRel o' c).rel o = .freed := by
    intro o' r c hr
    have hne : o ≠ o' := by
      rintro rfl
      rw [ho] at hr
      cases hr
    rw [State.setRel_of_ne s c hne, ho]
  cases hm with
  | execute _ _ =>
    have hne : o ≠ s.nextTid := by
      rintro rfl
      have := (h.made s.nextTid).mpr (h.unborn _ le_rfl)
      simp [view, ho, Cell.map] at this
    exact (update_of_ne hne _ _).trans ho
  | wait _ _ hr | increment _ _ hr | waitDown _ hr _ | append _ _ hr _ | up _ _ hr | leaveOwn _ hr
  | leaveParent _ _ hr => exact hset _ hr
  | _ => exact ho

theorem freed_iff_users (h : (view s).Ok) (o : Tid) :
    s.rel o = .freed ↔ (s.proc o).pc ≠ .unborn ∧ (view s).users o = 0 := by
  have hmade : s.rel o = .unused ↔ (s.proc o).pc = .unborn := by
    rw [← Pc.phase_unborn, ← show _ ↔ (s.proc o).pc.phase = .unborn from h.made o]
    cases hr : s.rel o <;> simp [view, hr, Cell.map]
  cases hr : s.rel o with
  | unused => simp [hmade.mp hr]
  | live r =>
    have hright := h.right o _ (view_count hr)
    have hpos := h.used o _ (view_count hr)
    have hne : (view s).users o ≠ 0 := by omega
    simp [hne]
  | freed =>
    have hborn : (s.proc o).pc ≠ .unborn := fun hu => by simp [hmade.mpr hu] at hr
    refine iff_of_true rfl ⟨hborn, le_antisymm (not_lt.mp fun hpos => ?_) ((view s).users_nonneg o)⟩
    obtain ⟨r, hlive⟩ := live_of_users h hpos
    rw [hr] at hlive
    cases hlive

/-- A relation is freed when its owner and all the owner's children have left it, and not
before. A child that has not joined yet keeps it too, as its parent waits for it. -/
theorem freed_iff (h : (view s).Ok) (o : Tid) : s.rel o = .freed ↔
      (s.proc o).pc.leftOwn = true ∧ ∀ c, (s.proc c).pRel = some o → (s.proc c).pc = .dead := by
  rw [freed_iff_users h]
  constructor
  · rintro ⟨hborn, husers⟩
    unfold Tree.users at husers
    have hown : ((view s).phase o).owning = false := by
      by_contra hne
      rw [if_pos (by simpa using hne)] at husers
      omega
    have hleft : (s.proc o).pc.leftOwn = true := by
      by_contra hne
      have := (Pc.owning_iff hborn).mpr (by simpa using hne)
      rw [show (s.proc o).pc.phase.owning = false from hown] at this
      cases this
    refine ⟨hleft, fun c hc => ?_⟩
    by_contra hdead
    have hcb := h.lineage c o hc
    by_cases hjoined : (s.proc c).pc.joined = true
    · have hmem := card_filter_pos (p := fun c => (view s).parent c = some o ∧ ((view s).phase c).counted = true)
        (Finset.mem_range.mpr (h.born hcb.2.1)) ⟨hc, (Pc.counted_iff _).mpr ⟨hjoined, hdead⟩⟩
      unfold Tree.members at husers
      split_ifs at husers <;> omega
    · have hearly : ((view s).phase c).early = true := by
        have hne : (s.proc c).pc ≠ .unborn := fun hu => hcb.2.1 (Pc.phase_unborn.mpr hu)
        show (s.proc c).pc.phase.early = true
        cases hpc : (s.proc c).pc <;> simp_all [Pc.joined, Pc.phase, Phase.early]
      rw [h.handshake c o hc hearly] at hown
      cases hown
  · rintro ⟨hleft, hdead⟩
    have hborn : (s.proc o).pc ≠ .unborn := fun hu => by simp [hu, Pc.leftOwn] at hleft
    refine ⟨hborn, ?_⟩
    have hown : ((view s).phase o).owning ≠ true := fun hne => by
      rw [(Pc.owning_iff hborn).mp hne] at hleft
      cases hleft
    have hmem : (view s).members o = ∅ := by
      refine Finset.filter_eq_empty_iff.mpr fun c _ hc => ?_
      exact ((Pc.counted_iff _).mp hc.2).2 (hdead c hc.1)
    unfold Tree.users
    rw [if_neg hown, hmem]
    rfl

/-- **Relations are shared safely.** In every state of the process tree, the count of a relation
is one for its owner, until the owner has decremented it, and one for each child that has
incremented and not decremented it; a relation is freed when its owner and all the owner's
children have exited, not before, and once; and no step touches a freed one. -/
theorem relations_shared (s : State) (h : processes.Reach s) :
    (∀ o r, s.rel o = .live r →
      r.aliveCount = (if (s.proc o).pc.leftOwn then 0 else 1) +
        ({c | (s.proc c).pRel = some o ∧ (s.proc c).pc.joined = true ∧ (s.proc c).pc ≠ .dead}.ncard : ℤ)) ∧
    (∀ o, s.rel o = .freed ↔
      (s.proc o).pc.leftOwn = true ∧ ∀ c, (s.proc c).pRel = some o → (s.proc c).pc = .dead) ∧
    (∀ o a t, s.rel o = .freed → processes.step s a = .next t → t.rel o = .freed) ∧
    ∀ a, processes.step s a ≠ .fault := by
  have hok := ok_of_reach h
  refine ⟨fun o r hr => ?_, freed_iff hok, fun o a t ho hst => freed_move hok (step_move hst) ho,
    step_ne_fault hok (recorded_of_reach h)⟩
  have hborn : (s.proc o).pc ≠ .unborn := fun hu => by
    have := (hok.made o).mpr (Pc.phase_unborn.mpr hu)
    rw [view_count hr] at this
    cases this
  rw [hok.right o _ (view_count hr), ← card_members hok]
  unfold Tree.users
  by_cases hleft : (s.proc o).pc.leftOwn = true
  · rw [if_pos hleft, if_neg fun hown => by rw [(Pc.owning_iff hborn).mp hown] at hleft; cases hleft]
  · have hown : ((view s).phase o).owning = true := (Pc.owning_iff hborn).mpr (by simpa using hleft)
    rw [if_neg hleft, if_pos hown]

/-- The relation of a process whose load failed is freed when it is past its own decrement. -/
theorem relations_shared_failed_load :
    ∃ s, processes.Reach s ∧ s.rel 3 = .freed ∧ (s.proc 3).pc = .exitParentRel ∧
      ∀ a, processes.step s a ≠ .fault := by
  have hrun : ∃ s,
      processes.replay (initial 0) ([.execute 1 0 0, .load 3 false] ++ List.replicate 5 (.advance 3)) = .next s ∧
      s.rel 3 = .freed ∧ (s.proc 3).pc = .exitParentRel := ⟨_, rfl, rfl, rfl⟩
  obtain ⟨s, hs, hfreed, hpc⟩ := hrun
  have hinit : processes.Reach (initial 0) := .init ⟨0, rfl⟩
  have hreach := hinit.replay hs
  exact ⟨s, hreach, hfreed, hpc, (relations_shared s hreach).2.2.2⟩

end Pintos.Userprog
