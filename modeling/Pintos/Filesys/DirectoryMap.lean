import Mathlib.Data.Finmap
import Pintos.Basis.Transition
import Pintos.Filesys.Directory
import Pintos.Filesys.InodeFlat

/-!
# A directory is a finite map

A directory with room for `n` entries, seen from outside: a finite map from names of 1 to
`NAME_MAX` characters to the sectors of inodes, with at most `n` names (`specCall`). The
functions of `directory.c` implement it (**`directory_refines_map`**), on every inode layer
whose reads and writes are as they are to be, and whose `inode_open` succeeds (`Volume`).
In the file system itself this takes more: an entry must name the inode of a file, and no
other entry may name it. `Pintos.Filesys.Interface` has the functions there, with `Layer`.

The bytes of the directory are related to the map by `Binds`: each name of the map is in
one entry in use, with the sector. The loops go through the entries, and `Layer` says what
they find; what is left to show is that entries that are written keep the relation, and
that there is an entry to write exactly when there are less than `n` names.
-/

namespace Pintos.Filesys

open Memory Lib Program

/-- A map from names to sectors. -/
abbrev DirMap := Finmap fun _ : List UInt8 => ℕ

/-! ### The specification -/

/-- A call on a directory. -/
inductive DirCall where
  /-- `dir_add`. -/
  | add (name : List UInt8) (inodeSector : ℕ)
  /-- `dir_remove`. -/
  | remove (name : List UInt8)
  /-- `dir_lookup`. -/
  | lookup (name : List UInt8)

/-- The arguments of a call: a name is a string, and a sector is a word. -/
def DirCall.valid : DirCall → Bool
  | .add name inodeSector => !name.contains 0 && decide (inodeSector < 2 ^ 32)
  | .remove name => !name.contains 0
  | .lookup name => !name.contains 0

/-- What a call returns: whether it succeeded, and what was found. -/
structure DirResult (α : Type) where
  /-- The return value. -/
  success : Bool
  /-- For `dir_lookup`, what was found. -/
  found : Option α

instance (name : List UInt8) : Decidable (ValidName name) := inferInstanceAs (Decidable (_ ∧ _))

/-- **What a directory is for**: the result of a call on a map with room for `n` names, with the
sector that was found, and the map after it. -/
def specCall (n : ℕ) (m : DirMap) : DirCall → DirResult ℕ × DirMap
  | .add name inodeSector =>
    if ValidName name ∧ name ∉ m ∧ m.keys.card < n then (⟨true, none⟩, m.insert name inodeSector) else (⟨false, none⟩, m)
  | .remove name => if name ∈ m then (⟨true, none⟩, m.erase name) else (⟨false, none⟩, m)
  | .lookup name => (⟨(m.lookup name).isSome, m.lookup name⟩, m)

variable {σ : Type}

/-- A call of `directory.c`, with the inode that was found. -/
def runCall (ops : InodeOps σ) (dir : Dir) : DirCall → Program σ Panic (DirResult ℕ)
  | .add name inodeSector => do return ⟨← ops.dirAdd dir name inodeSector, none⟩
  | .remove name => do return ⟨← ops.dirRemove dir name, none⟩
  | .lookup name => do
    let inode ← ops.dirLookup dir name
    return ⟨inode.isSome, inode⟩

/-! ### The inode layer -/

/-- An inode layer with a directory of `n` entries: in the states of `J c` its bytes are `c`. Its
reads and writes are as they are to be, `inode_open` succeeds for the sectors of the entries, and an
inode that was opened for one can be removed and closed without a change to the directory;
`Opened x a` are the states in which `a` is an open inode for sector `x`. -/
structure Volume (ops : InodeOps σ) (inode n : ℕ) (J : Bytes → σ → Prop) (Opened : ℕ → ℕ → σ → Prop) : Prop where
  /-- Reads and writes. -/
  layer : Layer ops Never inode n True J
  /-- They leave an inode open. -/
  held : ∀ x a, Layer ops Never inode n True fun c s => J c s ∧ Opened x a s
  opens : ∀ c s x, J c s → (∃ k < n, ∃ name, slot c k = some (name, x)) →
    Ends Never (ops.inodeOpen x) s fun r t => J c t ∧ ∃ a, r = some a ∧ Opened x a t
  removes : ∀ c s x a, J c s ∧ Opened x a s →
    Ends Never (ops.inodeRemove a) s fun _ t => J c t ∧ Opened x a t
  closes : ∀ c s x a, J c s ∧ Opened x a s → Ends Never (ops.inodeClose (some a)) s fun _ t => J c t

/-! ### The bytes and the map -/

/-- **The bytes of a directory are a map.** -/
structure Binds (c : Bytes) (n : ℕ) (m : DirMap) : Prop where
  /-- A name has the sector of its entry. -/
  lookup : ∀ name x, m.lookup name = some x ↔ ∃ k < n, slot c k = some (name, x)
  /-- A name has one entry. -/
  once : ∀ k l, k < n → l < n → ∀ name x y, slot c k = some (name, x) → slot c l = some (name, y) → k = l
  /-- The names are those that can be added. -/
  valid : ∀ name ∈ m, ValidName name

variable {c : Bytes} {n : ℕ} {m : DirMap} {name : List UInt8} {x k : ℕ}

theorem Binds.mem_iff (h : Binds c n m) : name ∈ m ↔ ∃ k < n, ∃ x, slot c k = some (name, x) := by
  rw [Finmap.mem_iff]
  constructor
  · rintro ⟨x, hx⟩
    obtain ⟨k, hk, hslot⟩ := (h.lookup name x).mp hx
    exact ⟨k, hk, x, hslot⟩
  · rintro ⟨k, hk, x, hslot⟩
    exact ⟨x, (h.lookup name x).mpr ⟨k, hk, hslot⟩⟩

theorem Binds.terminated (h : Binds c n m) : Terminated c n := fun k hk name x hslot =>
  (h.valid name (h.mem_iff.mpr ⟨k, hk, x, hslot⟩)).2

theorem binds_empty (hzero : ∀ j < 20 * n, c j = 0) : Binds c n ∅ := by
  have hnone : ∀ k < n, slot c k = none := by
    intro k hk
    unfold slot entrySlot entryInUse entry
    rw [hzero _ (by omega)]
    rfl
  refine ⟨fun name x => ?_, fun k l hk _ name x y hslot => ?_, fun name hmem => absurd hmem Finmap.notMem_empty⟩
  · refine ⟨nofun, ?_⟩
    rintro ⟨k, hk, hslot⟩
    rw [hnone k hk] at hslot
    cases hslot
  · rw [hnone k hk] at hslot
    cases hslot

/-- The names are as many as the entries in use. -/
theorem Binds.card_keys (h : Binds c n m) : m.keys.card = ((Finset.range n).filter fun k => slot c k ≠ none).card := by
  refine (Finset.card_bij (fun k _ => ((slot c k).map Prod.fst).getD []) ?_ ?_ ?_).symm
  · intro k hk
    obtain ⟨hk, hused⟩ := Finset.mem_filter.mp hk
    obtain ⟨⟨name, x⟩, hslot⟩ := Option.ne_none_iff_exists'.mp hused
    rw [hslot, Finmap.mem_keys]
    exact h.mem_iff.mpr ⟨k, Finset.mem_range.mp hk, x, hslot⟩
  · intro k hk l hl heq
    obtain ⟨hk, hused⟩ := Finset.mem_filter.mp hk
    obtain ⟨hl, hused'⟩ := Finset.mem_filter.mp hl
    obtain ⟨⟨name, x⟩, hslot⟩ := Option.ne_none_iff_exists'.mp hused
    obtain ⟨⟨name', y⟩, hslot'⟩ := Option.ne_none_iff_exists'.mp hused'
    rw [hslot, hslot'] at heq
    obtain rfl : name = name' := heq
    exact h.once k l (Finset.mem_range.mp hk) (Finset.mem_range.mp hl) name x y hslot hslot'
  · intro name hname
    obtain ⟨k, hk, x, hslot⟩ := h.mem_iff.mp (Finmap.mem_keys.mp hname)
    refine ⟨k, Finset.mem_filter.mpr ⟨Finset.mem_range.mpr hk, ?_⟩, ?_⟩
    · rw [hslot]
      nofun
    · rw [hslot]
      rfl

/-- There is room for a name when there is an entry that is not in use. -/
theorem Binds.card_keys_lt_iff (h : Binds c n m) : m.keys.card < n ↔ ∃ k < n, slot c k = none := by
  rw [h.card_keys]
  constructor
  · intro hlt
    by_contra hall
    have hfilter : (Finset.range n).filter (fun k => slot c k ≠ none) = Finset.range n := by
      refine Finset.filter_true_of_mem fun k hk hnone => hall ⟨k, Finset.mem_range.mp hk, hnone⟩
    rw [hfilter, Finset.card_range] at hlt
    exact Nat.lt_irrefl n hlt
  · rintro ⟨k, hk, hnone⟩
    refine (Finset.card_lt_card (Finset.filter_ssubset.mpr ⟨k, Finset.mem_range.mpr hk, ?_⟩)).trans_eq
      (Finset.card_range n)
    exact fun hne => hne hnone

theorem Binds.add (h : Binds c n m) (hvalid : ValidName name) (hk : k < n) (hfree : slot c k = none) (habsent : name ∉ m)
    {e : Bytes} (he : entrySlot e = some (name, x)) : Binds (copy c (20 * k) e 0 20) n (m.insert name x) := by
  have hslot : ∀ l, slot (copy c (20 * k) e 0 20) l = if l = k then some (name, x) else slot c l := by
    intro l
    rw [slot_write, he, Function.update_apply]
  have hother : ∀ l < n, ∀ y, slot c l ≠ some (name, y) := fun l hl y hy => habsent (h.mem_iff.mpr ⟨l, hl, y, hy⟩)
  refine ⟨fun name' y => ?_, fun l l' hl hl' name' y y' hy hy' => ?_, fun name' hmem => ?_⟩
  · obtain rfl | hname := eq_or_ne name' name
    · rw [Finmap.lookup_insert]
      constructor
      · intro hy
        exact ⟨k, hk, by rw [hslot, if_pos rfl, Option.some.inj hy]⟩
      · rintro ⟨l, hl, hy⟩
        rw [hslot] at hy
        split at hy
        · exact congrArg some (Prod.mk.inj (Option.some.inj hy)).2
        · exact absurd hy (hother l hl y)
    · rw [Finmap.lookup_insert_of_ne _ hname, h.lookup]
      refine exists_congr fun l => and_congr_right fun hl => ?_
      rw [hslot]
      split
      · rename_i hlk
        rw [hlk, hfree]
        exact ⟨nofun, fun hy => absurd (Prod.mk.inj (Option.some.inj hy)).1.symm hname⟩
      · exact Iff.rfl
  · rw [hslot] at hy hy'
    split at hy <;> split at hy'
    · rename_i hlk hlk'
      rw [hlk, hlk']
    · obtain ⟨rfl, rfl⟩ := Prod.mk.inj (Option.some.inj hy)
      exact absurd hy' (hother l' hl' y')
    · obtain ⟨rfl, rfl⟩ := Prod.mk.inj (Option.some.inj hy')
      exact absurd hy (hother l hl y)
    · exact h.once l l' hl hl' name' y y' hy hy'
  · obtain rfl | hmem := Finmap.mem_insert.mp hmem
    · exact hvalid
    · exact h.valid name' hmem

theorem Binds.remove (h : Binds c n m) (hk : k < n) (hslotk : slot c k = some (name, x)) {e : Bytes}
    (he : entrySlot e = none) : Binds (copy c (20 * k) e 0 20) n (m.erase name) := by
  have hslot : ∀ l, slot (copy c (20 * k) e 0 20) l = if l = k then none else slot c l := by
    intro l
    rw [slot_write, he, Function.update_apply]
  refine ⟨fun name' y => ?_, fun l l' hl hl' name' y y' hy hy' => ?_, fun name' hmem => ?_⟩
  · obtain rfl | hname := eq_or_ne name' name
    · rw [Finmap.lookup_erase]
      refine ⟨nofun, ?_⟩
      rintro ⟨l, hl, hy⟩
      rw [hslot] at hy
      split at hy
      · cases hy
      · rename_i hlk
        exact absurd (h.once l k hl hk name' y x hy hslotk) hlk
    · rw [Finmap.lookup_erase_ne hname, h.lookup]
      refine exists_congr fun l => and_congr_right fun hl => ?_
      rw [hslot]
      split
      · rename_i hlk
        rw [hlk, hslotk]
        exact ⟨fun hy => absurd (Prod.mk.inj (Option.some.inj hy)).1.symm hname, nofun⟩
      · exact Iff.rfl
  · rw [hslot] at hy hy'
    split at hy
    · cases hy
    · split at hy'
      · cases hy'
      · exact h.once l l' hl hl' name' y y' hy hy'
  · exact h.valid name' (Finmap.mem_erase.mp hmem).2

/-! ### The calls -/

section Calls

variable {ops : InodeOps σ} {dir : Dir} {J : Bytes → σ → Prop} {Opened : ℕ → ℕ → σ → Prop} {s : σ}

/-- A call does what the map says: it succeeds when it is to, the inode it finds is that of the
sector, and the bytes are the new map. -/
def Agrees (n : ℕ) (J : Bytes → σ → Prop) (Opened : ℕ → ℕ → σ → Prop) (spec : DirResult ℕ × DirMap)
    (r : DirResult ℕ) (t : σ) : Prop :=
  r.success = spec.1.success ∧ Option.Rel (fun x a => Opened x a t) spec.1.found r.found ∧
    ∃ c, J c t ∧ Binds c n spec.2

variable (h : Volume ops dir.inode n J Opened) (hs : J c s) (hb : Binds c n m)
include h hs hb

section

variable (hname : (0 : UInt8) ∉ name)
include hname

theorem Volume.dirAdd_agrees (hx : x < 2 ^ 32) :
    Ends Never (runCall ops dir (.add name x)) s (Agrees n J Opened (specCall n m (.add name x))) := by
  refine .bind (h.layer.dirAdd_ends hs hb.terminated hname hx) ?_
  rintro _ t (⟨hvalid, hk, hfree, hentry, ht⟩ | ⟨hwhy, ht⟩)
  · obtain ⟨hnone, hother⟩ := hfree trivial
    have habsent : name ∉ m := fun hmem => by
      obtain ⟨l, hl, y, hy⟩ := hb.mem_iff.mp hmem
      exact hother l hl y hy
    have hroom : m.keys.card < n := hb.card_keys_lt_iff.mpr ⟨_, hk, hnone⟩
    rw [specCall, if_pos ⟨hvalid, habsent, hroom⟩]
    exact .pure ⟨rfl, .none, _, ht, hb.add hvalid hk hnone habsent hentry⟩
  · have hnot : ¬ (ValidName name ∧ name ∉ m ∧ m.keys.card < n) := by
      rintro ⟨hvalid, habsent, hroom⟩
      obtain ⟨l, hl, y, hy⟩ | hfull := hwhy trivial hvalid
      · exact habsent (hb.mem_iff.mpr ⟨l, hl, y, hy⟩)
      · obtain ⟨k, hk, hnone⟩ := hb.card_keys_lt_iff.mp hroom
        exact hfull k hk hnone
    rw [specCall, if_neg hnot]
    exact .pure ⟨rfl, .none, c, ht, hb⟩

theorem Volume.lookup_agrees :
    Ends Never (ops.lookup dir name) s fun r t => J c t ∧
      ((∃ e k x, r = some (e, 20 * k) ∧ k < n ∧ slot c k = some (name, x) ∧ entrySector e = x ∧ m.lookup name = some x) ∨
        (r = none ∧ m.lookup name = none)) := by
  refine ((h.layer.reads c).lookup_ends hb.terminated hname hs).mono ?_
  rintro r t ⟨ht, hfound⟩
  refine ⟨ht, ?_⟩
  cases r with
  | none =>
    refine .inr ⟨rfl, Finmap.lookup_eq_none.mpr fun hmem => ?_⟩
    obtain ⟨l, hl, y, hy⟩ := hb.mem_iff.mp hmem
    exact hfound trivial l (Nat.zero_le l) hl y hy
  | some r =>
    obtain ⟨e, ofs⟩ := r
    obtain ⟨k, rfl, -, hk, hbytes, ⟨x, hx⟩, -⟩ := hfound
    exact .inl ⟨e, k, x, rfl, hk, hx, entrySector_of_slot hbytes hx, (hb.lookup name x).mpr ⟨k, hk, hx⟩⟩

theorem Volume.dirLookup_agrees :
    Ends Never (runCall ops dir (.lookup name)) s (Agrees n J Opened (specCall n m (.lookup name))) := by
  refine .bind (R := fun r t => (m.lookup name).isSome = r.isSome ∧
    Option.Rel (fun x a => Opened x a t) (m.lookup name) r ∧ J c t) ?_ ?_
  · refine .bind (h.lookup_agrees hs hb hname) ?_
    rintro _ t ⟨ht, ⟨e, k, x, rfl, hk, hslot, hsector, hlookup⟩ | ⟨rfl, hlookup⟩⟩
    · rw [hlookup]
      show Ends _ (ops.inodeOpen (entrySector e)) t _
      rw [hsector]
      refine (h.opens c t x ht ⟨k, hk, name, hslot⟩).mono ?_
      rintro _ u ⟨hu, a, rfl, hopened⟩
      exact ⟨rfl, .some hopened, hu⟩
    · rw [hlookup]
      exact .pure ⟨rfl, .none, ht⟩
  · rintro r t ⟨hsome, hrel, ht⟩
    exact .pure ⟨hsome.symm, hrel, c, ht, hb⟩

theorem Volume.dirRemove_agrees :
    Ends Never (runCall ops dir (.remove name)) s (Agrees n J Opened (specCall n m (.remove name))) := by
  refine .bind (R := fun r t => r = decide (name ∈ m) ∧ ∃ c, J c t ∧
    Binds c n (if name ∈ m then m.erase name else m)) ?_ ?_
  · refine .bind (h.lookup_agrees hs hb hname) ?_
    rintro _ t ⟨ht, ⟨e, k, x, rfl, hk, hslot, hsector, hlookup⟩ | ⟨rfl, hlookup⟩⟩
    · have hmem : name ∈ m := Finmap.mem_of_lookup_eq_some hlookup
      rw [if_pos hmem]
      refine .bind (h.opens c t _ ht ⟨k, hk, name, hsector ▸ hslot⟩) ?_
      rintro _ u ⟨hu, a, rfl, hopened⟩
      refine .bind ((h.held _ a).write c u (Function.update e 19 0) k ⟨hu, hopened⟩ hk.le) ?_
      rintro r v (⟨-, rfl, hv⟩ | ⟨-, -, hend⟩)
      · refine .bind (h.removes _ v _ a hv) fun _ w hw => ?_
        refine .bind (h.closes _ w _ a hw) fun _ z hz => ?_
        exact .pure ⟨(decide_eq_true hmem).symm, _, hz, hb.remove hk hslot (entrySlot_clear e)⟩
      · have := hend trivial
        omega
    · have hmem : name ∉ m := Finmap.lookup_eq_none.mp hlookup
      rw [if_neg hmem]
      exact .pure ⟨(decide_eq_false hmem).symm, c, ht, hb⟩
  · rintro _ t ⟨rfl, c', ht, hb'⟩
    rw [specCall]
    split at hb'
    · rename_i hmem
      rw [if_pos hmem, decide_eq_true hmem]
      exact ⟨rfl, .none, c', ht, hb'⟩
    · rename_i hmem
      rw [if_neg hmem, decide_eq_false hmem]
      exact ⟨rfl, .none, c', ht, hb'⟩

end

/-- **Every call does what the map says.** -/
theorem Volume.runCall_agrees {call : DirCall} (hv : call.valid = true) :
    Ends Never (runCall ops dir call) s (Agrees n J Opened (specCall n m call)) := by
  cases call with
  | add name x =>
    simp only [DirCall.valid, Bool.and_eq_true, decide_eq_true_eq] at hv
    exact h.dirAdd_agrees hs hb (by simpa using hv.1) hv.2
  | remove name => exact h.dirRemove_agrees hs hb (by simpa [DirCall.valid] using hv)
  | lookup name => exact h.dirLookup_agrees hs hb (by simpa [DirCall.valid] using hv)

end Calls

/-! ### All runs -/

/-- All runs of a directory that was created with zeros, and of the map beside it. -/
def directory (ops : InodeOps σ) (dir : Dir) (n : ℕ) (J : Bytes → σ → Prop) : System (σ × DirMap) DirCall where
  init p := (∃ c, J c p.1 ∧ ∀ j < 20 * n, c j = 0) ∧ p.2 = ∅
  step p call :=
    if call.valid then
      match runCall ops dir call p.1 with
      | .ok (_, t) => .next (t, (specCall n p.2 call).2)
      | .error _ => .fault
    else .disabled

/-- **A directory is a finite map**: after any calls its bytes are the map that the calls give, and
each call returns what it returns on the map. -/
theorem directory_refines_map {ops : InodeOps σ} {dir : Dir} {J : Bytes → σ → Prop} {Opened : ℕ → ℕ → σ → Prop}
    (h : Volume ops dir.inode n J Opened) {s : σ} (hr : (directory ops dir n J).Reach (s, m)) :
    (∃ c, J c s ∧ Binds c n m) ∧
    ∀ call : DirCall, call.valid = true →
      ∃ r t, runCall ops dir call s = .ok (r, t) ∧ Agrees n J Opened (specCall n m call) r t := by
  have hinv : ∃ c, J c s ∧ Binds c n m := by
    refine hr.invariant (P := fun p => ∃ c, J c p.1 ∧ Binds c n p.2) ?_ ?_
    · rintro ⟨s, m⟩ ⟨⟨c, hs, hzero⟩, rfl⟩
      exact ⟨c, hs, binds_empty hzero⟩
    · rintro ⟨s, m⟩ call ⟨t, m'⟩ ⟨c, hs, hb⟩ hstep
      obtain ⟨hv, hstep⟩ := Outcome.ite_eq_next.mp hstep
      split at hstep
      · rename_i r u hrun
        cases hstep
        exact ((h.runCall_agrees hs hb hv).of_ok hrun).2.2
      · cases hstep
  refine ⟨hinv, fun call hv => ?_⟩
  obtain ⟨c, hs, hb⟩ := hinv
  exact (h.runCall_agrees hs hb hv).returns

/-! ### A flat inode layer -/

/-- The inode layer that has a file of `n` entries and nothing else: an open inode is its sector. -/
def flatOps (n : ℕ) : InodeOps Bytes where
  readAt _ buffer size offset := do
    let f ← get
    let cnt := flatCount (20 * n) size.toNat offset.toNat
    return (cnt, copy buffer 0 f offset.toNat cnt)
  writeAt _ buffer size offset := do
    let cnt := flatCount (20 * n) size.toNat offset.toNat
    modify fun f => copy f offset.toNat buffer 0 cnt
    return cnt
  inodeLength _ := return (20 * n : ℕ)
  inodeOpen x := return some x
  inodeRemove _ := return ()
  inodeClose _ := return ()
  uninit := return fun _ => 0

theorem flatOps_layer (n inode : ℕ) : Layer (flatOps n) Never inode n True fun c s => s = c := by
  have hcount : ∀ k, flatCount (20 * n) (20 : ℤ).toNat ((20 * k : ℕ) : ℤ).toNat = min 20 (20 * n - 20 * k) := fun _ => rfl
  refine ⟨fun c => ⟨?_, ?_, ?_⟩, ?_⟩
  · rintro s rfl
    exact ⟨rfl, rfl⟩
  · rintro s rfl
    rfl
  · rintro s e k rfl hk
    refine .get_bind (.pure ⟨rfl, ?_⟩)
    rw [hcount]
    obtain hlt | rfl := Nat.lt_or_eq_of_le hk
    · rw [show min 20 (20 * n - 20 * k) = 20 by omega]
      exact .inl ⟨hlt, rfl⟩
    · rw [Nat.sub_self, Nat.min_zero]
      exact .inr ⟨nofun, fun _ => rfl⟩
  · rintro c s e k rfl hk
    refine .modify_bind (.pure ?_)
    rw [hcount]
    obtain hlt | rfl := Nat.lt_or_eq_of_le hk
    · rw [show min 20 (20 * n - 20 * k) = 20 by omega]
      exact .inl ⟨hlt, rfl, rfl⟩
    · rw [Nat.sub_self, Nat.min_zero]
      exact .inr ⟨nofun, copy_zero _ _ _ _, fun _ => rfl⟩

theorem flatOps_volume (n inode : ℕ) : Volume (flatOps n) inode n (fun c s => s = c) fun x a _ => x = a where
  layer := flatOps_layer n inode
  held x a := by
    by_cases hxa : x = a
    · simpa only [hxa, and_true] using flatOps_layer n inode
    · exact ⟨fun c => ⟨fun s hs => absurd hs.2 hxa, fun s hs => absurd hs.2 hxa, fun s e k hs => absurd hs.2 hxa⟩,
        fun c s e k hs => absurd hs.2 hxa⟩
  opens _ _ x hs _ := ⟨hs, x, rfl, rfl⟩
  removes _ _ _ _ hs := hs
  closes _ _ _ _ hs := hs.1

theorem directory_refines_map_found : ∃ s : Bytes,
    (directory (flatOps 2) ⟨0, 0⟩ 2 fun c s => s = c).Reach (s, (∅ : DirMap).insert [97] 5) ∧
    ∃ r t, runCall (flatOps 2) ⟨0, 0⟩ (.lookup [97]) s = .ok (r, t) ∧ r.success = true := by
  have hvolume := flatOps_volume 2 (⟨0, 0⟩ : Dir).inode
  have hinit : (directory (flatOps 2) ⟨0, 0⟩ 2 fun c s => s = c).Reach (fun _ => 0, ∅) :=
    .init ⟨⟨_, rfl, fun _ _ => rfl⟩, rfl⟩
  obtain ⟨r, t, hrun, -⟩ := (directory_refines_map hvolume hinit).2 (.add [97] 5) (by decide)
  have hreach : (directory (flatOps 2) ⟨0, 0⟩ 2 fun c s => s = c).Reach (t, (∅ : DirMap).insert [97] 5) := by
    refine .step (a := .add [97] 5) hinit ?_
    simp only [directory, hrun]
    rfl
  obtain ⟨r, u, hrun, hsuccess, -⟩ := (directory_refines_map hvolume hreach).2 (.lookup [97]) (by decide)
  refine ⟨t, hreach, r, u, hrun, hsuccess.trans ?_⟩
  rfl

end Pintos.Filesys
