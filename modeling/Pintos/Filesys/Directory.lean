import Pintos.Basis.Program
import Pintos.Filesys.Inode
import Pintos.Lib.String

/-!
# Directories

`filesys/directory.c`: a directory is a file of entries, each with a name, the sector of
an inode, and a flag that says whether it is in use. The functions go through the
entries with `inode_read_at` and `inode_write_at`.

## The model

The functions are programs over the functions of `inode.c` that they call (`InodeOps`),
on any state. An entry is 20 bytes: the sector, 15 characters of the name, `in_use`. A
loop over the entries is bounded by the number of entries and one more round, in which
the reading fails. A local variable that is not set holds what `uninit` returns.

## What is proved

What the loops that read find, on a file whose reads are as `Reads` says:
`lookup` finds the first entry with the name (`lookup_ends`), and `dir_add` looks for the
first entry that is not in use (`slotLoop_ends`). When a read may fail for want of memory
(not `full`) they may find nothing, or end at an entry that is in use.
-/

namespace Pintos.Filesys

open Function Lib Memory Program

/-! ### The model -/

/-- The functions of `inode.c` that `directory.c` calls. -/
structure InodeOps (σ : Type) where
  /-- `inode_read_at`: the number of bytes, and the buffer. -/
  readAt : ℕ → Bytes → ℤ → ℤ → Program σ Panic (ℤ × Bytes)
  /-- `inode_write_at`. -/
  writeAt : ℕ → Bytes → ℤ → ℤ → Program σ Panic ℤ
  inodeLength : ℕ → Program σ Panic ℤ
  inodeOpen : ℕ → Program σ Panic (Option ℕ)
  inodeRemove : ℕ → Program σ Panic Unit
  inodeClose : Option ℕ → Program σ Panic Unit
  /-- What a local variable holds before it is set. -/
  uninit : Program σ Panic Bytes

structure Dir where
  /-- The directory's inode. -/
  inode : ℕ
  /-- The current position. -/
  pos : ℤ
  deriving DecidableEq

def NAME_MAX : ℕ := 14

def entrySector (e : Bytes) : ℕ := word e 0

def entryName (e : Bytes) : List UInt8 := readStr e 4 (NAME_MAX + 1)

def entryInUse (e : Bytes) : Bool := e 19 != 0

namespace InodeOps

variable {σ : Type} (ops : InodeOps σ)

/-- The rounds of a loop over the entries. -/
def rounds (dir : Dir) : Program σ Panic ℕ := do
  return (← ops.inodeLength dir.inode).toNat / 20 + 1

/-- The loop of `lookup`. -/
def lookupLoop (dir : Dir) (name : List UInt8) : (fuel ofs : ℕ) → Bytes → Program σ Panic (Option (Bytes × ℕ))
  | 0, _, _ => throw .diverges
  | fuel + 1, ofs, e => do
    let (n, e) ← ops.readAt dir.inode e 20 ofs
    if n = 20 then
      if entryInUse e ∧ strcmpEq e 4 name then return some (e, ofs) else lookupLoop dir name fuel (ofs + 20) e
    else return none

/-- `lookup`: the entry, and its offset. -/
def lookup (dir : Dir) (name : List UInt8) : Program σ Panic (Option (Bytes × ℕ)) := do
  ops.lookupLoop dir name (← ops.rounds dir) 0 (← ops.uninit)

/-- `dir_lookup`: the inode. -/
def dirLookup (dir : Dir) (name : List UInt8) : Program σ Panic (Option ℕ) := do
  match ← ops.lookup dir name with
  | some (e, _) => ops.inodeOpen (entrySector e)
  | none => return none

/-- The loop of `dir_add` that looks for a free slot: its offset, and the local variable `e`. -/
def slotLoop (dir : Dir) : (fuel ofs : ℕ) → Bytes → Program σ Panic (ℕ × Bytes)
  | 0, _, _ => throw .diverges
  | fuel + 1, ofs, e => do
    let (n, e) ← ops.readAt dir.inode e 20 ofs
    if n = 20 then
      if entryInUse e then slotLoop dir fuel (ofs + 20) e else return (ofs, e)
    else return (ofs, e)

/-- `e` with `in_use`, the name and the sector set. -/
def fillEntry (e : Bytes) (name : List UInt8) (inodeSector : ℕ) : Bytes :=
  putWord (strlcpy (update e 19 1) 4 name (NAME_MAX + 1)) 0 inodeSector

def dirAdd (dir : Dir) (name : List UInt8) (inodeSector : ℕ) : Program σ Panic Bool :=
  if name = [] ∨ NAME_MAX < name.length then return false
  else do
    match ← ops.lookup dir name with
    | some _ => return false
    | none =>
      let (ofs, e) ← ops.slotLoop dir (← ops.rounds dir) 0 (← ops.uninit)
      return (← ops.writeAt dir.inode (fillEntry e name inodeSector) 20 ofs) == 20

def dirRemove (dir : Dir) (name : List UInt8) : Program σ Panic Bool := do
  match ← ops.lookup dir name with
  | none => return false
  | some (e, ofs) =>
    match ← ops.inodeOpen (entrySector e) with
    | none => return false
    | some inode =>
      if (← ops.writeAt dir.inode (update e 19 0) 20 ofs) = 20 then
        ops.inodeRemove inode
        ops.inodeClose (some inode)
        return true
      else
        ops.inodeClose (some inode)
        return false

end InodeOps

/-! ### Entries -/

/-- Entry `k` of a directory with the bytes `c`. -/
def entry (c : Bytes) (k : ℕ) : Bytes := fun j => c (20 * k + j)

/-- What an entry says: the name and the sector. -/
def entrySlot (e : Bytes) : Option (List UInt8 × ℕ) :=
  if entryInUse e then some (entryName e, entrySector e) else none

/-- What entry `k` says. -/
def slot (c : Bytes) (k : ℕ) : Option (List UInt8 × ℕ) := entrySlot (entry c k)

/-- The names that are in use end within their entries. -/
def Terminated (c : Bytes) (n : ℕ) : Prop := ∀ k < n, ∀ name x, slot c k = some (name, x) → name.length ≤ NAME_MAX

theorem readStr_congr {m m' : Bytes} {a : ℕ} (bound : ℕ) (h : ∀ j < bound, m (a + j) = m' (a + j)) :
    readStr m a bound = readStr m' a bound := by
  induction bound generalizing a with
  | zero => rfl
  | succ bound ih =>
    have h0 := h 0 (by omega)
    rw [Nat.add_zero] at h0
    rw [readStr, readStr, h0, ih fun j hj => ?_]
    have := h (j + 1) (by omega)
    rwa [Nat.add_comm j 1, ← Nat.add_assoc] at this

theorem entrySlot_congr {e e' : Bytes} (h : ∀ j < 20, e j = e' j) : entrySlot e = entrySlot e' := by
  have hname : entryName e = entryName e' := by
    refine readStr_congr _ fun j hj => h _ ?_
    have : NAME_MAX + 1 = 15 := rfl
    omega
  have hsector : entrySector e = entrySector e' := by
    refine word_congr fun j hj => ?_
    rw [Nat.zero_add]
    exact h j (by omega)
  unfold entrySlot entryInUse
  rw [h 19 (by omega), hname, hsector]

variable {name : List UInt8} {c : Bytes}

theorem entrySector_of_slot {e : Bytes} {k x : ℕ} (he : ∀ j < 20, e j = entry c k j)
    (hslot : slot c k = some (name, x)) : entrySector e = x := by
  have hslot : entrySlot e = some (name, x) := (entrySlot_congr he).trans hslot
  unfold entrySlot at hslot
  split at hslot
  · exact (Prod.mk.inj (Option.some.inj hslot)).2
  · cases hslot

theorem matches_iff {e : Bytes} {k n : ℕ} (hterm : Terminated c n) (hk : k < n)
    (hname : (0 : UInt8) ∉ name) (he : ∀ j < 20, e j = entry c k j) :
    (entryInUse e ∧ strcmpEq e 4 name) ↔ ∃ x, slot c k = some (name, x) := by
  have hslot : slot c k = entrySlot e := entrySlot_congr fun j hj => (he j hj).symm
  unfold entrySlot at hslot
  rw [strcmpEq_iff hname, hslot]
  by_cases huse : entryInUse e = true
  · rw [if_pos huse] at hslot ⊢
    have hlen := hterm k hk _ _ hslot
    have hstr : StrAt e 4 (entryName e) := strAt_readStr (Nat.lt_succ_of_le hlen)
    constructor
    · rintro ⟨-, hat⟩
      exact ⟨entrySector e, by rw [hstr.unique hat]⟩
    · rintro ⟨x, hx⟩
      rw [Option.some.injEq, Prod.mk.injEq] at hx
      exact ⟨huse, hx.1 ▸ hstr⟩
  · rw [if_neg huse]
    exact ⟨fun h => absurd h.1 huse, fun h => by obtain ⟨x, hx⟩ := h; cases hx⟩

/-! ### Reading a directory -/

/-- How the reads of a directory of `n` entries with the bytes `c` go, in the states of `I`: they
read an entry, or fail at the end, or fail for want of memory when it is not `full`. -/
structure Reads {σ : Type} (ops : InodeOps σ) (E : Panic → Prop) (inode n : ℕ) (c : Bytes) (full : Prop)
    (I : σ → Prop) : Prop where
  /-- The number of entries. -/
  length : ∀ s, I s → Ends E (ops.inodeLength inode) s fun r t => r = (20 * n : ℕ) ∧ I t
  /-- A variable that is not set. -/
  uninit : ∀ s, I s → Ends E ops.uninit s fun _ t => I t
  /-- A read at an entry or at the end. -/
  read : ∀ s e k, I s → k ≤ n → Ends E (ops.readAt inode e 20 (20 * k : ℕ)) s fun r t =>
    I t ∧ ((k < n ∧ r = (20, copy e 0 c (20 * k) 20)) ∨ (r.1 ≠ 20 ∧ (full → k = n)))

namespace Reads

variable {σ : Type} {ops : InodeOps σ} {E : Panic → Prop} {dir : Dir} {n : ℕ} {c : Bytes} {full : Prop}
  {I : σ → Prop}

theorem rounds_ends (h : Reads ops E dir.inode n c full I) {s : σ} (hs : I s) :
    Ends E (ops.rounds dir) s fun r t => r = n + 1 ∧ I t := by
  refine .bind (h.length s hs) fun r t => ?_
  rintro ⟨rfl, ht⟩
  refine ⟨?_, ht⟩
  omega

theorem copy_entry (e c : Bytes) (k : ℕ) {j : ℕ} (hj : j < 20) : copy e 0 c (20 * k) 20 j = entry c k j := by
  rw [copy_of_mem (Nat.zero_le j) (by omega)]
  rfl

/-- What `lookup` finds from entry `k` on. -/
def Found (c : Bytes) (n : ℕ) (full : Prop) (name : List UInt8) (k : ℕ) : Option (Bytes × ℕ) → Prop
  | some (e, ofs) => ∃ l, ofs = 20 * l ∧ k ≤ l ∧ l < n ∧ (∀ j < 20, e j = entry c l j) ∧
      (∃ x, slot c l = some (name, x)) ∧ ∀ i, k ≤ i → i < l → ∀ x, slot c i ≠ some (name, x)
  | none => full → ∀ i, k ≤ i → i < n → ∀ x, slot c i ≠ some (name, x)

section

variable (h : Reads ops E dir.inode n c full I) (hterm : Terminated c n) (hname : (0 : UInt8) ∉ name)
include h hterm hname

theorem lookupLoop_ends (fuel : ℕ) : ∀ {s : σ} {k : ℕ} (e : Bytes), I s → k ≤ n → n < k + fuel →
      Ends E (ops.lookupLoop dir name fuel (20 * k) e) s fun r t => I t ∧ Found c n full name k r := by
  induction fuel with
  | zero => intro s k e _ hk hfuel; omega
  | succ fuel ih =>
    intro s k e hs hk hfuel
    refine .bind (h.read s e k hs hk) ?_
    rintro ⟨m, e'⟩ t ⟨ht, hread⟩
    obtain ⟨hlt, heq⟩ | ⟨hshort, hend⟩ := hread
    · obtain ⟨rfl, rfl⟩ := Prod.mk.inj heq
      have hmatch := matches_iff hterm hlt hname fun j hj => copy_entry e c k hj
      dsimp only
      by_cases hfound : ∃ x, slot c k = some (name, x)
      · rw [if_pos (hmatch.mpr hfound)]
        refine ⟨ht, k, rfl, Nat.le_refl k, hlt, fun j hj => copy_entry e c k hj, hfound, fun i hi hi' => ?_⟩
        omega
      · rw [if_neg fun hm => hfound (hmatch.mp hm), show 20 * k + 20 = 20 * (k + 1) by omega]
        have hskip : ∀ m, (∀ i, k + 1 ≤ i → i < m → ∀ x, slot c i ≠ some (name, x)) →
            ∀ i, k ≤ i → i < m → ∀ x, slot c i ≠ some (name, x) := by
          intro m hm i hi hi' x hx
          obtain rfl | hlt := Nat.eq_or_lt_of_le hi
          · exact hfound ⟨x, hx⟩
          · exact hm i hlt hi' x hx
        refine (ih _ ht (by omega) (by omega)).mono ?_
        rintro r u ⟨hu, hr⟩
        refine ⟨hu, ?_⟩
        cases r with
        | none => exact fun hfull => hskip n (hr hfull)
        | some r =>
          obtain ⟨l, hofs, hl, hln, hbytes, hslot, hfirst⟩ := hr
          exact ⟨l, hofs, by omega, hln, hbytes, hslot, hskip l hfirst⟩
    · dsimp only
      rw [if_neg hshort]
      refine ⟨ht, fun hfull i hi hi' => ?_⟩
      have := hend hfull
      omega

/-- **`lookup` finds the first entry with the name.** -/
theorem lookup_ends {s : σ} (hs : I s) :
    Ends E (ops.lookup dir name) s fun r t => I t ∧ Found c n full name 0 r := by
  refine .bind (h.rounds_ends hs) ?_
  rintro _ t ⟨rfl, ht⟩
  refine .bind (h.uninit t ht) fun e u hu => ?_
  exact h.lookupLoop_ends hterm hname (n + 1) (k := 0) e hu (Nat.zero_le n) (by omega)

end

/-- What the loop of `dir_add` ends at, from entry `k` on: the first entry that is not in use, or
the end, or an entry that could not be read. -/
theorem slotLoop_ends (h : Reads ops E dir.inode n c full I) (fuel : ℕ) :
    ∀ {s : σ} {k : ℕ} (e : Bytes), I s → k ≤ n → n < k + fuel →
      Ends E (ops.slotLoop dir fuel (20 * k) e) s fun r t => I t ∧
        ∃ l, r.1 = 20 * l ∧ k ≤ l ∧ l ≤ n ∧ (∀ i, k ≤ i → i < l → slot c i ≠ none) ∧
          (l < n → full → slot c l = none) := by
  induction fuel with
  | zero => intro s k e _ hk hfuel; omega
  | succ fuel ih =>
    intro s k e hs hk hfuel
    refine .bind (h.read s e k hs hk) ?_
    rintro ⟨m, e'⟩ t ⟨ht, hread⟩
    obtain ⟨hlt, heq⟩ | ⟨hshort, hend⟩ := hread
    · obtain ⟨rfl, rfl⟩ := Prod.mk.inj heq
      have hslot : slot c k = entrySlot (copy e 0 c (20 * k) 20) :=
        entrySlot_congr fun j hj => (copy_entry e c k hj).symm
      unfold entrySlot at hslot
      dsimp only
      by_cases huse : entryInUse (copy e 0 c (20 * k) 20) = true
      · rw [if_pos huse] at hslot ⊢
        rw [show 20 * k + 20 = 20 * (k + 1) by omega]
        refine (ih _ ht (by omega) (by omega)).mono ?_
        rintro r u ⟨hu, l, hofs, hl, hln, hused, hfree⟩
        refine ⟨hu, l, hofs, by omega, hln, fun i hi hi' => ?_, hfree⟩
        obtain rfl | hlt := Nat.eq_or_lt_of_le hi
        · rw [hslot]
          nofun
        · exact hused i hlt hi'
      · rw [if_neg huse] at hslot ⊢
        exact ⟨ht, k, rfl, Nat.le_refl k, hk, fun i hi hi' => by omega, fun _ _ => hslot⟩
    · dsimp only
      rw [if_neg hshort]
      refine ⟨ht, k, rfl, Nat.le_refl k, hk, fun i hi hi' => by omega, fun hlt hfull => ?_⟩
      have := hend hfull
      omega

end Reads

/-! ### Writing an entry -/

section FillEntry

variable {e : Bytes} {name : List UInt8} {x : ℕ}

theorem entrySlot_fillEntry (hname : (0 : UInt8) ∉ name) (hlen : name.length ≤ NAME_MAX) (hx : x < 2 ^ 32) :
    entrySlot (InodeOps.fillEntry e name x) = some (name, x) := by
  have hmax : NAME_MAX = 14 := rfl
  have hsize : (if name.length < NAME_MAX + 1 - 1 then name.length else NAME_MAX + 1 - 1) = name.length := by
    split <;> omega
  have hbyte : ∀ j, 4 ≤ j → InodeOps.fillEntry e name x j =
      update (copy (update e 19 1) 4 (fun k => name.getD k 0) 0 name.length) (4 + name.length) 0 j := by
    intro j hj
    unfold InodeOps.fillEntry strlcpy
    rw [putWord_of_notMem (by omega), if_pos (by omega)]
    simp only [hsize]
  have hstr : StrAt (InodeOps.fillEntry e name x) 4 name := by
    refine ⟨hname, fun k hk => ?_⟩
    rw [hbyte _ (by omega)]
    obtain hlt | rfl := Nat.lt_or_eq_of_le hk
    · rw [update_of_ne (by omega), copy_of_mem (by omega) (by omega)]
      congr 1
      omega
    · simp
  have huse : entryInUse (InodeOps.fillEntry e name x) = true := by
    unfold entryInUse
    rw [hbyte 19 (by omega), update_of_ne (by omega), copy_of_notMem (by omega), update_self]
    rfl
  have hsector : entrySector (InodeOps.fillEntry e name x) = x := word_putWord hx
  unfold entrySlot entryName
  rw [if_pos huse, hsector, hstr.readStr_eq (by omega)]

theorem entrySlot_clear (e : Bytes) : entrySlot (update e 19 0) = none := by
  unfold entrySlot entryInUse
  rfl

end FillEntry

theorem slot_write (c e : Bytes) (k l : ℕ) :
    slot (copy c (20 * k) e 0 20) l = update (slot c) k (entrySlot e) l := by
  obtain rfl | hl := Decidable.em (l = k)
  · rw [update_self]
    refine entrySlot_congr fun j hj => ?_
    unfold entry
    rw [copy_of_mem (by omega) (by omega), Nat.zero_add, Nat.add_sub_cancel_left]
  · rw [update_of_ne hl]
    refine entrySlot_congr fun j hj => ?_
    exact copy_of_notMem (by omega)

/-- How the reads and writes of a directory of `n` entries go; in the states of `J c` its bytes are
`c`. A write at an entry writes all of it, or nothing for want of memory. -/
structure Layer {σ : Type} (ops : InodeOps σ) (E : Panic → Prop) (inode n : ℕ) (full : Prop)
    (J : Bytes → σ → Prop) : Prop where
  reads : ∀ c, Reads ops E inode n c full (J c)
  /-- A write at an entry or at the end. -/
  write : ∀ c s e k, J c s → k ≤ n → Ends E (ops.writeAt inode e 20 (20 * k : ℕ)) s fun r t =>
    (k < n ∧ r = 20 ∧ J (copy c (20 * k) e 0 20) t) ∨ (r ≠ 20 ∧ J c t ∧ (full → k = n))

/-- A name that `dir_add` takes. -/
def ValidName (name : List UInt8) : Prop := name ≠ [] ∧ name.length ≤ NAME_MAX

/-- What `dir_add` does to a directory with the bytes `c`. -/
inductive Added {σ : Type} (n : ℕ) (full : Prop) (J : Bytes → σ → Prop) (c : Bytes) (name : List UInt8) (x : ℕ) :
    Bool → σ → Prop
  /-- A slot is set. -/
  | set {k : ℕ} {e : Bytes} {t : σ} (valid : ValidName name) (hk : k < n)
      (free : full → slot c k = none ∧ ∀ l < n, ∀ y, slot c l ≠ some (name, y))
      (entry : entrySlot e = some (name, x)) (state : J (copy c (20 * k) e 0 20) t) : Added n full J c name x true t
  /-- The name cannot be added. -/
  | failed {t : σ} (why : full → ValidName name → (∃ l < n, ∃ y, slot c l = some (name, y)) ∨ ∀ l < n, slot c l ≠ none)
      (state : J c t) : Added n full J c name x false t

/-- **`dir_add` sets a slot**, one that is free when there is memory, or changes nothing. -/
theorem Layer.dirAdd_ends {σ : Type} {ops : InodeOps σ} {E : Panic → Prop} {dir : Dir} {n : ℕ} {full : Prop}
    {J : Bytes → σ → Prop} (h : Layer ops E dir.inode n full J) {s : σ} (hs : J c s)
    (hterm : Terminated c n) (hname : (0 : UInt8) ∉ name) {x : ℕ} (hx : x < 2 ^ 32) :
    Ends E (ops.dirAdd dir name x) s (Added n full J c name x) := by
  unfold InodeOps.dirAdd
  by_cases hvalid : name = [] ∨ NAME_MAX < name.length
  · rw [if_pos hvalid]
    refine .pure (.failed (fun _ hv => ?_) hs)
    obtain hempty | hlong := hvalid
    · exact absurd hempty hv.1
    · exact absurd hv.2 (Nat.not_le.mpr hlong)
  have hvalid' : ValidName name := ⟨fun he => hvalid (.inl he), Nat.not_lt.mp fun hl => hvalid (.inr hl)⟩
  rw [if_neg hvalid]
  refine .bind ((h.reads c).lookup_ends hterm hname hs) ?_
  rintro r t ⟨ht, hfound⟩
  cases r with
  | some r =>
    obtain ⟨l, -, -, hl, -, ⟨y, hy⟩, -⟩ := hfound
    exact .pure (.failed (fun _ _ => .inl ⟨l, hl, y, hy⟩) ht)
  | none =>
    refine .bind ((h.reads c).rounds_ends ht) ?_
    rintro _ u ⟨rfl, hu⟩
    refine .bind ((h.reads c).uninit u hu) fun e v hv => ?_
    refine .bind ((h.reads c).slotLoop_ends (n + 1) (k := 0) e hv (Nat.zero_le n) (by omega)) ?_
    rintro ⟨ofs, e'⟩ w ⟨hw, k, rfl, -, hk, hused, hfree⟩
    refine .bind (h.write c w (InodeOps.fillEntry e' name x) k hw hk) ?_
    rintro r z (⟨hlt, rfl, hz⟩ | ⟨hr, hz, hend⟩)
    · refine .pure (.set hvalid' hlt (fun hfull => ⟨hfree hlt hfull, fun l hl => ?_⟩)
        (entrySlot_fillEntry hname hvalid'.2 hx) hz)
      exact hfound hfull l (Nat.zero_le l) hl
    · have hfalse : (r == 20) = false := beq_eq_false_iff_ne.mpr hr
      rw [hfalse]
      refine .pure (.failed (fun hfull _ => .inr fun l hl => ?_) hz)
      exact hused l (Nat.zero_le l) (hend hfull ▸ hl)

end Pintos.Filesys
