import Mathlib.Data.List.GetD
import Mathlib.Data.List.TakeWhile
import Pintos.Basis.Memory
import Pintos.Basis.Words

/-!
# Strings

The functions of `lib/string.c` on strings in memory. A string that a function is
given as a value is the list of its characters, without the null character that
ends it in memory; `StrAt m a cs` says that the string `cs` is in memory `m` at
address `a`.

A loop that looks for a character is bounded by `fuel`, the number of characters
it may look at, and is `none` when they do not suffice.

`strtokR_words` says what a call of `strtok_r` does to a string that is in memory:
it returns its first word, ended with a null character, and saves where the rest
is.
-/

namespace Pintos.Lib

open Function Memory

/-! ### Strings in memory -/

/-- The string `cs` is at address `a`. -/
structure StrAt (m : Bytes) (a : ℕ) (cs : List UInt8) : Prop where
  /-- It has no null character. -/
  noNul : (0 : UInt8) ∉ cs
  /-- Its characters and a null character are there. -/
  eq : ∀ k, k ≤ cs.length → m (a + k) = cs.getD k 0

section StrAt

variable {m m' : Bytes} {a : ℕ} {cs : List UInt8}

theorem StrAt.nul (h : StrAt m a cs) : m (a + cs.length) = 0 := by
  rw [h.eq _ (Nat.le_refl _)]
  simp

theorem strAt_nil : StrAt m a [] ↔ m a = 0 := by
  refine ⟨fun h => h.nul, fun h => ⟨List.not_mem_nil, fun k hk => ?_⟩⟩
  obtain rfl : k = 0 := by simpa using hk
  exact h

theorem strAt_cons {c : UInt8} : StrAt m a (c :: cs) ↔ c ≠ 0 ∧ m a = c ∧ StrAt m (a + 1) cs := by
  constructor
  · intro h
    obtain ⟨hc, hcs⟩ : c ≠ 0 ∧ (0 : UInt8) ∉ cs := by
      have := h.noNul
      simp only [List.mem_cons, not_or] at this
      exact ⟨Ne.symm this.1, this.2⟩
    refine ⟨hc, by simpa using h.eq 0 (Nat.zero_le _), hcs, fun k hk => ?_⟩
    have := h.eq (k + 1) (by simpa using hk)
    rwa [List.getD_cons_succ, Nat.add_comm k 1, ← Nat.add_assoc] at this
  · rintro ⟨hc, ha, h⟩
    refine ⟨by simpa [hc.symm] using h.noNul, fun k hk => ?_⟩
    cases k with
    | zero => simpa using ha
    | succ k =>
      rw [List.getD_cons_succ, ← h.eq k (by simpa using hk)]
      congr 1
      omega

theorem StrAt.drop {u : List UInt8} (h : StrAt m a (u ++ cs)) : StrAt m (a + u.length) cs := by
  induction u generalizing a with
  | nil => exact h
  | cons c u ih =>
    have hrest := ih (strAt_cons.mp h).2.2
    rwa [List.length_cons, Nat.add_comm u.length 1, ← Nat.add_assoc]

/-- The first part of a string, when a null character comes after it. -/
theorem StrAt.take {u : List UInt8} (h : StrAt m a (u ++ cs)) (hm : ∀ k < u.length, m' (a + k) = m (a + k))
    (hnul : m' (a + u.length) = 0) : StrAt m' a u := by
  refine ⟨fun hu => h.noNul (List.mem_append_left _ hu), fun k hk => ?_⟩
  obtain hlt | rfl := Nat.lt_or_eq_of_le hk
  · rw [hm k hlt, h.eq k (by rw [List.length_append]; omega), List.getD_append _ _ _ _ hlt]
  · rw [hnul]
    simp

/-- A string stays where memory does not change. -/
theorem StrAt.congr (h : StrAt m a cs) (hm : ∀ k, k ≤ cs.length → m' (a + k) = m (a + k)) : StrAt m' a cs :=
  ⟨h.noNul, fun k hk => (hm k hk).trans (h.eq k hk)⟩

end StrAt

/-! ### Copying -/

/-- The loop of `memmove` when `dst < src`: the memory, and where `dst` is afterwards. -/
def copyUp (m : Bytes) (dst src : ℕ) : (size : ℕ) → Bytes × ℕ
  | 0 => (m, dst)
  | size + 1 => copyUp (update m dst (m src)) (dst + 1) (src + 1) size

/-- The other loop. -/
def copyDown (m : Bytes) (dst src : ℕ) : (size : ℕ) → Bytes × ℕ
  | 0 => (m, dst)
  | size + 1 => copyDown (update m (dst - 1) (m (src - 1))) (dst - 1) (src - 1) size

/-- `memmove`: the memory and the value returned, which is where `dst` is in the end; `none` if an
assertion fails. The ranges do not wrap around, so that addresses are numbers. -/
def memmove (m : Bytes) (dst src size : ℕ) : Option (Bytes × ℕ) :=
  if size ≠ 0 ∧ (dst = 0 ∨ src = 0) then none
  else if dst < src then some (copyUp m dst src size)
  else some (copyDown m (dst + size) (src + size) size)

theorem copyUp_eq (m : Bytes) {dst src : ℕ} (h : dst < src) (size : ℕ) :
    copyUp m dst src size = (copy m dst m src size, dst + size) := by
  induction size generalizing m dst src with
  | zero => simp [copyUp, copy_zero]
  | succ size ih =>
    rw [copyUp, ih _ (Nat.add_lt_add_right h 1)]
    refine Prod.ext (funext fun i => ?_) (by simp only; omega)
    -- what is written is below what is still to be read
    simp only [copy, update_apply]
    grind

theorem copyDown_eq (m : Bytes) {dst src : ℕ} (h : src ≤ dst) (size : ℕ) :
    copyDown m (dst + size) (src + size) size = (copy m dst m src size, dst) := by
  induction size generalizing m with
  | zero => simp [copyDown, copy_zero]
  | succ size ih =>
    rw [copyDown, ← Nat.add_assoc, ← Nat.add_assoc, Nat.add_sub_cancel, Nat.add_sub_cancel, ih]
    refine Prod.ext (funext fun i => ?_) rfl
    simp only [copy, update_apply]
    grind

/-- **`memmove` copies, also when the ranges overlap**, but returns `dst` only when it has copied
downwards. -/
theorem memmove_iff (m : Bytes) (dst src size : ℕ) :
    (size = 0 ∨ dst ≠ 0 ∧ src ≠ 0 → ∃ m' r, memmove m dst src size = some (m', r) ∧
      (∀ k < size, m' (dst + k) = m (src + k)) ∧ ∀ i, i < dst ∨ dst + size ≤ i → m' i = m i) ∧
    ((∃ m', memmove m dst src size = some (m', dst) ∧
      (∀ k < size, m' (dst + k) = m (src + k)) ∧ ∀ i, i < dst ∨ dst + size ≤ i → m' i = m i) ↔
        size = 0 ∨ src ≠ 0 ∧ src ≤ dst) := by
  have hcopied : (∀ k < size, copy m dst m src size (dst + k) = m (src + k)) ∧
      ∀ i, i < dst ∨ dst + size ≤ i → copy m dst m src size i = m i := by
    refine ⟨fun k hk => ?_, fun i => copy_of_notMem⟩
    rw [copy_of_mem (Nat.le_add_right _ _) (by omega), Nat.add_sub_cancel_left]
  have hrun : size = 0 ∨ dst ≠ 0 ∧ src ≠ 0 →
      memmove m dst src size = some (copy m dst m src size, if dst < src then dst + size else dst) := by
    intro hnull
    rw [memmove, if_neg (by omega)]
    split_ifs with hlt
    · rw [copyUp_eq m hlt]
    · rw [copyDown_eq m (Nat.le_of_not_lt hlt)]
  refine ⟨fun hnull => ⟨_, _, hrun hnull, hcopied⟩, ?_, fun h => ⟨_, (hrun (by omega)).trans ?_, hcopied⟩⟩
  · rintro ⟨m', hm', -⟩
    by_cases hnull : size = 0 ∨ dst ≠ 0 ∧ src ≠ 0
    · rw [hrun hnull] at hm'
      have hret := (Prod.mk.inj (Option.some.inj hm')).2
      split_ifs at hret <;> omega
    · rw [memmove, if_pos (by omega)] at hm'
      cases hm'
  · split_ifs with hlt
    · rw [show dst + size = dst by omega]
    · rfl

/-- A byte is moved one address down, and the address after it is returned. -/
theorem memmove_returns_end : ∃ m', memmove (fun _ => 0) 1 2 1 = some (m', 2) := ⟨_, rfl⟩

/-- Copy `src`, cut to `size` with its null character. -/
def strlcpy (m : Bytes) (dst : ℕ) (src : List UInt8) (size : ℕ) : Bytes :=
  if 0 < size then
    let dstLen := if src.length < size - 1 then src.length else size - 1
    update (copy m dst (fun k => src.getD k 0) 0 dstLen) (dst + dstLen) 0
  else m

theorem strAt_strlcpy (m : Bytes) (dst : ℕ) {src : List UInt8} (hsrc : (0 : UInt8) ∉ src) :
    StrAt (strlcpy m dst src (1 + src.length)) dst src := by
  refine ⟨hsrc, fun k hk => ?_⟩
  have hlen : (if src.length < 1 + src.length - 1 then src.length else 1 + src.length - 1) = src.length := by
    split <;> omega
  unfold strlcpy
  rw [if_pos (by omega)]
  simp only [hlen]
  obtain hlt | rfl := Nat.lt_or_eq_of_le hk
  · rw [update_of_ne (by omega), copy_of_mem (by omega) (by omega)]
    congr 1
    omega
  · simp

variable {m : Bytes}

theorem strlcpy_of_notMem {dst i : ℕ} {src : List UInt8} (h : i < dst ∨ dst + src.length < i) :
    strlcpy m dst src (1 + src.length) i = m i := by
  have hlen : (if src.length < 1 + src.length - 1 then src.length else 1 + src.length - 1) = src.length := by
    split <;> omega
  unfold strlcpy
  rw [if_pos (by omega)]
  rw [update_of_ne (by omega), copy_of_notMem (by omega)]

/-- The string at address `a`, of which at most `bound` characters are looked at. -/
def readStr (m : Bytes) : (a bound : ℕ) → List UInt8
  | _, 0 => []
  | a, bound + 1 => if m a = 0 then [] else m a :: readStr m (a + 1) bound

variable {cs : List UInt8} {a : ℕ}

theorem StrAt.readStr_eq {bound : ℕ} (h : StrAt m a cs) (hb : cs.length < bound) : readStr m a bound = cs := by
  induction cs generalizing a bound with
  | nil =>
    obtain _ | bound := bound
    · simp at hb
    simp [readStr, strAt_nil.mp h]
  | cons c cs ih =>
    obtain _ | bound := bound
    · omega
    obtain ⟨hc, ha, hrest⟩ := strAt_cons.mp h
    rw [readStr, ha, if_neg hc, ih hrest (by simpa using hb)]

/-- What is read is in memory when the null character was among what was looked at. -/
theorem strAt_readStr {bound : ℕ} (h : (readStr m a bound).length < bound) : StrAt m a (readStr m a bound) := by
  induction bound generalizing a with
  | zero => exact absurd h (Nat.not_lt_zero _)
  | succ bound ih =>
    rw [readStr] at h ⊢
    by_cases ha : m a = 0
    · rw [if_pos ha]
      exact strAt_nil.mpr ha
    · rw [if_neg ha] at h ⊢
      exact strAt_cons.mpr ⟨ha, rfl, ih (by simpa using h)⟩

theorem StrAt.unique {cs' : List UInt8} (h : StrAt m a cs) (h' : StrAt m a cs') : cs = cs' := by
  have hb : cs.length < cs.length + cs'.length + 1 := by omega
  rw [← h.readStr_eq hb, h'.readStr_eq (by omega)]

/-! ### Comparing -/

/-- `strcmp` returns 0: the string `cs` is the string at address `a`. -/
def strcmpEq (m : Bytes) : (a : ℕ) → List UInt8 → Bool
  | a, [] => m a == 0
  | a, c :: cs => m a == c && strcmpEq m (a + 1) cs

theorem strcmpEq_iff (h : (0 : UInt8) ∉ cs) : strcmpEq m a cs = true ↔ StrAt m a cs := by
  induction cs generalizing a with
  | nil => rw [strcmpEq, strAt_nil, beq_iff_eq]
  | cons c cs ih =>
    rw [List.mem_cons, not_or] at h
    rw [strcmpEq, strAt_cons, Bool.and_eq_true, beq_iff_eq, ih h.2]
    exact ⟨fun hand => ⟨Ne.symm h.1, hand⟩, fun hand => hand.2⟩

/-! ### Tokens -/

/-- The address of the first character from `s` on that does not satisfy `p`. -/
def skipWhile (m : Bytes) (p : UInt8 → Bool) : (fuel s : ℕ) → Option ℕ
  | 0, _ => none
  | fuel + 1, s => if p (m s) then skipWhile m p fuel (s + 1) else some s

/-- `strtok_r`: the token, or null; the saved position; and the memory. -/
def strtokR (fuel : ℕ) (m : Bytes) (delimiters : List UInt8) (s : Option ℕ) (savePtr : ℕ) :
    Option (Option ℕ × ℕ × Bytes) := do
  let s := s.getD savePtr
  -- The null character ends the first loop with no token; `strchr` finds it in every string.
  let s ← skipWhile m (fun c => c != 0 && delimiters.contains c) fuel s
  if m s = 0 then return (none, s, m)
  let token := s
  let s ← skipWhile m (fun c => !(c == 0 || delimiters.contains c)) fuel s
  if m s ≠ 0 then return (some token, s + 1, update m s 0)
  return (some token, s, m)

section Tokens

variable {m : Bytes} {p : UInt8 → Bool} {a fuel : ℕ} {cs u : List UInt8}

/-- A part of a string that satisfies `p` is skipped. -/
theorem skipWhile_append (h : StrAt m a (u ++ cs)) (hu : ∀ c ∈ u, p c = true) (hend : p (m (a + u.length)) = false)
    (hfuel : u.length < fuel) : skipWhile m p fuel a = some (a + u.length) := by
  induction u generalizing a fuel with
  | nil =>
    obtain _ | fuel := fuel
    · simp at hfuel
    simp only [List.length_nil, Nat.add_zero] at hend ⊢
    rw [skipWhile, hend, if_neg Bool.false_ne_true]
  | cons c u ih =>
    obtain _ | fuel := fuel
    · omega
    obtain ⟨-, ha, hrest⟩ := strAt_cons.mp h
    have hlen : a + (c :: u).length = a + 1 + u.length := by simp; omega
    rw [hlen] at hend ⊢
    rw [skipWhile, ha, if_pos (hu c List.mem_cons_self)]
    exact ih hrest (fun d hd => hu d (List.mem_cons_of_mem _ hd)) hend (by simpa using hfuel)

/-- **A call of `strtok_r`** on a string returns null when it has no word left; otherwise it returns
its first word, ends it with a null character in place of the separator after it, and saves the
position of the rest. -/
theorem strtokR_words (delimiters : List UInt8) {s : Option ℕ} {save : ℕ} (ha : s.getD save = a) (h : StrAt m a cs)
    (hfuel : cs.length < fuel) :
    (words delimiters.contains cs = [] ∧
      strtokR fuel m delimiters s save = some (none, a + cs.length, m)) ∨
    ∃ token w rest save' m', words delimiters.contains cs = w :: words delimiters.contains rest ∧
      strtokR fuel m delimiters s save = some (some token, save', m') ∧
      a ≤ token ∧ StrAt m' token w ∧ StrAt m' save' rest ∧
      token + w.length ≤ save' ∧ (rest.length = 0 ∨ token + w.length < save') ∧
      save' + rest.length = a + cs.length ∧ rest.length < cs.length ∧
      starts delimiters.contains false a cs = token :: starts delimiters.contains false save' rest ∧ w ≠ [] ∧
      ∀ i, m' i = m i ∨ m' i = 0 ∧ m i ∈ delimiters ∧ i = token + w.length ∧ i < save' := by
  have hnul : ∀ {c}, c ∈ cs → c ≠ 0 := fun hc hz => h.noNul (hz ▸ hc)
  obtain hall | ⟨ds, w, hds, hne, hw, hcs⟩ := separators_or_word delimiters.contains cs
  · left
    refine ⟨words_of_separators hall, ?_⟩
    have hskip : skipWhile m (fun c => c != 0 && delimiters.contains c) fuel a = some (a + cs.length) := by
      have happend : StrAt m a (cs ++ []) := by rwa [List.append_nil]
      refine skipWhile_append happend (fun c hc => ?_) (by simp [h.nul]) hfuel
      simp only [Bool.and_eq_true, bne_iff_ne]
      exact ⟨hnul hc, hall c hc⟩
    unfold strtokR
    simp only [ha, hskip, Option.bind_eq_bind, Option.bind_some, h.nul, if_true]
    rfl
  · right
    -- Both loops, for what comes after the word: nothing, or a separator.
    have hloops : ∀ r, cs = ds ++ (w ++ r) → (∀ c ∈ r.head?, delimiters.contains c = true) →
        StrAt m (a + ds.length) (w ++ r) ∧ m (a + ds.length) ≠ 0 ∧
        skipWhile m (fun c => c != 0 && delimiters.contains c) fuel a = some (a + ds.length) ∧
        skipWhile m (fun c => !(c == 0 || delimiters.contains c)) fuel (a + ds.length) =
          some (a + ds.length + w.length) := by
      rintro r rfl hr
      simp only [List.length_append] at hfuel
      have hword := h.drop
      obtain ⟨c, w, rfl⟩ := List.exists_cons_of_ne_nil hne
      obtain ⟨hc, hmc, -⟩ := strAt_cons.mp hword
      have hend : m (a + ds.length + (c :: w).length) = r.head?.getD 0 := by
        have hrest := hword.drop
        cases r with
        | nil => exact strAt_nil.mp hrest
        | cons d r => exact (strAt_cons.mp hrest).2.1
      refine ⟨hword, by rw [hmc]; exact hc, ?_, ?_⟩
      · refine skipWhile_append h (fun d hd => ?_) ?_ (by omega)
        · simp only [Bool.and_eq_true, bne_iff_ne]
          exact ⟨hnul (List.mem_append_left _ hd), hds d hd⟩
        · rw [hmc, hw c List.mem_cons_self, Bool.and_false]
      · refine skipWhile_append hword (fun d hd => ?_) ?_ (by omega)
        · have hz : (d == 0) = false := by
            simpa using hnul (List.mem_append_right _ (List.mem_append_left _ hd))
          rw [hw d hd, hz]
          rfl
        · rw [hend]
          cases r with
          | nil => simp
          | cons d r => simp only [List.head?_cons, Option.getD_some, hr d rfl, Bool.or_true, Bool.not_true]
    obtain hcs | ⟨d, rest, hd, hcs⟩ := hcs
    · obtain ⟨hword, hfirst, hskip, hskip'⟩ := hloops [] (by simpa using hcs) nofun
      rw [List.append_nil] at hword
      refine ⟨a + ds.length, w, [], a + ds.length + w.length, m, ?_, ?_, by omega, hword, ?_, le_rfl, .inl rfl,
        ?_, ?_, ?_, hne, fun _ => .inl rfl⟩
      · rw [hcs, words_append hds, words_of_no_separator hw hne, words_nil]
      · unfold strtokR
        simp only [ha, hskip, hskip', Option.bind_eq_bind, Option.bind_some, hfirst, hword.nul, if_false, ne_eq,
          not_true_eq_false]
        rfl
      · exact strAt_nil.mpr hword.nul
      · rw [hcs]
        simp
        omega
      · rw [hcs]
        have := List.length_pos_of_ne_nil hne
        simp
        omega
      · rw [hcs, starts_same hds, ← List.append_nil w, starts_word hw hne]
        rfl
    · obtain ⟨hword, hfirst, hskip, hskip'⟩ := hloops (d :: rest) hcs (by simpa using hd)
      obtain ⟨hdz, hmd, hrest⟩ := strAt_cons.mp hword.drop
      have hlen : cs.length = ds.length + w.length + 1 + rest.length := by
        rw [hcs]
        simp
        omega
      refine ⟨a + ds.length, w, rest, a + ds.length + w.length + 1,
        update m (a + ds.length + w.length) 0, ?_, ?_, by omega, ?_, ?_, by omega, .inr (by omega),
        by omega, by omega, ?_, hne, fun i => ?_⟩
      · rw [hcs, words_append hds, words_append_cons hd, words_of_no_separator hw hne]
        rfl
      · unfold strtokR
        simp only [ha, hskip, hskip', Option.bind_eq_bind, Option.bind_some, hfirst, hmd, if_false, ne_eq, hdz,
          not_false_eq_true, if_true]
        rfl
      · exact hword.take (fun k hk => update_of_ne (by omega) ..) (update_self ..)
      · exact hrest.congr fun k _ => update_of_ne (by omega) ..
      · rw [hcs, starts_same hds, starts_word hw hne, starts, if_pos hd]
      · by_cases hi : i = a + ds.length + w.length
        · rw [hi, update_self, hmd]
          exact .inr ⟨rfl, by simpa using hd, rfl, Nat.lt_succ_self _⟩
        · exact .inl (update_of_ne hi ..)

/-- Calls of `strtok_r`, the first with a string and the others with null: the tokens and the
memory. -/
def strtokCalls (fuel : ℕ) (delimiters : List UInt8) :
    (n : ℕ) → (s : Option ℕ) → (savePtr : ℕ) → Bytes → Option (List (Option ℕ) × Bytes)
  | 0, _, _, m => some ([], m)
  | n + 1, s, savePtr, m => do
    let (token, savePtr, m) ← strtokR fuel m delimiters s savePtr
    let (tokens, m) ← strtokCalls fuel delimiters n none savePtr m
    return (token :: tokens, m)

/-- Only a character after one of the first `n` words changes. -/
def Ended (delimiters : List UInt8) (m m' : Bytes) (n : ℕ) (ts : List ℕ) (ws : List (List UInt8)) : Prop :=
  ∀ i, m' i = m i ∨ m' i = 0 ∧ m i ∈ delimiters ∧ ∃ k < n, ∃ t w, ts[k]? = some t ∧ ws[k]? = some w ∧ i = t + w.length

theorem strtokCalls_run (delimiters : List UInt8) (n : ℕ) (s : Option ℕ) (save : ℕ)
    (ha : s.getD save = a) (h : StrAt m a cs)
    (hfuel : cs.length < fuel) :
    ∃ m', strtokCalls fuel delimiters n s save m =
        some ((List.range n).map ((starts delimiters.contains false a cs)[·]?), m') ∧
      (∀ k < n, ∀ t w, (starts delimiters.contains false a cs)[k]? = some t → (words delimiters.contains cs)[k]? = some w →
        StrAt m' t w) ∧
      (∀ i, i ≤ a ∨ a + cs.length ≤ i → m' i = m i) ∧
      Ended delimiters m m' n (starts delimiters.contains false a cs) (words delimiters.contains cs) := by
  induction n generalizing s save a cs m with
  | zero => exact ⟨m, rfl, nofun, fun _ _ => rfl, fun _ => .inl rfl⟩
  | succ n ih =>
    rw [strtokCalls]
    obtain ⟨hwords, hcall⟩ | ⟨token, w, rest, save', m₁, hwords, hcall, hle, hword, hrest, hsave, -, hlen, hlt,
      hstarts, hne, hm₁⟩ := strtokR_words delimiters ha h hfuel
    · have hnil : starts delimiters.contains false a cs = [] := by
        simpa [hwords] using (starts_words (p := delimiters.contains) a cs).length_eq
      obtain ⟨m', hrun, -, -, hended⟩ :=
        ih none (a + cs.length) rfl (strAt_nil.mpr h.nul) (Nat.zero_lt_of_lt hfuel)
      obtain rfl : m' = m := funext fun i => by simpa [starts] using hended i
      refine ⟨m', ?_, by simp [hnil], fun _ _ => rfl, fun _ => .inl rfl⟩
      simp [hcall, hrun, hnil, starts, List.range_succ_eq_map, Function.comp_def]
    · obtain ⟨m', hrun, hstr, hframe, hended⟩ := ih (a := save') none save' rfl hrest (by omega)
      have hpos := List.length_pos_of_ne_nil hne
      rw [hstarts, hwords]
      refine ⟨m', ?_, fun k hk t v ht hv => ?_, fun i hi => ?_, fun i => ?_⟩
      · simp [hcall, hrun, List.range_succ_eq_map]
      · cases k with
        | zero =>
          obtain ⟨rfl, rfl⟩ : token = t ∧ w = v := ⟨by simpa using ht, by simpa using hv⟩
          exact hword.congr fun j hj => hframe _ (.inl (by omega))
        | succ k => exact hstr k (by omega) t v ht hv
      · rw [hframe i (by omega)]
        exact (hm₁ i).resolve_right fun hi' => by omega
      · obtain hsame | ⟨hz, hmem, hi, -⟩ := hm₁ i
        · obtain h' | ⟨hz, hmem, k, hk, t, v, ht, hv, hi⟩ := hended i
          · exact .inl (h'.trans hsame)
          · exact .inr ⟨hz, hsame ▸ hmem, k + 1, by omega, t, v, ht, hv, hi⟩
        · exact .inr ⟨(hframe i (.inl (by omega))).trans hz, hmem, 0, Nat.succ_pos n, token, w, rfl, rfl, hi⟩

/-- What memory is after calls of `strtok_r` is determined by the string and by what it was. -/
theorem Ended.congr {delimiters : List UInt8} {n : ℕ} {ts : List ℕ} {ws : List (List UInt8)} {m₂ m₂' : Bytes} {i : ℕ}
    (hended : Ended delimiters m m' n ts ws) (hended₂ : Ended delimiters m₂ m₂' n ts ws)
    (hstr : ∀ k < n, ∀ t w, ts[k]? = some t → ws[k]? = some w → StrAt m' t w)
    (hstr₂ : ∀ k < n, ∀ t w, ts[k]? = some t → ws[k]? = some w → StrAt m₂' t w) (hi : m₂ i = m i) : m₂' i = m' i := by
  obtain h | ⟨hz, -, k, hk, t, w, ht, hw, rfl⟩ := hended i
  · obtain h₂ | ⟨hz₂, -, k, hk, t, w, ht, hw, rfl⟩ := hended₂ i
    · rw [h, h₂, hi]
    · rw [hz₂, (hstr k hk t w ht hw).nul]
  · rw [hz, (hstr₂ k hk t w ht hw).nul]

/-- **`strtok_r` returns the words of a string**, one for each call, and then null, each ended by a
null character in its place; a character changes only where it is a delimiter after one of these
words. What follows the string does not matter: a memory `m₂` that is the same up to its end gives
the same words, and is then the same there. -/
theorem strtok_r_tokens (delimiters cs : List UInt8) (a n fuel save : ℕ) (m : Bytes) (h : StrAt m a cs)
    (hfuel : cs.length < fuel) :
    let ts := starts delimiters.contains false a cs
    let ws := words delimiters.contains cs
    List.Forall₂ (fun t w => a ≤ t ∧ w <+: cs.drop (t - a)) ts ws ∧
      ∃ m', strtokCalls fuel delimiters n (some a) save m = some ((List.range n).map (ts[·]?), m') ∧
        (∀ k < n, ∀ t w, ts[k]? = some t → ws[k]? = some w → StrAt m' t w) ∧
        Ended delimiters m m' n ts ws ∧ (∀ i, a + cs.length ≤ i → m' i = m i) ∧
        ∀ m₂, (∀ i ≤ a + cs.length, m₂ i = m i) →
          ∃ m₂', strtokCalls fuel delimiters n (some a) save m₂ = some ((List.range n).map (ts[·]?), m₂') ∧
            ∀ i ≤ a + cs.length, m₂' i = m' i := by
  intro ts ws
  obtain ⟨m', hrun, hstr, hframe, hended⟩ := strtokCalls_run delimiters n (some a) save rfl h hfuel
  refine ⟨starts_words a cs, m', hrun, hstr, hended, fun i hi => hframe i (.inr hi), fun m₂ hm₂ => ?_⟩
  have h₂ : StrAt m₂ a cs := h.congr fun k hk => hm₂ _ (by omega)
  obtain ⟨m₂', hrun₂, hstr₂, -, hended₂⟩ := strtokCalls_run delimiters n (some a) save rfl h₂ hfuel
  exact ⟨m₂', hrun₂, fun i hi => hended.congr hended₂ hstr hstr₂ (hm₂ i hi)⟩

/-- The string `"a b"`. -/
theorem strtok_r_tokens_two :
    ∃ m', strtokCalls 4 [32] 3 (some 1) 0 (fun i => [0, 97, 32, 98].getD i 0) = some ([some 1, some 3, none], m') := by
  have h : StrAt (fun i => [0, 97, 32, 98].getD i 0) 1 [97, 32, 98] := ⟨by decide, by decide⟩
  obtain ⟨-, m', hrun, -⟩ := strtok_r_tokens [32] [97, 32, 98] 1 3 4 0 _ h (by decide)
  exact ⟨m', hrun⟩

end Tokens

end Pintos.Lib
