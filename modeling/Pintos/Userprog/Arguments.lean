import Pintos.Lib.String
import Pintos.Userprog.Pagedir

/-!
# Command lines and arguments

`process_execute` makes a copy of the command line with one space between its
words, and `load` (`userprog/process.c`) puts it on the new process's stack with
an array of pointers to the words.

## The model

`normalise` is the part of `process_execute` that makes the copy, in place in the
buffer `cmd_copy`, whose contents before are arbitrary (`malloc`). The variable
`cmd_len` is left out: it is computed and not used. `setupArguments` is the part of
`load` from `setup_stack` on; addresses are naturals, since the stack pointer stays in
the page below `PHYS_BASE`. The loops that look for the end of a string are bounded
by the length of the string, as in `Pintos.Lib.String`.

## What is proved

The first loop of `process_execute` is `squeeze` (`collapse_eq`); the second one, which
is to remove a space at the end, does nothing, since it starts at the null character
(`trim_eq`). The loop that counts the arguments and `strtok_r` agree on their number,
and the stack has the form that `main` expects (**`arguments_on_stack`**).
-/

namespace Pintos.Userprog.Arguments

open Function Lib Memory

/-- The character `' '`. -/
def isSpace (c : UInt8) : Bool := c == 32

/-! ### The command line -/

/-- The loop that moves the characters from `stri_cp + 1` on one place down, `n` of them. -/
def shiftLoop : (n striCp : ℕ) → Bytes → Bytes
  | 0, _, cmdCopy => cmdCopy
  | n + 1, striCp, cmdCopy => shiftLoop n (striCp + 1) (update cmdCopy striCp (cmdCopy (striCp + 1)))

/-- Take the character at `stri` out of the buffer. The loop ends with `stri_cp` at the length, so
that the condition of the source is true. -/
def removeAt (length stri : ℕ) (cmdCopy : Bytes) : Bytes :=
  update (shiftLoop (length - stri) stri cmdCopy) (length - 1) 0

/-- The loop that takes out the spaces that follow a space. -/
def collapse (length : ℕ) : (fuel stri : ℕ) → (prvChSp : Bool) → Bytes → Option Bytes
  | 0, _, _, _ => none
  | fuel + 1, stri, prvChSp, cmdCopy =>
    if stri < length then
      if isSpace (cmdCopy stri) then
        -- `stri--` here and `stri++` of the loop cancel, also at 0, since `stri` is unsigned.
        if prvChSp then collapse length fuel stri true (removeAt length stri cmdCopy)
        else collapse length fuel (stri + 1) true cmdCopy
      else collapse length fuel (stri + 1) false cmdCopy
    else some cmdCopy

/-- The loop that is to take out the spaces at the end; it must not run below the buffer. -/
def trim : (stri : ℕ) → Bytes → Option Bytes
  | 0, cmdCopy => if isSpace (cmdCopy 0) then none else some cmdCopy
  | stri + 1, cmdCopy =>
    if isSpace (cmdCopy (stri + 1)) then trim stri (update cmdCopy (stri + 1) 0) else some cmdCopy

/-- The command line that `process_execute` hands to the new process. -/
def normalise (mem : Bytes) (commandLine : List UInt8) : Option (List UInt8) := do
  let length := commandLine.length
  let cmdCopy := strlcpy mem 0 commandLine (1 + length)
  let cmdCopy ← collapse length (2 * length + 1) 0 true cmdCopy
  let cmdCopy ← trim length cmdCopy
  return readStr cmdCopy 0 (length + 1)

/-! ### The stack -/

/-- The loop that counts the arguments. -/
def countArgs (m : Bytes) : (fuel stri numberArgs : ℕ) → Option ℕ
  | 0, _, _ => none
  | fuel + 1, stri, numberArgs =>
    if m stri = 0 then some numberArgs
    else
      countArgs m fuel (stri + 1)
        (if isSpace (m stri) ∧ m (stri + 1) ≠ 0 ∧ ¬ isSpace (m (stri + 1)) then numberArgs + 1 else numberArgs)

/-- The loop over the tokens, which writes their addresses to the array at `esp`. -/
def tokenLoop (bound esp : ℕ) : (fuel : ℕ) → Bytes → (tokIt : ℕ) → (s : Option ℕ) → (savePtr : ℕ) →
    Option Bytes
  | 0, _, _, _, _ => none
  | fuel + 1, m, tokIt, s, savePtr =>
    match strtokR bound m [32] s savePtr with
    | none => none
    | some (none, _, m) => some m
    | some (some token, savePtr, m) =>
      tokenLoop bound esp fuel (putWord m (esp + 4 * tokIt) token) (tokIt + 1) none savePtr

/-- `setup_stack`, where it succeeds: the stack pointer, and the memory with a zeroed page below
it. -/
def setupStack (m : Bytes) : ℕ × Bytes := (PHYS_BASE.toNat, fill m (PHYS_BASE.toNat - 4096) 0 4096)

/-- The part of `load` that sets up the stack: the stack pointer, and the memory. -/
def setupArguments (m : Bytes) (cmdLine : List UInt8) : Option (ℕ × Bytes) := do
  let (esp, m) := setupStack m
  let argStrLen := cmdLine.length
  let quadOffset := (argStrLen + 1) % 4
  let esp := esp - (argStrLen + 1)
  let m := strlcpy m esp cmdLine (1 + argStrLen)
  let stri := esp
  let numberArgs ← countArgs m (argStrLen + 1) stri 1
  let esp := esp - ((4 - quadOffset) + 4)
  let esp := esp - 4 * numberArgs
  let m ← tokenLoop (argStrLen + 1) esp (argStrLen + 1) m 0 (some stri) 0
  let argList := esp
  let esp := esp - 4
  let m := putWord m esp argList
  let esp := esp - 4
  let m := putWord m esp numberArgs
  let esp := esp - 4
  return (esp, m)

/-! ### The loops of `process_execute` -/

theorem shiftLoop_eq (n k : ℕ) (b : Bytes) : shiftLoop n k b = copy b k b (k + 1) n := by
  induction n generalizing k b with
  | zero => rw [copy_zero]; rfl
  | succ n ih =>
    rw [shiftLoop, ih]
    funext i
    obtain rfl | hi := eq_or_ne i k
    · rw [copy_of_notMem (by omega), update_self, copy_of_mem (by omega) (by omega), Nat.sub_self]
    · by_cases hin : k + 1 ≤ i ∧ i < k + 1 + n
      · rw [copy_of_mem hin.1 hin.2, copy_of_mem (by omega) (by omega), update_of_ne (by omega)]
        congr 1
        omega
      · rw [copy_of_notMem (by omega), copy_of_notMem (by omega), update_of_ne hi]

/-- From index `i` on the buffer holds `rest`, and null characters after it. -/
structure Rest (length : ℕ) (b : Bytes) (i : ℕ) (rest : List UInt8) : Prop where
  fits : i + rest.length ≤ length
  /-- There is no null character in it. -/
  noNul : (0 : UInt8) ∉ rest
  /-- It is there. -/
  eq : ∀ k, i + k ≤ length → b (i + k) = rest.getD k 0

section Rest

variable {length i : ℕ} {b b' : Bytes} {c : UInt8} {rest : List UInt8}

theorem Rest.head (h : Rest length b i (c :: rest)) : b i = c := by
  have := h.eq 0 (by have := h.fits; omega)
  simpa using this

theorem Rest.tail (h : Rest length b i (c :: rest)) : Rest length b (i + 1) rest := by
  have hfits := h.fits
  rw [List.length_cons] at hfits
  refine ⟨by omega, fun hmem => h.noNul (List.mem_cons_of_mem _ hmem), fun k hk => ?_⟩
  rw [Nat.add_assoc, Nat.add_comm 1 k, h.eq (k + 1) (by omega), List.getD_cons_succ]

theorem Rest.cons (h : Rest length b (i + 1) rest) (hc : c ≠ 0) (hb : b i = c) : Rest length b i (c :: rest) := by
  have hfits := h.fits
  refine ⟨by rw [List.length_cons]; omega, by simpa [hc.symm] using h.noNul, fun k hk => ?_⟩
  cases k with
  | zero => simpa using hb
  | succ k => rw [List.getD_cons_succ, ← h.eq k (by omega), Nat.add_assoc, Nat.add_comm 1 k]

theorem Rest.nul (h : Rest length b (i + 1) []) (hb : b i = 0) : Rest length b i [] := by
  have hfits := h.fits
  refine ⟨by simp at hfits ⊢; omega, by simp, fun k hk => ?_⟩
  cases k with
  | zero => simpa using hb
  | succ k =>
    have := h.eq k (by omega)
    rw [Nat.add_assoc, Nat.add_comm 1 k] at this
    simpa using this

theorem Rest.removeAt (h : Rest length b i (c :: rest)) :
    Rest length (removeAt length i b) i rest ∧ ∀ j < i, Arguments.removeAt length i b j = b j := by
  have hfits := h.fits
  rw [List.length_cons] at hfits
  have hb : ∀ j, Arguments.removeAt length i b j =
      if j = length - 1 then 0 else if i ≤ j ∧ j < length then b (j + 1) else b j := fun j => by
    unfold Arguments.removeAt
    rw [shiftLoop_eq]
    by_cases hj : j = length - 1
    · rw [if_pos hj, hj, update_self]
    · rw [if_neg hj, update_of_ne hj]
      unfold copy
      split_ifs <;> first | rfl | omega | (congr 1; omega)
  refine ⟨⟨by omega, fun hmem => h.noNul (List.mem_cons_of_mem _ hmem), fun k hk => ?_⟩, fun j hj => ?_⟩
  · rw [hb]
    have hend : rest.length ≤ k → rest.getD k 0 = 0 := fun hle => List.getD_eq_default _ _ hle
    split_ifs with hlast hin
    · rw [hend (by omega)]
    · have := h.eq (k + 1) (by omega)
      rwa [List.getD_cons_succ, ← Nat.add_assoc] at this
    · obtain rfl | hpos := Nat.eq_zero_or_pos k
      · omega
      · have := h.eq k hk
        rw [this, hend (by omega), List.getD_eq_default _ _ (by rw [List.length_cons]; omega)]
  · rw [hb, if_neg (by omega), if_neg (by omega)]

end Rest

/-- **The first loop squeezes** what the buffer holds from `stri` on. -/
theorem collapse_eq {length : ℕ} (fuel : ℕ) :
    ∀ {i : ℕ} (prv : Bool) {b : Bytes} {rest : List UInt8}, Rest length b i rest →
      rest.length + (length - i) < fuel → ∃ b', collapse length fuel i prv b = some b' ∧
        (∀ j < i, b' j = b j) ∧ Rest length b' i (squeeze isSpace prv rest) := by
  induction fuel with
  | zero => intro i prv b rest _ hfuel; omega
  | succ fuel ih =>
    intro i prv b rest h hfuel
    have hfits := h.fits
    rw [collapse]
    by_cases hi : i < length
    case neg =>
      obtain rfl : rest = [] := List.eq_nil_of_length_eq_zero (by omega)
      exact ⟨b, by rw [if_neg hi], fun _ _ => rfl, h⟩
    rw [if_pos hi]
    cases rest with
    | nil =>
      -- Only null characters are left, and the loop runs over them.
      have hb : b i = 0 := by simpa using h.eq 0 (by omega)
      have hnext : Rest length b (i + 1) [] := by
        refine ⟨by simp; omega, by simp, fun k hk => ?_⟩
        have := h.eq (k + 1) (by omega)
        rw [Nat.add_assoc, Nat.add_comm 1 k, this]
        simp
      obtain ⟨b', hrun, hsame, hrest⟩ := ih false hnext (by simp at hfuel ⊢; omega)
      rw [hb, if_neg (by decide)]
      exact ⟨b', hrun, fun j hj => hsame j (by omega), hrest.nul ((hsame i (by omega)).trans hb)⟩
    | cons c rest =>
      have hc : c ≠ 0 := fun hz => h.noNul (hz ▸ List.mem_cons_self)
      rw [List.length_cons] at hfuel hfits
      rw [h.head]
      by_cases hspace : isSpace c = true
      · rw [if_pos hspace]
        cases prv with
        | true =>
          obtain ⟨hremoved, hbefore⟩ := h.removeAt
          obtain ⟨b', hrun, hsame, hrest⟩ := ih true hremoved (by omega)
          refine ⟨b', hrun, fun j hj => (hsame j hj).trans (hbefore j hj), ?_⟩
          simpa [squeeze, hspace] using hrest
        | false =>
          obtain ⟨b', hrun, hsame, hrest⟩ := ih true h.tail (by omega)
          refine ⟨b', hrun, fun j hj => hsame j (by omega), ?_⟩
          simpa [squeeze, hspace] using hrest.cons hc ((hsame i (by omega)).trans h.head)
      · rw [if_neg hspace]
        obtain ⟨b', hrun, hsame, hrest⟩ := ih false h.tail (by omega)
        refine ⟨b', hrun, fun j hj => hsame j (by omega), ?_⟩
        simpa [squeeze, hspace] using hrest.cons hc ((hsame i (by omega)).trans h.head)

/-- The second loop does nothing: it starts at the null character that ends the buffer. -/
theorem trim_eq {length : ℕ} {b : Bytes} (hb : b length = 0) : trim length b = some b := by
  cases length with
  | zero | succ n => rw [trim, hb, if_neg (by decide)]

section

variable (mem : Bytes) {commandLine : List UInt8} (h : (0 : UInt8) ∉ commandLine)
include mem h

theorem collapse_strlcpy :
    ∃ b, collapse commandLine.length (2 * commandLine.length + 1) 0 true
        (strlcpy mem 0 commandLine (1 + commandLine.length)) = some b ∧
      b commandLine.length = 0 ∧ StrAt b 0 (squeeze isSpace true commandLine) := by
  have hcopy := strAt_strlcpy mem 0 h
  have hrest : Rest commandLine.length (strlcpy mem 0 commandLine (1 + commandLine.length)) 0 commandLine :=
    ⟨by omega, h, fun k hk => hcopy.eq k (by omega)⟩
  obtain ⟨b, hrun, -, hb⟩ := collapse_eq (2 * commandLine.length + 1) true hrest (by omega)
  have hfits := hb.fits
  refine ⟨b, hrun, ?_, hb.noNul, fun k hk => hb.eq k (by omega)⟩
  have := hb.eq commandLine.length (by omega)
  rw [Nat.zero_add] at this
  rw [this, List.getD_eq_default _ _ (by omega)]

/-- **The normalised command line.** -/
theorem normalise_eq :
    normalise mem commandLine = some (squeeze isSpace true commandLine) := by
  obtain ⟨b, hrun, hlast, hstr⟩ := collapse_strlcpy mem h
  have hfits := (squeeze_sublist (p := isSpace) true commandLine).length_le
  unfold normalise
  simp only [hrun, trim_eq hlast, Option.bind_eq_bind, Option.bind_some]
  rw [hstr.readStr_eq (by omega)]
  rfl

end

/-! ### The loops of `load` -/

theorem countArgs_eq {m : Bytes} {a n fuel : ℕ} {cs : List UInt8} (h : StrAt m a cs) (hfuel : cs.length < fuel) :
    countArgs m fuel a n = some (n + wordStarts isSpace cs) := by
  induction cs generalizing a n fuel with
  | nil =>
    obtain _ | fuel := fuel
    · simp at hfuel
    rw [countArgs, if_pos (strAt_nil.mp h)]
    rfl
  | cons c cs ih =>
    obtain _ | fuel := fuel
    · omega
    obtain ⟨hc, ha, hrest⟩ := strAt_cons.mp h
    rw [countArgs, ha, if_neg hc, ih hrest (by simpa using hfuel)]
    cases cs with
    | nil =>
      rw [strAt_nil.mp hrest]
      simp [wordStarts]
    | cons d cs =>
      obtain ⟨hd, hmd, -⟩ := strAt_cons.mp hrest
      rw [hmd]
      by_cases hcs : isSpace c = true <;> by_cases hds : isSpace d = true <;> simp [wordStarts, hcs, hds, hd]
      omega

/-- The words `ws` are in memory between `lo` and `hi`, one after the other, and the array at `e`
has their addresses. -/
def Args (m : Bytes) : (e lo hi : ℕ) → List (List UInt8) → Prop
  | _, _, _, [] => True
  | e, lo, hi, w :: ws =>
    lo ≤ word m e ∧ StrAt m (word m e) w ∧ word m e + w.length ≤ hi ∧ Args m (e + 4) (word m e + w.length + 1) hi ws

section Args

variable {m m' : Bytes} {e lo lo' hi : ℕ} {ws : List (List UInt8)}

theorem Args.mono (h : Args m e lo hi ws) (hlo : lo' ≤ lo) : Args m e lo' hi ws := by
  cases ws with
  | nil => trivial
  | cons w ws =>
    obtain ⟨h₁, h₂, h₃, h₄⟩ := h
    exact ⟨hlo.trans h₁, h₂, h₃, h₄⟩

/-- The arguments stay where memory does not change. -/
theorem Args.congr (h : Args m e lo hi ws) (harray : ∀ i, e ≤ i → i < e + 4 * ws.length → m' i = m i)
    (hstrings : ∀ i, lo ≤ i → i ≤ hi → m' i = m i) : Args m' e lo hi ws := by
  induction ws generalizing e lo with
  | nil => trivial
  | cons w ws ih =>
    obtain ⟨hle, hstr, hhi, hrest⟩ := h
    rw [List.length_cons] at harray
    have hword : word m' e = word m e := word_congr fun k hk => harray _ (by omega) (by omega)
    unfold Args
    rw [hword]
    refine ⟨hle, hstr.congr fun k hk => hstrings _ (by omega) (by omega), hhi,
      ih hrest (fun i hi hi' => ?_) fun i hi hi' => ?_⟩
    · exact harray i (by omega) (by omega)
    · exact hstrings i (by omega) hi'

end Args

theorem contains_space : [(32 : UInt8)].contains = isSpace := by
  funext c
  cases hc : c == 32 <;> simp_all [isSpace]

/-- **The loop over the tokens** leaves the words of the string in memory and their addresses in the
array, and touches nothing else. -/
theorem tokenLoop_eq {bound esp : ℕ} (fuel : ℕ) :
    ∀ {m : Bytes} {a : ℕ} (k : ℕ) (s : Option ℕ) (save : ℕ) {cs : List UInt8}, s.getD save = a → StrAt m a cs →
      cs.length < bound → (words isSpace cs).length < fuel → esp + 4 * (k + (words isSpace cs).length) ≤ a →
      a + cs.length < 2 ^ 32 → ∃ m', tokenLoop bound esp fuel m k s save = some m' ∧
        Args m' (esp + 4 * k) a (a + cs.length) (words isSpace cs) ∧
        ∀ i, i < esp + 4 * k ∨ (esp + 4 * (k + (words isSpace cs).length) ≤ i ∧ i < a) ∨ a + cs.length ≤ i →
          m' i = m i := by
  induction fuel with
  | zero => intro m a k s save cs _ _ _ hfuel _; omega
  | succ fuel ih =>
    intro m a k s save cs ha h hbound hfuel harray hhi
    have hcall := strtokR_words [32] ha h hbound
    rw [contains_space] at hcall
    rw [tokenLoop]
    obtain ⟨hwords, hcall⟩ | ⟨token, w, rest, save', m₁, hwords, hcall, hle, hword, hrest, hsave,
      hgap, hlen, -, -, -, hm₁⟩ := hcall
    · refine ⟨m, by rw [hcall], ?_, fun _ _ => rfl⟩
      rw [hwords]
      trivial
    · rw [hwords, List.length_cons] at hfuel harray
      -- The address goes to the array, below the strings.
      have hput : ∀ i, a ≤ i → putWord m₁ (esp + 4 * k) token i = m₁ i := fun i hi => putWord_of_notMem (by omega)
      have htoken : word (putWord m₁ (esp + 4 * k) token) (esp + 4 * k) = token := word_putWord (by omega)
      have hrest' : StrAt (putWord m₁ (esp + 4 * k) token) save' rest := hrest.congr fun j _ => hput _ (by omega)
      obtain ⟨m', hloop, hargs, hsame⟩ :=
        ih (a := save') (k + 1) none save' rfl hrest' (by omega) (by omega) (by omega) (by omega)
      have hslot : word m' (esp + 4 * k) = token := by
        rw [word_congr fun j hj => hsame _ (by omega), htoken]
      refine ⟨m', by rw [hcall]; exact hloop, ?_, fun i hi => ?_⟩
      · rw [hwords, Args, hslot]
        refine ⟨hle, ?_, by omega, ?_⟩
        · exact (hword.congr fun j _ => hput _ (by omega)).congr fun j hj => hsame _ (by omega)
        · rw [hlen, Nat.mul_add, ← Nat.add_assoc] at hargs
          obtain hr | hgap := hgap
          · rw [List.eq_nil_of_length_eq_zero hr]
            trivial
          · exact hargs.mono hgap
      · rw [hwords, List.length_cons] at hi
        rw [hsame i (by omega), putWord_of_notMem (by omega)]
        exact (hm₁ i).resolve_right fun hi' => by omega

/-! ### The stack -/

theorem Args.get {m : Bytes} {e lo hi : ℕ} {ws : List (List UInt8)} (h : Args m e lo hi ws) :
    ∀ i (hi' : i < ws.length), lo ≤ word m (e + 4 * i) ∧ StrAt m (word m (e + 4 * i)) ws[i] ∧
      word m (e + 4 * i) + ws[i].length ≤ hi ∧
      ∀ j (_ : j < ws.length), i < j → word m (e + 4 * i) + ws[i].length < word m (e + 4 * j) := by
  induction ws generalizing e lo with
  | nil => intro i hi'; cases hi'
  | cons w ws ih =>
    obtain ⟨hle, hstr, hhi, hrest⟩ := h
    intro i hi'
    have hshift : ∀ j, e + 4 * (j + 1) = e + 4 + 4 * j := fun j => by omega
    cases i with
    | zero =>
      refine ⟨hle, hstr, hhi, fun j hj hij => ?_⟩
      obtain ⟨j, rfl⟩ : ∃ j', j = j' + 1 := ⟨j - 1, by omega⟩
      have := (ih hrest j (by simpa using hj)).1
      rw [hshift]
      simp only [Nat.mul_zero, Nat.add_zero, List.getElem_cons_zero]
      omega
    | succ i =>
      obtain ⟨h₁, h₂, h₃, h₄⟩ := ih hrest i (by simpa using hi')
      rw [hshift]
      refine ⟨by omega, h₂, h₃, fun j hj hij => ?_⟩
      obtain ⟨j, rfl⟩ : ∃ j', j = j' + 1 := ⟨j - 1, by omega⟩
      rw [hshift]
      exact h₄ j (by simpa using hj) (by omega)

/-- The bytes below `PHYS_BASE` that the arguments take: the string, the gap after it, the array,
and the three words. -/
def frameSize (cmdLine : List UInt8) (n : ℕ) : ℕ := (cmdLine.length + 1) + (8 - (cmdLine.length + 1) % 4) + 4 * n + 12

/-- What `main` expects to find at the stack pointer: a return address, the number of arguments and
the array of their addresses, which ends with a null pointer; the three words, the array and the
strings, in this order, without overlap. -/
structure Frame (m : Bytes) (esp : ℕ) (ws : List (List UInt8)) : Prop where
  /-- The stack pointer is aligned. -/
  aligned : esp % 4 = 0
  /-- It is a stack pointer of the process. -/
  below : esp ≤ PHYS_BASE.toNat
  argc : word m (esp + 4) = ws.length
  /-- The three words come before the array. -/
  words : esp + 12 ≤ word m (esp + 8)
  /-- The array comes before the strings, and they end at `PHYS_BASE`. -/
  array : ∀ i (_ : i < ws.length), word m (esp + 8) + 4 * (ws.length + 1) ≤ word m (word m (esp + 8) + 4 * i) ∧
    word m (word m (esp + 8) + 4 * i) + ws[i].length < PHYS_BASE.toNat
  /-- `argv[i]` is the address of argument `i`. -/
  argv : ∀ i (_ : i < ws.length), StrAt m (word m (word m (esp + 8) + 4 * i)) ws[i]
  /-- `argv[argc]` is null. -/
  null : word m (word m (esp + 8) + 4 * ws.length) = 0
  /-- The strings come one after the other. -/
  strings : ∀ i j (_ : i < ws.length) (_ : j < ws.length), i < j →
    word m (word m (esp + 8) + 4 * i) + ws[i].length < word m (word m (esp + 8) + 4 * j)

/-- **`load` sets up the arguments** of a command line that begins with a word. -/
theorem setupArguments_frame (m : Bytes) {c : UInt8} {cs : List UInt8} (hc : isSpace c = false)
    (hnul : (0 : UInt8) ∉ c :: cs) (hfits : frameSize (c :: cs) (words isSpace (c :: cs)).length ≤ 4096) :
    ∃ esp m', setupArguments m (c :: cs) = some (esp, m') ∧ PHYS_BASE.toNat - 4096 ≤ esp ∧
      Frame m' esp (words isSpace (c :: cs)) := by
  have hbase : PHYS_BASE.toNat = 3221225472 := rfl
  generalize hcmd : c :: cs = cmd at hnul hfits
  generalize hws : words isSpace cmd = ws at hfits ⊢
  have hn : ws.length = 1 + wordStarts isSpace cmd := by rw [← hws, ← hcmd]; exact length_words hc cs
  have hnlen : ws.length ≤ cmd.length := by
    have := wordStarts_le (p := isSpace) c cs
    rw [hn, ← hcmd, List.length_cons]
    omega
  unfold frameSize at hfits
  -- The string, and the array below it.
  generalize hstack : fill m (PHYS_BASE.toNat - 4096) 0 4096 = m₀
  generalize hstr : PHYS_BASE.toNat - (cmd.length + 1) = stri
  generalize hesp : stri - (4 - (cmd.length + 1) % 4 + 4) - 4 * ws.length = e
  have hcopy := strAt_strlcpy m₀ stri hnul
  have hcount : countArgs (strlcpy m₀ stri cmd (1 + cmd.length)) (cmd.length + 1) stri 1 = some ws.length := by
    rw [countArgs_eq hcopy (by omega), hn]
  have harray : e + 4 * (0 + (words isSpace cmd).length) ≤ stri := by
    rw [hws]
    omega
  obtain ⟨m₁, hloop, hargs, hsame⟩ := tokenLoop_eq (a := stri) (cmd.length + 1) 0 (some stri) 0 rfl hcopy
    (Nat.lt_succ_self _) (by rw [hws]; omega) harray (by omega)
  rw [hws] at hargs hsame
  have hrun : setupArguments m cmd = some (e - 12, putWord (putWord m₁ (e - 4) e) (e - 8) ws.length) := by
    unfold setupArguments setupStack
    simp only [hstack, hstr, hcount, hesp, hloop, Option.bind_eq_bind, Option.bind_some]
    rfl
  -- Where everything is.
  have hlow : PHYS_BASE.toNat - 4096 + 12 ≤ e := by omega
  have hgap : e + 4 * ws.length + 4 ≤ stri := by omega
  have htop : stri + cmd.length + 1 = PHYS_BASE.toNat := by omega
  have haligned : (e - 12) % 4 = 0 := by omega
  -- The words below the array.
  generalize hm₂ : putWord (putWord m₁ (e - 4) e) (e - 8) ws.length = m₂ at hrun
  have hargv : word m₂ (e - 12 + 8) = e := by
    rw [show e - 12 + 8 = e - 4 by omega, ← hm₂, word_putWord_of_disjoint (by omega), word_putWord (by omega)]
  have hargc : word m₂ (e - 12 + 4) = ws.length := by
    rw [show e - 12 + 4 = e - 8 by omega, ← hm₂, word_putWord (by omega)]
  have hm : ∀ i, e ≤ i → m₂ i = m₁ i := fun i hi => by
    rw [← hm₂, putWord_of_notMem (by omega), putWord_of_notMem (by omega)]
  have hargs₂ : Args m₂ e stri (stri + cmd.length) ws :=
    hargs.congr (fun i hi _ => hm i (by omega)) fun i hi _ => hm i (by omega)
  -- The word after the array is as `setup_stack` left it.
  have hnull : word m₂ (e + 4 * ws.length) = 0 := word_of_zero fun k hk => by
    rw [hm _ (by omega), hsame _ (by omega), strlcpy_of_notMem (by omega), ← hstack, fill_of_mem (by omega) (by omega)]
  refine ⟨e - 12, m₂, hrun, by omega, ?_⟩
  constructor
  · exact haligned
  · omega
  · exact hargc
  · omega
  · intro i hi
    obtain ⟨hle, -, hhi, -⟩ := hargs₂.get i hi
    rw [hargv]
    omega
  · intro i hi
    rw [hargv]
    exact (hargs₂.get i hi).2.1
  · rw [hargv]
    exact hnull
  · intro i j hi hj hij
    rw [hargv]
    exact (hargs₂.get i hi).2.2.2 j hj hij

/-- **Every command line with a word in it reaches `main` as its words.** -/
theorem arguments_on_stack (mem m : Bytes) {commandLine : List UInt8} (hnul : (0 : UInt8) ∉ commandLine)
    (hn : words isSpace commandLine ≠ []) :
    ∃ cmdLine, normalise mem commandLine = some cmdLine ∧
      (frameSize cmdLine (words isSpace commandLine).length ≤ 4096 →
        ∃ esp m', setupArguments m cmdLine = some (esp, m') ∧ PHYS_BASE.toNat - 4096 ≤ esp ∧
          Frame m' esp (words isSpace commandLine)) := by
  refine ⟨_, normalise_eq mem hnul, fun hfits => ?_⟩
  have hwords := words_squeeze (p := isSpace) commandLine
  cases hcmd : squeeze isSpace true commandLine with
  | nil =>
    rw [hcmd, words_nil] at hwords
    exact absurd hwords.symm hn
  | cons c cs =>
    have hc : isSpace c = false := head_squeeze hcmd
    have hsub := (squeeze_sublist (p := isSpace) true commandLine).subset
    rw [hcmd] at hwords hfits hsub
    rw [← hwords] at hfits ⊢
    exact setupArguments_frame m hc (fun h => hnul (hsub h)) hfits

theorem arguments_on_stack_ls :
    ∃ cmdLine, normalise (fun _ => 7) [32, 32, 108, 115, 32, 32, 45, 108, 32] = some cmdLine ∧
      ∃ esp m', setupArguments (fun _ => 9) cmdLine = some (esp, m') ∧ PHYS_BASE.toNat - 4096 ≤ esp ∧
        Frame m' esp [[108, 115], [45, 108]] := by
  have hnul : (0 : UInt8) ∉ [32, 32, 108, 115, 32, 32, 45, 108, 32] := by decide
  obtain ⟨cmdLine, hnorm, hframe⟩ := arguments_on_stack (fun _ => 7) (fun _ => 9) hnul (by decide)
  have hcmd : cmdLine = [108, 115, 32, 45, 108, 32] := by
    exact (Option.some.inj hnorm).symm
  refine ⟨cmdLine, hnorm, hframe ?_⟩
  rw [hcmd]
  decide

end Pintos.Userprog.Arguments
