import Pintos.Basis.Program
import Pintos.Userprog.Arguments

/-!
# The strings of `process_execute`

`process_execute` (`userprog/process.c`) makes two strings of a command line: the command line with
one space between its words, which `load` splits into arguments, and the name of the file.

## The model

`Pintos.Userprog.Arguments` has the loops with indices that are natural numbers, on a buffer without
bounds. Here the indices are `unsigned`, and a buffer has a size: an access outside of it is an
error. The buffer `cmd_copy` has one byte more than the command line, the name gets a page. `load`
writes to the stack, of which one page is mapped; a write to another address is a page fault of the
kernel, which stops it. Reads of the stack are not checked, since what is read was written before.

## What is proved

**`normalise_correct_iff`**: the loops end and access `cmd_copy` only, and they leave the words,
joined by single spaces, exactly if there is no space at the end. **`file_name_iff`**: the name is
the first word exactly if there is no space before it. **`exec_writes_iff`**: all writes are inside
and the stack pointer is on the page, exactly if the first word is shorter than a page and the
arguments are not longer than one; nothing checks that.
-/

namespace Pintos.Userprog.CommandLine

open Arguments Function Lib Memory Program

/-- What stops a function. -/
inductive Fault where
  /-- An access outside of a buffer, or of the page of the stack. -/
  | outside
  /-- A loop that does not end within its bound. -/
  | diverges
  deriving DecidableEq

/-- A function on a buffer. -/
abbrev Buffer := Program Bytes Fault

/-! ### The loops on `cmd_copy` -/

/-- Read a character of a buffer of `size` bytes. -/
def read (size : ℕ) (i : BitVec 32) : Buffer UInt8 :=
  if i.toNat < size then do return (← get) i.toNat else throw .outside

/-- Write a character. -/
def write (size : ℕ) (i : BitVec 32) (c : UInt8) : Buffer Unit :=
  if i.toNat < size then modify fun b => update b i.toNat c else throw .outside

/-- The loop over `stri_cp`: where it ends. -/
def shiftWhile (length : ℕ) : (fuel : ℕ) → (striCp : BitVec 32) → Buffer (BitVec 32)
  | 0, _ => throw .diverges
  | fuel + 1, striCp =>
    if striCp.toNat < length then do
      write (1 + length) striCp (← read (1 + length) (striCp + 1#32))
      shiftWhile length fuel (striCp + 1#32)
    else return striCp

/-- The loop that takes out the spaces that follow a space. -/
def collapseWhile (length : ℕ) : (fuel : ℕ) → (stri : BitVec 32) → (prvChSp : Bool) → Buffer Unit
  | 0, _, _ => throw .diverges
  | fuel + 1, stri, prvChSp =>
    if stri.toNat < length then do
      if isSpace (← read (1 + length) stri) then
        if prvChSp then
          let striCp ← shiftWhile length (1 + length) stri
          if (← read (1 + length) striCp) = 0 ∨ striCp.toNat = length then write (1 + length) (striCp - 1#32) 0
          -- `stri--` here, and `stri++` of the loop
          collapseWhile length fuel (stri - 1#32 + 1#32) true
        else collapseWhile length fuel (stri + 1#32) true
      else collapseWhile length fuel (stri + 1#32) false
    else return ()

/-- The loop that is to take out the spaces at the end. -/
def trimWhile (length : ℕ) : (fuel : ℕ) → (stri : BitVec 32) → Buffer Unit
  | 0, _ => throw .diverges
  | fuel + 1, stri => do
    if isSpace (← read (1 + length) stri) then
      write (1 + length) stri 0
      trimWhile length fuel (stri - 1#32)
    else return ()

/-- The loop that looks for the end of the first word. -/
def wordWhile (length : ℕ) : (fuel : ℕ) → (it : BitVec 32) → Buffer (BitVec 32)
  | 0, _ => throw .diverges
  | fuel + 1, it => do
    let c ← read (1 + length) it
    if isSpace c = false ∧ c ≠ 0 then wordWhile length fuel (it + 1#32) else return it

/-- The part of `process_execute` that works on `cmd_copy`: `it`. -/
def normaliseCopy (length : ℕ) : Buffer (BitVec 32) := do
  collapseWhile length (2 * length + 1) 0#32 true
  trimWhile length (1 + length) (BitVec.ofNat 32 length)
  wordWhile length (1 + length) 0#32

/-- `strlcpy` to a buffer of `limit` bytes. -/
def strlcpyTo (limit : ℕ) (m : Bytes) (src : List UInt8) (size : ℕ) : Except Fault Bytes :=
  if min src.length (size - 1) < limit then .ok (strlcpy m 0 src size) else .error .outside

/-- The strings that `process_execute` makes. -/
structure Strings where
  /-- `sh->cmd_line`. -/
  cmdLine : List UInt8
  /-- `sh->file_name`. -/
  fileName : List UInt8

/-- The part of `process_execute` that makes the strings. `mem`, `page` and `mem'` are what is in
`cmd_copy`, in `name_copy` and in `cmd_line` before. -/
def makeStrings (mem page mem' : Bytes) (commandLine : List UInt8) : Except Fault Strings := do
  let length := commandLine.length
  let cmdCopy ← strlcpyTo (1 + length) mem commandLine (1 + length)
  let (it, cmdCopy) ← normaliseCopy length cmdCopy
  let nameCopy ← strlcpyTo 4096 page commandLine (it.toNat + 1)
  let copied := readStr cmdCopy 0 (1 + length)
  let cmdLine ← strlcpyTo (1 + length) mem' copied (1 + copied.length)
  return ⟨readStr cmdLine 0 (1 + length), readStr nameCopy 0 4096⟩

/-! ### The stack -/

/-- The kernel writes `n` bytes at address `a` of the stack. -/
def push (a n : ℕ) : Except Fault Unit :=
  if PHYS_BASE.toNat - 4096 ≤ a ∧ a + n ≤ PHYS_BASE.toNat then .ok () else .error .outside

/-- The result of a loop that is `none` when its bound does not suffice. -/
def bounded {α : Type} : Option α → Except Fault α
  | some a => .ok a
  | none => .error .diverges

/-- `strtok_r` on a string on the stack. -/
def strtokOn (fuel : ℕ) (m : Bytes) (delimiters : List UInt8) (s : Option ℕ) (savePtr : ℕ) :
    Except Fault (Option ℕ × ℕ × Bytes) := do
  let s ← bounded (skipWhile m (fun c => c != 0 && delimiters.contains c) fuel (s.getD savePtr))
  if m s = 0 then return (none, s, m)
  else
    let token := s
    let s ← bounded (skipWhile m (fun c => !(c == 0 || delimiters.contains c)) fuel s)
    if m s ≠ 0 then
      push s 1
      return (some token, s + 1, update m s 0)
    else return (some token, s, m)

/-- The loop over the tokens. -/
def tokenWhile (bound esp : ℕ) : (fuel : ℕ) → Bytes → (tokIt : ℕ) → (s : Option ℕ) → (savePtr : ℕ) →
    Except Fault Bytes
  | 0, _, _, _, _ => .error .diverges
  | fuel + 1, m, tokIt, s, savePtr => do
    match ← strtokOn bound m [32] s savePtr with
    | (none, _, m) => return m
    | (some token, savePtr, m) =>
      push (esp + 4 * tokIt) 4
      tokenWhile bound esp fuel (putWord m (esp + 4 * tokIt) token) (tokIt + 1) none savePtr

/-- The part of `load` that sets up the stack, with its writes checked: the stack pointer, and the
memory. -/
def setupArgumentsOn (m : Bytes) (cmdLine : List UInt8) : Except Fault (ℕ × Bytes) := do
  let (esp, m) := setupStack m
  let argStrLen := cmdLine.length
  let quadOffset := (argStrLen + 1) % 4
  let esp := esp - (argStrLen + 1)
  push esp (argStrLen + 1)
  let m := strlcpy m esp cmdLine (1 + argStrLen)
  let stri := esp
  let numberArgs ← bounded (countArgs m (argStrLen + 1) stri 1)
  let esp := esp - ((4 - quadOffset) + 4)
  let esp := esp - 4 * numberArgs
  let m ← tokenWhile (argStrLen + 1) esp (argStrLen + 1) m 0 (some stri) 0
  let argList := esp
  let esp := esp - 4
  push esp 4
  let m := putWord m esp argList
  let esp := esp - 4
  push esp 4
  let m := putWord m esp numberArgs
  let esp := esp - 4
  return (esp, m)

/-- What a command line becomes on the stack of the new process. -/
def execArguments (mem page mem' m : Bytes) (commandLine : List UInt8) : Except Fault (ℕ × Bytes) := do
  let strings ← makeStrings mem page mem' commandLine
  setupArgumentsOn m strings.cmdLine

/-! ### The loops do not leave the buffer -/

section Loops

variable {length fuel : ℕ} {i : BitVec 32} {b : Bytes}

theorem read_run (hi : i.toNat ≤ length) (b : Bytes) : read (1 + length) i b = .ok (b i.toNat, b) := by
  rw [read, if_pos (by omega)]
  rfl

theorem write_run (hi : i.toNat ≤ length) (c : UInt8) (b : Bytes) :
    write (1 + length) i c b = .ok ((), update b i.toNat c) := by
  rw [write, if_pos (by omega)]
  rfl

section

variable (hlen : 1 + length < 2 ^ 32)
include hlen

theorem toNat_succ (hi : i.toNat < length) : (i + 1#32).toNat = i.toNat + 1 := by
  exact Nat.mod_eq_of_lt (by rw [show (1#32).toNat = 1 from rfl]; omega)

/-- The loop over `stri_cp` moves the characters down, and ends at the end. -/
theorem shiftWhile_run (n : ℕ) (hi : i.toNat + n = length) (hfuel : n < fuel) (b : Bytes) :
    shiftWhile length fuel i b = .ok (BitVec.ofNat 32 length, shiftLoop n i.toNat b) := by
  induction n generalizing i b fuel with
  | zero =>
    obtain _ | fuel := fuel
    · omega
    have hend : i = BitVec.ofNat 32 length := by
      rw [← hi, Nat.add_zero, BitVec.ofNat_toNat, BitVec.setWidth_eq]
    rw [shiftWhile, if_neg (by omega), shiftLoop, hend]
    rfl
  | succ n ih =>
    obtain _ | fuel := fuel
    · omega
    have hnext := toNat_succ hlen (show i.toNat < length by omega)
    rw [shiftWhile, if_pos (by omega), bind_run_ok (read_run (by omega) b), bind_run_ok (write_run (by omega) _ b),
      ih (by omega) (by omega), hnext, shiftLoop]

/-- **The first loop** is `collapse`. -/
theorem collapseWhile_run {prv : Bool} {b' : Bytes} (hi : i.toNat ≤ length)
    (h : collapse length fuel i.toNat prv b = some b') : collapseWhile length fuel i prv b = .ok ((), b') := by
  induction fuel generalizing i prv b with
  | zero => cases h
  | succ fuel ih =>
    rw [collapse] at h
    rw [collapseWhile]
    by_cases hlt : i.toNat < length
    case neg =>
      rw [if_neg hlt] at h ⊢
      cases h
      rfl
    rw [if_pos hlt] at h ⊢
    have hnext := toNat_succ hlen hlt
    rw [bind_run_ok (read_run hi b)]
    by_cases hspace : isSpace (b i.toNat) = true
    · rw [if_pos hspace] at h ⊢
      cases prv with
      | true =>
        -- the index goes down and up again, also where it is zero
        have hsame : i - 1#32 + 1#32 = i := BitVec.sub_add_cancel i 1#32
        have hshift : shiftWhile length (1 + length) i b =
            .ok (BitVec.ofNat 32 length, shiftLoop (length - i.toNat) i.toNat b) :=
          shiftWhile_run hlen _ (by omega) (by omega) b
        have hend : (BitVec.ofNat 32 length).toNat = length := by
          exact Nat.mod_eq_of_lt (by omega)
        have hone : (1#32).toNat ≤ (BitVec.ofNat 32 length).toNat := by
          rw [hend]
          exact Nat.lt_of_le_of_lt (Nat.zero_le _) hlt
        have hlast : (BitVec.ofNat 32 length - 1#32).toNat = length - 1 := by
          rw [BitVec.toNat_sub_of_le (BitVec.le_def.mpr hone), hend]
          rfl
        rw [if_pos rfl] at h ⊢
        rw [hsame, bind_run_ok hshift, bind_run_ok (read_run hend.le _), if_pos (.inr hend),
          bind_run_ok (write_run (by omega) 0 _), hlast]
        exact ih hi h
      | false =>
        exact ih (by omega) (by rwa [hnext])
    · rw [if_neg hspace] at h ⊢
      exact ih (by omega) (by rwa [hnext])

/-- The second loop stops at the null character that ends the buffer. -/
theorem trimWhile_run (hb : b length = 0) :
    trimWhile length (1 + length) (BitVec.ofNat 32 length) b = .ok ((), b) := by
  have hend : (BitVec.ofNat 32 length).toNat = length := by
    exact Nat.mod_eq_of_lt (by omega)
  rw [Nat.add_comm 1 length, trimWhile, bind_run_ok (read_run hend.le b), hend, hb, if_neg (by decide)]
  rfl

/-- The third loop stops at the end of the first word. -/
theorem wordWhile_run {cs : List UInt8} (hcs : StrAt b i.toNat cs)
    (hfits : i.toNat + cs.length ≤ length) (hfuel : cs.length < fuel) :
    ∃ it, wordWhile length fuel i b = .ok (it, b) ∧ it.toNat = i.toNat + (cs.takeWhile fun c => !isSpace c).length := by
  induction cs generalizing i fuel with
  | nil =>
    obtain _ | fuel := fuel
    · simp at hfuel
    refine ⟨i, ?_, rfl⟩
    rw [wordWhile, bind_run_ok (read_run (by omega) b), strAt_nil.mp hcs, if_neg (by simp)]
    rfl
  | cons c cs ih =>
    obtain _ | fuel := fuel
    · omega
    obtain ⟨hc, hbc, hrest⟩ := strAt_cons.mp hcs
    rw [List.length_cons] at hfits hfuel
    have hnext := toNat_succ hlen (show i.toNat < length by omega)
    rw [wordWhile, bind_run_ok (read_run (by omega) b), hbc]
    by_cases hspace : isSpace c = true
    · refine ⟨i, ?_, ?_⟩
      · rw [if_neg (by simp [hspace])]
        rfl
      · rw [List.takeWhile_cons_of_neg (by simp [hspace])]
        rfl
    · rw [← hnext] at hrest
      obtain ⟨it, hrun, hit⟩ := ih hrest (by omega) (show cs.length < fuel by omega)
      refine ⟨it, ?_, ?_⟩
      · rw [if_pos ⟨eq_false_of_ne_true hspace, hc⟩]
        exact hrun
      · rw [hit, hnext, List.takeWhile_cons_of_pos (by simp [hspace]), List.length_cons]
        omega

end

end Loops

/-! ### The strings -/

/-- The first word of the command line, or the empty string. -/
def firstWord (commandLine : List UInt8) : List UInt8 := (words isSpace commandLine).headD []

/-- The part of a string that fits is copied. -/
theorem strAt_strlcpy_take (m : Bytes) {src : List UInt8} (hsrc : (0 : UInt8) ∉ src) {n : ℕ} (hn : n ≤ src.length) :
    StrAt (strlcpy m 0 src (n + 1)) 0 (src.take n) := by
  have htake : (src.take n).length = n := List.length_take_of_le hn
  have hlen : (if src.length < n + 1 - 1 then src.length else n + 1 - 1) = n := by
    split <;> omega
  refine ⟨fun hmem => hsrc (List.mem_of_mem_take hmem), fun k hk => ?_⟩
  rw [htake] at hk
  unfold strlcpy
  rw [if_pos (by omega)]
  simp only [hlen, Nat.zero_add]
  obtain hlt | rfl := Nat.lt_or_eq_of_le hk
  · rw [update_of_ne (by omega), copy_of_mem (by omega) (by omega)]
    simp [List.getD_eq_getElem?_getD, List.getElem?_take_of_lt hlt]
  · rw [update_self, List.getD_eq_default _ _ (by omega)]

section Strings

variable {commandLine : List UInt8} (hnul : (0 : UInt8) ∉ commandLine) (hlen : 1 + commandLine.length < 2 ^ 32)
include hnul hlen

/-- **The loops end, do not leave the buffer, and squeeze the command line.** -/
theorem normaliseCopy_run (mem : Bytes) :
    ∃ it b, normaliseCopy commandLine.length (strlcpy mem 0 commandLine (1 + commandLine.length)) = .ok (it, b) ∧
      it.toNat = (firstWord commandLine).length ∧ StrAt b 0 (squeeze isSpace true commandLine) := by
  obtain ⟨b, hcollapse, hlast, hstr⟩ := collapse_strlcpy mem hnul
  have hfits := (squeeze_sublist (p := isSpace) true commandLine).length_le
  obtain ⟨it, hword, hit⟩ : ∃ it, wordWhile commandLine.length (1 + commandLine.length) 0#32 b = .ok (it, b) ∧
      it.toNat = 0 + ((squeeze isSpace true commandLine).takeWhile fun c => !isSpace c).length :=
    wordWhile_run hlen hstr (by simpa using hfits) (by omega)
  refine ⟨it, b, ?_, ?_, hstr⟩
  · rw [normaliseCopy, bind_run_ok (collapseWhile_run (i := 0#32) hlen (Nat.zero_le _) hcollapse),
      bind_run_ok (trimWhile_run hlen hlast)]
    exact hword
  · rw [hit, takeWhile_squeeze]
    exact Nat.zero_add _

/-- **What `process_execute` makes of a command line**: the squeezed command line, and as many
characters from its start as the first word has. -/
theorem makeStrings_eq (mem page mem' : Bytes) : makeStrings mem page mem' commandLine =
    if (firstWord commandLine).length < 4096 then
      .ok ⟨squeeze isSpace true commandLine, commandLine.take (firstWord commandLine).length⟩
    else .error .outside := by
  obtain ⟨it, b, hrun, hit, hb⟩ := normaliseCopy_run hnul hlen mem
  have hsq := (squeeze_sublist (p := isSpace) true commandLine).length_le
  have hword : (firstWord commandLine).length ≤ commandLine.length := by
    rw [firstWord, ← takeWhile_squeeze]
    exact (List.takeWhile_sublist _).length_le.trans hsq
  have hread : readStr b 0 (1 + commandLine.length) = squeeze isSpace true commandLine := hb.readStr_eq (by omega)
  have hcopy : strlcpyTo (1 + commandLine.length) mem commandLine (1 + commandLine.length) =
      .ok (strlcpy mem 0 commandLine (1 + commandLine.length)) := if_pos (by omega)
  have hcmd : strlcpyTo (1 + commandLine.length) mem' (squeeze isSpace true commandLine)
    (1 + (squeeze isSpace true commandLine).length) =
      .ok (strlcpy mem' 0 (squeeze isSpace true commandLine)
        (1 + (squeeze isSpace true commandLine).length)) := if_pos (by omega)
  have hcmdLine : readStr (strlcpy mem' 0 (squeeze isSpace true commandLine)
    (1 + (squeeze isSpace true commandLine).length)) 0
      (1 + commandLine.length) = squeeze isSpace true commandLine :=
    (strAt_strlcpy mem' 0 hb.noNul).readStr_eq (by omega)
  rw [makeStrings, hcopy]
  simp only [bind, Except.bind, hrun, hit, hread, hcmd, hcmdLine]
  by_cases hfits : (firstWord commandLine).length < 4096
  · have hname : strlcpyTo 4096 page commandLine ((firstWord commandLine).length + 1) =
        .ok (strlcpy page 0 commandLine ((firstWord commandLine).length + 1)) := if_pos (by omega)
    have hfile : readStr (strlcpy page 0 commandLine ((firstWord commandLine).length + 1)) 0 4096 =
        commandLine.take (firstWord commandLine).length :=
      (strAt_strlcpy_take page hnul hword).readStr_eq (by rw [List.length_take]; omega)
    rw [hname, if_pos hfits]
    simp only [hfile]
    rfl
  · have hname : strlcpyTo 4096 page commandLine ((firstWord commandLine).length + 1) = .error .outside := if_neg (by omega)
    rw [hname, if_neg hfits]

end Strings

/-! ### The writes to the stack -/

section Stack

variable {m : Bytes} {a : ℕ} {cs : List UInt8} {fuel : ℕ}

/-- A loop that looks for the end of something in a string does not go over its end. -/
theorem skipWhile_le {p : UInt8 → Bool} {e : ℕ} (h : StrAt m a cs) (hp : p 0 = false)
    (hrun : skipWhile m p fuel a = some e) :
    ∃ k, e = a + k ∧ k ≤ cs.length ∧ StrAt m e (cs.drop k) := by
  induction cs generalizing a fuel with
  | nil =>
    cases fuel with
    | zero => cases hrun
    | succ fuel =>
      rw [skipWhile, strAt_nil.mp h, hp, if_neg Bool.false_ne_true] at hrun
      obtain rfl := Option.some.inj hrun
      exact ⟨0, rfl, Nat.le_refl 0, h⟩
  | cons c cs ih =>
    cases fuel with
    | zero => cases hrun
    | succ fuel =>
      rw [skipWhile] at hrun
      by_cases hc : p (m a) = true
      · rw [if_pos hc] at hrun
        obtain ⟨k, rfl, hk, hdrop⟩ := ih (strAt_cons.mp h).2.2 hrun
        exact ⟨k + 1, by omega, Nat.succ_le_succ hk, hdrop⟩
      · rw [if_neg hc] at hrun
        obtain rfl := Option.some.inj hrun
        exact ⟨0, rfl, Nat.zero_le _, h⟩

theorem strtokOn_eq {delimiters : List UInt8} {s : Option ℕ} {save : ℕ} {r : Option ℕ × ℕ × Bytes}
    (hs : s.getD save = a) (h : StrAt m a cs) (hpage : PHYS_BASE.toNat - 4096 ≤ a ∧ a + cs.length ≤ PHYS_BASE.toNat)
    (hrun : strtokR fuel m delimiters s save = some r) : strtokOn fuel m delimiters s save = .ok r := by
  simp only [strtokR, hs, Option.bind_eq_bind] at hrun
  obtain ⟨b, hskip, hrun⟩ := Option.bind_eq_some_iff.mp hrun
  obtain ⟨k, rfl, hk, hdrop⟩ := skipWhile_le h rfl hskip
  simp only [strtokOn, hs, hskip, bounded, bind, Except.bind]
  by_cases hb : m (a + k) = 0
  · rw [if_pos hb] at hrun ⊢
    cases hrun
    rfl
  · rw [if_neg hb] at hrun ⊢
    obtain ⟨e, hskip', hrun⟩ := Option.bind_eq_some_iff.mp hrun
    obtain ⟨k', rfl, hk', hdrop'⟩ := skipWhile_le hdrop rfl hskip'
    simp only [hskip']
    by_cases he : m (a + k + k') = 0
    · rw [if_neg (not_not.mpr he)] at hrun ⊢
      cases hrun
      rfl
    · have hlt : k + k' < cs.length := by
        by_contra hge
        have hnil : (cs.drop k).drop k' = [] := List.drop_eq_nil_of_le (by rw [List.length_drop]; omega)
        rw [hnil] at hdrop'
        exact he (strAt_nil.mp hdrop')
      have hpush : push (a + k + k') 1 = .ok () := if_pos (by omega)
      rw [if_pos he] at hrun ⊢
      cases hrun
      rw [hpush]
      rfl

/-- **The loop over the tokens**, when the array and the string are on the page. -/
theorem tokenWhile_eq {bound esp : ℕ} (fuel : ℕ) :
    ∀ {m : Bytes} {a : ℕ} (k : ℕ) (s : Option ℕ) (save : ℕ) {cs : List UInt8} {m' : Bytes}, s.getD save = a →
      StrAt m a cs → cs.length < bound → esp + 4 * (k + (words isSpace cs).length) ≤ a → a + cs.length ≤ PHYS_BASE.toNat →
      PHYS_BASE.toNat - 4096 ≤ esp → tokenLoop bound esp fuel m k s save = some m' →
      tokenWhile bound esp fuel m k s save = .ok m' := by
  induction fuel with
  | zero =>
    intro m a k s save cs m' _ _ _ _ _ _ hrun
    cases hrun
  | succ fuel ih =>
    intro m a k s save cs m' hs h hbound harray hend hpage hrun
    have hcall := strtokR_words [32] hs h hbound
    rw [contains_space] at hcall
    rw [tokenLoop] at hrun
    rw [tokenWhile]
    obtain ⟨hwords, hcall⟩ | ⟨token, w, rest, save', m₁, hwords, hcall, hle, -, hrest, hsave, -, hlen, -, -⟩ := hcall
    · rw [hcall] at hrun
      rw [strtokOn_eq hs h (by omega) hcall]
      cases hrun
      rfl
    · rw [hwords, List.length_cons] at harray
      rw [hcall] at hrun
      have hrest' : StrAt (putWord m₁ (esp + 4 * k) token) save' rest :=
        hrest.congr fun j _ => putWord_of_notMem (by omega)
      have hpush : push (esp + 4 * k) 4 = .ok () := if_pos (by omega)
      have hloop := ih (a := save') (k + 1) none save' rfl hrest' (by omega) (by omega) (by omega) hpage hrun
      rw [strtokOn_eq hs h (by omega) hcall]
      simp only [bind, Except.bind, hpush]
      exact hloop

/-- The bytes from the stack pointer that `load` sets to `PHYS_BASE`, with as many arguments as it
counts. -/
def stackBytes (cmdLine : List UInt8) : ℕ := frameSize cmdLine (1 + wordStarts isSpace cmdLine)

theorem length_words_le (hstart : ∀ c ∈ cs.head?, isSpace c = false) :
    (words isSpace cs).length ≤ 1 + wordStarts isSpace cs ∧ wordStarts isSpace cs ≤ cs.length ∧
      (words isSpace cs).length ≤ cs.length ∧ (cs ≠ [] → words isSpace cs ≠ []) := by
  cases cs with
  | nil => exact ⟨Nat.zero_le _, Nat.le_refl 0, Nat.le_refl 0, fun hne => absurd rfl hne⟩
  | cons c cs =>
    have hlen := length_words (hstart c rfl) cs
    have hle := wordStarts_le (p := isSpace) c cs
    rw [List.length_cons]
    refine ⟨hlen.le, by omega, by omega, fun _ hnil => ?_⟩
    rw [hnil, List.length_nil] at hlen
    omega

/-- **The writes to the stack are on its page exactly if they are no more than a page**; the slot of
the return address is not written. -/
theorem setupArgumentsOn_eq (m : Bytes) (hnul : (0 : UInt8) ∉ cs) (hstart : ∀ c ∈ cs.head?, isSpace c = false) :
    (stackBytes cs ≤ 4100 → ∃ r, setupArguments m cs = some r ∧ setupArgumentsOn m cs = .ok r ∧
        r.1 + stackBytes cs = PHYS_BASE.toNat) ∧
      (4100 < stackBytes cs → setupArgumentsOn m cs = .error .outside) := by
  have hbase : PHYS_BASE.toNat = 3221225472 := rfl
  obtain ⟨hwords, hstarts, hcnt, hne⟩ := length_words_le hstart
  unfold stackBytes frameSize
  generalize hstack : fill m (PHYS_BASE.toNat - 4096) 0 4096 = m₀
  generalize hstr : PHYS_BASE.toNat - (cs.length + 1) = stri
  generalize hn : 1 + wordStarts isSpace cs = n at *
  generalize hesp : stri - (4 - (cs.length + 1) % 4 + 4) - 4 * n = e
  -- the string
  by_cases hlong : 4096 < cs.length + 1
  · have hpush : push stri (cs.length + 1) = .error .outside := if_neg (by omega)
    refine ⟨fun hle => by omega, fun _ => ?_⟩
    simp only [setupArgumentsOn, setupStack, hstack, hstr, hpush]
    rfl
  have hpush : push stri (cs.length + 1) = .ok () := if_pos (by omega)
  have hcopy := strAt_strlcpy m₀ stri hnul
  have hcount : countArgs (strlcpy m₀ stri cs (1 + cs.length)) (cs.length + 1) stri 1 = some n := by
    rw [countArgs_eq hcopy (by omega), hn]
  have harray : e + 4 * (0 + (words isSpace cs).length) ≤ stri := by omega
  obtain ⟨m₁, hloop, -, -⟩ := tokenLoop_eq (a := stri) (cs.length + 1) 0 (some stri) 0 rfl hcopy
    (Nat.lt_succ_self _) (Nat.lt_succ_of_le hcnt) harray (by omega)
  -- the array
  by_cases hlow : e < PHYS_BASE.toNat - 4096
  · have hsome : (some stri).getD 0 = stri := rfl
    have hcall := strtokR_words [32] hsome hcopy (Nat.lt_succ_self _)
    rw [contains_space] at hcall
    have hpos : cs ≠ [] := by
      intro h0
      have hzero : cs.length = 0 := by rw [h0]; rfl
      omega
    obtain ⟨hnil, -⟩ | ⟨token, w, rest, save', m', -, hcall, -⟩ := hcall
    · exact absurd hnil (hne hpos)
    · have hslot : push (e + 4 * 0) 4 = .error .outside := if_neg (by omega)
      have htokens : tokenWhile (cs.length + 1) e (cs.length + 1) (strlcpy m₀ stri cs (1 + cs.length)) 0 (some stri) 0 =
          .error .outside := by
        rw [tokenWhile, strtokOn_eq hsome hcopy (by omega) hcall]
        simp only [bind, Except.bind, hslot]
      refine ⟨fun hle => by omega, fun _ => ?_⟩
      simp only [setupArgumentsOn, setupStack, hstack, hstr, hpush, bounded, bind, Except.bind, hcount, hesp, htokens]
  have htokens := tokenWhile_eq (a := stri) (cs.length + 1) 0 (some stri) 0 rfl hcopy (Nat.lt_succ_self _) harray (by omega)
    (by omega) hloop
  -- the two words
  by_cases hargv : e - 4 < PHYS_BASE.toNat - 4096
  · have hslot : push (e - 4) 4 = .error .outside := if_neg (by omega)
    refine ⟨fun hle => by omega, fun _ => ?_⟩
    simp only [setupArgumentsOn, setupStack, hstack, hstr, hpush, bounded, bind, Except.bind, hcount, hesp, htokens, hslot]
  have hslot : push (e - 4) 4 = .ok () := if_pos (by omega)
  by_cases hargc : e - 4 - 4 < PHYS_BASE.toNat - 4096
  · have hslot' : push (e - 4 - 4) 4 = .error .outside := if_neg (by omega)
    refine ⟨fun hle => by omega, fun _ => ?_⟩
    simp only [setupArgumentsOn, setupStack, hstack, hstr, hpush, bounded, bind, Except.bind,
      hcount, hesp, htokens, hslot, hslot']
  have hslot' : push (e - 4 - 4) 4 = .ok () := if_pos (by omega)
  refine ⟨fun _ => ⟨(e - 4 - 4 - 4, putWord (putWord m₁ (e - 4) e) (e - 4 - 4) n), ?_, ?_, ?_⟩, fun hlt => by omega⟩
  · simp only [setupArguments, setupStack, hstack, hstr, hcount, hesp, hloop, Option.bind_eq_bind, Option.bind_some]
    rfl
  · simp only [setupArgumentsOn, setupStack, hstack, hstr, hpush, bounded, bind, Except.bind,
      hcount, hesp, htokens, hslot, hslot']
    rfl
  · omega

theorem setupArgumentsOn_squeeze (m : Bytes) (hnul : (0 : UInt8) ∉ cs) :
    (stackBytes (squeeze isSpace true cs) ≤ 4100 → ∃ r, setupArguments m (squeeze isSpace true cs) = some r ∧
        setupArgumentsOn m (squeeze isSpace true cs) = .ok r ∧
        r.1 + stackBytes (squeeze isSpace true cs) = PHYS_BASE.toNat) ∧
      (4100 < stackBytes (squeeze isSpace true cs) → setupArgumentsOn m (squeeze isSpace true cs) = .error .outside) := by
  have hsub := (squeeze_sublist (p := isSpace) true cs).subset
  refine setupArgumentsOn_eq m (fun h => hnul (hsub h)) fun c hc => ?_
  obtain ⟨ds, hds⟩ := List.head?_eq_some_iff.mp hc
  exact head_squeeze hds

end Stack

/-! ### Results -/

/-- The name and the arguments fit. -/
def Fits (commandLine : List UInt8) : Prop :=
  (firstWord commandLine).length < 4096 ∧ stackBytes (squeeze isSpace true commandLine) ≤ 4096

theorem isSpace_iff (c : UInt8) : isSpace c = true ↔ c = 32 := beq_iff_eq

section Results

variable (commandLine : List UInt8) (hnul : (0 : UInt8) ∉ commandLine) (hlen : 1 + commandLine.length < 2 ^ 32)
include hnul hlen

/-- **The loops of `process_execute` end and stay in `cmd_copy`. They leave the words, joined by
single spaces, exactly if the command line does not have a word and a space at its end.** -/
theorem normalise_correct_iff (mem : Bytes) :
    ∃ it b, normaliseCopy commandLine.length (strlcpy mem 0 commandLine (1 + commandLine.length)) = .ok (it, b) ∧
      (StrAt b 0 ([32].intercalate (words isSpace commandLine)) ↔ endsInSeparator isSpace commandLine = false) ∧
      ∀ page mem' s, makeStrings mem page mem' commandLine = .ok s →
        (s.cmdLine = [32].intercalate (words isSpace commandLine) ↔ endsInSeparator isSpace commandLine = false) := by
  obtain ⟨it, b, hrun, -, hb⟩ := normaliseCopy_run hnul hlen mem
  have hiff : squeeze isSpace true commandLine = [32].intercalate (words isSpace commandLine) ↔
      endsInSeparator isSpace commandLine = false := by
    rw [squeeze_eq_intercalate isSpace_iff, List.append_right_eq_self]
    cases endsInSeparator isSpace commandLine with
    | false | true => simp
  refine ⟨it, b, hrun, ?_, fun page mem' s hs => ?_⟩
  · rw [← hiff]
    exact ⟨fun h => hb.unique h, fun h => h ▸ hb⟩
  · rw [makeStrings_eq hnul hlen] at hs
    split at hs
    · cases hs
      exact hiff
    · cases hs

/-- **The name of the file is the first word exactly if there is no space before it**, and the word
is shorter than the page of the name. The words that `load` splits are those of the command line. -/
theorem file_name_iff (mem page mem' : Bytes) (hword : words isSpace commandLine ≠ []) :
    (∃ s, makeStrings mem page mem' commandLine = .ok s ∧ words isSpace s.cmdLine = words isSpace commandLine ∧
        (words isSpace commandLine).head? = some s.fileName) ↔
      (∀ c ∈ commandLine.head?, isSpace c = false) ∧ (firstWord commandLine).length < 4096 := by
  have hfirst : (words isSpace commandLine).head? = some (firstWord commandLine) := by
    obtain ⟨w, ws, hws⟩ := List.exists_cons_of_ne_nil hword
    rw [firstWord, hws]
    rfl
  rw [← take_eq_headWord_iff hword, makeStrings_eq hnul hlen]
  by_cases hfits : (firstWord commandLine).length < 4096
  · rw [if_pos hfits]
    constructor
    · rintro ⟨s, hs, -, hname⟩
      cases hs
      rw [hfirst] at hname
      exact ⟨(Option.some.inj hname).symm, hfits⟩
    · rintro ⟨hname, -⟩
      refine ⟨_, rfl, words_squeeze commandLine, ?_⟩
      rw [hfirst]
      exact congrArg some hname.symm
  · rw [if_neg hfits]
    constructor
    · rintro ⟨s, hs, -⟩
      cases hs
    · rintro ⟨-, hlt⟩
      exact absurd hlt hfits

/-- **All writes are inside and the stack pointer is on the page exactly if the name and the
arguments fit.** Where they do not, a write is outside, or the slot of the return address is below
the page. -/
theorem exec_writes_iff (mem page mem' m : Bytes) :
    ((∃ r, execArguments mem page mem' m commandLine = .ok r ∧ PHYS_BASE.toNat - 4096 ≤ r.1) ↔ Fits commandLine) ∧
      (¬ Fits commandLine → execArguments mem page mem' m commandLine = .error .outside ∨
        ∃ r, execArguments mem page mem' m commandLine = .ok r ∧ r.1 < PHYS_BASE.toNat - 4096) := by
  obtain ⟨hok, herr⟩ := setupArgumentsOn_squeeze m hnul
  have hbase : PHYS_BASE.toNat = 3221225472 := rfl
  unfold Fits
  rw [execArguments, makeStrings_eq hnul hlen]
  by_cases hname : (firstWord commandLine).length < 4096
  case neg =>
    rw [if_neg hname]
    refine ⟨iff_of_false ?_ fun hfits => hname hfits.1, fun _ => .inl rfl⟩
    rintro ⟨r, hr, -⟩
    cases hr
  rw [if_pos hname, and_iff_right hname]
  simp only [bind, Except.bind]
  obtain hle | hlt := le_or_gt (stackBytes (squeeze isSpace true commandLine)) 4100
  · obtain ⟨r, -, hrun, hesp⟩ := hok hle
    rw [hrun]
    refine ⟨⟨?_, fun hfits => ⟨r, rfl, by omega⟩⟩, fun hfits => .inr ⟨r, rfl, by omega⟩⟩
    rintro ⟨_, hr, hpage⟩
    cases hr
    omega
  · rw [herr hlt]
    refine ⟨iff_of_false ?_ (by omega), fun _ => .inl rfl⟩
    rintro ⟨r, hr, -⟩
    cases hr

end Results

/-! ### Some command lines -/

/-- The command line `"ls -l"`. -/
def lsLine : List UInt8 := [108, 115, 32, 45, 108]

theorem normalise_correct_ls : ∃ it b, normaliseCopy 5 (strlcpy (fun _ => 7) 0 lsLine 6) =
    .ok (it, b) ∧ StrAt b 0 lsLine := by
  obtain ⟨it, b, hrun, hiff, -⟩ := normalise_correct_iff lsLine (by decide) (by decide) fun _ => 7
  exact ⟨it, b, hrun, hiff.mpr (by decide)⟩

/-- **The space at the end of `"ls "` is left.** -/
theorem normalise_keeps_space : ∃ it b, normaliseCopy 3 (strlcpy (fun _ => 7) 0 [108, 115, 32] 4) = .ok (it, b) ∧
    StrAt b 0 [108, 115, 32] ∧ ¬ StrAt b 0 ([32].intercalate (words isSpace [108, 115, 32])) := by
  have hnul : (0 : UInt8) ∉ [108, 115, 32] := by decide
  obtain ⟨it, b, hrun, -, hb⟩ := normaliseCopy_run hnul (by decide) fun _ => 7
  exact ⟨it, b, hrun, hb, fun h => absurd (hb.unique h) (by decide)⟩

theorem file_name_ls : ∃ s, makeStrings (fun _ => 7) (fun _ => 8) (fun _ => 9) lsLine = .ok s ∧
    words isSpace s.cmdLine = words isSpace lsLine ∧ (words isSpace lsLine).head? = some s.fileName :=
  (file_name_iff lsLine (by decide) (by decide) _ _ _ (by decide)).mpr ⟨by simp [lsLine, isSpace], by decide⟩

/-- **The name that is made of `" ls"`** is `" l"`. -/
theorem file_name_of_space : ∃ s, makeStrings (fun _ => 7) (fun _ => 8) (fun _ => 9) [32, 108, 115] = .ok s ∧
    s.fileName = [32, 108] ∧ words isSpace [32, 108, 115] = [[108, 115]] := by
  refine ⟨_, makeStrings_eq (by decide) (by decide) _ _ _, ?_, ?_⟩
  · decide
  · decide

theorem exec_writes_ls : ∃ r, execArguments (fun _ => 7) (fun _ => 8) (fun _ => 9) (fun _ => 10) lsLine = .ok r ∧
    PHYS_BASE.toNat - 4096 ≤ r.1 :=
  (exec_writes_iff lsLine (by decide) (by decide) _ _ _ _).1.mpr (by unfold Fits; decide)

/-- The command line of one word `"aa...a"`. -/
def oneWord (n : ℕ) : List UInt8 := List.replicate n 97

section OneWord

variable {n : ℕ} (hn : 0 < n)

theorem isSpace_oneWord (n : ℕ) : ∀ c ∈ oneWord n, isSpace c = false := by
  intro c hc
  rw [List.eq_of_mem_replicate hc]
  decide

theorem not_nul_oneWord (n : ℕ) : (0 : UInt8) ∉ oneWord n := fun hmem => absurd (List.eq_of_mem_replicate hmem) (by decide)

include hn

theorem oneWord_ne_nil : oneWord n ≠ [] := by
  rw [oneWord, ne_eq, List.replicate_eq_nil_iff]
  omega

theorem firstWord_oneWord : firstWord (oneWord n) = oneWord n := by
  rw [firstWord, words_of_no_separator (isSpace_oneWord n) (oneWord_ne_nil hn)]
  rfl

theorem stackBytes_oneWord : stackBytes (squeeze isSpace true (oneWord n)) = (n + 1) + (8 - (n + 1) % 4) + 16 := by
  have hsq := squeeze_word (isSpace_oneWord n) (oneWord_ne_nil hn) true []
  rw [List.append_nil, squeeze, List.append_nil] at hsq
  obtain ⟨c, cs, hcs⟩ := List.exists_cons_of_ne_nil (oneWord_ne_nil hn)
  have hwords := words_of_no_separator (isSpace_oneWord n) (oneWord_ne_nil hn)
  have hlen := length_words (isSpace_oneWord n c (hcs ▸ List.mem_cons_self)) cs
  rw [← hcs, hwords, List.length_singleton] at hlen
  have hlength : (oneWord n).length = n := List.length_replicate
  rw [hsq, stackBytes, frameSize, hlength]
  omega

end OneWord

/-- **Two command lines that nothing refuses**: the name of 4096 characters does not fit in its
page, and with 4090 characters the arguments do not fit on the stack. -/
theorem exec_writes_outside : makeStrings (fun _ => 7) (fun _ => 8) (fun _ => 9) (oneWord 4096) = .error .outside ∧
    ∃ s, makeStrings (fun _ => 7) (fun _ => 8) (fun _ => 9) (oneWord 4090) = .ok s ∧
      setupArgumentsOn (fun _ => 10) s.cmdLine = .error .outside := by
  have hlength : ∀ n, (oneWord n).length = n := fun n => List.length_replicate
  have hlen : ∀ n, n ≤ 4096 → 1 + (oneWord n).length < 2 ^ 32 := fun n hn => by rw [hlength]; omega
  have hfirst : ∀ n, 0 < n → (firstWord (oneWord n)).length = n := fun n hn => by rw [firstWord_oneWord hn, hlength]
  constructor
  · rw [makeStrings_eq (not_nul_oneWord _) (hlen _ (by omega)), hfirst _ (by omega)]
    rfl
  · refine ⟨_, (makeStrings_eq (not_nul_oneWord _) (hlen _ (by omega)) _ _ _).trans (if_pos ?_), ?_⟩
    · rw [hfirst _ (by omega)]
      omega
    · apply (setupArgumentsOn_squeeze _ (not_nul_oneWord _)).2
      rw [stackBytes_oneWord (by omega)]
      omega

end Pintos.Userprog.CommandLine
