import Pintos.Userprog.UserCheck

/-!
# What the handler reads

`syscall_handler` reads the number of a system call and its arguments from the
user stack, four bytes each. It checks the first of the four, if any: a word that
crosses into a page that is not there, or into the kernel, is read.
`syscallHandler_reads_iff` says for which stacks it does what it should.

The second result is about the buffers of `SYS_READ` and `SYS_WRITE`. Since
`check_user_buf_ptr` accepts everything, only the first byte of a buffer is
checked (`syscallHandler_buffer_iff`).
-/

namespace Pintos.Userprog

open Trace (and_bind logs_bind logs_pure logs_stop out_bind_error out_bind_ok)

variable (m : Machine)

/-- All four bytes of the word at `a` are mapped below `PHYS_BASE`. -/
def Machine.wordOk (a : Addr) : Bool :=
  m.pd.valid a && m.pd.valid (a + 1#32) && m.pd.valid (a + 2#32) && m.pd.valid (a + 3#32)

/-- A word that is read can be read. -/
def Event.WordOk : Event → Prop
  | .word a => m.wordOk a = true
  | _ => True

/-- What is read can be read. -/
def Event.ByteOk : Event → Prop
  | .word a => m.wordOk a = true
  | .char a => m.pd.valid a = true
  | .touch a => m.pd.valid a = true
  | .getPage _ => True

/-- Where the arguments of a system call are, from the stack pointer on. -/
def SyscallNr.args : SyscallNr → List Addr
  | .sysHalt => []
  | .sysExit | .sysExec | .sysWait | .sysRemove | .sysOpen | .sysFilesize | .sysTell | .sysClose => [4#32]
  | .sysCreate | .sysSeek => [4#32, 8#32]
  | .sysRead | .sysWrite => [4#32, 8#32, 12#32]

/-- What a system call returns when it fails. -/
def SyscallNr.errorValue : SyscallNr → ℤ
  | .sysCreate | .sysRemove => 0
  | _ => -1

/-- The arguments of a system call can be read. -/
def ArgsOk (esp : Addr) (nr : Option SyscallNr) : Prop := ∀ n ∈ nr, ∀ k ∈ n.args, m.wordOk (esp + k) = true

/-- The process exits with `-1`, or the call returns an error. -/
def Refused (nr : Option SyscallNr) (t : Sys Result) : Prop :=
  t.out = .error (.exit (-1)) ∨ ∃ n ∈ nr, t.out = .ok (.ret n.errorValue)

/-- What the handler should do: it reads the number and the arguments only where all their bytes
can be read; otherwise it refuses, and reads no byte that cannot be read. -/
structure ReadsArgs (given : Prop) (nr : Option SyscallNr) (t : Sys Result) : Prop where
  /-- A word that is read can be read. -/
  words : t.Logs (Event.WordOk m)
  /-- If not all can be read, the call is refused. -/
  refused : ¬ given → Refused nr t ∧ t.Logs (Event.ByteOk m)

variable {m}

/-! ### Words -/

variable {a : Addr}

theorem mapped_of_wordOk (h : m.wordOk a = true) :
    (m.pd.mapped a && m.pd.mapped (a + 1#32) && m.pd.mapped (a + 2#32) && m.pd.mapped (a + 3#32)) = true := by
  simp only [Machine.wordOk, Bool.and_eq_true, PageDir.valid_iff] at h
  simp [h]

theorem readWord_of_wordOk (h : m.wordOk a = true) : readWord m a = ⟨[.word a], .ok (m.wordAt a)⟩ := by
  rw [readWord, if_pos (mapped_of_wordOk h), Trace.emit_bind]
  rfl

@[simp] theorem readWord_logs {p : Event → Prop} : (readWord m a).Logs p ↔ p (.word a) := by
  unfold readWord
  rw [Trace.logs_emit_bind]
  split_ifs <;> simp

section Out

variable {α : Type} {a : Addr}

theorem check_bind_out {f : Bool → Sys α} : (checkUserPtr m a >>= f).out = (f (m.ptrOk a)).out :=
  out_bind_ok (checkUserPtr_out a)

theorem buf_bind_out {f : Bool → Sys α} {size : BitVec 32} (h : size ≠ 0#32) :
    (checkUserBufPtr m a size >>= f).out = (f true).out :=
  out_bind_ok (checkUserBufPtr_out a h)

theorem word_bind_out {f : BitVec 32 → Sys α} (h : m.wordOk a = true) : (readWord m a >>= f).out = (f (m.wordAt a)).out :=
  out_bind_ok (by rw [readWord_of_wordOk h])

end Out

variable {e : Event}

theorem byteOk_of_lookup (h : e.IsLookup) : e.ByteOk m := by
  cases e <;> trivial

theorem strCheck_wordOk (a : Addr) : (checkUserStrPtr m a).Logs (Event.WordOk m) :=
  (checkUserStrPtr_logs a).mono fun e h => by cases e <;> trivial

theorem wordOk_of_byteOk (h : e.ByteOk m) : e.WordOk m := by
  cases e <;> trivial

/-! ### Rules -/

section Rules

variable {α : Type} {given : Prop} {nr : Option SyscallNr}

theorem readsArgs_bind {t : Sys α} {f : α → Sys Result} {a : α} (hout : t.out = .ok a) (hlog : t.Logs (Event.ByteOk m)) :
    ReadsArgs m given nr (t >>= f) ↔ ReadsArgs m given nr (f a) := by
  have hlogs : ∀ {p : Event → Prop}, (∀ e, e.ByteOk m → p e) → ((t >>= f).Logs p ↔ (f a).Logs p) := fun hp => by
    rw [logs_bind, hout]
    simp [hlog.mono hp]
  have hrefused : Refused nr (t >>= f) ↔ Refused nr (f a) := by
    unfold Refused
    rw [out_bind_ok hout]
  constructor
  · rintro ⟨hw, hr⟩
    refine ⟨(hlogs fun _ => wordOk_of_byteOk).mp hw, fun hg => ?_⟩
    exact ⟨hrefused.mp (hr hg).1, (hlogs fun _ => id).mp (hr hg).2⟩
  · rintro ⟨hw, hr⟩
    refine ⟨(hlogs fun _ => wordOk_of_byteOk).mpr hw, fun hg => ?_⟩
    exact ⟨hrefused.mpr (hr hg).1, (hlogs fun _ => id).mpr (hr hg).2⟩

variable {f : Bool → Sys Result}

theorem readsArgs_check : ReadsArgs m given nr (checkUserPtr m a >>= f) ↔ ReadsArgs m given nr (f (m.ptrOk a)) :=
  readsArgs_bind (checkUserPtr_out a) ((checkUserPtr_logs a).mono fun _ => byteOk_of_lookup)

theorem readsArgs_buf {size : BitVec 32} (h : size ≠ 0#32) :
    ReadsArgs m given nr (checkUserBufPtr m a size >>= f) ↔ ReadsArgs m given nr (f true) :=
  readsArgs_bind (checkUserBufPtr_out a h) ((checkUserBufPtr_logs a size).mono fun _ => byteOk_of_lookup)

theorem readsArgs_word {f : BitVec 32 → Sys Result} :
    ReadsArgs m given nr (readWord m a >>= f) ↔ m.wordOk a = true ∧ ReadsArgs m given nr (f (m.wordAt a)) := by
  cases h : m.wordOk a with
  | false =>
    refine iff_of_false (fun hr => ?_) (by simp)
    have hword : m.wordOk a = true := readWord_logs.mp (logs_bind.mp hr.words).1
    simp [h] at hword
  | true =>
    rw [readsArgs_bind (by rw [readWord_of_wordOk h]) (readWord_logs.mpr h)]
    simp

variable {t : Sys Result}

theorem readsArgs_given (hg : given) (hw : t.Logs (Event.WordOk m)) : ReadsArgs m given nr t :=
  ⟨hw, fun h => absurd hg h⟩

theorem readsArgs_str :
    ReadsArgs m given nr (checkUserStrPtr m a >>= f) ↔ ((checkUserStrPtr m a).out = .error .panic → given) ∧
      ∀ b, (checkUserStrPtr m a).out = .ok b → ReadsArgs m given nr (f b) := by
  by_cases hpanic : (checkUserStrPtr m a).out = .error .panic
  · simp only [hpanic, forall_const, reduceCtorEq, IsEmpty.forall_iff, and_true]
    refine ⟨fun h => ?_, fun hg => readsArgs_given hg ?_⟩
    · by_contra hn
      rcases (h.refused hn).1 with hr | ⟨n, -, hr⟩ <;> rw [out_bind_error hpanic] at hr <;> cases hr
    · exact logs_bind.mpr ⟨strCheck_wordOk a, fun b hb => by simp [hpanic] at hb⟩
  · obtain ⟨⟨b, hb⟩, hchars⟩ := checkUserStrPtr_returns hpanic
    rw [readsArgs_bind hb]
    · simp [hb]
    · intro e he
      have hkind := checkUserStrPtr_logs (m := m) a e he
      cases e with
      | char a => exact hchars a he
      | getPage a => trivial
      | word a | touch a => cases hkind

theorem readsArgs_exit : ReadsArgs m given nr (callExit (-1)) :=
  ⟨logs_stop _, fun _ => ⟨.inl rfl, logs_stop _⟩⟩

theorem readsArgs_error {n : SyscallNr} : ReadsArgs m given (some n) (pure (.ret n.errorValue)) :=
  ⟨logs_pure _, fun _ => ⟨.inr ⟨n, rfl, rfl⟩, logs_pure _⟩⟩

/-- A call that does not fail has its arguments. -/
theorem readsArgs_pure {r : Result} (hr : ∀ n ∈ nr, r ≠ .ret n.errorValue) : ReadsArgs m given nr (pure r) ↔ given := by
  refine ⟨fun h => ?_, fun hg => readsArgs_given hg (logs_pure _)⟩
  by_contra hn
  rcases (h.refused hn).1 with hexit | ⟨n, hn, hret⟩
  · cases hexit
  · exact hr n hn (Except.ok.inj hret)

theorem readsArgs_call {c : Call} : ReadsArgs m given nr (pure (.call c)) ↔ given := readsArgs_pure fun _ _ => nofun

variable {refuse : Sys Result}

theorem readsArgs_ite {b : Bool} (hr : ReadsArgs m given nr refuse) :
    ReadsArgs m given nr (if b then t else refuse) ↔ (b = true → ReadsArgs m given nr t) := by
  cases b <;> simp [hr]

end Rules

/-! ### Transfers -/

/-- An access to a buffer. -/
def Event.IsTouch : Event → Prop
  | .touch _ => True
  | _ => False

theorem touchRange_logs (write : Bool) (buffer : Addr) (n i : ℕ) :
    (touchRange m write buffer n i).Logs Event.IsTouch := by
  induction n generalizing i with
  | zero => exact logs_pure _
  | succ n ih =>
    refine logs_bind.mpr ⟨?_, fun _ _ => ih (i + 1)⟩
    unfold touch
    rw [Trace.logs_emit_bind]
    refine ⟨trivial, ?_⟩
    split_ifs <;> simp

theorem touchRange_wordOk (write : Bool) (buffer : Addr) (n : ℕ) :
    (touchRange m write buffer n 0).Logs (Event.WordOk m) :=
  (touchRange_logs write buffer n 0).mono fun e h => by cases e <;> trivial

theorem callWrite_logs (fd : ℤ) (buffer : Addr) (size : BitVec 32) :
    (callWrite m fd buffer size).Logs (Event.WordOk m) := by
  unfold callWrite callExit
  split_ifs <;> try split
  all_goals simp [touchRange_wordOk]

theorem callRead_logs (fd : ℤ) (buffer : Addr) (size : BitVec 32) :
    (callRead m fd buffer size).Logs (Event.WordOk m) := by
  have hlookup : ∀ e : Event, e.IsLookup → e.WordOk m := fun e h => by cases e <;> trivial
  unfold callRead callExit
  by_cases hsize : size = 0#32
  · simp [hsize]
  · rw [if_neg hsize]
    refine logs_bind.mpr ⟨Trace.logs_and.mpr ⟨(checkUserPtr_logs _).mono hlookup, fun _ => ?_⟩, fun b _ => ?_⟩
    · exact (checkUserBufPtr_logs _ _).mono hlookup
    · split_ifs <;> try split
      all_goals simp [touchRange_wordOk]

/-! ### The system calls -/

/-- The condition on the stack under which the arguments of a system call are read as they should
be: a word whose first byte passes the check, where there is one, can be read. -/
def ArgsRead (m : Machine) (esp : Addr) : Option SyscallNr → Prop
  | none | some .sysHalt => True
  | some .sysExit | some .sysExec | some .sysWait | some .sysRemove | some .sysFilesize | some .sysTell
  | some .sysClose => m.ptrOk (esp + 4#32) = true → m.wordOk (esp + 4#32) = true
  | some .sysOpen => m.wordOk (esp + 4#32) = true
  | some .sysCreate =>
    m.wordOk (esp + 4#32) = true ∧
      ((checkUserStrPtr m (m.wordAt (esp + 4#32))).out = .ok true → m.ptrOk (esp + 8#32) = true →
        m.wordOk (esp + 8#32) = true) ∧
      ((checkUserStrPtr m (m.wordAt (esp + 4#32))).out = .error .panic → m.wordOk (esp + 8#32) = true)
  | some .sysRead =>
    m.ptrOk (esp + 4#32) = true → m.ptrOk (esp + 8#32) = true → m.ptrOk (esp + 12#32) = true →
      m.wordOk (esp + 4#32) = true ∧ m.wordOk (esp + 8#32) = true ∧ m.wordOk (esp + 12#32) = true
  | some .sysWrite =>
    m.ptrOk (esp + 4#32) = true → m.ptrOk (esp + 12#32) = true → m.wordOk (esp + 12#32) = true ∧
      (m.wordAt (esp + 12#32) ≠ 0#32 → m.ptrOk (esp + 8#32) = true → m.wordOk (esp + 8#32) = true ∧
        (m.ptrOk (m.wordAt (esp + 8#32)) = true → m.wordOk (esp + 4#32) = true)) ∧
      (m.wordAt (esp + 12#32) = 0#32 → m.wordOk (esp + 4#32) = true ∧ m.wordOk (esp + 8#32) = true)
  | some .sysSeek =>
    m.ptrOk (esp + 4#32) = true → m.ptrOk (esp + 8#32) = true →
      m.wordOk (esp + 4#32) = true ∧ m.wordOk (esp + 8#32) = true


section Calls

variable {esp : Addr} {given : Prop} {nr : Option SyscallNr}

/-- A system call with one word reads it when its first byte passes the check. -/
theorem oneWord_reads {k : BitVec 32 → Sys Result}
    (hgiven : given ↔ m.wordOk (esp + 4#32) = true) (hk : ∀ w, (k w).Logs (Event.WordOk m))
    (hr : ReadsArgs m given nr refuse) :
    ReadsArgs m given nr (oneWord m esp k refuse) ↔ (m.ptrOk (esp + 4#32) = true → m.wordOk (esp + 4#32) = true) := by
  rw [oneWord, readsArgs_check, readsArgs_ite hr, readsArgs_word]
  exact forall_congr' fun _ => and_iff_left_of_imp fun hw => readsArgs_given (hgiven.mpr hw) (hk _)

/-- A system call with one string reads its pointer when the first byte passes the check. -/
theorem oneString_reads {c : Addr → Call}
    (hgiven : given ↔ m.wordOk (esp + 4#32) = true) (hr : ReadsArgs m given nr refuse) :
    ReadsArgs m given nr (oneString m esp c refuse) ↔
      (m.ptrOk (esp + 4#32) = true → m.wordOk (esp + 4#32) = true) := by
  simp only [oneString, and_bind, Trace.bind_assoc, Bool.false_eq_true, if_false, readsArgs_check, readsArgs_ite hr,
    readsArgs_word]
  refine forall_congr' fun _ => and_iff_left_of_imp fun hw => readsArgs_given (hgiven.mpr hw) ?_
  exact logs_bind.mpr ⟨strCheck_wordOk _, fun b _ => by cases b <;> simp [hr.words, hw, Event.WordOk]⟩

theorem sysOpen_reads (hgiven : given ↔ m.wordOk (esp + 4#32) = true) :
    ReadsArgs m given nr (sysOpen m esp) ↔ ArgsRead m esp (some .sysOpen) := by
  rw [sysOpen, Trace.bind_assoc, readsArgs_word]
  refine and_iff_left_of_imp fun hw => readsArgs_given (hgiven.mpr hw) ?_
  exact logs_bind.mpr ⟨strCheck_wordOk _, fun b _ => by cases b <;> simp [callExit, hw, Event.WordOk]⟩

section

variable (hgiven : given ↔ m.wordOk (esp + 4#32) = true ∧ m.wordOk (esp + 8#32) = true)
include hgiven

theorem sysCreate_reads :
    ReadsArgs m given nr (sysCreate m esp) ↔ ArgsRead m esp (some .sysCreate) := by
  simp only [sysCreate, and_bind, Trace.bind_assoc, Trace.pure_bind, Bool.false_eq_true, if_false, readsArgs_word,
    readsArgs_str, readsArgs_ite readsArgs_exit, readsArgs_check, readsArgs_call, hgiven]
  unfold ArgsRead
  grind

theorem sysSeek_reads :
    ReadsArgs m given nr (sysSeek m esp) ↔ ArgsRead m esp (some .sysSeek) := by
  simp only [sysSeek, and_bind, Bool.false_eq_true, if_false, readsArgs_check, readsArgs_ite readsArgs_exit,
    readsArgs_word, readsArgs_call, hgiven]
  unfold ArgsRead
  grind

end

theorem callClose_reads (hgiven : given ↔ m.wordOk (esp + 4#32) = true) :
    ReadsArgs m given nr (callClose m esp) ↔ ArgsRead m esp (some .sysClose) := by
  simp only [callClose, and_bind, Trace.bind_assoc, Trace.pure_bind, Bool.false_eq_true, if_false, readsArgs_check,
    readsArgs_ite readsArgs_exit, readsArgs_word, readsArgs_call, hgiven]
  unfold ArgsRead
  grind

section

variable (hgiven : given ↔ m.wordOk (esp + 4#32) = true ∧ m.wordOk (esp + 8#32) = true ∧ m.wordOk (esp + 12#32) = true)
include hgiven

theorem sysRead_reads :
    ReadsArgs m given nr (sysRead m esp) ↔ ArgsRead m esp (some .sysRead) := by
  simp only [sysRead, and_bind, Bool.false_eq_true, if_false, readsArgs_check, readsArgs_ite readsArgs_exit,
    readsArgs_word]
  refine forall_congr' fun _ => forall_congr' fun _ => forall_congr' fun _ => ?_
  refine and_congr_right fun hw4 => and_congr_right fun hw8 => and_iff_left_of_imp fun hw12 => ?_
  exact readsArgs_given (hgiven.mpr ⟨hw4, hw8, hw12⟩) (callRead_logs _ _ _)

/-- `SYS_WRITE` reads its arguments when their first bytes pass the check; of a write of no bytes
it reads the size only, and a pointer that is refused ends it. -/
theorem sysWrite_reads :
    ReadsArgs m given (some .sysWrite) (sysWrite m esp) ↔ ArgsRead m esp (some .sysWrite) := by
  simp only [sysWrite, and_bind, Trace.bind_assoc, Bool.false_eq_true, if_false, readsArgs_check,
    readsArgs_ite readsArgs_exit, readsArgs_word]
  refine forall_congr' fun _ => forall_congr' fun _ => and_congr_right fun hw12 => ?_
  by_cases hsize : m.wordAt (esp + 12#32) = 0#32
  · rw [if_neg (not_not.mpr hsize), readsArgs_pure (by simp [SyscallNr.errorValue])]
    simp [hsize, hgiven, hw12]
  · simp only [readsArgs_check, readsArgs_ite readsArgs_exit, readsArgs_word, readsArgs_buf hsize, if_true, hw12,
      hsize, ne_eq, not_false_eq_true, forall_const, false_imp_iff, and_true, true_and]
    refine forall_congr' fun _ => and_congr_right fun hw8 => forall_congr' fun _ => ?_
    simp only [hw8, true_and]
    exact and_iff_left_of_imp fun hw4 => readsArgs_given (hgiven.mpr ⟨hw4, hw8, hw12⟩) (callWrite_logs _ _ _)

end

end Calls

/-- Every system call reads its arguments as it should under its condition, and only then. -/
theorem dispatch_reads (esp : Addr) (nr : Option SyscallNr) :
    ReadsArgs m (ArgsOk m esp nr) nr (dispatch m esp nr) ↔ ArgsRead m esp nr := by
  cases nr with
  | none => exact iff_of_true readsArgs_exit trivial
  | some n =>
    cases n with
    | sysHalt => exact iff_of_true (readsArgs_given (by simp [ArgsOk, SyscallNr.args]) (logs_stop _)) trivial
    | sysExit => exact oneWord_reads (by simp [ArgsOk, SyscallNr.args]) (fun _ => logs_stop _) readsArgs_exit
    | sysExec => exact oneString_reads (by simp [ArgsOk, SyscallNr.args]) readsArgs_exit
    | sysWait | sysTell => exact oneWord_reads (by simp [ArgsOk, SyscallNr.args]) (fun _ => logs_pure _) readsArgs_exit
    | sysCreate => exact sysCreate_reads (by simp [ArgsOk, SyscallNr.args])
    | sysRemove => exact oneString_reads (by simp [ArgsOk, SyscallNr.args]) readsArgs_error
    | sysOpen => exact sysOpen_reads (by simp [ArgsOk, SyscallNr.args])
    | sysFilesize => exact oneWord_reads (by simp [ArgsOk, SyscallNr.args]) (fun _ => logs_pure _) readsArgs_error
    | sysRead => exact sysRead_reads (by simp [ArgsOk, SyscallNr.args])
    | sysWrite => exact sysWrite_reads (by simp [ArgsOk, SyscallNr.args])
    | sysSeek => exact sysSeek_reads (by simp [ArgsOk, SyscallNr.args])
    | sysClose => exact callClose_reads (by simp [ArgsOk, SyscallNr.args])

/-- **What the handler reads.** It reads the number and the arguments of a system call only where
all their bytes are mapped below `PHYS_BASE`, and refuses the call otherwise, exactly if every
word whose first byte passes the check, or that is not checked, lies there as a whole; in a
write of no bytes also the words that are not read. -/
theorem syscallHandler_reads_iff (m : Machine) (esp : Addr) :
    ReadsArgs m (m.wordOk esp = true ∧ ArgsOk m esp (SyscallNr.ofWord (m.wordAt esp)))
        (SyscallNr.ofWord (m.wordAt esp)) (syscallHandler m esp) ↔
      (m.ptrOk esp = true → m.wordOk esp = true ∧ ArgsRead m esp (SyscallNr.ofWord (m.wordAt esp))) := by
  rw [syscallHandler, readsArgs_check]
  cases hp : m.ptrOk esp with
  | false => exact iff_of_true readsArgs_exit nofun
  | true =>
    simp only [if_true, forall_const, readsArgs_word]
    refine and_congr_right fun hw => ?_
    rw [← dispatch_reads, hw]
    simp

/-- A stack pointer two bytes below a page that is not there: the number is read across the
border, and the kernel panics. -/
theorem syscallHandler_reads_unmapped :
    ∃ m esp, m.wordOk esp = false ∧ .word esp ∈ (syscallHandler m esp).log ∧
      (syscallHandler m esp).out = .error .panic := by
  refine ⟨⟨onePage, fun _ => 0#8, fun _ => none⟩, 0x08048ffe#32, by decide, ?_, ?_⟩
  · decide
  · rfl

/-! ### Buffers -/

/-- Every byte of the buffer is mapped below `PHYS_BASE`. -/
def RangeValid (m : Machine) (buffer : Addr) (size : BitVec 32) : Prop :=
  ∀ i < size.toNat, m.pd.valid (buffer + BitVec.ofNat 32 i) = true

/-- What `SYS_READ` and `SYS_WRITE` should do with a buffer. -/
structure BufferGuarded (m : Machine) (buffer : Addr) (size : BitVec 32) (t : Sys Result) : Prop where
  /-- The buffer is accessed only if all of it is valid. -/
  accessed : ∀ a, .touch a ∈ t.log → RangeValid m buffer size
  /-- Otherwise the process exits with `-1`, and no byte of it is touched. -/
  refused : ¬ RangeValid m buffer size → t.out = .error (.exit (-1)) ∧ ∀ a, .touch a ∉ t.log

/-- The calls that end the process for its file descriptor. -/
def FdRefused (m : Machine) (nr : SyscallNr) (fd : ℤ) : Prop :=
  match nr with
  | .sysRead => fd ≠ 0 ∧ fd ≠ 1 ∧ getFileFromFd m fd = none
  | .sysWrite => fd = 0 ∨ fd ≠ 1 ∧ getFileFromFd m fd = none
  | _ => False

/-- An event that is no access to a buffer. -/
def Event.NoTouch : Event → Prop
  | .touch _ => False
  | _ => True

section Buffers

variable {α : Type} {buffer : Addr} {size : BitVec 32}

theorem bufferGuarded_exit : BufferGuarded m buffer size (callExit (-1)) :=
  ⟨nofun, fun _ => ⟨rfl, nofun⟩⟩

/-- A call that comes to an end other than `exit (-1)` should not have been made. -/
theorem bufferGuarded_of_out (h : t.out ≠ .error (.exit (-1))) :
    BufferGuarded m buffer size t ↔ RangeValid m buffer size := by
  refine ⟨fun hg => ?_, fun hv => ⟨fun _ _ => hv, fun hn => absurd hv hn⟩⟩
  by_contra hn
  exact h (hg.refused hn).1

theorem bufferGuarded_bind {t : Sys α} {f : α → Sys Result} {a : α} (hout : t.out = .ok a)
    (hlog : t.Logs Event.NoTouch) :
    BufferGuarded m buffer size (t >>= f) ↔ BufferGuarded m buffer size (f a) := by
  have hmem : ∀ b, .touch b ∈ (t >>= f).log ↔ .touch b ∈ (f a).log := fun b => by
    rw [Trace.bind_of_out hout]
    refine List.mem_append.trans (or_iff_right fun hb => ?_)
    exact hlog _ hb
  have hends : (t >>= f).out = (f a).out := out_bind_ok hout
  constructor
  · rintro ⟨hacc, href⟩
    simp only [hmem, hends] at hacc href
    exact ⟨hacc, href⟩
  · rintro ⟨hacc, href⟩
    simp only [← hmem, ← hends] at hacc href
    exact ⟨hacc, href⟩

theorem noTouch_of_lookup (h : e.IsLookup) : e.NoTouch := by
  cases e <;> trivial

theorem bufferGuarded_word {f : BitVec 32 → Sys Result} (h : m.wordOk a = true) :
    BufferGuarded m buffer size (readWord m a >>= f) ↔ BufferGuarded m buffer size (f (m.wordAt a)) :=
  bufferGuarded_bind (by rw [readWord_of_wordOk h]) (readWord_logs.mpr trivial)

theorem bufferGuarded_check :
    BufferGuarded m buffer size (checkUserPtr m a >>= f) ↔ BufferGuarded m buffer size (f (m.ptrOk a)) :=
  bufferGuarded_bind (checkUserPtr_out a) ((checkUserPtr_logs a).mono fun _ => noTouch_of_lookup)

theorem bufferGuarded_buf {n : BitVec 32} (h : n ≠ 0#32) :
    BufferGuarded m buffer size (checkUserBufPtr m a n >>= f) ↔ BufferGuarded m buffer size (f true) :=
  bufferGuarded_bind (checkUserBufPtr_out a h) ((checkUserBufPtr_logs a n).mono fun _ => noTouch_of_lookup)

theorem touchRange_out (write : Bool) (buffer : Addr) (n i : ℕ) :
    (touchRange m write buffer n i).out = .ok () ∨ (touchRange m write buffer n i).out = .error .panic := by
  induction n generalizing i with
  | zero => exact .inl rfl
  | succ n ih =>
    have htouch : ∀ a, (touch m write a).out = .ok () ∨ (touch m write a).out = .error .panic := fun a => by
      unfold touch
      split_ifs <;> simp
    rcases htouch (buffer + BitVec.ofNat 32 i) with h | h
    · rw [touchRange, out_bind_ok h]
      exact ih (i + 1)
    · exact .inr (out_bind_error h)

theorem touchRange_bind_out (write : Bool) (buffer : Addr) (n : ℕ) (r : Result) :
    (touchRange m write buffer n 0 >>= fun _ => pure r).out ≠ .error (.exit (-1)) := by
  rcases touchRange_out (m := m) write buffer n 0 with h | h
  · simp [out_bind_ok h]
  · simp [out_bind_error h]

theorem callRead_buffer (fd : ℤ) (hsize : size ≠ 0#32) :
    BufferGuarded m buffer size (callRead m fd buffer size) ↔
      RangeValid m buffer size ∨ m.ptrOk buffer = false ∨ FdRefused m .sysRead fd := by
  simp only [callRead, if_neg hsize, and_bind, bufferGuarded_check, FdRefused]
  cases hp : m.ptrOk buffer with
  | false => exact iff_of_true bufferGuarded_exit (.inr (.inl rfl))
  | true =>
    simp only [if_true, bufferGuarded_buf hsize]
    by_cases h0 : fd = 0
    · simp [h0, bufferGuarded_of_out (touchRange_bind_out _ _ _ _)]
    · by_cases h1 : fd = 1
      · simp [h1, bufferGuarded_of_out]
      · cases hf : getFileFromFd m fd with
        | none => simp [h0, h1, bufferGuarded_exit]
        | some file => simp [h0, h1, bufferGuarded_of_out (touchRange_bind_out _ _ _ _)]

theorem callWrite_buffer (fd : ℤ) :
    BufferGuarded m buffer size (callWrite m fd buffer size) ↔
      RangeValid m buffer size ∨ FdRefused m .sysWrite fd := by
  simp only [callWrite, FdRefused]
  by_cases h1 : fd = 1
  · simp [h1, bufferGuarded_of_out (touchRange_bind_out _ _ _ _)]
  · by_cases h0 : fd = 0
    · simp [h0, bufferGuarded_exit]
    · cases hf : getFileFromFd m fd with
      | none => simp [h0, h1, bufferGuarded_exit]
      | some file => simp [h0, h1, bufferGuarded_of_out (touchRange_bind_out _ _ _ _)]

end Buffers

/-- A word above the stack pointer that can be read passes the check. -/
theorem ptrOk_of_wordOk {esp : Addr} (hesp : m.ptrOk esp = true) {k : ℕ} (h0 : 0 < k) (hk : k < 16)
    (hw : m.wordOk (esp + BitVec.ofNat 32 k) = true) : m.ptrOk (esp + BitVec.ofNat 32 k) = true := by
  have hu := isUserVaddr_iff.mp (PageDir.valid_iff.mp (valid_of_ptrOk hesp)).1
  have hne : esp + BitVec.ofNat 32 k ≠ 0#32 := fun heq => by
    have hnat := toNat_add_ofNat (a := esp) (n := k) (by omega)
    rw [heq] at hnat
    simp at hnat
    omega
  have hvalid : m.pd.valid (esp + BitVec.ofNat 32 k) = true := by
    simp only [Machine.wordOk, Bool.and_eq_true] at hw
    exact hw.1.1.1
  simp [Machine.ptrOk, hne, hvalid]

/-- **What is checked of a buffer.** For a `SYS_READ` or `SYS_WRITE` with arguments that can be
read and a size other than `0`: the buffer is accessed only if all of it is valid, and the
process exits with `-1` otherwise, exactly if all of it is valid, or its first byte is not, or
the file descriptor ends the process. -/
theorem syscallHandler_buffer_iff (m : Machine) (esp : Addr) (nr : SyscallNr) (hesp : m.ptrOk esp = true)
    (hw : m.wordOk esp = true) (hnr : SyscallNr.ofWord (m.wordAt esp) = some nr)
    (hrw : nr = .sysRead ∨ nr = .sysWrite) (hw4 : m.wordOk (esp + 4#32) = true)
    (hw8 : m.wordOk (esp + 8#32) = true) (hw12 : m.wordOk (esp + 12#32) = true)
    (hsize : m.wordAt (esp + 12#32) ≠ 0#32) :
    BufferGuarded m (m.wordAt (esp + 8#32)) (m.wordAt (esp + 12#32)) (syscallHandler m esp) ↔
      RangeValid m (m.wordAt (esp + 8#32)) (m.wordAt (esp + 12#32)) ∨ m.ptrOk (m.wordAt (esp + 8#32)) = false ∨
        FdRefused m nr (m.wordAt (esp + 4#32)).toInt := by
  have hp4 : m.ptrOk (esp + 4#32) = true := ptrOk_of_wordOk hesp (by decide) (by decide) hw4
  have hp8 : m.ptrOk (esp + 8#32) = true := ptrOk_of_wordOk hesp (by decide) (by decide) hw8
  have hp12 : m.ptrOk (esp + 12#32) = true := ptrOk_of_wordOk hesp (by decide) (by decide) hw12
  rw [syscallHandler, bufferGuarded_check, hesp, if_pos rfl, bufferGuarded_word hw, hnr]
  rcases hrw with rfl | rfl
  · simp only [dispatch, sysRead, and_bind, bufferGuarded_check, hp4, hp8, hp12, if_true, bufferGuarded_word hw4,
      bufferGuarded_word hw8, bufferGuarded_word hw12]
    exact callRead_buffer _ hsize
  · simp only [dispatch, sysWrite, and_bind, Trace.bind_assoc, bufferGuarded_check, hp4, hp8, hp12, if_true,
      bufferGuarded_word hw12, bufferGuarded_word hw8, if_pos hsize]
    cases hbuf : m.ptrOk (m.wordAt (esp + 8#32)) with
    | false => exact iff_of_true bufferGuarded_exit (.inr (.inl rfl))
    | true =>
      simp only [if_true, bufferGuarded_buf hsize, bufferGuarded_word hw4, bufferGuarded_word hw8, bufferGuarded_word hw12,
        callWrite_buffer]
      simp

/-- The memory of a process whose stack pointer is `0x8048000`, and that makes a system call with
four words there. -/
def stackOf (nr fd buffer size : BitVec 32) : Addr → BitVec 8 := fun a =>
  let i := (a - 0x08048000#32).toNat
  let w := if i < 4 then nr else if i < 8 then fd else if i < 12 then buffer else if i < 16 then size else 0#32
  w.extractLsb' (8 * (i % 4)) 8

/-- A write of two bytes to the console, of which the second is not mapped: the kernel panics. -/
theorem syscallHandler_touches_unmapped :
    ∃ m, ¬ RangeValid m 0x08048fff#32 2#32 ∧ .touch 0x08049000#32 ∈ (syscallHandler m 0x08048000#32).log ∧
      (syscallHandler m 0x08048000#32).out = .error .panic := by
  refine ⟨⟨onePage, stackOf 9#32 1#32 0x08048fff#32 2#32, fun _ => none⟩, fun h => ?_, ?_, ?_⟩
  · exact absurd (h 1 (by decide)) (by decide)
  · decide
  · rfl

theorem syscallHandler_buffer_mapped :
    ∃ m, RangeValid m 0x08048ffe#32 2#32 ∧
      BufferGuarded m 0x08048ffe#32 2#32 (syscallHandler m 0x08048000#32) := by
  set m : Machine := ⟨onePage, stackOf 9#32 1#32 0x08048ffe#32 2#32, fun _ => none⟩
  have hrange : RangeValid m 0x08048ffe#32 2#32 := by
    intro i hi
    have hi' : i = 0 ∨ i = 1 := by
      have : i < 2 := hi
      omega
    rcases hi' with rfl | rfl <;> decide
  have hiff := syscallHandler_buffer_iff m 0x08048000#32 .sysWrite (by decide) (by decide) (by decide) (.inr rfl)
    (by decide) (by decide) (by decide) (by decide)
  have hbuffer : m.wordAt (0x08048000#32 + 8#32) = 0x08048ffe#32 := by decide
  have hsize : m.wordAt (0x08048000#32 + 12#32) = 2#32 := by decide
  rw [hbuffer, hsize] at hiff
  exact ⟨m, hrange, hiff.mpr (.inl hrange)⟩

end Pintos.Userprog
