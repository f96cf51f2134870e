import Pintos.Basis.Trace
import Pintos.Userprog.Pagedir

/-!
# System calls

`syscall_handler` of `userprog/syscall.c`: it reads the number of the system call
and its arguments from the user stack, checks the pointers it is given, and calls
the function that does the work.

## The model

A system call is a computation with a log (`Trace`). The events are the calls of
`pagedir_get_page`, whose assertion fails on a kernel address, and the accesses
to memory through pointers that come from the process: the characters that
`check_user_str_ptr` reads, the words the handler reads from the stack, and the
bytes of a buffer. The handler runs in the kernel, so that an access succeeds
where the page is present, also above `PHYS_BASE`; a page fault in the kernel
panics.

`call_read` and `call_write` are modelled to the bytes of the buffer they touch.
The other functions the handler calls are the `Call` it ends with. `call_exit`
does not return.
-/

namespace Pintos.Userprog

/-- An open file, as far as it says how many bytes a transfer moves. -/
structure File where
  length : ℤ
  pos : ℤ
  /-- Whether writes are denied. -/
  denyWrite : Bool

/-- What a system call finds. -/
structure Machine where
  /-- The page directory of the process. -/
  pd : PageDir
  /-- The byte at each address. -/
  mem : Addr → BitVec 8
  /-- What is at each index from the start of the `file_tracker` of the thread; the array has
  `LEN_FILE_LIST` entries, and what is outside is whatever memory holds. -/
  fileTracker : ℤ → Option File

/-- The length of `file_tracker`. -/
def LEN_FILE_LIST : ℤ := 130

/-- What a system call does with addresses that come from the process. -/
inductive Event where
  /-- It calls `pagedir_get_page`. -/
  | getPage (a : Addr)
  /-- It reads a character of a string. -/
  | char (a : Addr)
  /-- It reads a word of the stack. -/
  | word (a : Addr)
  /-- It accesses a byte of a buffer. -/
  | touch (a : Addr)
  deriving DecidableEq

/-- How a system call ends when it does not return. -/
inductive End where
  /-- `call_exit (status)`. -/
  | exit (status : ℤ)
  /-- The kernel panics. -/
  | panic
  | powerOff
  deriving DecidableEq

/-- The functions the handler hands its arguments to. -/
inductive Call where
  | exec (cmdLine : Addr)
  | wait (tid : ℤ)
  | create (filename : Addr) (fileSize : ℤ)
  | remove (fileName : Addr)
  | openFile (filename : Addr)
  | filesize (fd : ℤ)
  | seek (fd : ℤ) (position : BitVec 32)
  | tell (fd : ℤ)
  | close (fd : ℤ)
  deriving DecidableEq

/-- What a system call comes to. -/
inductive Result where
  | ret (eax : ℤ)
  /-- It calls a function. -/
  | call (c : Call)
  deriving DecidableEq

/-- A part of a system call. -/
abbrev Sys := Trace Event End

def callExit {α : Type} (status : ℤ) : Sys α := Trace.stop (.exit status)

variable (m : Machine)

/-! ### Accesses -/

/-- `pagedir_get_page`, with its assertion. -/
def getPage (a : Addr) : Sys Addr := do
  Trace.emit (.getPage a)
  if isUserVaddr a then pure (pagedirGetPage m.pd a) else Trace.stop .panic

def readChar (a : Addr) : Sys (BitVec 8) := do
  Trace.emit (.char a)
  if m.pd.mapped a then pure (m.mem a) else Trace.stop .panic

/-- The word at `a`, lowest byte first. -/
def Machine.wordAt (a : Addr) : BitVec 32 := m.mem (a + 3#32) ++ m.mem (a + 2#32) ++ m.mem (a + 1#32) ++ m.mem a

/-- Read a word of the stack. -/
def readWord (a : Addr) : Sys (BitVec 32) := do
  Trace.emit (.word a)
  if m.pd.mapped a && m.pd.mapped (a + 1#32) && m.pd.mapped (a + 2#32) && m.pd.mapped (a + 3#32) then pure (m.wordAt a)
  else Trace.stop .panic

/-- Access a byte of a buffer. -/
def touch (write : Bool) (a : Addr) : Sys Unit := do
  Trace.emit (.touch a)
  if m.pd.mapped a && (!write || m.pd.writable a) then pure () else Trace.stop .panic

/-- Access `n` bytes of a buffer, from byte `i` on. -/
def touchRange (write : Bool) (buffer : Addr) : ℕ → ℕ → Sys Unit
  | 0, _ => pure ()
  | n + 1, i => do
    touch m write (buffer + BitVec.ofNat 32 i)
    touchRange write buffer n (i + 1)

/-! ### Checks -/

def checkUserPtr (ptr : Addr) : Sys Bool :=
  if ptr = 0#32 then pure false
  else if isUserVaddr ptr = false then pure false
  else do
    let page ← getPage m ptr
    pure (page ≠ 0#32)

/-- The loop of `check_user_str_ptr`, from index `i` on: the index after the NUL, or none where it
returns false. At an address at or above `PHYS_BASE` the assertion of `pagedir_get_page` fails. -/
def strLoop (ptr : Addr) (i : ℕ) : Sys (Option ℕ) :=
  let p := ptr + BitVec.ofNat 32 i
  if _h : isUserVaddr p = true then do
    if (← getPage m p) = 0#32 then pure none
    else
      let c ← readChar m p
      if c = 0#8 then pure (some (i + 1)) else strLoop ptr (i + 1)
  else do
    let _ ← getPage m p
    pure none
termination_by PHYS_BASE.toNat - (ptr + BitVec.ofNat 32 i).toNat
decreasing_by
  have huser : isUserVaddr (ptr + BitVec.ofNat 32 i) = true := _h
  have hp := isUserVaddr_iff.mp huser
  have hbase : PHYS_BASE.toNat = 0xc0000000 := rfl
  rw [add_ofNat_succ, toNat_add_ofNat (by omega)]
  omega

/-- `check_user_str_ptr` after the loop: it looks up the byte after the NUL too. -/
def strEnd (ptr : Addr) : Option ℕ → Sys Bool
  | none => pure false
  | some i => do
    if (← getPage m (ptr + BitVec.ofNat 32 i)) = 0#32 then pure false
    else pure (i ≠ 0)

def checkUserStrPtr (ptr : Addr) : Sys Bool := do
  -- the initial value of `c`
  let _ ← readChar m ptr
  strEnd m ptr (← strLoop m ptr 0)

/-- The loop of `check_user_buf_ptr`, `n` times from index `i` on: the index after it, or none
where it returns false. -/
def bufLoop (ptr : Addr) : ℕ → ℕ → Sys (Option ℕ)
  | 0, i => pure (some i)
  | n + 1, i => do
    let p := ptr + BitVec.ofNat 32 i
    if ← Trace.and (checkUserPtr m p) (do pure ((← getPage m p) = 0#32)) then pure none
    else bufLoop ptr n (i + 1)

def checkUserBufPtr (ptr : Addr) (size : BitVec 32) : Sys Bool := do
  match ← bufLoop m ptr size.toNat 0 with
  | none => pure false
  | some i => pure (i ≠ 0)

/-! ### Reading and writing -/

def getFileFromFd (fd : ℤ) : Option File :=
  if LEN_FILE_LIST < fd - 2 then none else m.fileTracker (fd - 2)

/-- How many bytes `file_read` and `file_write` move. -/
def File.transfer (file : File) (size : ℤ) : ℤ := max 0 (min size (file.length - file.pos))

def callRead (fd : ℤ) (buffer : Addr) (size : BitVec 32) : Sys Result :=
  if size = 0#32 then pure (.ret 0)
  else do
    if ← Trace.and (checkUserPtr m buffer) (checkUserBufPtr m buffer size) then
      if fd = 0 then
        -- from the keyboard; `size` is signed here
        touchRange m true buffer size.toInt.toNat 0
        pure (.ret size.toInt)
      else if fd = 1 then pure (.ret (-1))
      else
        match getFileFromFd m fd with
        | none => callExit (-1)
        | some file =>
          touchRange m true buffer (file.transfer size.toInt).toNat 0
          pure (.ret (file.transfer size.toInt))
    else callExit (-1)

def callWrite (fd : ℤ) (buffer : Addr) (size : BitVec 32) : Sys Result :=
  if fd = 1 then do
    touchRange m false buffer size.toNat 0
    pure (.ret size.toNat)
  else if fd = 0 then callExit (-1)
  else
    match getFileFromFd m fd with
    | none => callExit (-1)
    | some file => do
      touchRange m false buffer (if file.denyWrite then 0 else (file.transfer size.toInt).toNat) 0
      pure (.ret size.toInt)

/-! ### The handler -/

/-- The system call numbers that `syscall_handler` knows. -/
inductive SyscallNr where
  | sysHalt | sysExit | sysExec | sysWait | sysCreate | sysRemove | sysOpen | sysFilesize
  | sysRead | sysWrite | sysSeek | sysTell | sysClose
  deriving DecidableEq

/-- The system call a number stands for. -/
def SyscallNr.ofWord (w : BitVec 32) : Option SyscallNr :=
  match w.toNat with
  | 0 => some .sysHalt
  | 1 => some .sysExit
  | 2 => some .sysExec
  | 3 => some .sysWait
  | 4 => some .sysCreate
  | 5 => some .sysRemove
  | 6 => some .sysOpen
  | 7 => some .sysFilesize
  | 8 => some .sysRead
  | 9 => some .sysWrite
  | 10 => some .sysSeek
  | 11 => some .sysTell
  | 12 => some .sysClose
  | _ => none

/-- A system call with one word as its argument, that is read when its first byte passes the
check. -/
def oneWord (esp : Addr) (k : BitVec 32 → Sys Result) (refuse : Sys Result) : Sys Result := do
  if ← checkUserPtr m (esp + 4#32) then
    let w ← readWord m (esp + 4#32)
    k w
  else refuse

/-- A system call with one string as its argument. -/
def oneString (esp : Addr) (c : Addr → Call) (refuse : Sys Result) : Sys Result := do
  if ← Trace.and (checkUserPtr m (esp + 4#32)) (do checkUserStrPtr m (← readWord m (esp + 4#32))) then
    let ptr ← readWord m (esp + 4#32)
    pure (.call (c ptr))
  else refuse

def sysExit (esp : Addr) : Sys Result := oneWord m esp (fun w => callExit w.toInt) (callExit (-1))

def sysExec (esp : Addr) : Sys Result := oneString m esp .exec (callExit (-1))

def sysWait (esp : Addr) : Sys Result := oneWord m esp (fun w => pure (.call (.wait w.toInt))) (callExit (-1))

/-- `SYS_CREATE`: the first argument is read without a check. -/
def sysCreate (esp : Addr) : Sys Result := do
  if ← Trace.and (do checkUserStrPtr m (← readWord m (esp + 4#32)))
      (Trace.and (checkUserPtr m (esp + 8#32)) (do pure (0 ≤ (← readWord m (esp + 8#32)).toInt))) then
    let filename ← readWord m (esp + 4#32)
    let fileSize ← readWord m (esp + 8#32)
    pure (.call (.create filename fileSize.toInt))
  else callExit (-1)

def sysRemove (esp : Addr) : Sys Result := oneString m esp .remove (pure (.ret 0))

/-- `SYS_OPEN`: the argument is read without a check. -/
def sysOpen (esp : Addr) : Sys Result := do
  if ← (do checkUserStrPtr m (← readWord m (esp + 4#32))) then
    let filename ← readWord m (esp + 4#32)
    pure (.call (.openFile filename))
  else callExit (-1)

def sysFilesize (esp : Addr) : Sys Result :=
  oneWord m esp (fun w => pure (.call (.filesize w.toInt))) (pure (.ret (-1)))

def sysRead (esp : Addr) : Sys Result := do
  if ← Trace.and (checkUserPtr m (esp + 4#32)) (Trace.and (checkUserPtr m (esp + 8#32)) (checkUserPtr m (esp + 12#32))) then
    let fd ← readWord m (esp + 4#32)
    let buffer ← readWord m (esp + 8#32)
    let size ← readWord m (esp + 12#32)
    callRead m fd.toInt buffer size
  else callExit (-1)

def sysWrite (esp : Addr) : Sys Result := do
  if ← Trace.and (checkUserPtr m (esp + 4#32)) (checkUserPtr m (esp + 12#32)) then
    let size ← readWord m (esp + 12#32)
    if size ≠ 0#32 then
      if ← Trace.and (checkUserPtr m (esp + 8#32))
          (Trace.and (do checkUserPtr m (← readWord m (esp + 8#32)))
            (do checkUserBufPtr m (← readWord m (esp + 8#32)) size)) then
        let fd ← readWord m (esp + 4#32)
        let buffer ← readWord m (esp + 8#32)
        let size ← readWord m (esp + 12#32)
        callWrite m fd.toInt buffer size
      else callExit (-1)
    else pure (.ret 0)
  else callExit (-1)

def sysSeek (esp : Addr) : Sys Result := do
  if ← Trace.and (checkUserPtr m (esp + 4#32)) (checkUserPtr m (esp + 8#32)) then
    let fd ← readWord m (esp + 4#32)
    let position ← readWord m (esp + 8#32)
    pure (.call (.seek fd.toInt position))
  else callExit (-1)

def sysTell (esp : Addr) : Sys Result := oneWord m esp (fun w => pure (.call (.tell w.toInt))) (callExit (-1))

/-- `call_close`: the argument is read three times. -/
def callClose (esp : Addr) : Sys Result := do
  if ← Trace.and (checkUserPtr m (esp + 4#32))
      (Trace.and (do pure ((← readWord m (esp + 4#32)) ≠ 0#32)) (do pure ((← readWord m (esp + 4#32)) ≠ 1#32))) then
    let fd ← readWord m (esp + 4#32)
    pure (.call (.close fd.toInt))
  else callExit (-1)

/-- The case of `syscall_handler` for a number. -/
def dispatch (esp : Addr) : Option SyscallNr → Sys Result
  | some .sysHalt => Trace.stop .powerOff
  | some .sysExit => sysExit m esp
  | some .sysExec => sysExec m esp
  | some .sysWait => sysWait m esp
  | some .sysCreate => sysCreate m esp
  | some .sysRemove => sysRemove m esp
  | some .sysOpen => sysOpen m esp
  | some .sysFilesize => sysFilesize m esp
  | some .sysRead => sysRead m esp
  | some .sysWrite => sysWrite m esp
  | some .sysSeek => sysSeek m esp
  | some .sysTell => sysTell m esp
  | some .sysClose => callClose m esp
  | none => callExit (-1)

def syscallHandler (esp : Addr) : Sys Result := do
  if ← checkUserPtr m esp then
    let nr ← readWord m esp
    dispatch m esp (SyscallNr.ofWord nr)
  else callExit (-1)

end Pintos.Userprog
