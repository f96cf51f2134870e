import Pintos.Userprog.Syscall

/-!
# The checks of user memory

What the three checks of `userprog/syscall.c` return, and what they touch.

* `check_user_ptr` returns whether the byte at a pointer, other than `NULL`, is
  mapped below `PHYS_BASE` (`checkUserPtr_out`).
* `check_user_buf_ptr` accepts every buffer that is not empty
  (`checkUserBufPtr_out`): it asks for a byte that passes `check_user_ptr` and is
  not mapped, and there is none.
* `check_user_str_ptr` reads the first byte before it looks it up, looks up the
  byte after the NUL, and looks up addresses of the kernel, where
  `pagedir_get_page` panics. `safe_stop` says for which strings none of
  this matters.
-/

namespace Pintos.Userprog

open PageDir (valid_iff)
open Trace (logs_bind logs_mk logs_pure mk_error_bind mk_ok_bind)

variable (m : Machine)

/-- What `check_user_ptr` returns. -/
def Machine.ptrOk (a : Addr) : Bool := a ≠ 0#32 && m.pd.valid a

/-- An event of a check: a call of `pagedir_get_page` that does not panic. -/
def Event.IsLookup : Event → Prop
  | .getPage a => isUserVaddr a = true
  | _ => False

variable {m} {a : Addr}

theorem getPage_of_user (h : isUserVaddr a = true) : getPage m a = ⟨[.getPage a], .ok (pagedirGetPage m.pd a)⟩ := by
  simp [getPage, h]

theorem getPage_of_kernel (h : isUserVaddr a = false) : getPage m a = ⟨[.getPage a], .error .panic⟩ := by
  simp [getPage, h]

theorem readChar_of_mapped (h : m.pd.mapped a = true) : readChar m a = ⟨[.char a], .ok (m.mem a)⟩ := by
  simp [readChar, h]

theorem readChar_of_not_mapped (h : m.pd.mapped a = false) : readChar m a = ⟨[.char a], .error .panic⟩ := by
  simp [readChar, h]

/-- **What `check_user_ptr` returns.** -/
theorem checkUserPtr_out (a : Addr) : (checkUserPtr m a).out = .ok (m.ptrOk a) := by
  unfold checkUserPtr Machine.ptrOk PageDir.valid
  by_cases h0 : a = 0#32
  · simp [h0]
  · cases hu : isUserVaddr a with
    | false => simp [h0]
    | true =>
      rw [if_neg h0, if_neg (by simp), getPage_of_user hu, mk_ok_bind]
      cases hm : m.pd.mapped a with
      | false => simp [h0, pagedirGetPage_eq_zero.mpr hm]
      | true =>
        have hne : pagedirGetPage m.pd a ≠ 0#32 := fun h => by simp [pagedirGetPage_eq_zero.mp h] at hm
        simp [h0, hne]

theorem checkUserPtr_logs (a : Addr) : (checkUserPtr m a).Logs Event.IsLookup := by
  unfold checkUserPtr
  by_cases h0 : a = 0#32
  · rw [if_pos h0]
    exact logs_pure _
  · cases hu : isUserVaddr a with
    | false =>
      rw [if_neg h0, if_pos rfl]
      exact logs_pure _
    | true =>
      rw [if_neg h0, if_neg (by simp), getPage_of_user hu, mk_ok_bind]
      simpa [logs_mk, Event.IsLookup] using hu

theorem valid_of_ptrOk (h : m.ptrOk a = true) : m.pd.valid a = true := by
  have h' : a ≠ 0#32 ∧ m.pd.valid a = true := by simpa [Machine.ptrOk] using h
  exact h'.2

/-! ### Buffers -/

theorem bufRound_out (p : Addr) :
    (Trace.and (checkUserPtr m p) (do pure ((← getPage m p) = 0#32))).out = .ok false := by
  cases hok : m.ptrOk p with
  | false => exact Trace.out_and_false (by rw [checkUserPtr_out, hok])
  | true =>
    obtain ⟨hu, hm⟩ := valid_iff.mp (valid_of_ptrOk hok)
    have hne : pagedirGetPage m.pd p ≠ 0#32 := fun h => by simp [pagedirGetPage_eq_zero.mp h] at hm
    rw [Trace.out_and_true (by rw [checkUserPtr_out, hok]), getPage_of_user hu, mk_ok_bind]
    simp [hne]

theorem bufRound_logs (p : Addr) :
    (Trace.and (checkUserPtr m p) (do pure ((← getPage m p) = 0#32))).Logs Event.IsLookup := by
  refine Trace.logs_and.mpr ⟨checkUserPtr_logs p, fun h => ?_⟩
  rw [checkUserPtr_out] at h
  have hu := (valid_iff.mp (valid_of_ptrOk (Except.ok.inj h))).1
  rw [getPage_of_user hu, mk_ok_bind]
  simpa [logs_mk, Event.IsLookup] using hu

theorem bufLoop_out (ptr : Addr) (n i : ℕ) : (bufLoop m ptr n i).out = .ok (some (i + n)) := by
  induction n generalizing i with
  | zero => rfl
  | succ n ih =>
    rw [bufLoop, Trace.out_bind_ok (bufRound_out _), if_neg Bool.false_ne_true, ih, Nat.succ_add_eq_add_succ]

theorem bufLoop_logs (ptr : Addr) (n i : ℕ) : (bufLoop m ptr n i).Logs Event.IsLookup := by
  induction n generalizing i with
  | zero => exact logs_pure _
  | succ n ih =>
    rw [bufLoop, logs_bind]
    refine ⟨bufRound_logs _, fun b hb => ?_⟩
    rw [bufRound_out] at hb
    cases hb
    exact ih (i + 1)

/-- **`check_user_buf_ptr` refuses no buffer** that is not empty. -/
theorem checkUserBufPtr_out (ptr : Addr) {size : BitVec 32} (h : size ≠ 0#32) :
    (checkUserBufPtr m ptr size).out = .ok true := by
  have hsize : size.toNat ≠ 0 := fun h0 => h (BitVec.eq_of_toNat_eq h0)
  rw [checkUserBufPtr, Trace.out_bind_ok (bufLoop_out ptr size.toNat 0)]
  simp [hsize]

theorem checkUserBufPtr_logs (ptr : Addr) (size : BitVec 32) : (checkUserBufPtr m ptr size).Logs Event.IsLookup := by
  rw [checkUserBufPtr, logs_bind]
  refine ⟨bufLoop_logs _ _ _, fun r hr => ?_⟩
  rw [bufLoop_out] at hr
  cases hr
  exact logs_pure _

/-! ### Strings -/

/-- The string at `ptr` can be read: every byte up to and including the first NUL is mapped below
`PHYS_BASE`. -/
def StrValid (m : Machine) (ptr : Addr) : Prop :=
  ∃ n, (∀ j < n, m.mem (ptr + BitVec.ofNat 32 j) ≠ 0#8) ∧ m.mem (ptr + BitVec.ofNat 32 n) = 0#8 ∧
    ∀ j ≤ n, m.pd.valid (ptr + BitVec.ofNat 32 j) = true

/-- The loop goes past index `j`. -/
def Machine.passes (m : Machine) (ptr : Addr) (j : ℕ) : Prop :=
  m.pd.valid (ptr + BitVec.ofNat 32 j) = true ∧ m.mem (ptr + BitVec.ofNat 32 j) ≠ 0#8

variable {ptr : Addr} {i : ℕ}

theorem pagedirGetPage_ne_zero {a : Addr} (hm : m.pd.mapped a = true) : pagedirGetPage m.pd a ≠ 0#32 := by
  intro h
  simp [pagedirGetPage_eq_zero.mp h] at hm

theorem strLoop_pass (h : m.passes ptr i) : strLoop m ptr i =
      ⟨.getPage (ptr + BitVec.ofNat 32 i) :: .char (ptr + BitVec.ofNat 32 i) :: (strLoop m ptr (i + 1)).log,
        (strLoop m ptr (i + 1)).out⟩ := by
  obtain ⟨hvalid, hne⟩ := h
  obtain ⟨hu, hm⟩ := valid_iff.mp hvalid
  rw [strLoop]
  simp only [hu, dite_true, getPage_of_user hu, mk_ok_bind, if_neg (pagedirGetPage_ne_zero hm),
    readChar_of_mapped hm, if_neg hne]
  rfl

theorem strLoop_kernel (h : isUserVaddr (ptr + BitVec.ofNat 32 i) = false) :
    strLoop m ptr i = ⟨[.getPage (ptr + BitVec.ofNat 32 i)], .error .panic⟩ := by
  rw [strLoop]
  simp only [h, Bool.false_eq_true, dite_false, getPage_of_kernel h, mk_error_bind]

theorem strLoop_unmapped (hu : isUserVaddr (ptr + BitVec.ofNat 32 i) = true)
    (hm : m.pd.mapped (ptr + BitVec.ofNat 32 i) = false) :
    strLoop m ptr i = ⟨[.getPage (ptr + BitVec.ofNat 32 i)], .ok none⟩ := by
  rw [strLoop]
  simp only [hu, dite_true, getPage_of_user hu, mk_ok_bind, if_pos (pagedirGetPage_eq_zero.mpr hm)]
  rfl

theorem strLoop_nul (hvalid : m.pd.valid (ptr + BitVec.ofNat 32 i) = true)
    (hnul : m.mem (ptr + BitVec.ofNat 32 i) = 0#8) :
    strLoop m ptr i =
      ⟨[.getPage (ptr + BitVec.ofNat 32 i), .char (ptr + BitVec.ofNat 32 i)], .ok (some (i + 1))⟩ := by
  obtain ⟨hu, hm⟩ := valid_iff.mp hvalid
  rw [strLoop]
  simp only [hu, dite_true, getPage_of_user hu, mk_ok_bind, if_neg (pagedirGetPage_ne_zero hm),
    readChar_of_mapped hm, if_pos hnul]
  rfl

/-- The loop stops somewhere: at the latest where the kernel begins. -/
theorem exists_stop (m : Machine) (ptr : Addr) : ∃ k, (∀ j < k, m.passes ptr j) ∧ ¬ m.passes ptr k := by
  classical
  have hex : ∃ k, ¬ m.passes ptr k := by
    refine ⟨0xc0000000 - ptr.toNat, fun h => ?_⟩
    have hlt := isUserVaddr_iff.mp (valid_iff.mp h.1).1
    by_cases hp : ptr.toNat ≤ 0xc0000000
    · rw [toNat_add_ofNat (by omega)] at hlt
      omega
    · rw [Nat.sub_eq_zero_of_le (by omega), BitVec.add_zero] at hlt
      omega
  exact ⟨Nat.find hex, fun j hj => not_not.mp (Nat.find_min hex hj), Nat.find_spec hex⟩

variable {k : ℕ}

/-- What the loop does up to the index where it stops: it looks up and reads one byte after the
other, all of them valid. -/
theorem strLoop_passes (h : ∀ j < k, m.passes ptr j) :
    ∃ l, strLoop m ptr 0 = ⟨l ++ (strLoop m ptr k).log, (strLoop m ptr k).out⟩ ∧
      ∀ e ∈ l, ∃ a, m.pd.valid a = true ∧ (e = .getPage a ∨ e = .char a) := by
  induction k with
  | zero => exact ⟨[], rfl, nofun⟩
  | succ k ih =>
    obtain ⟨l, hl, hlog⟩ := ih fun j hj => h j (Nat.lt_succ_of_lt hj)
    have hk := h k (Nat.lt_succ_self k)
    refine ⟨l ++ [.getPage (ptr + BitVec.ofNat 32 k), .char (ptr + BitVec.ofNat 32 k)], ?_, ?_⟩
    · rw [hl, strLoop_pass hk]
      simp
    · intro e he
      rcases List.mem_append.mp he with he | he
      · exact hlog e he
      · exact ⟨_, hk.1, by simpa using he⟩

/-- Where the string can be read, the loop passes what is before the NUL and nothing else. -/
theorem strValid_iff (h : ∀ j < k, m.passes ptr j) (hk : ¬ m.passes ptr k) :
    StrValid m ptr ↔ m.pd.valid (ptr + BitVec.ofNat 32 k) = true ∧ m.mem (ptr + BitVec.ofNat 32 k) = 0#8 := by
  constructor
  · rintro ⟨n, hne, hnul, hvalid⟩
    have hn : n = k := by
      refine le_antisymm (not_lt.mp fun hlt => ?_) (not_lt.mp fun hlt => ?_)
      · exact hk ⟨hvalid k hlt.le, hne k hlt⟩
      · exact (h n hlt).2 hnul
    exact hn ▸ ⟨hvalid n le_rfl, hnul⟩
  · rintro ⟨hvalid, hnul⟩
    refine ⟨k, fun j hj => (h j hj).2, hnul, fun j hj => ?_⟩
    rcases hj.lt_or_eq with hj | rfl
    · exact (h j hj).1
    · exact hvalid

/-- What `check_user_str_ptr` is for. -/
structure StrCheckOk (m : Machine) (ptr : Addr) (t : Sys Bool) : Prop where
  /-- It returns true for the strings that can be read. -/
  returns : t.out = .ok true ↔ StrValid m ptr
  /-- A byte that it reads it has looked up, and found mapped. -/
  derefs : ∀ l a l', t.log = l ++ .char a :: l' → .getPage a ∈ l ∧ m.pd.valid a = true
  /-- It looks up no address of the kernel. -/
  lookups : ∀ a, .getPage a ∈ t.log → isUserVaddr a = true

/-- The same, where it may read a byte before it looks it up, if the byte can be read. -/
structure StrCheckSafe (m : Machine) (ptr : Addr) (t : Sys Bool) : Prop where
  /-- It returns true for the strings that can be read. -/
  returns : t.out = .ok true ↔ StrValid m ptr
  /-- A byte that it reads can be read. -/
  derefs : ∀ a, .char a ∈ t.log → m.pd.valid a = true
  /-- It looks up no address of the kernel. -/
  lookups : ∀ a, .getPage a ∈ t.log → isUserVaddr a = true

theorem checkUserStrPtr_log (m : Machine) (ptr : Addr) : ∃ l, (checkUserStrPtr m ptr).log = .char ptr :: l := by
  unfold checkUserStrPtr
  cases hm : m.pd.mapped ptr with
  | false => exact ⟨[], by rw [readChar_of_not_mapped hm, mk_error_bind]⟩
  | true => exact ⟨_, by rw [readChar_of_mapped hm, mk_ok_bind]; rfl⟩

theorem checkUserStrPtr_of_mapped (h : m.pd.mapped ptr = true) : checkUserStrPtr m ptr =
      ⟨.char ptr :: (strLoop m ptr 0 >>= strEnd m ptr).log, (strLoop m ptr 0 >>= strEnd m ptr).out⟩ := by
  unfold checkUserStrPtr
  rw [readChar_of_mapped h, mk_ok_bind]
  rfl

section Stop

variable {ptr : Addr} {k : ℕ} (hptr : m.pd.valid ptr = true) (hpass : ∀ j < k, m.passes ptr j)
include hptr hpass

/-- The run of `check_user_str_ptr` on a pointer whose first byte can be read: it reads and looks
up bytes that can be read, and then does what the loop does at index `k`. -/
theorem checkUserStrPtr_stop :
    ∃ l, checkUserStrPtr m ptr =
        ⟨l ++ (strLoop m ptr k >>= strEnd m ptr).log, (strLoop m ptr k >>= strEnd m ptr).out⟩ ∧
      ∀ e ∈ l, ∃ a, m.pd.valid a = true ∧ (e = .getPage a ∨ e = .char a) := by
  obtain ⟨l, hl, hlog⟩ := strLoop_passes hpass
  refine ⟨.char ptr :: l, ?_, ?_⟩
  · rw [checkUserStrPtr_of_mapped (valid_iff.mp hptr).2, hl]
    cases hk : strLoop m ptr k with
    | mk lk ok =>
      cases ok with
      | ok r | error x => simp
  · intro e he
    rcases List.mem_cons.mp he with rfl | he
    · exact ⟨ptr, hptr, .inr rfl⟩
    · exact hlog e he

theorem strCheckSafe_iff :
    StrCheckSafe m ptr (checkUserStrPtr m ptr) ↔ StrCheckSafe m ptr (strLoop m ptr k >>= strEnd m ptr) := by
  obtain ⟨l, hl, hlog⟩ := checkUserStrPtr_stop hptr hpass
  rw [hl]
  constructor
  · rintro ⟨hret, hderef, hlook⟩
    exact ⟨hret, fun a ha => hderef a (List.mem_append_right l ha), fun a ha => hlook a (List.mem_append_right l ha)⟩
  · rintro ⟨hret, hderef, hlook⟩
    refine ⟨hret, fun a ha => ?_, fun a ha => ?_⟩
    · rcases List.mem_append.mp ha with ha | ha
      · obtain ⟨b, hb, heq | heq⟩ := hlog _ ha
        · cases heq
        · cases heq
          exact hb
      · exact hderef a ha
    · rcases List.mem_append.mp ha with ha | ha
      · obtain ⟨b, hb, heq | heq⟩ := hlog _ ha
        · cases heq
          exact (valid_iff.mp hb).1
        · cases heq
      · exact hlook a ha

end Stop

theorem not_safe_kernel (h : isUserVaddr (ptr + BitVec.ofNat 32 k) = false) :
    ¬ StrCheckSafe m ptr (strLoop m ptr k >>= strEnd m ptr) := by
  rintro ⟨-, -, hlook⟩
  rw [strLoop_kernel h, mk_error_bind] at hlook
  rw [hlook _ (List.mem_singleton.mpr rfl)] at h
  cases h

theorem safe_unmapped (hstr : ¬ StrValid m ptr)
    (hu : isUserVaddr (ptr + BitVec.ofNat 32 k) = true) (hm : m.pd.mapped (ptr + BitVec.ofNat 32 k) = false) :
    StrCheckSafe m ptr (strLoop m ptr k >>= strEnd m ptr) := by
  rw [strLoop_unmapped hu hm, mk_ok_bind]
  refine ⟨iff_of_false (by simp [strEnd]) hstr, fun a ha => ?_, fun a ha => ?_⟩
  · simp [strEnd] at ha
  · have ha' : a = ptr + BitVec.ofNat 32 k := by simpa [strEnd] using ha
    rwa [ha']

theorem safe_nul (hstr : StrValid m ptr) (hvalid : m.pd.valid (ptr + BitVec.ofNat 32 k) = true)
    (hnul : m.mem (ptr + BitVec.ofNat 32 k) = 0#8) :
    StrCheckSafe m ptr (strLoop m ptr k >>= strEnd m ptr) ↔ m.pd.valid (ptr + BitVec.ofNat 32 (k + 1)) = true := by
  rw [strLoop_nul hvalid hnul, mk_ok_bind]
  cases hu : isUserVaddr (ptr + BitVec.ofNat 32 (k + 1)) with
  | false =>
    refine iff_of_false (fun h => ?_) (by simp [PageDir.valid, hu])
    -- the lookup of a kernel address
    have hlook := h.lookups (ptr + BitVec.ofNat 32 (k + 1)) (by simp [strEnd, getPage_of_kernel hu])
    rw [hu] at hlook
    cases hlook
  | true =>
    cases hm : m.pd.mapped (ptr + BitVec.ofNat 32 (k + 1)) with
    | false =>
      refine iff_of_false (fun h => ?_) (by simp [PageDir.valid, hm])
      -- the string can be read, and it returns false
      have hret := h.returns.mpr hstr
      simp [strEnd, getPage_of_user hu, pagedirGetPage_eq_zero.mpr hm] at hret
    | true =>
      have hpage := pagedirGetPage_ne_zero hm
      refine iff_of_true ⟨iff_of_true ?_ hstr, fun a ha => ?_, fun a ha => ?_⟩ (valid_iff.mpr ⟨hu, hm⟩)
      · simp [strEnd, getPage_of_user hu, hpage]
      · have ha' : a = ptr + BitVec.ofNat 32 k := by simpa [strEnd, getPage_of_user hu, hpage] using ha
        rwa [ha']
      · have ha' : a = ptr + BitVec.ofNat 32 k ∨ a = ptr + BitVec.ofNat 32 (k + 1) := by
          simpa [strEnd, getPage_of_user hu, hpage] using ha
        rcases ha' with rfl | rfl
        · exact (valid_iff.mp hvalid).1
        · exact hu

/-- At the index where the loop stops, the rest of the call is safe if that is a page that is not
there, or the NUL of a string that does not end its page. -/
theorem safe_stop (hpass : ∀ j < k, m.passes ptr j) (hstop : ¬ m.passes ptr k) :
    StrCheckSafe m ptr (strLoop m ptr k >>= strEnd m ptr) ↔
      isUserVaddr (ptr + BitVec.ofNat 32 k) = true ∧ m.pd.mapped (ptr + BitVec.ofNat 32 k) = false ∨
        m.pd.valid (ptr + BitVec.ofNat 32 k) = true ∧ m.mem (ptr + BitVec.ofNat 32 k) = 0#8 ∧
          m.pd.valid (ptr + BitVec.ofNat 32 (k + 1)) = true := by
  have hstr := strValid_iff hpass hstop
  cases hu : isUserVaddr (ptr + BitVec.ofNat 32 k) with
  | false => exact iff_of_false (not_safe_kernel hu) (by simp [PageDir.valid, hu])
  | true =>
    cases hm : m.pd.mapped (ptr + BitVec.ofNat 32 k) with
    | false =>
      refine iff_of_true (safe_unmapped (fun h => ?_) hu hm) (.inl ⟨rfl, rfl⟩)
      rw [(valid_iff.mp (hstr.mp h).1).2] at hm
      cases hm
    | true =>
      have hvalid := valid_iff.mpr ⟨hu, hm⟩
      have hnul : m.mem (ptr + BitVec.ofNat 32 k) = 0#8 := by
        by_contra hne
        exact hstop ⟨hvalid, hne⟩
      rw [safe_nul (hstr.mpr ⟨hvalid, hnul⟩) hvalid hnul]
      simp [hvalid, hnul]

/-- **`check_user_str_ptr` is never right**: whatever `ptr` is, it reads the byte at `ptr` before
it looks it up. Where that byte can be read, it does what it should if it comes to a page
that is not there before a NUL, or to a NUL that is followed by a byte that can be read, and
only then. -/
theorem checkUserStrPtr_never_ok (m : Machine) (ptr : Addr) :
    ¬ StrCheckOk m ptr (checkUserStrPtr m ptr) ∧
      (StrCheckSafe m ptr (checkUserStrPtr m ptr) ↔
        m.pd.valid ptr = true ∧ ∃ k, (∀ j < k, m.passes ptr j) ∧
          (isUserVaddr (ptr + BitVec.ofNat 32 k) = true ∧ m.pd.mapped (ptr + BitVec.ofNat 32 k) = false ∨
            m.pd.valid (ptr + BitVec.ofNat 32 k) = true ∧ m.mem (ptr + BitVec.ofNat 32 k) = 0#8 ∧
              m.pd.valid (ptr + BitVec.ofNat 32 (k + 1)) = true)) := by
  obtain ⟨l, hl⟩ := checkUserStrPtr_log m ptr
  refine ⟨fun h => ?_, fun hsafe => ?_, ?_⟩
  · have hlook := (h.derefs [] ptr l hl).1
    cases hlook
  · have hptr := hsafe.derefs ptr (by rw [hl]; exact List.mem_cons_self)
    obtain ⟨k, hpass, hstop⟩ := exists_stop m ptr
    exact ⟨hptr, k, hpass, (safe_stop hpass hstop).mp ((strCheckSafe_iff hptr hpass).mp hsafe)⟩
  · rintro ⟨hptr, k, hpass, hcase⟩
    have hstop : ¬ m.passes ptr k := by
      rintro ⟨hvalid, hne⟩
      rcases hcase with ⟨-, hm⟩ | ⟨-, hnul, -⟩
      · simp [(valid_iff.mp hvalid).2] at hm
      · exact hne hnul
    exact (strCheckSafe_iff hptr hpass).mpr ((safe_stop hpass hstop).mpr hcase)

/-! ### What the check of strings touches -/

/-- An event of `check_user_str_ptr`. -/
def Event.IsStrCheck : Event → Prop
  | .getPage _ | .char _ => True
  | _ => False

theorem strLoop_logs (ptr : Addr) (i : ℕ) : (strLoop m ptr i).Logs Event.IsStrCheck := by
  induction i using strLoop.induct ptr with
  | case1 i p hu ih =>
    cases hm : m.pd.mapped p with
    | false =>
      rw [strLoop_unmapped hu hm]
      simp [logs_mk, Event.IsStrCheck]
    | true =>
      have hvalid : m.pd.valid p = true := valid_iff.mpr ⟨hu, hm⟩
      by_cases hnul : m.mem p = 0#8
      · rw [strLoop_nul hvalid hnul]
        simp [logs_mk, Event.IsStrCheck]
      · rw [strLoop_pass ⟨hvalid, hnul⟩, logs_mk, List.forall_mem_cons, List.forall_mem_cons]
        exact ⟨trivial, trivial, ih⟩
  | case2 i p hu =>
    rw [strLoop_kernel (by simpa using hu)]
    simp [logs_mk, Event.IsStrCheck]

theorem getPage_logs (a : Addr) : (getPage m a).Logs Event.IsStrCheck := by
  cases hu : isUserVaddr a with
  | true => simp [getPage_of_user hu, logs_mk, Event.IsStrCheck]
  | false => simp [getPage_of_kernel hu, logs_mk, Event.IsStrCheck]

/-- It looks up pages and reads characters, and does nothing else. -/
theorem checkUserStrPtr_logs (ptr : Addr) : (checkUserStrPtr m ptr).Logs Event.IsStrCheck := by
  cases hm : m.pd.mapped ptr with
  | false =>
    rw [checkUserStrPtr, readChar_of_not_mapped hm, mk_error_bind]
    simp [logs_mk, Event.IsStrCheck]
  | true =>
    have hloop : (strLoop m ptr 0 >>= strEnd m ptr).Logs Event.IsStrCheck := by
      refine logs_bind.mpr ⟨strLoop_logs ptr 0, fun r _ => ?_⟩
      cases r with
      | none => exact logs_pure _
      | some i =>
        refine logs_bind.mpr ⟨getPage_logs _, fun page _ => ?_⟩
        split_ifs <;> exact logs_pure _
    rw [checkUserStrPtr_of_mapped hm, logs_mk, List.forall_mem_cons]
    exact ⟨trivial, hloop⟩

/-- If it does not panic, it returns, and has read nothing but bytes that can be read. -/
theorem checkUserStrPtr_returns (h : (checkUserStrPtr m ptr).out ≠ .error .panic) :
    (∃ b, (checkUserStrPtr m ptr).out = .ok b) ∧ ∀ a, .char a ∈ (checkUserStrPtr m ptr).log → m.pd.valid a = true := by
  have hptr : m.pd.valid ptr = true := by
    rw [valid_iff]
    cases hm : m.pd.mapped ptr with
    | false =>
      rw [checkUserStrPtr, readChar_of_not_mapped hm, mk_error_bind] at h
      exact absurd rfl h
    | true =>
      cases hu : isUserVaddr ptr with
      | false =>
        rw [checkUserStrPtr_of_mapped hm, strLoop_kernel (by simpa using hu), mk_error_bind] at h
        exact absurd rfl h
      | true => exact ⟨rfl, rfl⟩
  obtain ⟨k, hpass, hstop⟩ := exists_stop m ptr
  obtain ⟨l, hl, hlog⟩ := checkUserStrPtr_stop hptr hpass
  have hchars : ∀ a, .char a ∈ l → m.pd.valid a = true := fun a ha => by
    obtain ⟨b, hb, heq | heq⟩ := hlog _ ha
    · cases heq
    · cases heq
      exact hb
  rw [hl] at h ⊢
  cases hu : isUserVaddr (ptr + BitVec.ofNat 32 k) with
  | false =>
    rw [strLoop_kernel hu, mk_error_bind] at h
    exact absurd rfl h
  | true =>
    cases hm : m.pd.mapped (ptr + BitVec.ofNat 32 k) with
    | false =>
      rw [strLoop_unmapped hu hm, mk_ok_bind]
      refine ⟨⟨false, by simp [strEnd]⟩, fun a ha => hchars a ?_⟩
      simpa [strEnd] using ha
    | true =>
      have hvalid : m.pd.valid (ptr + BitVec.ofNat 32 k) = true := valid_iff.mpr ⟨hu, hm⟩
      have hnul : m.mem (ptr + BitVec.ofNat 32 k) = 0#8 := by
        by_contra hne
        exact hstop ⟨hvalid, hne⟩
      rw [strLoop_nul hvalid hnul, mk_ok_bind] at h ⊢
      cases hu' : isUserVaddr (ptr + BitVec.ofNat 32 (k + 1)) with
      | false => simp [strEnd, getPage_of_kernel hu'] at h
      | true =>
        rw [strEnd, getPage_of_user hu', mk_ok_bind]
        constructor
        · split_ifs
          · exact ⟨false, rfl⟩
          · exact ⟨_, rfl⟩
        · intro a ha
          have ha' : .char a ∈ l ∨ a = ptr + BitVec.ofNat 32 k := by
            split_ifs at ha <;> simpa using ha
          rcases ha' with ha' | rfl
          · exact hchars a ha'
          · exact hvalid

/-- A page directory with one page, at `0x8048000`. -/
def onePage : PageDir where
  pt d := if d = 0x20#10 then some fun i => if i = 0x48#10 then 0x00100007#32 else 0#32 else none
  frame := by
    intro d t i ht hp
    split_ifs at ht
    cases ht
    by_cases hi : i = 0x48#10
    · simp only [if_pos hi]
      decide
    · simp only [if_neg hi] at hp
      exact absurd rfl hp

/-- The empty string in the last byte of the page is refused. -/
theorem checkUserStrPtr_refuses_empty_string :
    ∃ m ptr, StrValid m ptr ∧ (checkUserStrPtr m ptr).out = .ok false ∧
      ∃ l, (checkUserStrPtr m ptr).log = .char ptr :: l := by
  set m : Machine := ⟨onePage, fun _ => 0#8, fun _ => none⟩
  have hvalid : m.pd.valid (0x08048fff#32 + BitVec.ofNat 32 0) = true := by decide
  refine ⟨m, 0x08048fff#32, ⟨0, nofun, rfl, fun j hj => ?_⟩, ?_, checkUserStrPtr_log m _⟩
  · rw [Nat.le_zero.mp hj]
    exact hvalid
  · rw [checkUserStrPtr_of_mapped (by decide), strLoop_nul hvalid rfl, mk_ok_bind]
    rfl

end Pintos.Userprog
