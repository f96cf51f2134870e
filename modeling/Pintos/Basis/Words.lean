import Mathlib.Data.List.Forall2

/-!
# Words

The words of a list are its maximal parts without separators: what is left of the
parts between separators when the empty ones are dropped. Separators before,
between and after words, however many, do not matter.

`squeeze` drops all separators but the first of those that follow a word. It leaves the words as
they are (`words_squeeze`), and joins them by single separators, but for a separator that it leaves
at the end (`squeeze_eq_intercalate`). The number of words can be read off the places where a word
follows a separator (`length_words`).
-/

namespace Pintos

variable {α : Type*} (p : α → Bool)

/-- The words of a list, where `p` says what a separator is. -/
def words (cs : List α) : List (List α) := (cs.splitOnP p).filter fun w => !w.isEmpty

variable {p}

@[simp] theorem words_nil : words p [] = [] := rfl

variable {c : α}

theorem words_append_cons (hc : p c = true) (u cs : List α) : words p (u ++ c :: cs) = words p u ++ words p cs := by
  unfold words
  rw [List.splitOnP_append_cons u cs hc, List.filter_append]

theorem words_cons (hc : p c = true) (cs : List α) : words p (c :: cs) = words p cs :=
  words_append_cons hc [] cs

variable {ds : List α}

/-- Separators before the first word do not matter. -/
theorem words_append (hds : ∀ c ∈ ds, p c = true) (cs : List α) : words p (ds ++ cs) = words p cs := by
  induction ds with
  | nil => rfl
  | cons c ds ih =>
    rw [List.cons_append, words_cons (hds c List.mem_cons_self)]
    exact ih fun d hd => hds d (List.mem_cons_of_mem _ hd)

variable {w : List α}

theorem words_of_no_separator (hw : ∀ c ∈ w, p c = false) (hne : w ≠ []) : words p w = [w] := by
  unfold words
  rw [List.splitOnP_eq_singleton hw]
  simp [hne]

theorem words_of_separators (hds : ∀ c ∈ ds, p c = true) : words p ds = [] := by
  have h := words_append hds []
  rwa [List.append_nil] at h

variable (p)

/-- A list has separators only, or it has separators, a word, and then nothing or a separator and
the rest. -/
theorem separators_or_word (cs : List α) :
    (∀ c ∈ cs, p c = true) ∨ ∃ ds w, (∀ c ∈ ds, p c = true) ∧ w ≠ [] ∧ (∀ c ∈ w, p c = false) ∧
      (cs = ds ++ w ∨ ∃ d rest, p d = true ∧ cs = ds ++ (w ++ d :: rest)) := by
  induction cs with
  | nil => exact .inl nofun
  | cons c cs ih =>
    by_cases hc : p c = true
    · obtain hall | ⟨ds, w, hds, hne, hw, hcs⟩ := ih
      · exact .inl (List.forall_mem_cons.mpr ⟨hc, hall⟩)
      · refine .inr ⟨c :: ds, w, List.forall_mem_cons.mpr ⟨hc, hds⟩, hne, hw, ?_⟩
        obtain rfl | ⟨d, rest, hd, rfl⟩ := hcs
        · exact .inl rfl
        · exact .inr ⟨d, rest, hd, rfl⟩
    · have hone : ∀ x ∈ [c], p x = false := by simpa using hc
      obtain hall | ⟨ds, w, hds, hne, hw, hcs⟩ := ih
      · refine .inr ⟨[], [c], nofun, by simp, hone, ?_⟩
        cases cs with
        | nil => exact .inl rfl
        | cons d rest => exact .inr ⟨d, rest, hall d List.mem_cons_self, rfl⟩
      · cases ds with
        | nil =>
          refine .inr ⟨[], c :: w, nofun, by simp, List.forall_mem_cons.mpr ⟨by simpa using hc, hw⟩, ?_⟩
          obtain rfl | ⟨d, rest, hd, rfl⟩ := hcs
          · exact .inl rfl
          · exact .inr ⟨d, rest, hd, rfl⟩
        | cons e ds =>
          refine .inr ⟨[], [c], nofun, by simp, hone, .inr ?_⟩
          have he := hds e List.mem_cons_self
          obtain rfl | ⟨d, rest, hd, rfl⟩ := hcs
          · exact ⟨e, ds ++ w, he, rfl⟩
          · exact ⟨e, ds ++ (w ++ d :: rest), he, rfl⟩

/-! ### Places -/

/-- Where the words of a list at address `a` start; `inside` says whether the character before
belongs to a word. -/
def starts : (inside : Bool) → (a : ℕ) → List α → List ℕ
  | _, _, [] => []
  | inside, a, c :: cs =>
    if p c then starts false (a + 1) cs else if inside then starts true (a + 1) cs else a :: starts true (a + 1) cs

variable {p}

/-- No word starts among separators, nor within a word. -/
theorem starts_same {b : Bool} (hds : ∀ c ∈ ds, p c = !b) (a : ℕ) (cs : List α) :
    starts p b a (ds ++ cs) = starts p b (a + ds.length) cs := by
  induction ds generalizing a with
  | nil => rfl
  | cons c ds ih =>
    obtain ⟨hc, hds⟩ := List.forall_mem_cons.mp hds
    cases b <;> simp [starts, hc, ih hds, Nat.add_right_comm, Nat.add_assoc]

theorem starts_word (hw : ∀ c ∈ w, p c = false) (hne : w ≠ []) (a : ℕ) (cs : List α) :
    starts p false a (w ++ cs) = a :: starts p true (a + w.length) cs := by
  obtain ⟨c, w, rfl⟩ := List.exists_cons_of_ne_nil hne
  obtain ⟨hc, hw⟩ := List.forall_mem_cons.mp hw
  simp [starts, hc, starts_same (b := true) hw, Nat.add_right_comm, Nat.add_assoc]

/-- **The words are at these places.** -/
theorem starts_words (a : ℕ) (cs : List α) :
    List.Forall₂ (fun t w => a ≤ t ∧ w <+: cs.drop (t - a)) (starts p false a cs) (words p cs) := by
  induction hn : cs.length using Nat.strongRecOn generalizing a cs with
  | ind n ih =>
    obtain hall | ⟨ds, w, hds, hne, hw, rfl | ⟨d, rest, hd, rfl⟩⟩ := separators_or_word p cs
    · rw [words_of_separators hall, ← List.append_nil cs, starts_same hall]
      exact .nil
    · rw [words_append hds, words_of_no_separator hw hne, starts_same hds, ← List.append_nil w, starts_word hw hne]
      exact .cons ⟨by omega, by simp⟩ .nil
    · rw [words_append hds, words_append_cons hd, words_of_no_separator hw hne, starts_same hds, starts_word hw hne]
      have hrest := ih rest.length (by simp at hn; omega) (a + ds.length + w.length + 1) rest rfl
      have hstep : starts p true (a + ds.length + w.length) (d :: rest) =
        starts p false (a + ds.length + w.length + 1) rest := by
        rw [starts, if_pos hd]
      rw [hstep]
      refine .cons ⟨by omega, by simp⟩ (hrest.imp fun t u ht => ⟨by omega, ?_⟩)
      have hdrop : (ds ++ (w ++ d :: rest)).drop (t - a) = rest.drop (t - (a + ds.length + w.length + 1)) := by
        obtain ⟨k, rfl⟩ : ∃ k, t = a + ds.length + w.length + 1 + k := ⟨_, (Nat.add_sub_cancel' ht.1).symm⟩
        rw [show a + ds.length + w.length + 1 + k - a = ds.length + (w.length + (k + 1)) by omega,
          List.drop_length_add_append, List.drop_length_add_append, Nat.add_sub_cancel_left, List.drop_succ_cons]
      rw [hdrop]
      exact ht.2

variable (p)

/-! ### Squeezing -/

/-- The list with runs of separators made single; `prv` says whether the character before was
one. -/
def squeeze : Bool → List α → List α
  | _, [] => []
  | prv, c :: cs =>
    if p c then
      if prv then squeeze true cs else c :: squeeze true cs
    else c :: squeeze false cs

variable {p}

theorem squeeze_sublist (prv : Bool) (cs : List α) : (squeeze p prv cs).Sublist cs := by
  induction cs generalizing prv with
  | nil => exact List.Sublist.refl _
  | cons c cs ih =>
    unfold squeeze
    split_ifs
    · exact (ih true).cons c
    · exact (ih true).cons_cons c
    · exact (ih false).cons_cons c

/-- **Squeezing leaves the words as they are.** -/
theorem words_squeeze (cs : List α) : words p (squeeze p true cs) = words p cs := by
  -- After a part `u` of a word the run is inside the word, so that both flags go together.
  have h : words p (squeeze p true cs) = words p cs ∧
      ∀ u : List α, words p (u ++ squeeze p false cs) = words p (u ++ cs) := by
    induction cs with
    | nil => exact ⟨rfl, fun _ => rfl⟩
    | cons c cs ih =>
      obtain ⟨ihTrue, ihFalse⟩ := ih
      by_cases hc : p c = true
      · refine ⟨?_, fun u => ?_⟩
        · rw [words_cons hc]
          simpa [squeeze, hc] using ihTrue
        · simp only [squeeze, hc, if_true, Bool.false_eq_true, if_false]
          rw [words_append_cons hc, words_append_cons hc, ihTrue]
      · have hstep : ∀ prv, squeeze p prv (c :: cs) = c :: squeeze p false cs := fun prv => by simp [squeeze, hc]
        refine ⟨?_, fun u => ?_⟩
        · rw [hstep]
          exact ihFalse [c]
        · rw [hstep]
          simpa using ihFalse (u ++ [c])
  exact h.1

variable {cs : List α}

/-- What is squeezed does not begin with a separator. -/
theorem head_squeeze {s : List α} (h : squeeze p true cs = c :: s) : p c = false := by
  induction cs with
  | nil => cases h
  | cons d cs ih =>
    by_cases hd : p d = true
    · exact ih (by simpa [squeeze, hd] using h)
    · obtain ⟨rfl, -⟩ : d = c ∧ squeeze p false cs = s := by simpa [squeeze, hd] using h
      simpa using hd

/-! ### Joining words -/

theorem squeeze_separators (hds : ∀ c ∈ ds, p c = true) (cs : List α) :
    squeeze p true (ds ++ cs) = squeeze p true cs := by
  induction ds with
  | nil => rfl
  | cons d ds ih =>
    rw [List.cons_append, squeeze, if_pos (hds d List.mem_cons_self), if_pos rfl]
    exact ih fun c hc => hds c (List.mem_cons_of_mem d hc)

theorem squeeze_word (hw : ∀ c ∈ w, p c = false) (hne : w ≠ []) (prv : Bool) (cs : List α) :
    squeeze p prv (w ++ cs) = w ++ squeeze p false cs := by
  induction w generalizing prv with
  | nil => exact absurd rfl hne
  | cons c w ih =>
    have hc : ¬ p c = true := by simp [hw c List.mem_cons_self]
    rw [List.cons_append, squeeze, if_neg hc, List.cons_append]
    congr 1
    cases w with
    | nil => rfl
    | cons d w => exact ih (fun x hx => hw x (List.mem_cons_of_mem c hx)) (List.cons_ne_nil d w) false

/-- A list without words has separators only. -/
theorem separators_of_words_eq_nil (h : words p cs = []) : ∀ c ∈ cs, p c = true := by
  obtain hall | ⟨ds, w, hds, hne, hw, rfl | ⟨d, rest, hd, rfl⟩⟩ := separators_or_word p cs
  · exact hall
  · rw [words_append hds, words_of_no_separator hw hne] at h
    cases h
  · rw [words_append hds, words_append_cons hd, words_of_no_separator hw hne] at h
    cases h

variable (p) in
/-- There is a word, and a separator at the end. -/
def endsInSeparator (cs : List α) : Bool := !(words p cs).isEmpty && cs.getLast?.any p

/-- A separator after a word, at the end or not. -/
theorem endsInSeparator_word (hw : ∀ c ∈ w, p c = false) (hne : w ≠ []) {d : α} (hd : p d = true) (rest : List α) :
    endsInSeparator p (w ++ d :: rest) = if words p rest = [] then true else endsInSeparator p rest := by
  have hwords : words p (w ++ d :: rest) = w :: words p rest := by
    rw [words_append_cons hd, words_of_no_separator hw hne]
    rfl
  unfold endsInSeparator
  rw [hwords, List.getLast?_append_of_ne_nil _ (List.cons_ne_nil d rest)]
  by_cases hrest : words p rest = []
  · have hall : ∀ c ∈ d :: rest, p c = true := List.forall_mem_cons.mpr ⟨hd, separators_of_words_eq_nil hrest⟩
    rw [if_pos hrest, List.getLast?_eq_some_getLast (List.cons_ne_nil d rest), Option.any_some,
      hall _ (List.getLast_mem _)]
    rfl
  · have hne' : rest ≠ [] := fun hnil => hrest (by rw [hnil, words_nil])
    rw [if_neg hrest, List.getLast?_cons_of_ne_nil hne', List.isEmpty_eq_false_iff.mpr hrest]
    rfl

/-- **What is squeezed** is the words, joined by single separators, and a separator if the list has
a word and ends in a separator. -/
theorem squeeze_eq_intercalate {sep : α} (hsep : ∀ c, p c = true ↔ c = sep) (cs : List α) :
    squeeze p true cs = [sep].intercalate (words p cs) ++ if endsInSeparator p cs then [sep] else [] := by
  induction hn : cs.length using Nat.strongRecOn generalizing cs with
  | ind n ih =>
    subst hn
    obtain hall | ⟨ds, w, hds, hne, hw, rfl | ⟨d, rest, hd, rfl⟩⟩ := separators_or_word p cs
    · have hnil := squeeze_separators hall []
      rw [List.append_nil] at hnil
      rw [hnil, endsInSeparator, words_of_separators hall]
      rfl
    · have hlast : (ds ++ w).getLast?.any p = false := by
        rw [List.getLast?_append_of_ne_nil _ hne, List.getLast?_eq_some_getLast hne]
        exact hw _ (List.getLast_mem hne)
      have hword := squeeze_word hw hne true []
      rw [List.append_nil] at hword
      rw [squeeze_separators hds, endsInSeparator, hlast, words_append hds, words_of_no_separator hw hne, hword]
      simp [squeeze]
    · obtain rfl := (hsep d).mp hd
      have hrest := ih rest.length (by simp; omega) rest rfl
      have hwords : words p (ds ++ (w ++ d :: rest)) = w :: words p rest := by
        rw [words_append hds, words_append_cons hd, words_of_no_separator hw hne]
        rfl
      have hsq : squeeze p true (ds ++ (w ++ d :: rest)) = w ++ d :: squeeze p true rest := by
        rw [squeeze_separators hds, squeeze_word hw hne, squeeze, if_pos hd, if_neg Bool.false_ne_true]
      have hends : endsInSeparator p (ds ++ (w ++ d :: rest)) = endsInSeparator p (w ++ d :: rest) := by
        unfold endsInSeparator
        rw [words_append hds, List.getLast?_append_of_ne_nil _ (by simp)]
      rw [hwords, hsq, hrest, hends, endsInSeparator_word hw hne hd]
      cases hws : words p rest with
      | nil =>
        have hno : endsInSeparator p rest = false := by rw [endsInSeparator, hws]; rfl
        rw [hno]
        simp
      | cons v ws => simp [List.intercalate]

/-- **The first word** is what comes before the first separator of what is squeezed. -/
theorem takeWhile_squeeze (cs : List α) : (squeeze p true cs).takeWhile (fun c => !p c) = (words p cs).headD [] := by
  have hword : ∀ {w : List α}, (∀ c ∈ w, p c = false) → ∀ c ∈ w, (!p c) = true := fun hw c hc => by rw [hw c hc]; rfl
  obtain hall | ⟨ds, w, hds, hne, hw, rfl | ⟨d, rest, hd, rfl⟩⟩ := separators_or_word p cs
  · have hnil := squeeze_separators hall []
    rw [List.append_nil] at hnil
    rw [hnil, words_of_separators hall]
    rfl
  · have hsq := squeeze_word hw hne true []
    rw [List.append_nil] at hsq
    rw [squeeze_separators hds, hsq, words_append hds, words_of_no_separator hw hne,
      List.takeWhile_append_of_pos (hword hw),
      squeeze, List.takeWhile_nil, List.append_nil]
    rfl
  · rw [squeeze_separators hds, squeeze_word hw hne, squeeze, if_pos hd, if_neg Bool.false_ne_true, words_append hds,
      words_append_cons hd, words_of_no_separator hw hne, List.takeWhile_append_of_pos (hword hw),
      List.takeWhile_cons_of_neg (by simp [hd]), List.append_nil]
    rfl

/-- The start of a list is its first word exactly if no separator is before the word. -/
theorem take_eq_headWord_iff (h : words p cs ≠ []) :
    cs.take ((words p cs).headD []).length = (words p cs).headD [] ↔ ∀ c ∈ cs.head?, p c = false := by
  -- without separators before it the word is at the start; with one the start has a separator and the word has none
  have hstart : ∀ {ds w : List α} (r : List α), (∀ c ∈ ds, p c = true) → w ≠ [] → (∀ c ∈ w, p c = false) →
      ((ds ++ (w ++ r)).take w.length = w ↔ ∀ c ∈ (ds ++ (w ++ r)).head?, p c = false) := by
    intro ds w r hds hne hw
    obtain ⟨c, w, rfl⟩ := List.exists_cons_of_ne_nil hne
    cases ds with
    | nil =>
      refine iff_of_true (List.take_left ..) fun d hd => ?_
      rw [← Option.some.inj hd]
      exact hw c List.mem_cons_self
    | cons d ds =>
      have hd := hds d List.mem_cons_self
      refine iff_of_false (fun htake => ?_) fun hall => ?_
      · rw [(List.cons.inj htake).1, hw c List.mem_cons_self] at hd
        cases hd
      · rw [hall d rfl] at hd
        cases hd
  obtain hall | ⟨ds, w, hds, hne, hw, rfl | ⟨d, rest, hd, rfl⟩⟩ := separators_or_word p cs
  · exact absurd (words_of_separators hall) h
  · have hfirst := hstart [] hds hne hw
    rw [List.append_nil] at hfirst
    rw [words_append hds, words_of_no_separator hw hne]
    exact hfirst
  · rw [words_append hds, words_append_cons hd, words_of_no_separator hw hne]
    exact hstart (d :: rest) hds hne hw

/-! ### Counting -/

variable (p)

/-- The number of places where a word follows a separator. -/
def wordStarts : List α → ℕ
  | c :: d :: cs => (if p c = true ∧ p d = false then 1 else 0) + wordStarts (d :: cs)
  | _ => 0

variable {p}

theorem wordStarts_le (c : α) (cs : List α) : wordStarts p (c :: cs) ≤ cs.length := by
  induction cs generalizing c with
  | nil => exact Nat.le_refl _
  | cons d cs ih =>
    have := ih d
    rw [wordStarts, List.length_cons]
    split <;> omega

/-- A word that gets longer stays one word. -/
theorem length_words_cons_cons {d : α} (hc : p c = false) (hd : p d = false) (cs : List α) :
    (words p (c :: d :: cs)).length = (words p (d :: cs)).length := by
  unfold words
  rw [List.splitOnP_cons_eq_if_modifyHead, List.splitOnP_cons_eq_if_modifyHead]
  simp only [hc, hd, Bool.false_eq_true, if_false]
  cases hs : cs.splitOnP p with
  | nil => exact absurd hs (List.splitOnP_ne_nil p cs)
  | cons w ws => simp

/-- **The number of words** of a list that begins with a word. -/
theorem length_words (hc : p c = false) (cs : List α) : (words p (c :: cs)).length = 1 + wordStarts p (c :: cs) := by
  -- For lists that begin with a separator the first word is counted where it starts.
  have h : ∀ s : List α, (words p s).length = (s.head?.elim 0 fun c => if p c then 0 else 1) + wordStarts p s := by
    intro s
    induction s with
    | nil => rfl
    | cons c s ih =>
      cases s with
      | nil =>
        by_cases hc : p c = true
        · simp [words_cons hc, hc, wordStarts]
        · rw [words_of_no_separator (by simpa using hc) (by simp)]
          simp [hc, wordStarts]
      | cons d s =>
        by_cases hc : p c = true
        · rw [words_cons hc, ih]
          by_cases hd : p d = true <;> simp [hc, hd, wordStarts]
        · by_cases hd : p d = true
          · have hsplit := words_append_cons hd [c] s
            rw [List.singleton_append] at hsplit
            rw [hsplit, List.length_append, words_of_no_separator (by simpa using hc) (by simp), ← words_cons hd, ih]
            simp [hc, hd, wordStarts]
          · rw [length_words_cons_cons (by simpa using hc) (by simpa using hd), ih]
            simp [hc, hd, wordStarts]
  rw [h]
  simp [hc]

end Pintos
