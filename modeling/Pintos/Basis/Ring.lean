import Mathlib.Data.List.Range

/-!
# Circular buffers

An array of `n` slots with two indices: elements are written at `head` and read at `tail`, and both
go around. The elements in the buffer are those from `tail` up to `head` (`contents`). One slot
stays unused, so that a full buffer is not an empty one: it is empty if the indices are equal, and
full if the one after `head` is `tail`.
-/

namespace Pintos.Ring

variable {α : Type} {n head tail : ℕ}

/-- The slot after a slot. -/
def next (n pos : ℕ) : ℕ := (pos + 1) % n

/-- The number of elements. -/
def count (n head tail : ℕ) : ℕ := (head + n - tail) % n

/-- The elements, oldest first. -/
def contents (n : ℕ) (buf : ℕ → α) (head tail : ℕ) : List α :=
  (List.range (count n head tail)).map fun i => buf ((tail + i) % n)

theorem next_lt (hpos : head < n) : next n head < n := Nat.mod_lt _ (by omega)

theorem next_eq (hpos : head < n) : next n head = if head + 1 = n then 0 else head + 1 := by
  unfold next
  split
  · rename_i heq
    rw [heq, Nat.mod_self]
  · exact Nat.mod_eq_of_lt (by omega)

theorem count_eq (hhead : head < n) (htail : tail < n) :
    count n head tail = if tail ≤ head then head - tail else head + n - tail := by
  unfold count
  split
  · rw [show head + n - tail = head - tail + n by omega, Nat.add_mod_right]
    exact Nat.mod_eq_of_lt (by omega)
  · exact Nat.mod_eq_of_lt (by omega)

theorem slot_eq {i : ℕ} (htail : tail < n) (hi : i ≤ n) :
    (tail + i) % n = if tail + i < n then tail + i else tail + i - n := by
  split
  · exact Nat.mod_eq_of_lt ‹_›
  · rw [Nat.mod_eq_sub_mod (by omega)]
    exact Nat.mod_eq_of_lt (by omega)

theorem length_contents (buf : ℕ → α) : (contents n buf head tail).length = count n head tail := by simp [contents]

/-- The buffer is empty if the indices are equal. -/
theorem contents_eq_nil_iff (buf : ℕ → α) (hhead : head < n) (htail : tail < n) :
    contents n buf head tail = [] ↔ head = tail := by
  rw [← List.length_eq_zero_iff, length_contents, count_eq hhead htail]
  split <;> omega

/-- The buffer is full if all slots but one are in use. -/
theorem next_eq_iff (hhead : head < n) (htail : tail < n) : next n head = tail ↔ count n head tail = n - 1 := by
  rw [next_eq hhead, count_eq hhead htail]
  split <;> split <;> omega

/-- After an element was taken the buffer is not full. -/
theorem next_ne_next (hhead : head < n) (htail : tail < n) (hne : head ≠ tail) : next n head ≠ next n tail := by
  rw [next_eq hhead, next_eq htail]
  split <;> split <;> omega

/-- After an element was put the buffer is not empty. -/
theorem contents_push (buf : ℕ → α) (b : α) (hhead : head < n) (htail : tail < n) (hfull : next n head ≠ tail) :
    contents n (Function.update buf head b) (next n head) tail = contents n buf head tail ++ [b] := by
  have hcount := count_eq hhead htail
  have hcount' := count_eq (next_lt hhead) htail
  have hnext := next_eq hhead
  have hsucc : count n (next n head) tail = count n head tail + 1 := by
    rw [hnext] at hfull
    rw [hcount', hcount, hnext]
    split at hfull <;> split <;> split <;> split <;> omega
  unfold contents
  rw [hsucc, List.range_succ, List.map_append, List.map_singleton]
  congr 1
  · refine List.map_congr_left fun i hi => Function.update_of_ne ?_ ..
    have hlt := List.mem_range.mp hi
    rw [hcount] at hlt
    rw [slot_eq htail (by split at hlt <;> omega)]
    split at hlt <;> split <;> omega
  · have hslot : (tail + count n head tail) % n = head := by
      rw [slot_eq htail (by rw [hcount]; split <;> omega), hcount]
      split <;> split <;> omega
    rw [hslot, Function.update_self]

theorem contents_pop (buf : ℕ → α) (hhead : head < n) (htail : tail < n) (hne : head ≠ tail) :
    contents n buf head tail = buf tail :: contents n buf head (next n tail) := by
  have hcount := count_eq hhead htail
  have hcount' := count_eq hhead (next_lt htail)
  have hnext := next_eq htail
  have hsucc : count n head tail = count n head (next n tail) + 1 := by
    rw [hcount, hcount', hnext]
    split <;> split <;> split <;> omega
  unfold contents
  rw [hsucc, List.range_succ_eq_map, List.map_cons, List.map_map, Nat.add_zero, Nat.mod_eq_of_lt htail]
  congr 1
  refine List.map_congr_left fun i _ => ?_
  show buf ((tail + (i + 1)) % n) = buf ((next n tail + i) % n)
  congr 1
  unfold next
  rw [Nat.mod_add_mod]
  congr 1
  omega

end Pintos.Ring
