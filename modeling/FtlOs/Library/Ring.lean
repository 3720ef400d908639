import Mathlib

/-!
# Windows of a ring buffer

A ring of `n` cells holds a queue in the cells from `start` on, wrapping past
the last cell to the first: the window of length `len` from `start`.  Taking
items off the front moves `start`; appending writes the cells just after the
window.  The lemmas below say how the window's contents change under both, for
any cell type and any ring size.
-/

namespace Ring

variable {α : Type*}

/-- The `len` cells of a ring of `n` cells from `start` on, in order. -/
def window (cell : Nat → α) (n start len : Nat) : List α :=
  (List.range len).map fun j => cell ((start + j) % n)

variable {cell cell' : Nat → α} {n start len : Nat}

@[simp] theorem length_window : (window cell n start len).length = len := by
  simp [window]

theorem window_add (a b : Nat) :
    window cell n start (a + b) = window cell n start a ++ window cell n (start + a) b := by
  simp [window, List.range_add, Nat.add_assoc]

theorem window_mod : window cell n (start % n) len = window cell n start len := by
  simp [window, Nat.mod_add_mod]

/-- The window depends only on the cells it spans. -/
theorem window_congr (same : ∀ j < len, cell ((start + j) % n) = cell' ((start + j) % n)) :
    window cell n start len = window cell' n start len := by
  simp only [window]
  exact List.map_congr_left fun j member => same j (List.mem_range.mp member)

theorem take_window {k : Nat} (le : k ≤ len) :
    (window cell n start len).take k = window cell n start k := by
  obtain ⟨extra, rfl⟩ := Nat.exists_eq_add_of_le le
  rw [window_add, List.take_left' length_window]

theorem drop_window {k : Nat} (le : k ≤ len) :
    (window cell n start len).drop k = window cell n (start + k) (len - k) := by
  obtain ⟨extra, rfl⟩ := Nat.exists_eq_add_of_le le
  rw [window_add, List.drop_left' length_window, Nat.add_sub_cancel_left]

/-- Below two revolutions, the remainder is the number itself or one revolution
less. -/
theorem mod_of_lt_double {a : Nat} (lt : a < n + n) : a % n = if a < n then a else a - n := by
  split
  · exact Nat.mod_eq_of_lt ‹_›
  · rw [Nat.mod_eq_sub_mod (not_lt.mp ‹_›), Nat.mod_eq_of_lt (by omega)]

/-- Writing `m` cells right after the window, without wrapping and without
reaching round to the window's start, appends them to the window. -/
theorem window_write {m pos : Nat} {data : Nat → α} (positive : 0 < n) (room : len + m ≤ n)
    (at_end : pos = (start + len) % n) (fits : pos + m ≤ n)
    (written : ∀ q, cell' q = if pos ≤ q ∧ q < pos + m then data (q - pos) else cell q) :
    window cell' n start (len + m) = window cell n start len ++ (List.range m).map data := by
  have startBelow := Nat.mod_lt start positive
  rw [window_add]
  congr 1
  · -- the window's cells lie outside the written ones
    refine window_congr fun j below => ?_
    rw [written, if_neg]
    have endAt := mod_of_lt_double (n := n) (a := start % n + len) (by omega)
    have cellAt := mod_of_lt_double (n := n) (a := start % n + j) (by omega)
    rw [Nat.mod_add_mod] at endAt cellAt
    rw [at_end, endAt, cellAt]
    split_ifs <;> omega
  · -- the cell `j` after the window is the written cell `pos + j`
    simp only [window]
    refine List.map_congr_left fun j member => ?_
    have below := List.mem_range.mp member
    have cellAt : (start + len + j) % n = pos + j := by
      rw [← Nat.mod_add_mod, ← at_end, Nat.mod_eq_of_lt (by omega)]
    rw [cellAt, written, if_pos ⟨Nat.le_add_right _ _, by omega⟩, Nat.add_sub_cancel_left]

end Ring
