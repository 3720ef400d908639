import Mathlib

/-!
# Binary heaps laid out in a list

Position `j > 0` of an implicit binary tree has its parent at `(j - 1) / 2`, so the
children of `pos` are `2 * pos + 1` and `2 * pos + 2`.  A list is a heap on a key when no
element is greater than its parent; the first element is then a greatest one.

Sifting moves one misplaced element along a path of swaps.  While it rises, the list is a
heap except that this element may be greater than its parent (`RisingAt`); while it sinks,
except that it may be less than its children (`SinkingAt`).  In both, the children of the
hole are no greater than its parent (`Bridged`): that is what lets the element at the hole
trade places with either without breaking the rest.  Each lemma below is one step of a
sifting loop, one of its exits, or one of the ways a loop is entered.
-/

namespace ListHeap

variable {α K : Type} [LinearOrder K] (key : α → K)

/-- The element at `j` is no greater than its parent's. -/
def UnderParent (l : List α) (j : Nat) : Prop :=
  0 < j → ∀ x y, l[j]? = some x → l[(j - 1) / 2]? = some y → key x ≤ key y

/-- No element is greater than its parent's. -/
def Heap (l : List α) : Prop := ∀ j, UnderParent key l j

/-- The children of `pos` are no greater than the parent of `pos`. -/
def Bridged (l : List α) (pos : Nat) : Prop :=
  0 < pos → ∀ c x y, (c - 1) / 2 = pos → l[c]? = some x → l[(pos - 1) / 2]? = some y →
    key x ≤ key y

/-- A heap except that the element at `pos` may be greater than its parent's. -/
structure RisingAt (l : List α) (pos : Nat) : Prop where
  others : ∀ j, j ≠ pos → UnderParent key l j
  bridged : Bridged key l pos

/-- A heap except that the element at `pos` may be less than its children's. -/
structure SinkingAt (l : List α) (pos : Nat) : Prop where
  others : ∀ j, (j - 1) / 2 ≠ pos → UnderParent key l j
  bridged : Bridged key l pos

variable {key} {l : List α} {pos : Nat}

/-! ## Swaps -/

theorem getElem?_swap_left {i j : Nat} (hi : i < l.length) (hj : j < l.length) :
    (l.swap i j)[i]? = l[j]? := by
  grind

theorem getElem?_swap_right {i j : Nat} (hi : i < l.length) (hj : j < l.length) :
    (l.swap i j)[j]? = l[i]? := by
  grind

theorem getElem?_swap_of_ne {i j k : Nat} (hik : k ≠ i) (hjk : k ≠ j) :
    (l.swap i j)[k]? = l[k]? := by
  grind

/-! ## The root -/

/-- Every element of a heap is no greater than its first. -/
theorem Heap.le_of_getElem? (heap : Heap key l) {t : α} (top : l[0]? = some t) :
    ∀ (j : Nat) x, l[j]? = some x → key x ≤ key t := by
  intro j
  -- strong induction along the path to the root
  induction j using Nat.strong_induction_on with
  | _ j ih =>
    intro x at_j
    rcases Nat.eq_zero_or_pos j with rfl | positive
    · rw [top] at at_j
      cases at_j
      exact le_rfl
    · have parentLt : (j - 1) / 2 < l.length := by
        have := (List.getElem?_eq_some_iff.mp at_j).1
        omega
      have atParent := List.getElem?_eq_getElem parentLt
      exact (heap j positive x _ at_j atParent).trans (ih _ (by omega) _ atParent)

/-- The first element of a heap is a greatest one. -/
theorem Heap.le_head (heap : Heap key l) {t x : α} (top : l[0]? = some t) (mem : x ∈ l) :
    key x ≤ key t := by
  obtain ⟨j, lt, rfl⟩ := List.mem_iff_getElem.mp mem
  exact Heap.le_of_getElem? heap top j _ (List.getElem?_eq_getElem lt)

/-! ## Rising -/

/-- One step of sifting up: an element greater than its parent's trades places with it. -/
theorem RisingAt.swap (rising : RisingAt key l pos) (positive : 0 < pos) (lt : pos < l.length)
    (greater : key l[(pos - 1) / 2] < key l[pos]) :
    RisingAt key (l.swap pos ((pos - 1) / 2)) ((pos - 1) / 2) := by
  have parentLt : (pos - 1) / 2 < l.length := by omega
  have atPos : (l.swap pos ((pos - 1) / 2))[pos]? = some l[(pos - 1) / 2] := by
    rw [getElem?_swap_left lt parentLt, List.getElem?_eq_getElem parentLt]
  have atParent : (l.swap pos ((pos - 1) / 2))[(pos - 1) / 2]? = some l[pos] := by
    rw [getElem?_swap_right lt parentLt, List.getElem?_eq_getElem lt]
  constructor
  · intro j notParent jPositive x y at_j atUp
    by_cases isPos : j = pos
    · -- the element that came down sits under the one that went up
      subst isPos
      rw [atPos] at at_j
      rw [atParent] at atUp
      cases at_j
      cases atUp
      exact greater.le
    · rw [getElem?_swap_of_ne isPos notParent] at at_j
      by_cases upPos : (j - 1) / 2 = pos
      · rw [upPos, atPos] at atUp
        cases atUp
        exact rising.bridged positive j x _ upPos at_j (List.getElem?_eq_getElem parentLt)
      · by_cases upParent : (j - 1) / 2 = (pos - 1) / 2
        · -- a sibling of the rising element: under the old parent, so under the new one
          rw [upParent, atParent] at atUp
          cases atUp
          have under := rising.others j isPos jPositive x _ at_j
            (by rw [upParent]; exact List.getElem?_eq_getElem parentLt)
          exact under.trans greater.le
        · rw [getElem?_swap_of_ne upPos upParent] at atUp
          exact rising.others j isPos jPositive x y at_j atUp
  · intro parentPositive c x y childOf at_c atUp
    rw [getElem?_swap_of_ne (by omega) (by omega)] at atUp
    have parentUnder := rising.others _ (by omega) parentPositive _ y
      (List.getElem?_eq_getElem parentLt) atUp
    by_cases isPos : c = pos
    · subst isPos
      rw [atPos] at at_c
      cases at_c
      exact parentUnder
    · rw [getElem?_swap_of_ne isPos (by omega)] at at_c
      have under := rising.others c isPos (by omega) x _ at_c
        (by rw [childOf]; exact List.getElem?_eq_getElem parentLt)
      exact under.trans parentUnder

/-- Sifting up stops at a heap: the rising element is at the root or under its parent. -/
theorem RisingAt.heap (rising : RisingAt key l pos) (lt : pos < l.length)
    (settled : 0 < pos → key l[pos] ≤ key l[(pos - 1) / 2]) : Heap key l := by
  intro j jPositive x y at_j atUp
  by_cases isPos : j = pos
  · subst isPos
    rw [List.getElem?_eq_getElem lt] at at_j
    rw [List.getElem?_eq_getElem (by omega)] at atUp
    cases at_j
    cases atUp
    exact settled jPositive
  · exact rising.others j isPos jPositive x y at_j atUp

/-! ## Sinking -/

/-- One step of sifting down: an element less than its greatest child trades places with
it. -/
theorem SinkingAt.swap (sinking : SinkingAt key l pos) {c : Nat} (childOf : (c - 1) / 2 = pos)
    (cPositive : 0 < c) (lt : c < l.length) (greater : key l[pos] < key l[c])
    (greatest : ∀ c' x, (c' - 1) / 2 = pos → 0 < c' → l[c']? = some x → key x ≤ key l[c]) :
    SinkingAt key (l.swap pos c) c := by
  have posLt : pos < l.length := by omega
  have atPos : (l.swap pos c)[pos]? = some l[c] := by
    rw [getElem?_swap_left posLt lt, List.getElem?_eq_getElem lt]
  have atChild : (l.swap pos c)[c]? = some l[pos] := by
    rw [getElem?_swap_right posLt lt, List.getElem?_eq_getElem posLt]
  constructor
  · intro j notBelow jPositive x y at_j atUp
    by_cases isChild : j = c
    · subst isChild
      rw [atChild] at at_j
      rw [childOf, atPos] at atUp
      cases at_j
      cases atUp
      exact greater.le
    by_cases isPos : j = pos
    · -- the child that came up sits under the old parent of `pos`
      subst isPos
      rw [atPos] at at_j
      rw [getElem?_swap_of_ne (by omega) (by omega)] at atUp
      cases at_j
      exact sinking.bridged jPositive c _ y childOf (List.getElem?_eq_getElem lt) atUp
    rw [getElem?_swap_of_ne isPos isChild] at at_j
    by_cases upPos : (j - 1) / 2 = pos
    · -- a sibling of the child that came up
      rw [upPos, atPos] at atUp
      cases atUp
      exact greatest j x upPos jPositive at_j
    · rw [getElem?_swap_of_ne upPos notBelow] at atUp
      exact sinking.others j upPos jPositive x y at_j atUp
  · intro _ c' x y childOf' at_c' atUp
    rw [childOf, atPos] at atUp
    rw [getElem?_swap_of_ne (by omega) (by omega)] at at_c'
    cases atUp
    exact sinking.others c' (by omega) (by omega) x _ at_c'
      (by rw [childOf']; exact List.getElem?_eq_getElem lt)

/-- Sifting down stops at a heap: no child of the sinking element is greater than it. -/
theorem SinkingAt.heap (sinking : SinkingAt key l pos) (lt : pos < l.length)
    (settled : ∀ c x, (c - 1) / 2 = pos → 0 < c → l[c]? = some x → key x ≤ key l[pos]) :
    Heap key l := by
  intro j jPositive x y at_j atUp
  by_cases upPos : (j - 1) / 2 = pos
  · rw [upPos, List.getElem?_eq_getElem lt] at atUp
    cases atUp
    exact settled j x upPos jPositive at_j
  · exact sinking.others j upPos jPositive x y at_j atUp

/-- The children of `pos` are the two positions after `2 * pos`. -/
theorem child_cases {c : Nat} (childOf : (c - 1) / 2 = pos) (cPositive : 0 < c) :
    c = 2 * pos + 1 ∨ c = 2 * pos + 2 := by
  omega

/-! ## Entering the loops -/

/-- A heap with an element put after its end rises from there. -/
theorem Heap.risingAt_append (heap : Heap key l) (v : α) : RisingAt key (l ++ [v]) l.length := by
  have inside : ∀ j x, j ≠ l.length → (l ++ [v])[j]? = some x → l[j]? = some x := by
    intro j x notLast at_j
    have lt := (List.getElem?_eq_some_iff.mp at_j).1
    rw [List.length_append, List.length_singleton] at lt
    rwa [List.getElem?_append_left (by omega)] at at_j
  constructor
  · intro j notLast jPositive x y at_j atUp
    exact heap j jPositive x y (inside j x notLast at_j) (inside _ y (by grind) atUp)
  · intro _ c x y childOf at_c
    have lt := (List.getElem?_eq_some_iff.mp at_c).1
    simp only [List.length_append, List.length_singleton] at lt
    omega

/-- Dropping the last element keeps a heap. -/
theorem Heap.dropLast (heap : Heap key l) : Heap key l.dropLast := by
  intro j jPositive x y at_j atUp
  rw [List.getElem?_dropLast] at at_j atUp
  split at at_j <;> split at atUp
  · exact heap j jPositive x y at_j atUp
  all_goals simp_all

/-- A heap with its element at `idx` replaced by one no greater than the parent of `idx`
sinks from `idx`. -/
theorem Heap.sinkingAt_set (heap : Heap key l) {idx : Nat} (lt : idx < l.length) {v : α}
    (settled : ∀ y, 0 < idx → l[(idx - 1) / 2]? = some y → key v ≤ key y) :
    SinkingAt key (l.set idx v) idx := by
  have atIdx := List.getElem?_eq_getElem lt
  constructor
  · intro j notBelow jPositive x y at_j atUp
    rw [List.getElem?_set_ne (Ne.symm notBelow)] at atUp
    by_cases isIdx : j = idx
    · subst isIdx
      rw [List.getElem?_set_self lt] at at_j
      cases at_j
      exact settled y jPositive atUp
    · rw [List.getElem?_set_ne (Ne.symm isIdx)] at at_j
      exact heap j jPositive x y at_j atUp
  · intro idxPositive c x y childOf at_c atUp
    rw [List.getElem?_set_ne (by omega)] at at_c atUp
    have under := heap c (by omega) x _ at_c (by rw [childOf]; exact atIdx)
    exact under.trans (heap idx idxPositive _ y atIdx atUp)

/-- A heap with its element at `idx` replaced by one greater than the parent of `idx`
rises from `idx`. -/
theorem Heap.risingAt_set (heap : Heap key l) {idx : Nat} (lt : idx < l.length) {v : α}
    (positive : 0 < idx) (greater : key l[(idx - 1) / 2] < key v) :
    RisingAt key (l.set idx v) idx := by
  have atIdx := List.getElem?_eq_getElem lt
  have atParent := List.getElem?_eq_getElem (show (idx - 1) / 2 < l.length by omega)
  have idxUnder := heap idx positive _ _ atIdx atParent
  constructor
  · intro j notIdx jPositive x y at_j atUp
    rw [List.getElem?_set_ne (Ne.symm notIdx)] at at_j
    by_cases upIdx : (j - 1) / 2 = idx
    · -- a child of `idx`: under the old element, so under the new, greater one
      rw [upIdx, List.getElem?_set_self lt] at atUp
      cases atUp
      have under := heap j jPositive x _ at_j (by rw [upIdx]; exact atIdx)
      exact (under.trans idxUnder).trans greater.le
    · rw [List.getElem?_set_ne (Ne.symm upIdx)] at atUp
      exact heap j jPositive x y at_j atUp
  · intro _ c x y childOf at_c atUp
    rw [List.getElem?_set_ne (by omega)] at at_c atUp
    rw [atParent] at atUp
    cases atUp
    exact (heap c (by omega) x _ at_c (by rw [childOf]; exact atIdx)).trans idxUnder

end ListHeap
