import Mathlib

/-!
# The least free number

The law of a lowest-first allocator of numbered resources (descriptors, slots,
identifiers): given which numbers are in use, allocation from a lower bound
returns the least number from that bound on that is not in use.  `FullFrom`
says a whole interval is in use; `IsLeastFree` is the allocation law.  The
lemmas are the ones an implementation with a cached search start and a
segmented store needs: the law is unique, it extends downward over a full
interval, and it only depends on the in-use predicate above the bound.
-/

namespace LeastFree

/-- Every number of `[lo, hi)` is in use. -/
def FullFrom (used : Nat → Prop) (lo hi : Nat) : Prop :=
  ∀ g, lo ≤ g → g < hi → used g

/-- `r` is the least number from `lo` on that is not in use. -/
def IsLeastFree (used : Nat → Prop) (lo r : Nat) : Prop :=
  lo ≤ r ∧ ¬used r ∧ FullFrom used lo r

variable {used used' : Nat → Prop} {lo mid hi hi' r r' : Nat}

theorem fullFrom_empty (used : Nat → Prop) (lo : Nat) : FullFrom used lo lo :=
  fun _ below above => absurd above (Nat.not_lt.mpr below)

theorem FullFrom.trans (lower : FullFrom used lo mid) (upper : FullFrom used mid hi) :
    FullFrom used lo hi := by
  intro g below above
  by_cases low : g < mid
  · exact lower g below low
  · exact upper g (Nat.not_lt.mp low) above

/-- A number in use followed by a full interval. -/
theorem FullFrom.cons (first : used lo) (rest : FullFrom used (lo + 1) hi) :
    FullFrom used lo hi := by
  intro g below above
  by_cases same : g = lo
  · exact same ▸ first
  · exact rest g (by omega) above

theorem FullFrom.mono (full : FullFrom used lo hi) (le : hi' ≤ hi) : FullFrom used lo hi' :=
  fun g below above => full g below (Nat.lt_of_lt_of_le above le)

theorem FullFrom.imp (full : FullFrom used lo hi) (weaker : ∀ g, used g → used' g) :
    FullFrom used' lo hi :=
  fun g below above => weaker g (full g below above)

theorem isLeastFree_self (free : ¬used lo) : IsLeastFree used lo lo :=
  ⟨le_rfl, free, fullFrom_empty used lo⟩

/-- The least free number is unique. -/
theorem IsLeastFree.unique (least : IsLeastFree used lo r) (least' : IsLeastFree used lo r') :
    r = r' := by
  obtain ⟨below, free, full⟩ := least
  obtain ⟨below', free', full'⟩ := least'
  by_contra distinct
  rcases Nat.lt_or_gt_of_ne distinct with lt | gt
  · exact free (full' r below lt)
  · exact free' (full r' below' gt)

/-- A search that starts higher, above a full interval, finds the same number. -/
theorem IsLeastFree.of_fullFrom (lower : FullFrom used lo mid) (le : lo ≤ mid)
    (least : IsLeastFree used mid r) : IsLeastFree used lo r :=
  ⟨le.trans least.1, least.2.1, lower.trans least.2.2⟩

/-- Only the numbers from the bound on matter. -/
theorem fullFrom_congr (same : ∀ g, lo ≤ g → (used g ↔ used' g)) :
    FullFrom used lo hi ↔ FullFrom used' lo hi := by
  constructor
  · intro full g below above
    exact (same g below).mp (full g below above)
  · intro full g below above
    exact (same g below).mpr (full g below above)

theorem isLeastFree_congr (same : ∀ g, lo ≤ g → (used g ↔ used' g)) :
    IsLeastFree used lo r ↔ IsLeastFree used' lo r := by
  unfold IsLeastFree
  constructor
  · rintro ⟨below, free, full⟩
    exact ⟨below, fun h => free ((same r below).mpr h), (fullFrom_congr same).mp full⟩
  · rintro ⟨below, free, full⟩
    exact ⟨below, fun h => free ((same r below).mp h), (fullFrom_congr same).mpr full⟩

end LeastFree
