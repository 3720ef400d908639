import FtlOs.Kernel.Process.Fd
import FtlOs.Library.LeastFree

/-!
# Specification of `FastMap`

What each `FastMap` operation does to the lookup `get`, and that
`find_space` returns the least free descriptor from its argument, unless the
scan of the map runs past `usize::MAX` and wraps to `0`.  The table-level
proofs cite these lemmas and never unfold a `FastMap` operation.
-/

namespace FtlOs
namespace FastMap

open LeastFree

variable {F : Type} {σ : Type} {m m' : FastMap F} {k g : Nat} {v : FdNode F}

/-! ## Lookups after each operation -/

theorem get_of_lt (low : k < RESERVE) : m.get k = m.reserve[k] := dif_pos low

theorem get_of_not_lt (high : ¬k < RESERVE) : m.get k = m.map.get? k := dif_neg high

@[simp] theorem get_new : (new : FastMap F).get k = none := by
  unfold get new
  split <;> simp

/-- A write at `k` leaves the array alone when `k` is a map key, and the map
alone when `k` is an array slot; this lemma is that frame, for the array side. -/
theorem get_set_reserve (low : k < RESERVE) (x : Option (FdNode F)) {len : Nat} :
    ({ m with reserve := m.reserve.set k x, reserveLen := len } : FastMap F).get g =
      if g = k then x else m.get g := by
  unfold get
  by_cases lowG : g < RESERVE
  · simp only [dif_pos lowG, Vector.getElem_set]
    by_cases same : g = k
    · simp [same]
    · simp [same, Ne.symm same]
  · have distinct : g ≠ k := by omega
    simp [lowG, distinct]

theorem get_set_map (high : ¬k < RESERVE) (map : OrdMap Nat (FdNode F))
    (frame : ∀ x, x ≠ k → map.get? x = m.map.get? x) :
    ({ m with map := map } : FastMap F).get g = if g = k then map.get? k else m.get g := by
  unfold get
  by_cases lowG : g < RESERVE
  · have distinct : g ≠ k := by omega
    simp [lowG, distinct]
  · by_cases same : g = k
    · simp [same, high]
    · simp [lowG, same, frame g same]

theorem get_modify {f : FdNode F → FdNode F} :
    (m.modify k f).get g = if g = k then (m.get k).map f else m.get g := by
  unfold modify
  by_cases low : k < RESERVE
  · rw [dif_pos low, get_set_reserve low, get_of_lt low]
  · rw [dif_neg low, get_set_map low _ fun x other => by simp [OrdMap.get?_modify, other],
      get_of_not_lt low, OrdMap.get?_modify, if_pos rfl]

theorem get_remove : (m.remove k).1.get g = if g = k then none else m.get g := by
  unfold remove
  by_cases low : k < RESERVE
  · rw [dif_pos low]
    exact get_set_reserve low none
  · rw [dif_neg low]
    rcases removed : m.map.remove k with _ | ⟨w, map⟩
    · have absent : m.map.get? k = none := by simpa [OrdMap.remove] using removed
      by_cases same : g = k
      · rw [if_pos same, same, get_of_not_lt low, absent]
      · rw [if_neg same]
    · obtain ⟨-, rfl⟩ := OrdMap.remove_eq_some_iff.mp removed
      dsimp only
      rw [get_set_map low _ fun x other => by simp [OrdMap.get?_erase, other]]
      simp [OrdMap.get?_erase]

theorem get_insert : (m.insert k v).1.get g = if g = k then some v else m.get g := by
  unfold insert
  by_cases low : k < RESERVE
  · rw [dif_pos low]
    exact get_set_reserve low (some v)
  · rw [dif_neg low]
    rw [get_set_map low _ fun x other => by simp [OrdMap.get?_insert, other]]
    simp [OrdMap.get?_insert]

theorem tryInsert_eq_none_iff : m.tryInsert k v = none ↔ (m.get k).isSome := by
  unfold tryInsert get
  by_cases low : k < RESERVE
  · simp only [dif_pos low]
    rcases slot : m.reserve[k] with _ | node <;> simp
  · simp only [dif_neg low, Option.map_eq_none_iff, OrdMap.tryInsert_eq_none_iff,
      Option.isSome_iff_exists, OrdMap.get?_eq_some_iff]

theorem get_of_tryInsert (inserted : m.tryInsert k v = some m') :
    m'.get g = if g = k then some v else m.get g := by
  unfold tryInsert at inserted
  by_cases low : k < RESERVE
  · rw [dif_pos low] at inserted
    split at inserted
    · cases inserted
      exact get_set_reserve low (some v)
    · cases inserted
  · rw [dif_neg low] at inserted
    obtain ⟨map, found, rfl⟩ := Option.map_eq_some_iff.mp inserted
    obtain ⟨-, rfl⟩ := OrdMap.tryInsert_eq_some_iff.mp found
    rw [get_set_map low _ fun x other => by simp [OrdMap.get?_insert, other]]
    simp [OrdMap.get?_insert]

/-! ## Retain with a verdict that ignores the closure's state -/

section Retain

variable {f : σ → Nat → FdNode F → σ × Bool} {keep : Nat → FdNode F → Bool}

/-- One array slot of `retain`: the slot's node survives when the verdict keeps it,
and nothing else changes. -/
theorem retainSlot_get (verdict : ∀ s k v, (f s k v).2 = keep k v) (acc : FastMap F × σ)
    (fd : Fin RESERVE) :
    (retainSlot f acc fd).1.get g =
      if g = fd then (acc.1.get g).filter (keep g) else acc.1.get g := by
  unfold retainSlot
  split
  · rename_i empty
    simp only [Fin.getElem_fin] at empty
    split_ifs with same
    · subst same
      rw [get_of_lt fd.isLt, empty, Option.filter_none]
    · rfl
  · rename_i w occupied
    simp only [Fin.getElem_fin] at occupied
    dsimp only
    split
    · rename_i kept
      split_ifs with same
      · subst same
        rw [verdict] at kept
        rw [get_of_lt fd.isLt, occupied, Option.filter_some, if_pos kept]
      · rfl
    · rename_i dropped
      rw [get_set_reserve fd.isLt]
      split_ifs with same
      · subst same
        rw [verdict] at dropped
        rw [get_of_lt fd.isLt, occupied, Option.filter_some, if_neg dropped]
      · rfl

theorem retainSlot_map (acc : FastMap F × σ) (fd : Fin RESERVE) :
    (retainSlot f acc fd).1.map = acc.1.map := by
  unfold retainSlot
  split
  · rfl
  · dsimp only
    split <;> rfl

/-- The array loop of `retain` over any list of slots: a slot on the list is
filtered by the verdict, since filtering twice is filtering once. -/
theorem foldl_retainSlot_get (verdict : ∀ s k v, (f s k v).2 = keep k v) :
    (slots : List (Fin RESERVE)) → (acc : FastMap F × σ) →
      (slots.foldl (retainSlot f) acc).1.get g =
        if ∃ fd ∈ slots, g = fd then (acc.1.get g).filter (keep g) else acc.1.get g
  | [], acc => by simp
  | fd :: rest, acc => by
      rw [List.foldl_cons, foldl_retainSlot_get verdict rest, retainSlot_get verdict]
      by_cases same : g = fd
      · simp [same, Option.filter_filter]
      · simp [same]

theorem foldl_retainSlot_map :
    (slots : List (Fin RESERVE)) → (acc : FastMap F × σ) →
      (slots.foldl (retainSlot f) acc).1.map = acc.1.map
  | [], _ => rfl
  | fd :: rest, acc => by
      rw [List.foldl_cons, foldl_retainSlot_map rest, retainSlot_map]

/-- `retain` keeps exactly the nodes the verdict accepts. -/
theorem get_retain (verdict : ∀ s k v, (f s k v).2 = keep k v) {s : σ} :
    (m.retain f s).1.get g = (m.get g).filter (keep g) := by
  unfold FastMap.retain
  by_cases low : g < RESERVE
  · have listed : ∃ fd ∈ List.finRange RESERVE, g = fd :=
      ⟨⟨g, low⟩, List.mem_finRange _, rfl⟩
    rw [get_of_lt low,
      ← get_of_lt (m := ((List.finRange RESERVE).foldl (retainSlot f) (m, s)).1) low,
      foldl_retainSlot_get verdict, if_pos listed]
  · rw [get_of_not_lt low, OrdMap.get?_retain verdict, foldl_retainSlot_map, get_of_not_lt low]

end Retain

/-! ## `find_space` -/

/-- The descriptors that hold a node. -/
def Occupied (m : FastMap F) (g : Nat) : Prop := (m.get g).isSome = true

/-- The scan of a strictly increasing key list from `min`: it stops at the first
gap, unless the keys run up to `usize::MAX`, where the candidate wraps to `0`. -/
theorem findSpaceLoop_spec : (keys : List Nat) → (min : Nat) → keys.Pairwise (· < ·) →
    (∀ k ∈ keys, min ≤ k) → min < 2 ^ 64 →
    (IsLeastFree (· ∈ keys) min (findSpaceLoop min keys) ∧ findSpaceLoop min keys < 2 ^ 64) ∨
      (findSpaceLoop min keys = 0 ∧ FullFrom (· ∈ keys) min (2 ^ 64))
  | [], min, _, _, small => .inl ⟨isLeastFree_self List.not_mem_nil, small⟩
  | k :: rest, min, sorted, above, small => by
      have restAbove : ∀ x ∈ rest, k < x := (List.pairwise_cons.mp sorted).1
      have headAbove := above k List.mem_cons_self
      have widen : ∀ g, g ∈ rest → g ∈ k :: rest := fun g member => List.mem_cons_of_mem k member
      unfold findSpaceLoop
      split_ifs with hit
      · subst hit
        by_cases room : k + 1 < 2 ^ 64
        · -- the candidate moves one up and the scan goes on over the rest
          rw [Fd.next_of_lt room]
          rcases findSpaceLoop_spec rest (k + 1) sorted.of_cons restAbove room with
            ⟨⟨below, free, full⟩, bound⟩ | ⟨wrapped, full⟩
          · refine .inl ⟨⟨by omega, ?_, FullFrom.cons List.mem_cons_self (FullFrom.imp full widen)⟩,
              bound⟩
            intro member
            rcases List.mem_cons.mp member with same | inRest
            · omega
            · exact free inRest
          · exact .inr ⟨wrapped, FullFrom.cons List.mem_cons_self (FullFrom.imp full widen)⟩
        · -- `k` is `usize::MAX`: the candidate wraps to `0`, which no later key equals
          have top : k + 1 = 2 ^ 64 := by omega
          rw [Fd.next_of_eq top]
          have single : FullFrom (· ∈ k :: rest) k (k + 1) :=
            FullFrom.cons List.mem_cons_self (fullFrom_empty _ (k + 1))
          refine .inr ⟨?_, top ▸ single⟩
          cases rest with
          | nil => rfl
          | cons x _ =>
              have positive := restAbove x List.mem_cons_self
              rw [findSpaceLoop, if_neg (by omega)]
      · -- the first key is above the candidate, which is therefore free
        refine .inl ⟨isLeastFree_self ?_, small⟩
        intro member
        rcases List.mem_cons.mp member with same | inRest
        · exact hit same.symm
        · have := restAbove min inRest
          omega

theorem occupied_iff_mem_keys {lo : Nat} (high : RESERVE ≤ lo) (below : lo ≤ g) :
    g ∈ (m.map.rangeFrom lo).map Prod.fst ↔ m.Occupied g := by
  rw [OrdMap.mem_keys_rangeFrom, Occupied, get_of_not_lt (by omega)]
  exact ⟨fun present => present.2, fun present => ⟨below, present⟩⟩

/-- The map part of `find_space`, from a bound at or above `RESERVE`. -/
theorem findSpaceLoop_rangeFrom_spec {lo : Nat} (high : RESERVE ≤ lo) (small : lo < 2 ^ 64) :
    (IsLeastFree m.Occupied lo (findSpaceLoop lo ((m.map.rangeFrom lo).map Prod.fst)) ∧
        findSpaceLoop lo ((m.map.rangeFrom lo).map Prod.fst) < 2 ^ 64) ∨
      (findSpaceLoop lo ((m.map.rangeFrom lo).map Prod.fst) = 0 ∧
        FullFrom m.Occupied lo (2 ^ 64)) := by
  have same : ∀ g, lo ≤ g → (g ∈ (m.map.rangeFrom lo).map Prod.fst ↔ m.Occupied g) :=
    fun g below => occupied_iff_mem_keys high below
  have above : ∀ k ∈ (m.map.rangeFrom lo).map Prod.fst, lo ≤ k :=
    fun k member => (OrdMap.mem_keys_rangeFrom.mp member).1
  rcases findSpaceLoop_spec _ lo OrdMap.keys_rangeFrom_pairwise above small with
    ⟨least, bound⟩ | ⟨wrapped, full⟩
  · exact .inl ⟨(isLeastFree_congr same).mp least, bound⟩
  · exact .inr ⟨wrapped, (fullFrom_congr same).mp full⟩

/-- `find_space` returns the least free descriptor from `min`, or `0` when every
descriptor from `min` to `usize::MAX` is taken. -/
theorem findSpace_spec {min : Nat} (small : min < 2 ^ 64) :
    (IsLeastFree m.Occupied min (m.findSpace min) ∧ m.findSpace min < 2 ^ 64) ∨
      (m.findSpace min = 0 ∧ FullFrom m.Occupied min (2 ^ 64)) := by
  have reserveSmall : RESERVE < 2 ^ 64 := by decide
  unfold findSpace
  split_ifs with low
  · split
    · -- an empty array slot at `min + i`, after occupied ones
      rename_i i found
      obtain ⟨inDrop, empty, before⟩ := List.findIdx?_eq_some_iff_getElem.mp found
      have inArray : min + i < RESERVE := by simp at inDrop; omega
      refine .inl ⟨⟨by omega, ?_, ?_⟩, by omega⟩
      · rw [Occupied, get_of_lt inArray]
        simpa using empty
      · intro g below above
        have taken := before (g - min) (by omega)
        rw [Occupied, get_of_lt (by omega)]
        simp only [List.getElem_drop, Vector.getElem_toList, Option.isNone_iff_eq_none] at taken
        have back : min + (g - min) = g := by omega
        simp only [back] at taken
        exact Option.isSome_iff_ne_none.mpr taken
    · -- every array slot from `min` is taken: the map scan starts at `RESERVE`
      rename_i none_found
      have arrayFull : FullFrom m.Occupied min RESERVE := by
        intro g below above
        have member : m.reserve[g] ∈ m.reserve.toList.drop min :=
          List.mem_drop_iff_getElem.mpr ⟨g - min, by simp; omega, by simp; congr 1; omega⟩
        have taken := List.findIdx?_eq_none_iff.mp none_found _ member
        rw [Occupied, get_of_lt above]
        simpa using taken
      rcases findSpaceLoop_rangeFrom_spec (m := m) le_rfl reserveSmall with
        ⟨least, bound⟩ | ⟨wrapped, full⟩
      · exact .inl ⟨least.of_fullFrom arrayFull low.le, bound⟩
      · exact .inr ⟨wrapped, arrayFull.trans full⟩
  · exact findSpaceLoop_rangeFrom_spec (not_lt.mp low) small

/-! ## Which descriptors each operation leaves occupied -/

theorem occupied_insert : (m.insert k v).1.Occupied g ↔ g = k ∨ m.Occupied g := by
  unfold Occupied
  rw [get_insert]
  split_ifs with same <;> simp [same]

theorem occupied_of_tryInsert (inserted : m.tryInsert k v = some m') :
    m'.Occupied g ↔ g = k ∨ m.Occupied g := by
  unfold Occupied
  rw [get_of_tryInsert inserted]
  split_ifs with same <;> simp [same]

theorem occupied_modify {f : FdNode F → FdNode F} : (m.modify k f).Occupied g ↔ m.Occupied g := by
  unfold Occupied
  rw [get_modify]
  split_ifs with same
  · subst same
    simp
  · rfl

theorem occupied_remove : (m.remove k).1.Occupied g ↔ g ≠ k ∧ m.Occupied g := by
  unfold Occupied
  rw [get_remove]
  split_ifs with same <;> simp [same]

end FastMap
end FtlOs
