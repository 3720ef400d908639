import FtlOs.Util.MaxHeap.Defs

/-!
# `MaxHeapEx` keeps its data a heap

Every operation takes a heap to a heap, and `pop` returns a greatest element.  The
sifting loops are the `ListHeap` loops: each round of `sift_up` is `RisingAt.swap` and
each round of `sift_down_to_bottom` is `SinkingAt.swap`, and the loops stop where the
exit lemmas apply.  The fuel the operations give is enough: `sift_up` from `pos` runs
at most `pos` rounds, and `sift_down_to_bottom` from `pos` at most `len - pos`.

`remove_idx` puts the last element at `idx`; if it is greater than its new parent it
rises and cannot also have to sink, and otherwise `sift_up` returns `idx` at once and the
element sinks.
-/

namespace FtlOs

namespace MaxHeapEx

open ListHeap

variable {T K V M : Type} [LinearOrder K] (key : T → K) (F : IdxUpdater V M)

/-! ## Where `sift_up` stops -/

/-- An element under its parent does not move up. -/
theorem siftUpLoop_settled (start fuel : Nat) (data : List (T × V)) (m : M) (pos : Nat)
    (lt : pos < data.length)
    (settled : start < pos → key data[pos].1 ≤ key data[(pos - 1) / 2].1) :
    siftUpLoop key F start fuel data m pos lt = (pos, data, F.update data[pos].2 pos m) := by
  cases fuel with
  | zero => rfl
  | succ fuel =>
    by_cases below : start < pos
    · have parentLt : getParent pos < data.length := by simp only [getParent]; omega
      have underParent : key data[pos].1 ≤ key data[getParent pos].1 := settled below
      simp only [siftUpLoop, dif_pos below, if_pos underParent]
    · simp only [siftUpLoop, dif_neg below]

theorem siftUpLoop_fst_le (start fuel : Nat) (data : List (T × V)) (m : M) (pos : Nat)
    (lt : pos < data.length) : (siftUpLoop key F start fuel data m pos lt).1 ≤ pos := by
  fun_induction siftUpLoop key F start fuel data m pos lt with
  | case3 fuel data m pos lt below parentLt notLe swapped posLt ih =>
    exact ih.trans (by simp only [getParent]; omega)
  | _ => exact le_rfl

/-- An element greater than its parent ends above where it started. -/
theorem siftUpLoop_fst_lt (start fuel : Nat) (data : List (T × V)) (m : M) {pos : Nat}
    (lt : pos < data.length) (fuelPos : 0 < fuel) (below : start < pos)
    (rises : key data[(pos - 1) / 2].1 < key data[pos].1) :
    (siftUpLoop key F start fuel data m pos lt).1 < pos := by
  cases fuel with
  | zero => omega
  | succ fuel =>
    have parentLt : getParent pos < data.length := by simp only [getParent]; omega
    have notUnder : ¬key data[pos].1 ≤ key data[getParent pos].1 := not_le.mpr rises
    simp only [siftUpLoop, dif_pos below, if_neg notUnder]
    exact (siftUpLoop_fst_le key F start fuel _ _ _ _).trans_lt
      (by simp only [getParent]; omega)

/-! ## The loops end at heaps -/

/-- `sift_up` from a rising element ends at a heap, given a round for every step to the
root. -/
theorem siftUpLoop_heap (fuel : Nat) (data : List (T × V)) (m : M) (pos : Nat)
    (lt : pos < data.length) (rising : RisingAt (key ∘ Prod.fst) data pos) (enough : pos < fuel) :
    Heap (key ∘ Prod.fst) (siftUpLoop key F 0 fuel data m pos lt).2.1 := by
  fun_induction siftUpLoop key F 0 fuel data m pos lt with
  | case1 => omega
  | case2 fuel data m pos lt below parentLt settled =>
    exact rising.heap lt fun _ => settled
  | case3 fuel data m pos lt below parentLt notLe swapped posLt ih =>
    exact ih (rising.swap below lt (not_le.mp notLe)) (by simp only [getParent]; omega)
  | case4 fuel data m pos lt atRoot =>
    exact rising.heap lt fun positive => absurd positive atRoot

/-- Of two adjacent children, `target` is the greater. -/
theorem le_target {data : List (T × V)} {child target : Nat} (lt : child + 1 < data.length)
    (isTarget : target = child + if key data[child].1 < key data[child + 1].1 then 1 else 0)
    (targetLt : target < data.length) :
    (target = child ∨ target = child + 1) ∧
      ∀ c x, (c = child ∨ c = child + 1) → data[c]? = some x → key x.1 ≤ key data[target].1 := by
  by_cases second : key data[child].1 < key data[child + 1].1
  · rw [if_pos second] at isTarget
    subst isTarget
    refine ⟨.inr rfl, ?_⟩
    rintro c x (rfl | rfl) at_c <;> rw [List.getElem?_eq_getElem (by omega)] at at_c <;>
      cases at_c
    · exact second.le
    · exact le_rfl
  · rw [if_neg second] at isTarget
    subst isTarget
    refine ⟨.inl rfl, ?_⟩
    rintro c x (rfl | rfl) at_c <;> rw [List.getElem?_eq_getElem (by omega)] at at_c <;>
      cases at_c
    · exact le_rfl
    · exact not_lt.mp second

/-- Nothing lies past the end. -/
theorem getElem?_ne_some_of_le {data : List (T × V)} {c : Nat} (past : data.length ≤ c)
    (x : T × V) : ¬data[c]? = some x := by
  simp [List.getElem?_eq_none past]

/-- `sift_down_to_bottom` from a sinking element ends at a heap, given a round for every
step to the end of the data. -/
theorem siftDownLoop_heap (fuel : Nat) (data : List (T × V)) (m : M) (pos : Nat)
    (lt : pos < data.length) (sinking : SinkingAt (key ∘ Prod.fst) data pos)
    (enough : data.length ≤ pos + fuel) :
    Heap (key ∘ Prod.fst) (siftDownLoop key F fuel data m pos lt).1 := by
  fun_induction siftDownLoop key F fuel data m pos lt with
  | case1 => omega
  | case2 fuel data m pos lt child noChild =>
    have leaf : data.length ≤ pos * 2 + 1 := noChild
    refine sinking.heap lt fun c x childOf cPositive at_c => ?_
    exact (getElem?_ne_some_of_le (by omega) x at_c).elim
  | case3 fuel data m pos lt child noChild oneChild greater swapped childLt posLt m' =>
    -- the only child trades places with its parent and ends as a leaf
    have isLast : pos * 2 + 1 + 1 = data.length := oneChild
    have childOf : (child - 1) / 2 = pos := by simp only [child, getChild]; omega
    have greatest : ∀ c x, (c - 1) / 2 = pos → 0 < c → data[c]? = some x →
        (key ∘ Prod.fst) x ≤ (key ∘ Prod.fst) data[child] := by
      intro c x childOf' cPositive at_c
      have isChild : c = child ∨ c = child + 1 := by
        have := child_cases childOf' cPositive
        simp only [child, getChild]
        omega
      rcases isChild with rfl | rfl
      · rw [List.getElem?_eq_getElem (by omega)] at at_c
        cases at_c
        exact le_rfl
      · exact (getElem?_ne_some_of_le (by omega) x at_c).elim
    have down := sinking.swap childOf (by omega) (by omega) greater greatest
    refine down.heap childLt fun c x childBelow _ at_c => ?_
    have past : (data.swap pos child).length ≤ c := by
      simp only [List.length_swap, child, getChild] at childBelow ⊢
      omega
    exact (getElem?_ne_some_of_le past x at_c).elim
  | case4 fuel data m pos lt child noChild oneChild notGreater =>
    have isLast : pos * 2 + 1 + 1 = data.length := oneChild
    refine sinking.heap lt fun c x childOf cPositive at_c => ?_
    have isChild : c = child ∨ c = child + 1 := by
      have := child_cases childOf cPositive
      simp only [child, getChild]
      omega
    rcases isChild with rfl | rfl
    · rw [List.getElem?_eq_getElem (by omega)] at at_c
      cases at_c
      exact not_lt.mp notGreater
    · exact (getElem?_ne_some_of_le (by omega) x at_c).elim
  | case5 fuel data m pos lt child noChild oneChild target targetLt settled =>
    have twoChildren : child + 1 < data.length := by omega
    have larger := le_target key twoChildren rfl targetLt
    refine sinking.heap lt fun c x childOf cPositive at_c => ?_
    have isChild : c = child ∨ c = child + 1 := by
      have := child_cases childOf cPositive
      simp only [child, getChild]
      omega
    exact (larger.2 c x isChild at_c).trans settled
  | case6 fuel data m pos lt child noChild oneChild target targetLt notSettled swapped posLt ih =>
    have twoChildren : child + 1 < data.length := by omega
    have larger := le_target key twoChildren rfl targetLt
    have childEq : child = pos * 2 + 1 := rfl
    have targetOf : (target - 1) / 2 = pos := by have := larger.1; omega
    have greatest : ∀ c x, (c - 1) / 2 = pos → 0 < c → data[c]? = some x →
        (key ∘ Prod.fst) x ≤ (key ∘ Prod.fst) data[target] := by
      intro c x childOf cPositive at_c
      have isChild : c = child ∨ c = child + 1 := by
        have := child_cases childOf cPositive
        omega
      exact larger.2 c x isChild at_c
    refine ih (sinking.swap targetOf (by have := larger.1; omega) targetLt
      (not_le.mp notSettled) greatest) ?_
    have := larger.1
    simp only [swapped, List.length_swap]
    omega

/-- The end of `remove_idx` restores a heap whose element at `idx` was replaced. -/
theorem siftUpOrDown_heap {rest : List (T × V)} (heap : Heap (key ∘ Prod.fst) rest) {idx : Nat}
    (lt : idx < rest.length) (v : T × V) (m : M) :
    Heap (key ∘ Prod.fst)
      (siftUpOrDown key F idx (rest.set idx v) m (by simpa using lt)).1 := by
  have setLt : idx < (rest.set idx v).length := by simpa using lt
  have atIdx : (rest.set idx v)[idx] = v := List.getElem_set_self _
  by_cases rises : 0 < idx ∧ key rest[(idx - 1) / 2].1 < key v.1
  · -- the element rises at least one place, so `sift_up` does not return `idx`
    have moved := siftUpLoop_fst_lt key F 0 (rest.set idx v).length (rest.set idx v) m setLt
      (by omega) rises.1
      (by rw [atIdx, List.getElem_set_ne (by omega)]; exact rises.2)
    rw [siftUpOrDown_of_ne key F moved.ne]
    exact siftUpLoop_heap key F _ _ m idx setLt (heap.risingAt_set lt rises.1 rises.2) setLt
  · -- the element stays, and sinks
    have settled : 0 < idx → key v.1 ≤ key rest[(idx - 1) / 2].1 := fun positive =>
      not_lt.mp fun greater => rises ⟨positive, greater⟩
    have stays := siftUpLoop_settled key F 0 (rest.set idx v).length (rest.set idx v) m idx setLt
      fun positive => by
        rw [atIdx, List.getElem_set_ne (by omega)]
        exact settled positive
    have sinking : SinkingAt (key ∘ Prod.fst) (rest.set idx v) idx :=
      heap.sinkingAt_set lt fun y positive atUp => by
        rw [List.getElem?_eq_getElem (by omega)] at atUp
        cases atUp
        exact settled positive
    have stayed : (siftUp key F 0 idx (rest.set idx v) m setLt).1 = idx :=
      congrArg Prod.fst stays
    rw [siftUpOrDown_of_eq key F stayed]
    simp only [siftUp, stays, siftDown]
    exact siftDownLoop_heap key F _ _ _ idx setLt sinking (by omega)

/-! ## The operations keep a heap -/

theorem push_heap {data : List (T × V)} (heap : Heap (key ∘ Prod.fst) data) (v : T × V) (m : M) :
    Heap (key ∘ Prod.fst) (push key F v data m).1 :=
  siftUpLoop_heap key F _ _ m _ _ (heap.risingAt_append v) (by simp)

/-- `pop` leaves a heap and returns a greatest element. -/
theorem pop_heap {data data' : List (T × V)} (heap : Heap (key ∘ Prod.fst) data) {m m' : M}
    {top : T × V} (popped : pop key F data m = some (top, data', m')) :
    Heap (key ∘ Prod.fst) data' ∧ ∀ x ∈ data, key x.1 ≤ key top.1 := by
  rcases List.eq_nil_or_concat' data with rfl | ⟨rest, v, rfl⟩
  · cases popped
  have restHeap := heap.dropLast
  rw [List.dropLast_concat] at restHeap
  rw [pop_append] at popped
  split at popped
  · rename_i nonempty
    simp only [Option.some.injEq, Prod.mk.injEq] at popped
    obtain ⟨rfl, rfl, -⟩ := popped
    have sinking : SinkingAt (key ∘ Prod.fst) (rest.set 0 v) 0 :=
      restHeap.sinkingAt_set nonempty fun _ positive => absurd positive (lt_irrefl 0)
    refine ⟨siftDownLoop_heap key F _ _ _ 0 _ sinking (by omega), fun x mem => ?_⟩
    exact heap.le_head (by rw [List.getElem?_append_left nonempty, List.getElem?_eq_getElem])
      mem
  · rename_i empty
    simp only [Option.some.injEq, Prod.mk.injEq] at popped
    obtain ⟨rfl, rfl, -⟩ := popped
    have noRest : rest = [] := List.eq_nil_of_length_eq_zero (by omega)
    subst noRest
    refine ⟨restHeap, fun x mem => ?_⟩
    rw [List.nil_append, List.mem_singleton] at mem
    rw [mem]

/-- The last element takes the top and sinks under the greater child. -/
example : (pop id (nullUpdater Unit) [(6, ()), (5, ()), (3, ()), (1, ())] ()).map
    (fun r => (r.1.1, r.2.1.map Prod.fst)) = some (6, [5, 1, 3]) := by
  decide

/-- `remove_idx` leaves a heap. -/
theorem removeIdx_heap {data data' : List (T × V)} (heap : Heap (key ∘ Prod.fst) data)
    {idx : Nat} {m m' : M} {old : T × V} (removed : removeIdx key F idx data m = some (old, data', m')) :
    Heap (key ∘ Prod.fst) data' := by
  rcases List.eq_nil_or_concat' data with rfl | ⟨rest, v, rfl⟩
  · cases removed
  have restHeap := heap.dropLast
  rw [List.dropLast_concat] at restHeap
  rw [removeIdx_append] at removed
  split at removed
  · simp only [Option.some.injEq, Prod.mk.injEq] at removed
    obtain ⟨rfl, rfl, -⟩ := removed
    exact restHeap
  · split at removed
    · rename_i lt
      simp only [Option.some.injEq, Prod.mk.injEq] at removed
      obtain ⟨rfl, rfl, -⟩ := removed
      exact siftUpOrDown_heap key F restHeap lt v _
    · cases removed

end MaxHeapEx

end FtlOs
