import FtlOs.Util.MaxHeap.Order

/-!
# `TraceUpdater` keeps every element's index in its cell

With `TraceUpdater` the payload of an element is a pointer to a cell, and the heap
keeps the cell equal to the element's index as long as no two elements share a cell.
Inside the sifting loops one element may be stale, the one still moving; a swap makes a
second position stale and the `update` that follows it clears one of the two.  Each
operation ends with every cell right (`Traced`), the cell of the element it took out at
`usize::MAX`, and every other cell outside the heap as it was.
-/

namespace FtlOs

namespace MaxHeapEx

open ListHeap

variable {T K P : Type} [LinearOrder K] (key : T → K)

/-- The cell of every element at a position that is not stale holds its index. -/
def TracedOff (data : List (T × P)) (cells : P → Nat) (stale : Nat → Prop) : Prop :=
  ∀ i x, ¬stale i → data[i]? = some x → cells x.2 = i

/-- The cell of every element holds its index. -/
def Traced (data : List (T × P)) (cells : P → Nat) : Prop :=
  ∀ i x, data[i]? = some x → cells x.2 = i

/-- No two elements share a cell. -/
def Distinct (data : List (T × P)) : Prop := (data.map Prod.snd).Nodup

variable {data : List (T × P)} {cells : P → Nat}

theorem Traced.off (traced : Traced data cells) (stale : Nat → Prop) :
    TracedOff data cells stale :=
  fun i x _ at_i => traced i x at_i

theorem Distinct.snd_ne (distinct : Distinct data) {i j : Nat} {a b : T × P} (ne : i ≠ j)
    (at_i : data[i]? = some a) (at_j : data[j]? = some b) : a.2 ≠ b.2 := by
  obtain ⟨hi, rfl⟩ := List.getElem?_eq_some_iff.mp at_i
  obtain ⟨hj, rfl⟩ := List.getElem?_eq_some_iff.mp at_j
  intro same
  have hi' : i < (data.map Prod.snd).length := by simpa using hi
  have hj' : j < (data.map Prod.snd).length := by simpa using hj
  have mapped : (data.map Prod.snd)[i] = (data.map Prod.snd)[j] := by simpa using same
  exact ne ((List.Nodup.getElem_inj_iff distinct).mp mapped)

theorem Distinct.perm {data' : List (T × P)} (distinct : Distinct data) (perm : data'.Perm data) :
    Distinct data' :=
  ((perm.map Prod.snd).nodup_iff).mpr distinct

theorem not_mem_of_perm {data' : List (T × P)} {p : P} (perm : data'.Perm data)
    (outside : p ∉ data.map Prod.snd) : p ∉ data'.map Prod.snd :=
  fun inside => outside ((perm.map Prod.snd).subset inside)

theorem snd_mem_of_getElem? {i : Nat} {x : T × P} (at_i : data[i]? = some x) :
    x.2 ∈ data.map Prod.snd :=
  List.mem_map_of_mem (List.mem_of_getElem? at_i)

/-! ## One step of a loop -/

/-- Swapping the stale position with another makes both stale. -/
theorem TracedOff.swap {pos b : Nat} (traced : TracedOff data cells (· = pos)) :
    TracedOff (data.swap pos b) cells fun i => i = pos ∨ i = b := by
  intro i x right at_i
  rw [getElem?_swap_of_ne (fun same => right (.inl same)) (fun same => right (.inr same))] at at_i
  exact traced i x (fun same => right (.inl same)) at_i

theorem TracedOff.mono {stale stale' : Nat → Prop} (traced : TracedOff data cells stale)
    (weaker : ∀ i, stale i → stale' i) : TracedOff data cells stale' :=
  fun i x right at_i => traced i x (fun staleI => right (weaker i staleI)) at_i

variable [DecidableEq P]

/-- Storing the index of the element at `a` in its cell makes `a` right. -/
theorem TracedOff.update (traced : TracedOff data cells stale) (distinct : Distinct data)
    {a : Nat} {x : T × P} (at_a : data[a]? = some x) :
    TracedOff data (Function.update cells x.2 a) fun i => stale i ∧ i ≠ a := by
  intro i y right at_i
  by_cases isA : i = a
  · subst isA
    rw [at_a] at at_i
    cases at_i
    exact Function.update_self _ _ _
  · rw [Function.update_of_ne (distinct.snd_ne isA at_i at_a)]
    exact traced i y (fun staleI => right ⟨staleI, isA⟩) at_i

/-- The last `update` of a loop leaves every cell right. -/
theorem TracedOff.finish {pos : Nat} (traced : TracedOff data cells (· = pos))
    (distinct : Distinct data) (lt : pos < data.length) :
    Traced data (Function.update cells data[pos].2 pos) := by
  have fixed := traced.update distinct (List.getElem?_eq_getElem lt)
  exact fun i x at_i => fixed i x (fun ⟨same, other⟩ => other same) at_i

/-- A swap from the stale position and the `update` of the element landing at `a`, one of
the two, leave the other one stale. -/
theorem TracedOff.swap_update {pos b a : Nat} (traced : TracedOff data cells (· = pos))
    (distinct : Distinct data) (lt : a < (data.swap pos b).length) (landing : a = pos ∨ a = b) :
    TracedOff (data.swap pos b) (Function.update cells (data.swap pos b)[a].2 a)
      fun i => i = if a = pos then b else pos := by
  have updated := traced.swap.update (distinct.perm (List.swap_perm _ _ _))
    (List.getElem?_eq_getElem lt)
  refine updated.mono fun i ⟨either, notA⟩ => ?_
  split <;> omega

/-- An `update` of one of the elements writes none of the cells outside. -/
theorem update_outside {p : P} (outside : p ∉ data.map Prod.snd) {i : Nat} (lt : i < data.length)
    (n : Nat) : Function.update cells data[i].2 n p = cells p :=
  Function.update_of_ne (fun (same : p = data[i].2) => outside (by
    rw [same]
    exact List.mem_map_of_mem (List.getElem_mem lt))) _ _

/-! ## The loops -/

theorem siftUpLoop_traced (start fuel : Nat) (data : List (T × P)) (cells : P → Nat) (pos : Nat)
    (lt : pos < data.length) (distinct : Distinct data) (traced : TracedOff data cells (· = pos)) :
    Traced (siftUpLoop key (traceUpdater P) start fuel data cells pos lt).2.1
      (siftUpLoop key (traceUpdater P) start fuel data cells pos lt).2.2 := by
  fun_induction siftUpLoop key (traceUpdater P) start fuel data cells pos lt with
  | case3 fuel data cells pos lt below parentLt notLe swapped posLt ih =>
    refine ih (distinct.perm (List.swap_perm _ _ _)) ?_
    have step := traced.swap_update (b := getParent pos) distinct posLt (.inl rfl)
    simpa only [if_pos, traceUpdater_update] using step
  | _ => exact traced.finish distinct ‹_›

theorem siftUpLoop_frame (start fuel : Nat) (data : List (T × P)) (cells : P → Nat) (pos : Nat)
    (lt : pos < data.length) {p : P} (outside : p ∉ data.map Prod.snd) :
    (siftUpLoop key (traceUpdater P) start fuel data cells pos lt).2.2 p = cells p := by
  fun_induction siftUpLoop key (traceUpdater P) start fuel data cells pos lt with
  | case3 fuel data cells pos lt below parentLt notLe swapped posLt ih =>
    have outside' := not_mem_of_perm (List.swap_perm data pos (getParent pos)) outside
    rw [ih outside']
    exact update_outside outside' posLt pos
  | _ => exact update_outside outside ‹_› _

theorem siftDownLoop_traced (fuel : Nat) (data : List (T × P)) (cells : P → Nat) (pos : Nat)
    (lt : pos < data.length) (distinct : Distinct data) (traced : TracedOff data cells (· = pos)) :
    Traced (siftDownLoop key (traceUpdater P) fuel data cells pos lt).1
      (siftDownLoop key (traceUpdater P) fuel data cells pos lt).2 := by
  fun_induction siftDownLoop key (traceUpdater P) fuel data cells pos lt with
  | case3 fuel data cells pos lt child noChild oneChild greater swapped childLt posLt cells' =>
    -- the child that came up is updated first, the element that went down last
    have step := traced.swap_update (b := child) distinct childLt (.inr rfl)
    have childNe : child ≠ pos := by simp only [child, getChild]; omega
    simp only [if_neg childNe] at step
    exact step.finish (distinct.perm (List.swap_perm _ _ _)) posLt
  | case6 fuel data cells pos lt child noChild oneChild target targetLt notSettled swapped posLt ih =>
    refine ih (distinct.perm (List.swap_perm _ _ _)) ?_
    have step := traced.swap_update (b := target) distinct posLt (.inl rfl)
    simpa only [if_pos, traceUpdater_update] using step
  | _ => exact traced.finish distinct ‹_›

theorem siftDownLoop_frame (fuel : Nat) (data : List (T × P)) (cells : P → Nat) (pos : Nat)
    (lt : pos < data.length) {p : P} (outside : p ∉ data.map Prod.snd) :
    (siftDownLoop key (traceUpdater P) fuel data cells pos lt).2 p = cells p := by
  fun_induction siftDownLoop key (traceUpdater P) fuel data cells pos lt with
  | case3 fuel data cells pos lt child noChild oneChild greater swapped childLt posLt cells' =>
    have outside' := not_mem_of_perm (List.swap_perm data pos child) outside
    exact (update_outside outside' posLt pos).trans (update_outside outside' childLt child)
  | case6 fuel data cells pos lt child noChild oneChild target targetLt notSettled swapped posLt ih =>
    have outside' := not_mem_of_perm (List.swap_perm data pos target) outside
    rw [ih outside']
    exact update_outside outside' posLt pos
  | _ => exact update_outside outside ‹_› _

end MaxHeapEx

end FtlOs
