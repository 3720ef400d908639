import FtlOs.Util.MaxHeap.Trace

/-!
# What a `TraceMaxHeap` guarantees

`Valid` is what every operation keeps: a heap, no two elements sharing a cell, and every
element's cell holding its index.  From a valid state, `push` of an element with a cell
of its own, `pop`, and `remove_idx` below the length each end in a valid state; each
takes out exactly one element, `pop` a greatest one and `remove_idx(idx)` the one at
`idx`; the cell of the element taken out is `usize::MAX` after; and every other cell
outside the heap is left as it was.
-/

namespace FtlOs

namespace MaxHeapEx

open ListHeap

variable {T K P : Type} [LinearOrder K] (key : T → K)

/-- What every operation keeps of a `TraceMaxHeap`. -/
structure Valid (data : List (T × P)) (cells : P → Nat) : Prop where
  heap : Heap (key ∘ Prod.fst) data
  distinct : Distinct data
  traced : Traced data cells

theorem valid_nil (cells : P → Nat) : Valid key [] cells where
  heap := fun _ _ _ _ at_j => by simp at at_j
  distinct := List.nodup_nil
  traced := fun _ _ at_i => by simp at at_i

variable {data : List (T × P)} {cells : P → Nat}

/-! ## Cells around a removal -/

theorem Traced.dropLast {rest : List (T × P)} {v : T × P} (traced : Traced (rest ++ [v]) cells) :
    Traced rest cells := by
  intro i x at_i
  have lt := (List.getElem?_eq_some_iff.mp at_i).1
  exact traced i x (by rw [List.getElem?_append_left lt]; exact at_i)

theorem Distinct.last_not_mem {rest : List (T × P)} {v : T × P}
    (distinct : Distinct (rest ++ [v])) : v.2 ∉ rest.map Prod.snd := by
  simp only [Distinct, List.map_append, List.map_cons, List.map_nil] at distinct
  exact fun inside =>
    (List.nodup_append.mp distinct).2.2 _ inside v.2 (List.mem_singleton_self _) rfl

theorem Distinct.tail {out : T × P} {left : List (T × P)} (distinct : Distinct (out :: left)) :
    Distinct left :=
  (List.nodup_cons.mp distinct).2

/-- The element that `pop` or `remove_idx` takes out shares no cell with what is left. -/
theorem Distinct.head_not_mem {out : T × P} {left : List (T × P)}
    (distinct : Distinct (out :: left)) : out.2 ∉ left.map Prod.snd :=
  (List.nodup_cons.mp distinct).1

theorem outside_last {rest : List (T × P)} {v : T × P} {p : P}
    (outside : p ∉ (rest ++ [v]).map Prod.snd) : p ≠ v.2 := fun same =>
  outside (same ▸ List.mem_map_of_mem (List.mem_append_right _ List.mem_cons_self))

/-- A cell outside the heap is none of the cells that storing the last element at `idx`
touches. -/
theorem outside_set {rest : List (T × P)} {idx : Nat} (lt : idx < rest.length) (v : T × P)
    {p : P} (outside : p ∉ (rest ++ [v]).map Prod.snd) :
    p ∉ (rest.set idx v).map Prod.snd ∧ p ≠ v.2 ∧ p ≠ rest[idx].2 := by
  have inData : ∀ x, x ∈ rest[idx] :: rest.set idx v → p ≠ x.2 := fun x mem same =>
    outside (same ▸ List.mem_map_of_mem ((cons_set_perm lt v).subset mem))
  refine ⟨fun inside => ?_, outside_last outside, inData _ List.mem_cons_self⟩
  obtain ⟨x, mem, same⟩ := List.mem_map.mp inside
  exact inData x (List.mem_cons_of_mem _ mem) same.symm

variable [DecidableEq P]

/-- Writing the cell of an element that has left keeps every element's cell. -/
theorem Traced.update_outside (traced : Traced data cells) {p : P}
    (outside : p ∉ data.map Prod.snd) (n : Nat) : Traced data (Function.update cells p n) := by
  intro i x at_i
  have notP : x.2 ≠ p := fun same => outside (same ▸ snd_mem_of_getElem? at_i)
  rw [Function.update_of_ne notP]
  exact traced i x at_i

/-- The last element, stored at `idx` with its new index, leaves every cell right. -/
theorem Traced.set {rest : List (T × P)} {v : T × P} {idx : Nat}
    (traced : Traced (rest ++ [v]) cells) (distinct : Distinct (rest.set idx v))
    (lt : idx < rest.length) : Traced (rest.set idx v) (Function.update cells v.2 idx) := by
  have others : TracedOff (rest.set idx v) cells (· = idx) := by
    intro i x notIdx at_i
    rw [List.getElem?_set_ne (Ne.symm notIdx)] at at_i
    exact traced.dropLast i x at_i
  have updated := others.update distinct (List.getElem?_set_self lt)
  exact fun i x at_i => updated i x (fun ⟨same, other⟩ => other same) at_i

/-! ## The end of `remove_idx` -/

theorem siftUpOrDown_traced {idx : Nat} (lt : idx < data.length) (distinct : Distinct data)
    (traced : Traced data cells) :
    Traced (siftUpOrDown key (traceUpdater P) idx data cells lt).1
      (siftUpOrDown key (traceUpdater P) idx data cells lt).2 := by
  have up := siftUpLoop_traced key 0 data.length data cells idx lt distinct (traced.off _)
  by_cases stayed : (siftUp key (traceUpdater P) 0 idx data cells lt).1 = idx
  · rw [siftUpOrDown_of_eq key _ stayed]
    exact siftDownLoop_traced key _ _ _ idx _
      (distinct.perm (siftUpLoop_perm key _ 0 _ data cells idx lt)) (up.off _)
  · rw [siftUpOrDown_of_ne key _ stayed]
    exact up

theorem siftUpOrDown_frame {idx : Nat} (lt : idx < data.length) {p : P}
    (outside : p ∉ data.map Prod.snd) :
    (siftUpOrDown key (traceUpdater P) idx data cells lt).2 p = cells p := by
  have up := siftUpLoop_frame key 0 data.length data cells idx lt outside
  by_cases stayed : (siftUp key (traceUpdater P) 0 idx data cells lt).1 = idx
  · rw [siftUpOrDown_of_eq key _ stayed]
    refine (siftDownLoop_frame key _ _ _ idx _ ?_).trans up
    exact not_mem_of_perm (siftUpLoop_perm key _ 0 _ data cells idx lt) outside
  · rw [siftUpOrDown_of_ne key _ stayed]
    exact up

/-! ## The operations -/

variable {key}

/-- `push` of an element with a cell of its own keeps the heap valid, puts the element in,
and writes no cell outside. -/
theorem push_valid (valid : Valid key data cells) (v : T × P)
    (fresh : v.2 ∉ data.map Prod.snd) :
    Valid key (push key (traceUpdater P) v data cells).1 (push key (traceUpdater P) v data cells).2 ∧
      (push key (traceUpdater P) v data cells).1.Perm (data ++ [v]) ∧
      ∀ p, p ∉ (data ++ [v]).map Prod.snd → (push key (traceUpdater P) v data cells).2 p = cells p := by
  have consDistinct : Distinct (v :: data) := List.nodup_cons.mpr ⟨fresh, valid.distinct⟩
  have distinct : Distinct (data ++ [v]) := consDistinct.perm (List.perm_append_singleton _ _)
  have others : TracedOff (data ++ [v]) cells (· = data.length) := by
    intro i x notLast at_i
    have lt := (List.getElem?_eq_some_iff.mp at_i).1
    simp only [List.length_append, List.length_singleton] at lt
    rw [List.getElem?_append_left (by omega)] at at_i
    exact valid.traced i x at_i
  have perm := push_perm key (traceUpdater P) v data cells
  exact ⟨⟨push_heap key _ valid.heap v cells, distinct.perm perm,
    siftUpLoop_traced key 0 _ _ cells _ _ distinct others⟩, perm,
    fun p outside => siftUpLoop_frame key 0 _ _ cells _ _ outside⟩

/-- `pop` keeps the heap valid, takes out a greatest element, stores `usize::MAX` in its
cell, and writes no cell outside. -/
theorem pop_valid (valid : Valid key data cells) {top : T × P} {data' : List (T × P)}
    {cells' : P → Nat} (popped : pop key (traceUpdater P) data cells = some (top, data', cells')) :
    Valid key data' cells' ∧ (top :: data').Perm data ∧ (∀ x ∈ data, key x.1 ≤ key top.1) ∧
      cells' top.2 = usizeMax.toNat ∧ ∀ p, p ∉ data.map Prod.snd → cells' p = cells p := by
  have perm := pop_perm key _ popped
  have distinct' : Distinct (top :: data') := valid.distinct.perm perm
  have ordered := pop_heap key _ valid.heap popped
  rcases List.eq_nil_or_concat' data with rfl | ⟨rest, v, rfl⟩
  · cases popped
  rw [pop_append] at popped
  split at popped
  · rename_i nonempty
    simp only [Option.some.injEq, Prod.mk.injEq] at popped
    obtain ⟨rfl, rfl, rfl⟩ := popped
    have setDistinct : Distinct (rest.set 0 v) :=
      (valid.distinct.perm (cons_set_perm nonempty v)).tail
    have down := siftDownLoop_traced key (rest.set 0 v).length (rest.set 0 v) _ 0
      (by simpa using nonempty) setDistinct ((valid.traced.set setDistinct nonempty).off _)
    refine ⟨⟨ordered.1, distinct'.tail, down.update_outside distinct'.head_not_mem _⟩, perm,
      ordered.2, by simp, fun p outside => ?_⟩
    obtain ⟨notSet, notLast, notTop⟩ := outside_set nonempty v outside
    simp only [traceUpdater_remove, Function.update_of_ne notTop]
    exact (siftDownLoop_frame key _ _ _ 0 _ notSet).trans (Function.update_of_ne notLast _ _)
  · simp only [Option.some.injEq, Prod.mk.injEq] at popped
    obtain ⟨rfl, rfl, rfl⟩ := popped
    refine ⟨⟨ordered.1, distinct'.tail, valid.traced.dropLast.update_outside
      distinct'.head_not_mem _⟩, perm, ordered.2, by simp, fun p outside => ?_⟩
    simp only [traceUpdater_remove, Function.update_of_ne (outside_last outside)]

/-- Below the length, `remove_idx` keeps the heap valid, takes out the element at `idx`,
stores `usize::MAX` in its cell, and writes no cell outside. -/
theorem removeIdx_valid (valid : Valid key data cells) {idx : Nat} (lt : idx < data.length) :
    ∃ data' cells', removeIdx key (traceUpdater P) idx data cells = some (data[idx], data', cells') ∧
      Valid key data' cells' ∧ (data[idx] :: data').Perm data ∧
      cells' data[idx].2 = usizeMax.toNat ∧ ∀ p, p ∉ data.map Prod.snd → cells' p = cells p := by
  obtain ⟨data', cells', removed, perm⟩ := removeIdx_of_lt key (traceUpdater P) cells lt
  have heap' := removeIdx_heap key _ valid.heap removed
  have distinct' : Distinct (data[idx] :: data') := valid.distinct.perm perm
  refine ⟨data', cells', removed, ?_⟩
  rcases List.eq_nil_or_concat' data with rfl | ⟨rest, v, rfl⟩
  · simp at lt
  rw [removeIdx_append] at removed
  split at removed
  · -- the last element itself is taken out
    rename_i isLast
    have atLast : (rest ++ [v])[idx] = v := by
      subst isLast
      simp
    simp only [Option.some.injEq, Prod.mk.injEq] at removed
    obtain ⟨-, rfl, rfl⟩ := removed
    rw [atLast] at perm distinct' ⊢
    refine ⟨⟨heap', distinct'.tail, valid.traced.dropLast.update_outside
      valid.distinct.last_not_mem _⟩, perm, by simp, fun p outside => ?_⟩
    simp only [traceUpdater_remove, Function.update_of_ne (outside_last outside)]
  · split at removed
    · rename_i notLast before
      have atIdx : (rest ++ [v])[idx] = rest[idx] := List.getElem_append_left before
      simp only [Option.some.injEq, Prod.mk.injEq] at removed
      obtain ⟨-, rfl, rfl⟩ := removed
      rw [atIdx] at perm distinct' ⊢
      have setDistinct : Distinct (rest.set idx v) :=
        (valid.distinct.perm (cons_set_perm before v)).tail
      have down := siftUpOrDown_traced key (by simpa using before) setDistinct
        (valid.traced.set setDistinct before)
      refine ⟨⟨heap', distinct'.tail, down.update_outside distinct'.head_not_mem _⟩, perm,
        by simp, fun p outside => ?_⟩
      obtain ⟨notSet, notLast, notOld⟩ := outside_set before v outside
      simp only [traceUpdater_remove, Function.update_of_ne notOld]
      exact (siftUpOrDown_frame key _ notSet).trans (Function.update_of_ne notLast _ _)
    · cases removed

/-! ## Runs -/

/-- A call of a `TraceMaxHeap`. -/
inductive HeapCall (T P : Type) where
  | push (v : T × P)
  | pop
  | removeIdx (idx : Nat)

/-- A `TraceMaxHeap` with the ghost history of its run: everything pushed and everything
taken out, the latest first. -/
structure HeapState (T P : Type) where
  data : List (T × P)
  cells : P → Nat
  pushed : List (T × P)
  out : List (T × P)

namespace HeapCall

variable (key)

/-- A call; `pop` of an empty heap returns `None` and changes nothing, and `none` is a
panic. -/
def run : HeapCall T P → HeapState T P → Option (HeapState T P)
  | .push v, s =>
    let pushed := MaxHeapEx.push key (traceUpdater P) v s.data s.cells
    some ⟨pushed.1, pushed.2, v :: s.pushed, s.out⟩
  | .pop, s =>
    match MaxHeapEx.pop key (traceUpdater P) s.data s.cells with
    | none => some s
    | some (top, data, cells) => some ⟨data, cells, s.pushed, top :: s.out⟩
  | .removeIdx idx, s =>
    (MaxHeapEx.removeIdx key (traceUpdater P) idx s.data s.cells).map fun (old, data, cells) =>
      ⟨data, cells, s.pushed, old :: s.out⟩

/-- The calls the timers make: an element is pushed with a cell no element in the heap
has, and `remove_idx` is given an index below the length. -/
def Allowed : HeapCall T P → HeapState T P → Prop
  | .push v, s => v.2 ∉ s.data.map Prod.snd
  | .pop, _ => True
  | .removeIdx idx, s => idx < s.data.length

end HeapCall

variable (key) in
/-- One allowed call. -/
def HeapStep (s s' : HeapState T P) : Prop :=
  ∃ c : HeapCall T P, c.Allowed s ∧ c.run key s = some s'

/-- What holds along every run: the heap is valid, what is in it and what was taken out
are what was pushed, and the cell of an element taken out and not pushed again is
`usize::MAX`. -/
structure HeapGood (key : T → K) (s : HeapState T P) : Prop where
  valid : Valid key s.data s.cells
  accounted : (s.data ++ s.out).Perm s.pushed
  outCells : ∀ x ∈ s.out, x.2 ∉ s.data.map Prod.snd → s.cells x.2 = usizeMax.toNat

variable {s s' : HeapState T P}

theorem HeapGood.push (good : HeapGood key s) (v : T × P) (fresh : v.2 ∉ s.data.map Prod.snd) :
    HeapGood key ⟨(MaxHeapEx.push key (traceUpdater P) v s.data s.cells).1,
      (MaxHeapEx.push key (traceUpdater P) v s.data s.cells).2, v :: s.pushed, s.out⟩ := by
  obtain ⟨valid, perm, frame⟩ := push_valid good.valid v fresh
  refine ⟨valid, ?_, fun x mem notIn => ?_⟩
  · -- the new element joins the heap and the pushed list alike
    have moved : (s.data ++ [v] ++ s.out).Perm (v :: (s.data ++ s.out)) := by
      rw [List.append_assoc]
      exact List.perm_middle
    exact ((perm.append_right _).trans moved).trans (good.accounted.cons v)
  · have notOld : x.2 ∉ (s.data ++ [v]).map Prod.snd := not_mem_of_perm perm.symm notIn
    have notData : x.2 ∉ s.data.map Prod.snd := fun inside =>
      notOld (List.map_append ▸ List.mem_append_left _ inside)
    exact (frame _ notOld).trans (good.outCells x mem notData)

theorem HeapGood.takeOut (good : HeapGood key s) {x : T × P} {data' : List (T × P)}
    {cells' : P → Nat} (valid : Valid key data' cells') (perm : (x :: data').Perm s.data)
    (cleared : cells' x.2 = usizeMax.toNat)
    (frame : ∀ p, p ∉ s.data.map Prod.snd → cells' p = s.cells p) :
    HeapGood key ⟨data', cells', s.pushed, x :: s.out⟩ := by
  refine ⟨valid, ?_, fun y mem notIn => ?_⟩
  · -- the element leaves the heap for the list of those taken out
    have moved : (data' ++ x :: s.out).Perm ((x :: data') ++ s.out) := List.perm_middle
    exact (moved.trans (perm.append_right _)).trans good.accounted
  · by_cases same : y.2 = x.2
    · rw [same]
      exact cleared
    · have notData : y.2 ∉ s.data.map Prod.snd := fun inside => by
        obtain ⟨z, zIn, zSame⟩ := List.mem_map.mp inside
        rcases List.mem_cons.mp (perm.symm.subset zIn) with rfl | zLeft
        · exact same zSame.symm
        · exact notIn (zSame ▸ List.mem_map_of_mem zLeft)
      have wasOut : y ∈ s.out := (List.mem_cons.mp mem).resolve_left fun isX => same (isX ▸ rfl)
      exact (frame _ notData).trans (good.outCells y wasOut notData)

/-- Every allowed call keeps a run good. -/
theorem HeapGood.step (good : HeapGood key s) (step : HeapStep key s s') : HeapGood key s' := by
  obtain ⟨call, allowed, ran⟩ := step
  cases call with
  | push v =>
    cases ran
    exact good.push v allowed
  | pop =>
    simp only [HeapCall.run] at ran
    split at ran
    · cases ran
      exact good
    · rename_i top data cells popped
      cases ran
      obtain ⟨valid, perm, -, cleared, frame⟩ := pop_valid good.valid popped
      exact good.takeOut valid perm cleared frame
  | removeIdx idx =>
    obtain ⟨data, cells, removed, valid, perm, cleared, frame⟩ := removeIdx_valid good.valid allowed
    simp only [HeapCall.run, removed, Option.map_some, Option.some.injEq] at ran
    subst ran
    exact good.takeOut valid perm cleared frame

/-- Every state a run of allowed calls reaches from an empty heap is good. -/
theorem HeapGood.of_reachable (cells : P → Nat)
    (reach : Relation.ReflTransGen (HeapStep key) ⟨[], cells, [], []⟩ s) : HeapGood key s := by
  induction reach with
  | refl => exact ⟨valid_nil key cells, List.Perm.refl _, fun _ mem => absurd mem List.not_mem_nil⟩
  | tail _ step good => exact good.step step

end MaxHeapEx

end FtlOs
