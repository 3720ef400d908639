import FtlOs.Library.ListHeap
import FtlOs.Kernel.Config

/-!
# The position-tracking max heap

`MaxHeapEx<T, V, F>` of `ftl-util`: a binary max-heap of `(T, V)` pairs laid out in a
`Vec` and ordered on `T`, which reports every move of an element through the
`IdxUpdater` `F`: `update(v, i)` when the element with payload `v` lands at `i`, and
`remove(v)` when it leaves the heap.  With `TraceUpdater` the payload is a pointer to a
cell of the element's owner, which then holds the element's index; the kernel's
cancellable timers are built on it.

`T`'s `Ord` is any total preorder, so it is the order of a key `key : T → K` into a
linear order.  An updater acts on a memory `M`: nothing for `NullUpdater`, the cells for
`TraceUpdater`.  Indices are `Nat`: they stay below the length of the `Vec`.

The two sifting loops run on fuel, which the operations set to the length of the data:
every round of `sift_up` lowers `pos` and every round of `sift_down_to_bottom` raises it,
so neither runs out (`siftUpLoop_of_lt`, and the fuel bound of the loop lemmas in
`FtlOs.Util.MaxHeap.Order`).
-/

namespace FtlOs

/-- `IdxUpdater<V>`: what landing at an index and leaving the heap do to the payload's
memory. -/
structure IdxUpdater (V M : Type) where
  update : V → Nat → M → M
  remove : V → M → M

/-- `NullUpdater`. -/
def nullUpdater (V : Type) : IdxUpdater V Unit := ⟨fun _ _ m => m, fun _ m => m⟩

/-- `TraceUpdater`: the payload points to a `usize` cell; `update` stores the new index
there and `remove` stores `usize::MAX`. -/
def traceUpdater (P : Type) [DecidableEq P] : IdxUpdater P (P → Nat) where
  update p new cells := Function.update cells p new
  remove p cells := Function.update cells p usizeMax.toNat

@[simp] theorem traceUpdater_update {P : Type} [DecidableEq P] (p : P) (new : Nat)
    (cells : P → Nat) : (traceUpdater P).update p new cells = Function.update cells p new := rfl

@[simp] theorem traceUpdater_remove {P : Type} [DecidableEq P] (p : P) (cells : P → Nat) :
    (traceUpdater P).remove p cells = Function.update cells p usizeMax.toNat := rfl

namespace MaxHeapEx

variable {T K V M : Type} [LinearOrder K] (key : T → K) (F : IdxUpdater V M)

/-- `get_parent`. -/
def getParent (pos : Nat) : Nat := (pos - 1) / 2

/-- `get_child`. -/
def getChild (pos : Nat) : Nat := pos * 2 + 1

/-- The loop of `sift_up(start, pos)` and its last `update`, for at most `fuel` rounds:
the final position, the data and the memory. -/
def siftUpLoop (start : Nat) :
    Nat → (data : List (T × V)) → M → (pos : Nat) → pos < data.length → Nat × List (T × V) × M
  | 0, data, m, pos, _ => (pos, data, F.update data[pos].2 pos m)
  | fuel + 1, data, m, pos, lt =>
    if below : start < pos then
      have parentLt : getParent pos < data.length := by simp only [getParent]; omega
      if key data[pos].1 ≤ key data[getParent pos].1 then
        (pos, data, F.update data[pos].2 pos m)
      else
        let data' := data.swap pos (getParent pos)
        have posLt : pos < data'.length := by simpa [data'] using lt
        siftUpLoop start fuel data' (F.update data'[pos].2 pos m) (getParent pos)
          (by simpa [data'] using parentLt)
    else (pos, data, F.update data[pos].2 pos m)

/-- `sift_up(start, pos)`.  Its `assert!(pos < self.data.len())` holds at both calls and
is the argument `lt`. -/
def siftUp (start pos : Nat) (data : List (T × V)) (m : M) (lt : pos < data.length) :
    Nat × List (T × V) × M :=
  siftUpLoop key F start data.length data m pos lt

/-- The loop of `sift_down_to_bottom(pos)` and its last `update`, for at most `fuel`
rounds. -/
def siftDownLoop :
    Nat → (data : List (T × V)) → M → (pos : Nat) → pos < data.length → List (T × V) × M
  | 0, data, m, pos, _ => (data, F.update data[pos].2 pos m)
  | fuel + 1, data, m, pos, lt =>
    let child := getChild pos
    if noChild : data.length ≤ child then (data, F.update data[pos].2 pos m)
    else if oneChild : child + 1 = data.length then
      if key data[pos].1 < key data[child].1 then
        let data' := data.swap pos child
        have childLt : child < data'.length := by simp only [data', List.length_swap]; omega
        have posLt : pos < data'.length := by simpa [data'] using lt
        let m := F.update data'[child].2 child m
        (data', F.update data'[pos].2 pos m)
      else (data, F.update data[pos].2 pos m)
    else
      let target := child + if key data[child].1 < key data[child + 1].1 then 1 else 0
      have targetLt : target < data.length := by dsimp only [target]; split <;> omega
      if key data[target].1 ≤ key data[pos].1 then (data, F.update data[pos].2 pos m)
      else
        let data' := data.swap pos target
        have posLt : pos < data'.length := by simpa [data'] using lt
        siftDownLoop fuel data' (F.update data'[pos].2 pos m) target
          (by simpa [data'] using targetLt)

/-- `sift_down_to_bottom(pos)`. -/
def siftDown (pos : Nat) (data : List (T × V)) (m : M) (lt : pos < data.length) :
    List (T × V) × M :=
  siftDownLoop key F data.length data m pos lt

theorem siftUpLoop_length (start fuel : Nat) (data : List (T × V)) (m : M) (pos : Nat)
    (lt : pos < data.length) :
    (siftUpLoop key F start fuel data m pos lt).2.1.length = data.length := by
  fun_induction siftUpLoop key F start fuel data m pos lt with
  | case3 fuel data m pos lt below parentLt notLe swapped posLt ih =>
    rw [ih, List.length_swap]
  | _ => rfl

theorem siftUp_length (start pos : Nat) (data : List (T × V)) (m : M) (lt : pos < data.length) :
    (siftUp key F start pos data m lt).2.1.length = data.length :=
  siftUpLoop_length key F start _ data m pos lt

/-- `MaxHeapEx::push`: the data and the memory after. -/
def push (v : T × V) (data : List (T × V)) (m : M) : List (T × V) × M :=
  (siftUp key F 0 data.length (data ++ [v]) m (by simp)).2

/-- `MaxHeapEx::pop`: the element popped, the data and the memory; `none` when the heap is
empty.  The last element takes the place of the first and sinks. -/
def pop (data : List (T × V)) (m : M) : Option ((T × V) × List (T × V) × M) :=
  match data.getLast? with
  | none => none
  | some v =>
    let rest := data.dropLast
    if nonempty : 0 < rest.length then
      let top := rest[0]
      -- `data[0]` is now `v`
      let down := siftDown key F 0 (rest.set 0 v) (F.update v.2 0 m) (by simpa using nonempty)
      some (top, down.1, F.remove top.2 down.2)
    else some (v, rest, F.remove v.2 m)

/-- The end of `remove_idx`: `if self.sift_up(0, idx) == idx { self.sift_down_to_bottom(idx) }`,
once the last element is at `idx`. -/
def siftUpOrDown (idx : Nat) (data : List (T × V)) (m : M) (lt : idx < data.length) :
    List (T × V) × M :=
  let up := siftUp key F 0 idx data m lt
  if up.1 = idx then siftDown key F idx up.2.1 up.2.2 (by rw [siftUp_length]; exact lt)
  else up.2

theorem siftUpOrDown_of_ne {idx : Nat} {data : List (T × V)} {m : M} {lt : idx < data.length}
    (moved : (siftUp key F 0 idx data m lt).1 ≠ idx) :
    siftUpOrDown key F idx data m lt = (siftUp key F 0 idx data m lt).2 :=
  if_neg moved

theorem siftUpOrDown_of_eq {idx : Nat} {data : List (T × V)} {m : M} {lt : idx < data.length}
    (stayed : (siftUp key F 0 idx data m lt).1 = idx) :
    siftUpOrDown key F idx data m lt =
      siftDown key F idx (siftUp key F 0 idx data m lt).2.1 (siftUp key F 0 idx data m lt).2.2
        (by rw [siftUp_length]; exact lt) :=
  if_pos stayed

/-- `MaxHeapEx::remove_idx(idx)`: the element removed, the data and the memory; `none` is
the panic of `pop().unwrap()` on an empty heap or of `self.data[idx]` past the end.  The
`debug_assert!` is off.  The last element takes the place of the removed one, rises, and
sinks if it did not rise. -/
def removeIdx (idx : Nat) (data : List (T × V)) (m : M) :
    Option ((T × V) × List (T × V) × M) :=
  match data.getLast? with
  | none => none
  | some v =>
    let rest := data.dropLast
    if idx = rest.length then some (v, rest, F.remove v.2 m)
    else if lt : idx < rest.length then
      let old := rest[idx]
      -- `data[idx]` is now `v`
      let down := siftUpOrDown key F idx (rest.set idx v) (F.update v.2 idx m) (by simpa using lt)
      some (old, down.1, F.remove old.2 down.2)
    else none

/-! ## The data is permuted -/

theorem siftUpLoop_perm (start fuel : Nat) (data : List (T × V)) (m : M) (pos : Nat)
    (lt : pos < data.length) : (siftUpLoop key F start fuel data m pos lt).2.1.Perm data := by
  fun_induction siftUpLoop key F start fuel data m pos lt with
  | case3 fuel data m pos lt below parentLt notLe swapped posLt ih =>
    exact ih.trans (List.swap_perm _ _ _)
  | _ => exact List.Perm.refl _

theorem siftDownLoop_perm (fuel : Nat) (data : List (T × V)) (m : M) (pos : Nat)
    (lt : pos < data.length) : (siftDownLoop key F fuel data m pos lt).1.Perm data := by
  fun_induction siftDownLoop key F fuel data m pos lt with
  | case3 => exact List.swap_perm _ _ _
  | case6 fuel data m pos lt child noChild oneChild target targetLt notLe swapped posLt ih =>
    exact ih.trans (List.swap_perm _ _ _)
  | _ => exact List.Perm.refl _

theorem siftUpOrDown_perm (idx : Nat) (data : List (T × V)) (m : M) (lt : idx < data.length) :
    (siftUpOrDown key F idx data m lt).1.Perm data := by
  have up := siftUpLoop_perm key F 0 data.length data m idx lt
  by_cases same : (siftUp key F 0 idx data m lt).1 = idx
  · simp only [siftUpOrDown, if_pos same, siftDown]
    exact (siftDownLoop_perm key F _ _ _ idx _).trans up
  · simp only [siftUpOrDown, if_neg same]
    exact up

/-! ## The operations, case by case -/

theorem pop_nil (m : M) : pop key F [] m = none := rfl

theorem pop_append (rest : List (T × V)) (v : T × V) (m : M) :
    pop key F (rest ++ [v]) m =
      if nonempty : 0 < rest.length then
        some (rest[0],
          (siftDown key F 0 (rest.set 0 v) (F.update v.2 0 m) (by simpa using nonempty)).1,
          F.remove rest[0].2
            (siftDown key F 0 (rest.set 0 v) (F.update v.2 0 m) (by simpa using nonempty)).2)
      else some (v, rest, F.remove v.2 m) := by
  simp only [pop, List.getLast?_concat, List.dropLast_concat]

theorem removeIdx_append (idx : Nat) (rest : List (T × V)) (v : T × V) (m : M) :
    removeIdx key F idx (rest ++ [v]) m =
      if idx = rest.length then some (v, rest, F.remove v.2 m)
      else if lt : idx < rest.length then
        some (rest[idx],
          (siftUpOrDown key F idx (rest.set idx v) (F.update v.2 idx m) (by simpa using lt)).1,
          F.remove rest[idx].2
            (siftUpOrDown key F idx (rest.set idx v) (F.update v.2 idx m) (by simpa using lt)).2)
      else none := by
  simp only [removeIdx, List.getLast?_concat, List.dropLast_concat]

/-- Putting the last element in the place of the one at `idx` loses only that one. -/
theorem cons_set_perm {rest : List (T × V)} {idx : Nat} (lt : idx < rest.length) (v : T × V) :
    (rest[idx] :: rest.set idx v).Perm (rest ++ [v]) := by
  have refill := List.getD_set_perm_cons rest idx v
  rw [List.getElem?_eq_getElem lt, Option.getD_some] at refill
  exact refill.trans (List.perm_append_singleton _ _).symm

/-- `push` puts the element in and only permutes. -/
theorem push_perm (v : T × V) (data : List (T × V)) (m : M) :
    (push key F v data m).1.Perm (data ++ [v]) :=
  siftUpLoop_perm key F 0 _ _ m _ _

/-- `pop` fails exactly on an empty heap. -/
theorem pop_eq_none_iff (data : List (T × V)) (m : M) : pop key F data m = none ↔ data = [] := by
  rcases List.eq_nil_or_concat' data with rfl | ⟨rest, v, rfl⟩
  · simp [pop_nil]
  · rw [pop_append]
    split <;> simp

/-- What `pop` takes out together with what it leaves is what was there. -/
theorem pop_perm {data data' : List (T × V)} {m m' : M} {top : T × V}
    (popped : pop key F data m = some (top, data', m')) : (top :: data').Perm data := by
  rcases List.eq_nil_or_concat' data with rfl | ⟨rest, v, rfl⟩
  · cases popped
  rw [pop_append] at popped
  split at popped
  · rename_i nonempty
    simp only [Option.some.injEq, Prod.mk.injEq] at popped
    obtain ⟨rfl, rfl, -⟩ := popped
    exact ((siftDownLoop_perm key F _ _ _ 0 _).cons _).trans (cons_set_perm nonempty v)
  · simp only [Option.some.injEq, Prod.mk.injEq] at popped
    obtain ⟨rfl, rfl, -⟩ := popped
    exact (List.perm_append_singleton _ _).symm

/-- Below the length, `remove_idx` does not panic: it returns the element at `idx`, and
what it leaves together with it is what was there. -/
theorem removeIdx_of_lt {idx : Nat} {data : List (T × V)} (m : M) (lt : idx < data.length) :
    ∃ data' m', removeIdx key F idx data m = some (data[idx], data', m') ∧
      (data[idx] :: data').Perm data := by
  rcases List.eq_nil_or_concat' data with rfl | ⟨rest, v, rfl⟩
  · simp at lt
  rw [removeIdx_append]
  by_cases last : idx = rest.length
  · subst last
    simp only [if_pos, List.getElem_concat_length]
    exact ⟨_, _, rfl, (List.perm_append_singleton _ _).symm⟩
  · have before : idx < rest.length := by
      simp only [List.length_append, List.length_singleton] at lt
      omega
    simp only [if_neg last, dif_pos before, List.getElem_append_left before]
    exact ⟨_, _, rfl, ((siftUpOrDown_perm key F idx _ _ _).cons _).trans (cons_set_perm before v)⟩

end MaxHeapEx

end FtlOs
