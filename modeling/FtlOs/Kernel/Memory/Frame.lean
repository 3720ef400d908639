import Mathlib
import FtlOs.Kernel.Config

/-!
# The physical frame allocator

`StackGlobalFrameAllocator` of `memory/allocator/frame/global.rs` hands out the 4 KiB
frames of `[begin, end)`: first those given back, kept in the intrusive `FrameList`
`recycled` (a stack), then fresh ones from the bump pointer `current`.
`alloc_successive` takes `n` fresh frames at once and `alloc_iter` fills a batch of
targets, checking first that there are enough frames.

The frames handed out and not yet given back are a ghost list `held`.  With it, every
frame below `current` is either held or recycled, exactly once, which is what keeps
two holders from sharing a frame.

Addresses are `usize`, and a release build wraps their arithmetic.  `alloc_successive`
computes `current + n * PAGE_SIZE` with no check of overflow, so for `n = 2^52` the sum is
`current` itself: the call hands out `current` as the start of `2^52` frames without
moving the bump pointer, and the next `alloc` hands out `current` again.
-/

namespace FtlOs

/-- `FrameOOM`. -/
inductive FrameOOM where
  | frameOOM
  deriving DecidableEq, Repr

/-- `StackGlobalFrameAllocator`: `stop` is the source's `end`; `recycled` is the
`FrameList`, top first. -/
structure StackGlobalFrameAllocator where
  begin : Usize
  current : Usize
  stop : Usize
  recycled : List Usize
  deriving DecidableEq, Repr

namespace StackGlobalFrameAllocator

/-- `PAGE_SIZE` as a `usize`. -/
def page : Usize := 4096

/-- `init`, after `assert!(begin < end)`. -/
def init (begin stop : Usize) : Option StackGlobalFrameAllocator :=
  if begin < stop then some ⟨begin, begin, stop, []⟩ else none

/-- `size`: the recycled frames and the fresh ones. -/
def size (a : StackGlobalFrameAllocator) : Usize :=
  a.recycled.length.toUInt64 + (a.stop - a.current) / page

/-- `alloc`: pop a recycled frame, or take `current` and step it. -/
def alloc (a : StackGlobalFrameAllocator) : Except FrameOOM (Usize × StackGlobalFrameAllocator) :=
  match a.recycled with
  | pa :: rest => .ok (pa, { a with recycled := rest })
  | [] =>
    if a.current = a.stop then .error .frameOOM
    else .ok (a.current, { a with current := a.current + page })

/-- `dealloc`: push the frame onto `recycled`. -/
def dealloc (a : StackGlobalFrameAllocator) (addr : Usize) : StackGlobalFrameAllocator :=
  { a with recycled := addr :: a.recycled }

/-- `alloc_successive`: `n` fresh frames from `current`; `n = 0` is `panic!()`. -/
def allocSuccessive (a : StackGlobalFrameAllocator) (n : Usize) :
    Option (Except FrameOOM (Usize × StackGlobalFrameAllocator)) :=
  if n = 0 then none
  else if n = 1 then some a.alloc
  else
    let nxt := a.current + n * page
    if nxt > a.stop then some (.error .frameOOM)
    else some (.ok (a.current, { a with current := nxt }))

/-- The `while let` loop of `alloc_iter`: recycled frames go to the targets in turn; a
frame popped when no target is left is pushed back, and the call returns.  The frames
given, the targets left and the list left. -/
def fillRecycled : Nat → List Usize → List Usize × Nat × List Usize
  | targets, [] => ([], targets, [])
  | 0, pa :: rest => ([], 0, pa :: rest)
  | targets + 1, pa :: rest =>
    let (given, left, kept) := fillRecycled targets rest
    (pa :: given, left, kept)

/-- The `for` loop of `alloc_iter`: each target left takes `current`, which steps. -/
def fillCurrent : Nat → Usize → List Usize × Usize
  | 0, current => ([], current)
  | targets + 1, current =>
    let (given, current') := fillCurrent targets (current + page)
    (current :: given, current')

/-- `alloc_iter` on `n = range.len()` targets: the frames written to them, in order. -/
def allocIter (a : StackGlobalFrameAllocator) (n : Usize) :
    Option (Except FrameOOM (List Usize × StackGlobalFrameAllocator)) :=
  let n0 := (a.stop - a.current) / page
  if n0 + a.recycled.length.toUInt64 < n then some (.error .frameOOM)
  else
    let (given, left, kept) := fillRecycled n.toNat a.recycled
    -- a frame popped with no target left was pushed back, and the call returned
    if kept ≠ [] then some (.ok (given, { a with recycled := kept }))
    else
      let (bumped, current) := fillCurrent left a.current
      -- `assert!(self.current <= self.end)`
      if current ≤ a.stop then some (.ok (given ++ bumped, { a with current, recycled := [] }))
      else none

/-- `dealloc_iter`: push each frame in turn. -/
def deallocIter (a : StackGlobalFrameAllocator) (addrs : List Usize) : StackGlobalFrameAllocator :=
  addrs.foldl dealloc a

/-! ## Every frame below `current` is held or recycled, once -/

/-- The frames of `k` pages from `lo`. -/
def pages (lo k : Nat) : List Nat := (List.range k).map fun i => lo + i * 4096

theorem pages_add (lo k n : Nat) : pages lo (k + n) = pages lo k ++ pages (lo + k * 4096) n := by
  simp only [pages, List.range_add, List.map_append, List.map_map]
  congr 1
  exact List.map_congr_left fun i _ => by simp only [Function.comp_apply]; ring

theorem pages_nodup (lo k : Nat) : (pages lo k).Nodup :=
  (List.nodup_range).map fun i j same => by omega

theorem mem_pages {lo k x : Nat} : x ∈ pages lo k ↔ ∃ i < k, lo + i * 4096 = x := by
  simp [pages]

theorem pages_succ (lo n : Nat) : pages lo (n + 1) = lo :: pages (lo + 4096) n := by
  rw [Nat.add_comm, pages_add]
  simp [pages]

/-- The pages below `current + n` pages are those below `current` and `n` more from it. -/
theorem pages_extend {begin current : Nat} (below : begin ≤ current)
    (steps : (current - begin) % 4096 = 0) (n : Nat) :
    pages begin ((current + n * 4096 - begin) / 4096) =
      pages begin ((current - begin) / 4096) ++ pages current n := by
  have count : (current + n * 4096 - begin) / 4096 = (current - begin) / 4096 + n := by omega
  have start : begin + (current - begin) / 4096 * 4096 = current := by omega
  rw [count, pages_add, start]

/-- The recycled loop gives the top `n` frames of the stack and keeps the rest. -/
theorem fillRecycled_eq (n : Nat) (l : List Usize) :
    fillRecycled n l = (l.take n, n - l.length, l.drop n) := by
  fun_induction fillRecycled n l with
  | case1 targets => simp
  | case2 pa rest => simp
  | case3 targets pa rest given left kept split ih =>
    rw [ih] at split
    simp_all

@[simp] theorem length_fillCurrent (n : Nat) (current : Usize) :
    (fillCurrent n current).1.length = n := by
  induction n generalizing current with
  | zero => rfl
  | succ n ih => simp [fillCurrent, ih]

@[simp] theorem toNat_page : page.toNat = 4096 := rfl

/-- The bump loop hands out the `n` pages from `current`, while they do not wrap. -/
theorem fillCurrent_spec (n : Nat) (current : Usize) (room : current.toNat + n * 4096 < 2 ^ 64) :
    (fillCurrent n current).1.map UInt64.toNat = pages current.toNat n ∧
      (fillCurrent n current).2.toNat = current.toNat + n * 4096 := by
  induction n generalizing current with
  | zero => simp [fillCurrent, pages]
  | succ n ih =>
    have step : (current + page).toNat = current.toNat + 4096 := by
      rw [UInt64.toNat_add, toNat_page]
      omega
    obtain ⟨given, stepped⟩ := ih (current + page) (by omega)
    simp only [fillCurrent, List.map_cons, given, stepped, step, pages_succ, true_and]
    ring

/-- The allocator with the frames `held` it has handed out: `current` lies in
`[begin, end]` on the page grid, and the frames held and recycled are those below
`current`, each once. -/
structure Good (a : StackGlobalFrameAllocator) (held : List Usize) : Prop where
  below : a.begin.toNat ≤ a.current.toNat
  within : a.current.toNat ≤ a.stop.toNat
  steps : (a.current.toNat - a.begin.toNat) % 4096 = 0
  span : (a.stop.toNat - a.begin.toNat) % 4096 = 0
  frames : ((held ++ a.recycled).map UInt64.toNat).Perm
    (pages a.begin.toNat ((a.current.toNat - a.begin.toNat) / 4096))

/-- A fresh allocator on a range of whole pages, as `PhyAddrRef4K` makes it. -/
theorem good_init {begin stop : Usize} {a : StackGlobalFrameAllocator}
    (started : init begin stop = some a) (begin4K : begin.toNat % 4096 = 0)
    (stop4K : stop.toNat % 4096 = 0) : a.Good [] := by
  unfold init at started
  split_ifs at started with lt
  cases started
  have lt' := UInt64.lt_iff_toNat_lt.mp lt
  exact ⟨le_refl _, lt'.le, by simp, by dsimp only; omega, by simp [pages]⟩

section Good

variable {a : StackGlobalFrameAllocator} {held : List Usize}

theorem Good.nodup (good : a.Good held) : ((held ++ a.recycled).map UInt64.toNat).Nodup :=
  good.frames.nodup_iff.mpr (pages_nodup _ _)

/-- No frame is held twice, or both held and recycled. -/
theorem Good.held_nodup (good : a.Good held) : held.Nodup := by
  have distinct := good.nodup
  rw [List.map_append] at distinct
  exact (List.nodup_append.mp distinct).1.of_map _

/-- A frame held or recycled is a page of `[begin, current)`. -/
theorem Good.mem_range (good : a.Good held) {x : Usize} (member : x ∈ held ++ a.recycled) :
    a.begin.toNat ≤ x.toNat ∧ x.toNat < a.current.toNat ∧ (x.toNat - a.begin.toNat) % 4096 = 0 := by
  obtain ⟨i, lt, same⟩ := mem_pages.mp (good.frames.subset (List.mem_map_of_mem member))
  have := good.steps
  have := good.below
  have : i * 4096 < a.current.toNat - a.begin.toNat := by
    have := Nat.mul_lt_mul_of_pos_right lt (by norm_num : 0 < 4096)
    rw [Nat.div_mul_cancel (Nat.dvd_of_mod_eq_zero good.steps)] at this
    exact this
  omega

/-- Short of `end`, a whole page is left before it. -/
theorem Good.step_le (good : a.Good held) (room : a.current ≠ a.stop) :
    a.current.toNat + 4096 ≤ a.stop.toNat := by
  have ne : a.current.toNat ≠ a.stop.toNat := fun same => room (UInt64.toNat_inj.mp same)
  have := good.below
  have := good.within
  have := good.steps
  have := good.span
  omega

/-- The page after `current` is still in `[begin, end]`, so stepping it does not wrap. -/
theorem Good.toNat_step (good : a.Good held) (room : a.current ≠ a.stop) :
    (a.current + page).toNat = a.current.toNat + 4096 := by
  have := good.step_le room
  have bound := a.stop.toNat_lt
  rw [UInt64.toNat_add, toNat_page]
  omega

/-- `size` does not wrap: the recycled frames and the pages from `current` to `end`. -/
theorem Good.toNat_size (good : a.Good held) :
    a.size.toNat = a.recycled.length + (a.stop.toNat - a.current.toNat) / 4096 := by
  have lengths := good.frames.length_eq
  simp only [List.length_map, List.length_append, pages, List.length_range] at lengths
  have := good.within
  have := good.below
  have bound := a.stop.toNat_lt
  have fresh : ((a.stop - a.current) / page).toNat = (a.stop.toNat - a.current.toNat) / 4096 := by
    rw [UInt64.toNat_div, UInt64.toNat_sub_of_le _ _ (UInt64.le_iff_toNat_le.mpr good.within),
      toNat_page]
  have count : a.recycled.length.toUInt64.toNat = a.recycled.length := by
    simp only [Nat.toUInt64_eq, UInt64.toNat_ofNat']
    omega
  simp only [size, UInt64.toNat_add, fresh, count]
  omega

/-- `size` counts the frames of `[begin, end)` that are not held. -/
theorem Good.size_add (good : a.Good held) :
    a.size.toNat + held.length = (a.stop.toNat - a.begin.toNat) / 4096 := by
  have lengths := good.frames.length_eq
  simp only [List.length_map, List.length_append, pages, List.length_range] at lengths
  have := good.within
  have := good.below
  have := good.steps
  have := good.span
  rw [good.toNat_size]
  omega

/-- Held frames may be listed in any order. -/
theorem Good.perm (good : a.Good held) {held' : List Usize} (reordered : held.Perm held') :
    a.Good held' :=
  { good with frames := ((reordered.symm.append_right _).map _).trans good.frames }

/-- Frames popped from `recycled` go to the holders. -/
theorem Good.pop (good : a.Good held) {given kept : List Usize} (split : a.recycled = given ++ kept) :
    ({ a with recycled := kept } : StackGlobalFrameAllocator).Good (given ++ held) := by
  have swapped : ((given ++ held) ++ kept).Perm (held ++ a.recycled) := by
    rw [split, ← List.append_assoc]
    exact List.perm_append_comm.append_right kept
  exact { good with frames := (swapped.map _).trans good.frames }

/-- Moving `current` up by `n` pages, still within `end`, hands out exactly those pages. -/
theorem Good.bump (good : a.Good held) {current : Usize} {bumped : List Usize} (n : Nat)
    (moved : current.toNat = a.current.toNat + n * 4096) (within : current.toNat ≤ a.stop.toNat)
    (fresh : bumped.map UInt64.toNat = pages a.current.toNat n) :
    ({ a with current } : StackGlobalFrameAllocator).Good (bumped ++ held) where
  below := by
    have := good.below
    dsimp only
    omega
  within := within
  steps := by
    have := good.below
    have := good.steps
    dsimp only
    omega
  span := good.span
  frames := by
    dsimp only
    rw [moved, pages_extend good.below good.steps n, List.append_assoc, List.map_append, fresh]
    exact List.perm_append_comm.trans (good.frames.append_right _)

/-! ## Each operation keeps the invariant -/

/-- `alloc` hands out a frame no one holds. -/
theorem Good.of_alloc (good : a.Good held) {pa : Usize} {a' : StackGlobalFrameAllocator}
    (taken : a.alloc = .ok (pa, a')) : a'.Good (pa :: held) := by
  unfold alloc at taken
  split at taken
  case h_1 top rest stack =>
    cases taken
    exact good.pop (show a.recycled = [pa] ++ rest from stack)
  case h_2 empty =>
    split_ifs at taken with full
    cases taken
    have fresh : [a.current].map UInt64.toNat = pages a.current.toNat 1 := by simp [pages]
    have stepped := good.toNat_step full
    exact good.bump 1 (by omega) (by rw [stepped]; exact good.step_le full) fresh

/-- `dealloc` of a held frame puts it back on `recycled`. -/
theorem Good.of_dealloc (good : a.Good held) {addr : Usize} (mine : addr ∈ held) :
    (a.dealloc addr).Good (held.erase addr) := by
  have moved : (held.erase addr ++ addr :: a.recycled).Perm (held ++ a.recycled) :=
    List.perm_middle.trans ((List.perm_cons_erase mine).symm.append_right _)
  exact { good with frames := (moved.map _).trans good.frames }

/-- `dealloc_iter` of held frames puts each back in turn. -/
theorem Good.of_deallocIter (good : a.Good held) {addrs : List Usize} (mine : addrs.Subperm held) :
    (a.deallocIter addrs).Good (held.diff addrs) := by
  induction addrs generalizing a held with
  | nil => simpa [deallocIter] using good
  | cons addr rest ih =>
    have first : addr ∈ held := mine.subset List.mem_cons_self
    have others : rest.Subperm (held.erase addr) := by
      simpa using mine.erase addr
    rw [List.diff_cons]
    exact ih (good.of_dealloc first) others

/-- `alloc_successive` of `n` pages that do not run past the address space hands out the
`n` pages from the address it returns. -/
theorem Good.of_allocSuccessive (good : a.Good held) {n : Usize}
    (noWrap : a.current.toNat + n.toNat * 4096 < 2 ^ 64) {ret : Usize}
    {a' : StackGlobalFrameAllocator} (taken : a.allocSuccessive n = some (.ok (ret, a'))) :
    a'.Good ((fillCurrent n.toNat ret).1 ++ held) := by
  simp only [allocSuccessive] at taken
  split_ifs at taken with zero one beyond
  · -- `1 => return self.alloc()`
    have single : (fillCurrent n.toNat ret).1 = [ret] := by simp [one, fillCurrent]
    rw [single]
    exact good.of_alloc (Option.some.inj taken)
  · -- `Err(FrameOOM)` hands out nothing
    cases taken
  · cases taken
    have sum : (a.current + n * page).toNat = a.current.toNat + n.toNat * 4096 := by
      rw [UInt64.toNat_add, UInt64.toNat_mul, toNat_page]
      omega
    have within : (a.current + n * page).toNat ≤ a.stop.toNat :=
      UInt64.le_iff_toNat_le.mp (UInt64.not_lt.mp beyond)
    exact good.bump n.toNat sum within (fillCurrent_spec _ _ noWrap).1

/-- Past `alloc_iter`'s size check, the targets the recycled frames leave fit below `end`. -/
theorem Good.room_of_enough (good : a.Good held) {n : Usize}
    (enough : ¬(a.stop - a.current) / page + a.recycled.length.toUInt64 < n) :
    a.current.toNat + (n.toNat - a.recycled.length) * 4096 ≤ a.stop.toNat := by
  have total : n.toNat ≤ a.recycled.length + (a.stop.toNat - a.current.toNat) / 4096 := by
    rw [← good.toNat_size, size, UInt64.add_comm]
    exact UInt64.le_iff_toNat_le.mp (UInt64.not_lt.mp enough)
  have := good.within
  have := Nat.div_mul_le_self (a.stop.toNat - a.current.toNat) 4096
  have : (n.toNat - a.recycled.length) * 4096 ≤ (a.stop.toNat - a.current.toNat) / 4096 * 4096 :=
    Nat.mul_le_mul_right _ (by omega)
  omega

/-- `alloc_iter` fills every target with a frame no one held. -/
theorem Good.of_allocIter (good : a.Good held) {n : Usize} {given : List Usize}
    {a' : StackGlobalFrameAllocator} (filled : a.allocIter n = some (.ok (given, a'))) :
    given.length = n.toNat ∧ a'.Good (given ++ held) := by
  simp only [allocIter, fillRecycled_eq] at filled
  split_ifs at filled with short kept full
  · -- `Err(FrameOOM)` hands out nothing
    cases filled
  · -- the recycled frames outnumber the targets: one was pushed back
    cases filled
    have fewer : n.toNat < a.recycled.length := by
      by_contra more
      exact kept (List.drop_eq_nil_iff.mpr (by omega))
    exact ⟨by simp; omega, good.pop (List.take_append_drop _ _).symm⟩
  · -- every recycled frame went to a target, the rest came from `current`
    cases filled
    have drained : a.recycled.length ≤ n.toNat := List.drop_eq_nil_iff.mp (not_not.mp kept)
    have room := good.room_of_enough short
    obtain ⟨fresh, moved⟩ :=
      fillCurrent_spec (n.toNat - a.recycled.length) a.current (by have := a.stop.toNat_lt; omega)
    have popped := (good.bump _ moved (by omega) fresh).pop (List.append_nil a.recycled).symm
    rw [List.take_of_length_le drained, List.append_assoc]
    exact ⟨by simp; omega, popped⟩

/-- `alloc_iter`'s final `assert!` holds. -/
theorem Good.allocIter_ne_none (good : a.Good held) (n : Usize) : a.allocIter n ≠ none := by
  simp only [allocIter, fillRecycled_eq]
  split_ifs with short kept full
  case neg =>
    -- the bump loop stops within `end`
    have room := good.room_of_enough short
    obtain ⟨-, moved⟩ :=
      fillCurrent_spec (n.toNat - a.recycled.length) a.current (by have := a.stop.toNat_lt; omega)
    exact absurd (UInt64.le_iff_toNat_le.mpr (by omega)) full
  all_goals exact Option.some_ne_none _

end Good

/-! ## Runs

A caller holds the frames it was handed and gives back only those.  `alloc_successive`
is asked for no more pages than the address space has past `current`: the source does
not check it. -/

/-- A call of `GlobalFrameAllocator`. -/
inductive FrameCall where
  | alloc
  | dealloc (addr : Usize)
  | allocSuccessive (n : Usize)
  | allocIter (n : Usize)
  | deallocIter (addrs : List Usize)
  deriving DecidableEq, Repr

/-- A call on the allocator and the frames held; `none` is a panic.  The frames of
`alloc_successive` are the `n` pages from the address it returns. -/
def FrameCall.run : FrameCall → StackGlobalFrameAllocator × List Usize →
    Option (StackGlobalFrameAllocator × List Usize)
  | .alloc, (a, held) =>
    match a.alloc with
    | .ok (pa, a') => some (a', pa :: held)
    | .error _ => some (a, held)
  | .dealloc addr, (a, held) => some (a.dealloc addr, held.erase addr)
  | .allocSuccessive n, (a, held) =>
    (a.allocSuccessive n).map fun
      | .ok (ret, a') => (a', (fillCurrent n.toNat ret).1 ++ held)
      | .error _ => (a, held)
  | .allocIter n, (a, held) =>
    (a.allocIter n).map fun
      | .ok (given, a') => (a', given ++ held)
      | .error _ => (a, held)
  | .deallocIter addrs, (a, held) => some (a.deallocIter addrs, held.diff addrs)

/-- What a caller may ask. -/
def FrameCall.Allowed : FrameCall → StackGlobalFrameAllocator × List Usize → Prop
  | .dealloc addr, (_, held) => addr ∈ held
  | .deallocIter addrs, (_, held) => addrs.Subperm held
  | .allocSuccessive n, (a, _) => a.current.toNat + n.toNat * 4096 < 2 ^ 64
  | _, _ => True

/-- One allowed call that does not panic. -/
inductive FrameStep : StackGlobalFrameAllocator × List Usize →
    StackGlobalFrameAllocator × List Usize → Prop
  | call {s s'} (c : FrameCall) (allowed : c.Allowed s) (ran : c.run s = some s') : FrameStep s s'

/-- Every allowed call keeps the invariant. -/
theorem FrameCall.run_good {c : FrameCall} {s s' : StackGlobalFrameAllocator × List Usize}
    (good : s.1.Good s.2) (allowed : c.Allowed s) (ran : c.run s = some s') : s'.1.Good s'.2 := by
  obtain ⟨a, held⟩ := s
  cases c with
  | alloc =>
    simp only [run] at ran
    split at ran
    case h_1 pa a' taken =>
      cases ran
      exact good.of_alloc taken
    case h_2 =>
      cases ran
      exact good
  | dealloc addr =>
    cases ran
    exact good.of_dealloc allowed
  | allocSuccessive n =>
    obtain ⟨result, taken, rfl⟩ := Option.map_eq_some_iff.mp ran
    cases result with
    | ok value => exact good.of_allocSuccessive allowed taken
    | error => exact good
  | allocIter n =>
    obtain ⟨result, filled, rfl⟩ := Option.map_eq_some_iff.mp ran
    cases result with
    | ok value => exact (good.of_allocIter filled).2
    | error => exact good
  | deallocIter addrs =>
    cases ran
    exact good.of_deallocIter allowed

theorem Good.of_reachable {s s' : StackGlobalFrameAllocator × List Usize} (good : s.1.Good s.2)
    (reach : Relation.ReflTransGen FrameStep s s') : s'.1.Good s'.2 := by
  induction reach with
  | refl => exact good
  | tail _ step ih =>
    obtain ⟨c, allowed, ran⟩ := step
    exact c.run_good ih allowed ran

/-- Over every run of allowed calls from a fresh allocator, no two holders share a frame,
every frame held is a page of the allocator's `[begin, end)`, and `size` counts the pages
not held. -/
theorem held_distinct_of_reachable {begin stop : Usize} {a₀ : StackGlobalFrameAllocator}
    (started : init begin stop = some a₀) (begin4K : begin.toNat % 4096 = 0)
    (stop4K : stop.toNat % 4096 = 0) {s : StackGlobalFrameAllocator × List Usize}
    (reach : Relation.ReflTransGen FrameStep (a₀, []) s) :
    s.2.Nodup ∧
      (∀ x ∈ s.2, s.1.begin.toNat ≤ x.toNat ∧ x.toNat < s.1.stop.toNat ∧
        (x.toNat - s.1.begin.toNat) % 4096 = 0) ∧
      s.1.size.toNat + s.2.length = (s.1.stop.toNat - s.1.begin.toNat) / 4096 := by
  have good : s.1.Good s.2 := Good.of_reachable (good_init started begin4K stop4K) reach
  refine ⟨good.held_nodup, fun x held => ?_, good.size_add⟩
  obtain ⟨above, below, aligned⟩ := good.mem_range (List.mem_append_left _ held)
  exact ⟨above, lt_of_lt_of_le below good.within, aligned⟩

/-- `alloc_successive` adds `n * PAGE_SIZE` to `current` with no check of overflow: for
`n = 2^52` the sum wraps to `current`, the call hands out `current` and leaves the allocator
as it was, and the next `alloc` hands out the same frame. -/
theorem allocSuccessive_wraps :
    (∀ a : StackGlobalFrameAllocator, a.current ≤ a.stop →
      a.allocSuccessive (2 ^ 52) = some (.ok (a.current, a))) ∧
    ∀ begin stop : Usize, begin < stop → ∃ a a' : StackGlobalFrameAllocator,
      init begin stop = some a ∧ a.allocSuccessive (2 ^ 52) = some (.ok (begin, a)) ∧
        a.alloc = .ok (begin, a') := by
  have unchanged : ∀ a : StackGlobalFrameAllocator, a.current ≤ a.stop →
      a.allocSuccessive (2 ^ 52) = some (.ok (a.current, a)) := by
    intro a within
    -- `2^52 * PAGE_SIZE` is `2^64`, which is `0` as a `usize`
    have wraps : a.current + (2 ^ 52 : Usize) * page = a.current := by
      rw [show (2 ^ 52 : Usize) * page = 0 by decide, UInt64.add_zero]
    have notBeyond : ¬a.current > a.stop := UInt64.not_lt.mpr within
    simp only [allocSuccessive, wraps, notBeyond, if_false]
    rfl
  refine ⟨unchanged, fun begin stop lt => ?_⟩
  have fresh : init begin stop = some ⟨begin, begin, stop, []⟩ := if_pos lt
  have room : begin ≠ stop := UInt64.ne_of_lt lt
  refine ⟨_, ⟨begin, begin + page, stop, []⟩, fresh, unchanged _ (UInt64.le_of_lt lt), ?_⟩
  simp only [alloc, room, if_false]

end StackGlobalFrameAllocator

end FtlOs
