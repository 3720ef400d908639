import FtlOs.Library.Run

/-!
# The RCU manager

`RcuManager` of `ftl-util/src/rcu/manager.rs` frees what RCU readers may still see only after
every hart that was reading has left its critical section.  One `u64`, `flags`, holds per hart
a pending bit, set by `critical_start`, and a current bit, which `critical_end` clears with a
`compare_exchange` loop; the hart that empties the current half rotates, making the pending
half current, freeing `rcu_current`, and moving `rcu_pending` and its own queue `add` into
`rcu_current` in a later step under the lock `cp`.  Each hart's `LocalRcuManager` of
`kernel/src/memory/rcu.rs` gathers what it retires and hands it over as `add` when it leaves
its section.
-/

namespace FtlOs

namespace Rcu

/-- A hart's number: the manager asserts `id < 32`. -/
abbrev Hart := Fin 32

/-- An `RcuDrop`, by the number of the object it frees. -/
abbrev Obj := Nat

/-- `mask_pending`: `1 << id`, the hart's bit in the pending half. -/
def maskPending (id : Hart) : UInt64 := 1 <<< UInt64.ofNat id.val

/-- `mask_current`: `mask_pending << 32`, the hart's bit in the current half. -/
def maskCurrent (id : Hart) : UInt64 := maskPending id <<< 32

/-- `mask_all`: both bits of the hart. -/
def maskAll (id : Hart) : UInt64 := maskPending id ||| maskCurrent id

/-- `fast_append(dst, src)`: `dst` with the elements of `src` appended, after swapping the two
when `src` is more than 20 longer, and `src` emptied. -/
def fastAppend {α : Type} (dst src : List α) : List α × List α :=
  if dst.length + 20 < src.length then (src ++ dst, []) else (dst ++ src, [])

/-- `CP`: the queue `rcu_current`, freed at the next rotation, and `rcu_pending`. -/
structure CP where
  rcuCurrent : List Obj
  rcuPending : List Obj
  deriving DecidableEq, Repr

/-- Where a hart is inside `RcuManager::critical_start` or `critical_end`: the atomic
instruction it executes next. -/
inductive Phase
  | idle
  /-- `critical_start`: the load of `flags`. -/
  | startLoad
  /-- `critical_start`: `fetch_or(mask_pending)`. -/
  | startOr
  /-- `critical_end`: the load of `prev`. -/
  | endLoad
  /-- `critical_end`: the loop's look at the queues without the lock (`need_release`). -/
  | endRead (prev : UInt64)
  /-- `critical_end`: `compare_exchange(prev, next)`, with what the loop computed. -/
  | endCas (prev next : UInt64) (release needRelease : Bool)
  /-- `fast_append(&mut rcu_pending, add)` under the lock. -/
  | appendPending
  /-- `fast_append(&mut rcu_current, add)` under the lock. -/
  | appendCurrent
  /-- `vec_swap(add, rcu_current)` and `fast_append(rcu_current, rcu_pending)` under the lock. -/
  | swap
  /-- `fetch_and(!mask_current)`. -/
  | unlock
  /-- the `release` of everything in `add`. -/
  | release
  deriving DecidableEq, Repr

/-- `LocalRcuManager`: the objects the hart retired, whether it is in a critical section, and
whether a timer tick came. -/
structure Local where
  pending : List Obj
  critical : Bool
  tick : Bool
  deriving DecidableEq, Repr

/-- The manager, every hart's side of it, the RCU cell, and what was freed. -/
structure State where
  flags : UInt64
  cp : CP
  localRcu : Hart → Local
  phase : Hart → Phase
  /-- the object in the RCU cell -/
  cell : Obj
  /-- the number of the next new object -/
  fresh : Obj
  /-- ghost: what each hart read in its current critical section -/
  refs : Hart → List Obj
  /-- the objects freed so far -/
  freed : List Obj

namespace State

/-- Hart `id` goes on to phase `ph`. -/
@[simp] def setPhase (s : State) (id : Hart) (ph : Phase) : State :=
  { s with phase := Function.update s.phase id ph }

/-- Hart `id`'s side becomes `l`. -/
@[simp] def setLocal (s : State) (id : Hart) (l : Local) : State :=
  { s with localRcu := Function.update s.localRcu id l }

/-- Hart `id`'s queue becomes `q`. -/
@[simp] def setPending (s : State) (id : Hart) (q : List Obj) : State :=
  s.setLocal id { s.localRcu id with pending := q }

end State

/-- The `next` that `critical_end`'s loop computes from `prev`, and its `release`: both bits of
the hart cleared, and when the current half is then empty, the pending half moved up, with the
hart's current bit set as a lock when there is something to free. -/
def nextFlags (prev : UInt64) (id : Hart) (needRelease : Bool) : UInt64 × Bool :=
  let next := prev &&& ~~~maskAll id
  if next >>> 32 == 0 then
    (if needRelease then (next <<< 32) ||| maskCurrent id else next <<< 32, true)
  else (next, false)

/-- Where `critical_end` goes after its exchange: without a rotation it appends `add` to
`rcu_pending`, with one and nothing queued to `rcu_current`, and otherwise it swaps the queues;
an empty `add` is not appended. -/
def afterCas (release needRelease : Bool) (add : List Obj) : Phase :=
  if !release then (if add.isEmpty then .idle else .appendPending)
  else if !needRelease then (if add.isEmpty then .idle else .appendCurrent)
  else .swap

/-- One atomic instruction of hart `id` inside the manager, on `add`, its queue; `none` when the
hart is in no call. -/
def exec (s : State) (id : Hart) : Option State :=
  let add := (s.localRcu id).pending
  match s.phase id with
  | .idle => none
  | .startLoad =>
    some (s.setPhase id (if s.flags &&& maskPending id == 0 then .startOr else .idle))
  | .startOr => some { s.setPhase id .idle with flags := s.flags ||| maskPending id }
  | .endLoad =>
    -- a hart with neither bit set only hands its queue over
    some (s.setPhase id (if s.flags &&& maskAll id == 0 then
      (if add.isEmpty then .idle else .appendPending) else .endRead s.flags))
  | .endRead prev =>
    let needRelease := !s.cp.rcuPending.isEmpty || !s.cp.rcuCurrent.isEmpty
    some (s.setPhase id
      (.endCas prev (nextFlags prev id needRelease).1 (nextFlags prev id needRelease).2
        needRelease))
  | .endCas prev next release needRelease =>
    -- a failed exchange starts the loop over with the `flags` it found
    if s.flags == prev then
      some { s.setPhase id (afterCas release needRelease add) with flags := next }
    else some (s.setPhase id (.endRead s.flags))
  | .appendPending =>
    some { (s.setPhase id .idle).setPending id (fastAppend s.cp.rcuPending add).2 with
      cp := { s.cp with rcuPending := (fastAppend s.cp.rcuPending add).1 } }
  | .appendCurrent =>
    some { (s.setPhase id .idle).setPending id (fastAppend s.cp.rcuCurrent add).2 with
      cp := { s.cp with rcuCurrent := (fastAppend s.cp.rcuCurrent add).1 } }
  | .swap =>
    -- `add` takes the old `rcu_current`, which takes `add` and then `rcu_pending`
    some { (s.setPhase id .unlock).setPending id s.cp.rcuCurrent with
      cp := ⟨(fastAppend add s.cp.rcuPending).1, (fastAppend add s.cp.rcuPending).2⟩ }
  | .unlock => some { s.setPhase id .release with flags := s.flags &&& ~~~maskCurrent id }
  | .release => some { (s.setPhase id .idle).setPending id [] with freed := s.freed ++ add }

/-- What a hart does next. -/
inductive Action
  /-- `LocalRcuManager::critical_start` -/
  | criticalStart
  /-- `LocalRcuManager::critical_end` -/
  | criticalEnd
  /-- `LocalRcuManager::critical_end_tick` -/
  | criticalEndTick
  /-- `LocalRcuManager::tick`, from the timer interrupt -/
  | tick
  /-- `rcu_read` of the cell inside a critical section -/
  | read
  /-- a write of a new object into the cell inside a critical section, which hands the old one
  to `rcu_release` -/
  | write
  /-- the next instruction inside the manager -/
  | exec
  deriving DecidableEq, Repr

/-- `LocalRcuManager::critical_end` of hart `id`: it leaves its section, dropping what it read,
and calls the manager's `critical_end` with its queue, unless it is neither in a section nor has
anything queued. -/
def criticalEnd (s : State) (id : Hart) : State :=
  let l := s.localRcu id
  if !l.critical && l.pending.isEmpty then s
  else { (s.setLocal id { l with critical := false }).setPhase id .endLoad with
    refs := Function.update s.refs id [] }

/-- One step of hart `id`, in any interleaving: it starts or ends a section, executes one
instruction of the manager, takes a timer tick (`critical_end_tick`; `CRITICAL_END_FORCE` is
off), or, inside a section, reads the RCU cell or writes a new object into it, whose old one
it retires with `rcu_release`.  `none` when it cannot take it: a call of the hart's side begins
only between the manager's calls, and reads and writes happen inside a section.  The manager's
`rcu_drop`, `rcu_drop_usize` and `rcu_drop_group`, which the kernel does not call, and the
interrupt nesting inside `critical_end` (`pending_rec`, `rec`) are left out. -/
def step (s : State) (id : Hart) : Action → Option State
  | .exec => exec s id
  | .tick => some (s.setLocal id { s.localRcu id with tick := true })
  | .criticalStart =>
    if s.phase id ≠ .idle then none
    else if (s.localRcu id).critical then some s
    else some ((s.setLocal id { s.localRcu id with critical := true, tick := false }).setPhase id
      .startLoad)
  | .criticalEnd => if s.phase id ≠ .idle then none else some (criticalEnd s id)
  | .criticalEndTick =>
    if s.phase id ≠ .idle then none
    else if !(s.localRcu id).tick then some s
    else some (criticalEnd (s.setLocal id { s.localRcu id with tick := false }) id)
  | .read =>
    if s.phase id ≠ .idle ∨ !(s.localRcu id).critical then none
    else some { s with refs := Function.update s.refs id (s.refs id ++ [s.cell]) }
  | .write =>
    if s.phase id ≠ .idle ∨ !(s.localRcu id).critical then none
    else some { s.setPending id ((s.localRcu id).pending ++ [s.cell]) with
      cell := s.fresh, fresh := s.fresh + 1 }

/-- A step of some hart. -/
def system (s : State) (c : Hart × Action) : Option State := step s c.1 c.2

/-- All harts out of any section, the queues empty, the cell holding object `0`. -/
def init : State where
  flags := 0
  cp := ⟨[], []⟩
  localRcu := fun _ => ⟨[], false, false⟩
  phase := fun _ => .idle
  cell := 0
  fresh := 1
  refs := fun _ => []
  freed := []

/-- No hart holds a freed object: everything a hart read in its current section is alive. -/
def Safe (s : State) : Prop := ∀ id, ∀ o ∈ s.refs id, o ∉ s.freed

instance (s : State) : Decidable (Safe s) := inferInstanceAs (Decidable (∀ _, _))

/-- The hart is inside `RcuManager::critical_end`. -/
def Phase.ending : Phase → Bool
  | .endLoad | .endRead _ | .endCas .. | .appendPending | .appendCurrent | .swap | .unlock
  | .release => true
  | .idle | .startLoad | .startOr => false

/-- At most one hart is inside `critical_end`. -/
def Serial (s : State) : Prop := ∀ i j, (s.phase i).ending → (s.phase j).ending → i = j

instance (s : State) : Decidable (Serial s) := inferInstanceAs (Decidable (∀ _, _))

/-- A step of the system in a schedule that keeps the `critical_end` calls apart. -/
def serialSystem (s : State) (c : Hart × Action) : Option State :=
  (system s c).filter fun s' => decide (Serial s')

end Rcu

end FtlOs
