import FtlOs.Util.MaxHeap.Spec
import FtlOs.Util.Time

/-!
# The sleep queue of the kernel's timers

`timer/sleep.rs` keeps the pending timers in a `TraceMaxHeap<Reverse<TimerCondVar>>`:
the earliest timeout is on top, and the cell of every timer's `TimerTracer` holds the
timer's index in the heap.  `check_timer` wakes the timers that are due, and `pop_timer`,
called when a `TimeoutFuture` is done or dropped, cancels its timer through its tracer.

The queue is the heap's data and the tracer cells.  A `TimerTracer` is a pointer `P` to
its cell; `TimerTracer::new` stores `usize::MAX` in it, so a cell that no queued timer
owns holds `usize::MAX`, and `in_queue` reads it.  The lock `SLEEP_QUEUE` makes every call
one step.

Every reachable queue is `Good`: a valid heap, every idle cell at `usize::MAX`, and fewer
timers than `usize::MAX`, as in any `Vec`.  From a good queue `check_timer(current)` wakes
exactly the timers due at `current`, and `pop_timer(tracer)` takes out exactly the
tracer's own timer, if it is queued.
-/

namespace FtlOs

/-- `TimerCondVar`: a timeout and the waker to wake at it, ordered on the timeout alone. -/
structure TimerCondVar (W : Type) where
  timeout : Instant
  waker : W

namespace SleepQueue

open MaxHeapEx ListHeap

variable {W P : Type} [DecidableEq P]

/-- The order of `Reverse<TimerCondVar>`: the earliest timeout is the greatest. -/
def timerKey (c : TimerCondVar W) : Instantᵒᵈ := OrderDual.toDual c.timeout

/-- `SleepQueue::ignore`: a timeout of `i64::MAX` seconds or more never comes. -/
def ignore (timeout : Instant) : Bool := decide (2 ^ 63 - 1 ≤ timeout.secs)

/-- `SleepQueue::push`: the queue and the cells after. -/
def push (now : Instant) (waker : W) (tracer : P) (queue : List (TimerCondVar W × P))
    (cells : P → Nat) : List (TimerCondVar W × P) × (P → Nat) :=
  if ignore now then (queue, cells)
  else MaxHeapEx.push timerKey (traceUpdater P) (⟨now, waker⟩, tracer) queue cells

/-- `push_timer`: `ignore` is tested here and again in `SleepQueue::push`. -/
def pushTimer (timeout : Instant) (waker : W) (tracer : P) (queue : List (TimerCondVar W × P))
    (cells : P → Nat) : List (TimerCondVar W × P) × (P → Nat) :=
  if ignore timeout then (queue, cells) else push timeout waker tracer queue cells

/-- The loop of `SleepQueue::check_timer(current)`, for at most `fuel` rounds: the timers
woken, in order, the queue and the cells; `none` is the panic of `pop().unwrap()`. -/
def checkTimerLoop (current : Instant) :
    Nat → List (TimerCondVar W × P) → (P → Nat) →
      Option (List (TimerCondVar W × P) × List (TimerCondVar W × P) × (P → Nat))
  | 0, queue, cells => some ([], queue, cells)
  | fuel + 1, queue, cells =>
    match queue.head? with
    | none => some ([], queue, cells)
    | some (v, _) =>
      if v.timeout ≤ current then
        match MaxHeapEx.pop timerKey (traceUpdater P) queue cells with
        | none => none
        | some (popped, queue', cells') =>
          (checkTimerLoop current fuel queue' cells').map fun (woken, rest) =>
            (popped :: woken, rest)
      else some ([], queue, cells)

/-- `SleepQueue::check_timer(current)`: every round pops one timer, so the length of the
queue is enough rounds.  The number it returns is the length of the list woken. -/
def checkTimer (current : Instant) (queue : List (TimerCondVar W × P)) (cells : P → Nat) :
    Option (List (TimerCondVar W × P) × List (TimerCondVar W × P) × (P → Nat)) :=
  checkTimerLoop current queue.length queue cells

/-- `pop_timer(tracer)`: `in_queue` is read before the lock is taken and again under it. -/
def popTimer (tracer : P) (queue : List (TimerCondVar W × P)) (cells : P → Nat) :
    Option (List (TimerCondVar W × P) × (P → Nat)) :=
  if cells tracer = usizeMax.toNat then some (queue, cells)
  else
    let idx := cells tracer
    if idx = usizeMax.toNat then some (queue, cells)
    else (MaxHeapEx.removeIdx timerKey (traceUpdater P) idx queue cells).map fun r => r.2

/-! ## The invariant -/

/-- What every reachable queue satisfies. -/
structure Good (queue : List (TimerCondVar W × P)) (cells : P → Nat) : Prop where
  valid : Valid timerKey queue cells
  idle : ∀ p, p ∉ queue.map Prod.snd → cells p = usizeMax.toNat
  fits : queue.length ≤ usizeMax.toNat

variable {queue : List (TimerCondVar W × P)} {cells : P → Nat}

omit [DecidableEq P] in
theorem good_init : Good ([] : List (TimerCondVar W × P)) fun _ => usizeMax.toNat :=
  ⟨valid_nil timerKey _, fun _ _ => rfl, Nat.zero_le _⟩

omit [DecidableEq P] in
/-- A tracer whose cell holds `usize::MAX` has no timer queued. -/
theorem Good.not_mem_of_idle (good : Good queue cells) {tracer : P}
    (idle : cells tracer = usizeMax.toNat) : tracer ∉ queue.map Prod.snd := by
  intro inside
  obtain ⟨e, mem, same⟩ := List.mem_map.mp inside
  obtain ⟨i, lt, rfl⟩ := List.mem_iff_getElem.mp mem
  have atIdx := good.valid.traced i _ (List.getElem?_eq_getElem lt)
  rw [same, idle] at atIdx
  have := good.fits
  omega

/-- Taking a timer out of a good queue, as `pop` and `remove_idx` do, leaves it good. -/
theorem Good.takeOut (good : Good queue cells) {x : TimerCondVar W × P}
    {queue' : List (TimerCondVar W × P)} {cells' : P → Nat} (valid : Valid timerKey queue' cells')
    (perm : (x :: queue').Perm queue) (cleared : cells' x.2 = usizeMax.toNat)
    (frame : ∀ p, p ∉ queue.map Prod.snd → cells' p = cells p) : Good queue' cells' := by
  refine ⟨valid, fun p notIn => ?_, ?_⟩
  · by_cases same : p = x.2
    · rw [same]
      exact cleared
    · have notQueued : p ∉ queue.map Prod.snd := fun inside => by
        obtain ⟨z, zIn, zSame⟩ := List.mem_map.mp inside
        rcases List.mem_cons.mp (perm.symm.subset zIn) with rfl | zLeft
        · exact same zSame.symm
        · exact notIn (zSame ▸ List.mem_map_of_mem zLeft)
      exact (frame p notQueued).trans (good.idle p notQueued)
  · have := perm.length_eq
    have := good.fits
    simp only [List.length_cons] at *
    omega

theorem Good.of_push (good : Good queue cells) (now : Instant) (waker : W) {tracer : P}
    (fresh : tracer ∉ queue.map Prod.snd) (room : queue.length < usizeMax.toNat) :
    Good (push now waker tracer queue cells).1 (push now waker tracer queue cells).2 := by
  unfold push
  split
  · exact good
  · obtain ⟨valid, perm, frame⟩ := push_valid good.valid (⟨now, waker⟩, tracer) fresh
    refine ⟨valid, fun p notIn => ?_, ?_⟩
    · have notOld : p ∉ (queue ++ [((⟨now, waker⟩ : TimerCondVar W), tracer)]).map Prod.snd :=
        not_mem_of_perm perm.symm notIn
      have notQueued : p ∉ queue.map Prod.snd := fun inside =>
        notOld (List.map_append ▸ List.mem_append_left _ inside)
      exact (frame p notOld).trans (good.idle p notQueued)
    · rw [perm.length_eq, List.length_append, List.length_singleton]
      omega

theorem Good.of_pushTimer (good : Good queue cells) (timeout : Instant) (waker : W)
    {tracer : P} (fresh : tracer ∉ queue.map Prod.snd) (room : queue.length < usizeMax.toNat) :
    Good (pushTimer timeout waker tracer queue cells).1
      (pushTimer timeout waker tracer queue cells).2 := by
  unfold pushTimer
  split
  · exact good
  · exact good.of_push timeout waker fresh room

/-! ## `check_timer` -/

omit [DecidableEq P] in
/-- No timer of a good queue is due before the one on top. -/
theorem Good.top_le (good : Good queue cells) {top x : TimerCondVar W × P}
    (atTop : queue[0]? = some top) (mem : x ∈ queue) : top.1.timeout ≤ x.1.timeout :=
  OrderDual.toDual_le_toDual.mp (good.valid.heap.le_head atTop mem)

/-- The loop of `check_timer`, given a round for every timer, pops exactly the timers due
and leaves a good queue. -/
theorem checkTimerLoop_spec (current : Instant) (fuel : Nat) (queue : List (TimerCondVar W × P))
    (cells : P → Nat) (good : Good queue cells) (enough : queue.length ≤ fuel) :
    ∃ woken queue' cells', checkTimerLoop current fuel queue cells = some (woken, queue', cells') ∧
      woken.Perm (queue.filter fun e => e.1.timeout ≤ current) ∧
      queue'.Perm (queue.filter fun e => ¬e.1.timeout ≤ current) ∧ Good queue' cells' := by
  induction fuel generalizing queue cells with
  | zero =>
    obtain rfl : queue = [] := List.eq_nil_of_length_eq_zero (by omega)
    exact ⟨[], [], cells, rfl, List.Perm.refl _, List.Perm.refl _, good⟩
  | succ fuel ih =>
    rcases queue with _ | ⟨head, rest⟩
    · exact ⟨[], [], cells, rfl, List.Perm.refl _, List.Perm.refl _, good⟩
    by_cases due : head.1.timeout ≤ current
    · -- the timer on top is due: pop it and go round again
      obtain ⟨⟨top, queue', cells'⟩, popped⟩ := Option.ne_none_iff_exists'.mp
        (mt (pop_eq_none_iff timerKey (traceUpdater P) (head :: rest) cells).mp (List.cons_ne_nil _ _))
      obtain ⟨valid, perm, greatest, cleared, frame⟩ := pop_valid good.valid popped
      have topDue : top.1.timeout ≤ current :=
        (OrderDual.toDual_le_toDual.mp (greatest head List.mem_cons_self)).trans due
      have shorter : queue'.length ≤ fuel := by
        have := perm.length_eq
        simp only [List.length_cons] at this enough
        omega
      obtain ⟨woken, queue'', cells'', loop, wokenPerm, leftPerm, good''⟩ :=
        ih queue' cells' (good.takeOut valid perm cleared frame) shorter
      refine ⟨top :: woken, queue'', cells'', ?_, ?_, ?_, good''⟩
      · simp only [checkTimerLoop, List.head?_cons, if_pos due, popped, loop, Option.map_some]
      · have filtered := perm.filter fun e => decide (e.1.timeout ≤ current)
        rw [List.filter_cons_of_pos (by simpa using topDue)] at filtered
        exact (wokenPerm.cons top).trans filtered
      · have filtered := perm.filter fun e => decide ¬(e.1.timeout ≤ current)
        rw [List.filter_cons_of_neg (by simpa using topDue)] at filtered
        exact leftPerm.trans filtered
    · -- the timer on top is not due, and none below it is
      have notDue : ∀ x ∈ head :: rest, ¬x.1.timeout ≤ current := fun x mem early =>
        due ((good.top_le rfl mem).trans early)
      refine ⟨[], head :: rest, cells, ?_, ?_, ?_, good⟩
      · simp only [checkTimerLoop, List.head?_cons, if_neg due]
      · rw [List.filter_eq_nil_iff.mpr fun x mem => by simpa using notDue x mem]
      · rw [List.filter_eq_self.mpr fun x mem => by simpa using notDue x mem]

/-! ## `pop_timer` -/

/-- `pop_timer` takes out exactly the tracer's own timer, if it is queued, and leaves a good
queue with the tracer's cell at `usize::MAX`. -/
theorem popTimer_spec (good : Good queue cells) (tracer : P) :
    ∃ queue' cells', popTimer tracer queue cells = some (queue', cells') ∧
      queue'.Perm (queue.filter fun e => e.2 ≠ tracer) ∧ cells' tracer = usizeMax.toNat ∧
      Good queue' cells' := by
  by_cases idle : cells tracer = usizeMax.toNat
  · have notQueued := good.not_mem_of_idle idle
    refine ⟨queue, cells, if_pos idle, ?_, idle, good⟩
    refine (List.filter_eq_self.mpr fun e mem => ?_).symm ▸ List.Perm.refl _
    have other : e.2 ≠ tracer := fun same => notQueued (same ▸ List.mem_map_of_mem mem)
    simpa using other
  · -- the tracer's timer is queued, at the index its cell holds
    have queued : tracer ∈ queue.map Prod.snd := by
      by_contra notIn
      exact idle (good.idle tracer notIn)
    obtain ⟨e, mem, same⟩ := List.mem_map.mp queued
    obtain ⟨i, lt, rfl⟩ := List.mem_iff_getElem.mp mem
    have atIdx : cells tracer = i := same ▸ good.valid.traced i _ (List.getElem?_eq_getElem lt)
    have notMax : i ≠ usizeMax.toNat := atIdx ▸ idle
    obtain ⟨queue', cells', removed, valid, perm, cleared, frame⟩ := removeIdx_valid good.valid lt
    refine ⟨queue', cells', ?_, ?_, same ▸ cleared, good.takeOut valid perm cleared frame⟩
    · simp only [popTimer, atIdx, if_neg notMax, removed, Option.map_some]
    · have notOld := (good.valid.distinct.perm perm).head_not_mem
      have rest : queue'.filter (fun e => e.2 ≠ tracer) = queue' := by
        refine List.filter_eq_self.mpr fun e inQueue => ?_
        have other : e.2 ≠ tracer := fun sameTracer =>
          notOld (by rw [same, ← sameTracer]; exact List.mem_map_of_mem inQueue)
        simpa using other
      have filtered := perm.filter fun e => decide (e.2 ≠ tracer)
      rw [List.filter_cons_of_neg (by simpa using same), rest] at filtered
      exact filtered

/-! ## Runs -/

/-- A call on the sleep queue, under its lock. -/
inductive TimerCall (W P : Type) where
  | pushTimer (timeout : Instant) (waker : W) (tracer : P)
  | checkTimer (current : Instant)
  | popTimer (tracer : P)

namespace TimerCall

/-- A call on the queue and the cells; `none` is a panic. -/
def run : TimerCall W P → List (TimerCondVar W × P) × (P → Nat) →
    Option (List (TimerCondVar W × P) × (P → Nat))
  | .pushTimer timeout waker tracer, (queue, cells) =>
    some (SleepQueue.pushTimer timeout waker tracer queue cells)
  | .checkTimer current, (queue, cells) =>
    (SleepQueue.checkTimer current queue cells).map fun r => r.2
  | .popTimer tracer, (queue, cells) => SleepQueue.popTimer tracer queue cells

/-- What the callers guarantee: a `TimeoutFuture` pushes its own new tracer, which no
queued timer has, and the queue, a `Vec`, has room for one more. -/
def Allowed : TimerCall W P → List (TimerCondVar W × P) × (P → Nat) → Prop
  | .pushTimer _ _ tracer, (queue, _) =>
    tracer ∉ queue.map Prod.snd ∧ queue.length < usizeMax.toNat
  | _, _ => True

end TimerCall

/-- One allowed call. -/
def TimerStep (s s' : List (TimerCondVar W × P) × (P → Nat)) : Prop :=
  ∃ c : TimerCall W P, c.Allowed s ∧ c.run s = some s'

/-- The queues a run of allowed calls reaches from an empty queue, every tracer cell at
`usize::MAX`. -/
def Reachable (s : List (TimerCondVar W × P) × (P → Nat)) : Prop :=
  Relation.ReflTransGen TimerStep ([], fun _ => usizeMax.toNat) s

variable {s s' : List (TimerCondVar W × P) × (P → Nat)}

theorem Good.step (good : Good s.1 s.2) (step : TimerStep s s') : Good s'.1 s'.2 := by
  obtain ⟨call, allowed, ran⟩ := step
  obtain ⟨queue, cells⟩ := s
  cases call with
  | pushTimer timeout waker tracer =>
    cases ran
    exact good.of_pushTimer timeout waker allowed.1 allowed.2
  | checkTimer current =>
    obtain ⟨woken, queue', cells', checked, -, -, good'⟩ :=
      checkTimerLoop_spec current queue.length queue cells good le_rfl
    simp only [TimerCall.run, SleepQueue.checkTimer, checked, Option.map_some,
      Option.some.injEq] at ran
    subst ran
    exact good'
  | popTimer tracer =>
    obtain ⟨queue', cells', popped, -, -, good'⟩ := popTimer_spec good tracer
    simp only [TimerCall.run, popped, Option.some.injEq] at ran
    subst ran
    exact good'

/-- Every reachable queue is good: the invariant rule over the run. -/
theorem Good.of_reachable (reach : Reachable s) : Good s.1 s.2 := by
  induction reach with
  | refl => exact good_init
  | tail _ step good => exact good.step step

/-! ## What the timers rely on -/

/-- Along every run of a `TraceMaxHeap` from empty, the data is a heap, it and what was
taken out are what was pushed, and every cell holds its element's index or, once the
element is taken out, `usize::MAX`; `pop` returns a greatest element and `remove_idx(idx)`
the element at `idx`.  Along every run of the sleep queue, `check_timer(current)` wakes
exactly the timers due at `current`, and `pop_timer(tracer)` takes out exactly the
tracer's own timer. -/
theorem traceHeap_timers_exact {T K P W Q : Type} [LinearOrder K] [DecidableEq P]
    [DecidableEq Q] (key : T → K) (cells : P → Nat) :
    (∀ s : HeapState T P, Relation.ReflTransGen (HeapStep key) ⟨[], cells, [], []⟩ s →
      HeapGood key s ∧
      (pop key (traceUpdater P) s.data s.cells = none ↔ s.data = []) ∧
      (∀ top data' cells', pop key (traceUpdater P) s.data s.cells = some (top, data', cells') →
        ∀ x ∈ s.data, key x.1 ≤ key top.1) ∧
      ∀ idx (lt : idx < s.data.length), ∃ data' cells',
        removeIdx key (traceUpdater P) idx s.data s.cells = some (s.data[idx], data', cells')) ∧
    ∀ s : List (TimerCondVar W × Q) × (Q → Nat), Reachable s →
      (∀ current, ∃ woken queue' cells',
        checkTimer current s.1 s.2 = some (woken, queue', cells') ∧
        woken.Perm (s.1.filter fun e => e.1.timeout ≤ current) ∧
        queue'.Perm (s.1.filter fun e => ¬e.1.timeout ≤ current)) ∧
      ∀ tracer, ∃ queue' cells', popTimer tracer s.1 s.2 = some (queue', cells') ∧
        queue'.Perm (s.1.filter fun e => e.2 ≠ tracer) ∧ cells' tracer = usizeMax.toNat := by
  refine ⟨fun s reach => ?_, fun s reach => ?_⟩
  · have good := HeapGood.of_reachable cells reach
    refine ⟨good, pop_eq_none_iff key _ s.data s.cells, fun top data' cells' popped => ?_,
      fun idx lt => ?_⟩
    · exact (pop_valid good.valid popped).2.2.1
    · obtain ⟨data', cells', removed, -⟩ := removeIdx_valid good.valid lt
      exact ⟨data', cells', removed⟩
  · have good := Good.of_reachable reach
    refine ⟨fun current => ?_, fun tracer => ?_⟩
    · obtain ⟨woken, queue', cells', checked, wokenPerm, leftPerm, -⟩ :=
        checkTimerLoop_spec current s.1.length s.1 s.2 good le_rfl
      exact ⟨woken, queue', cells', checked, wokenPerm, leftPerm⟩
    · obtain ⟨queue', cells', popped, perm, cleared, -⟩ := popTimer_spec good tracer
      exact ⟨queue', cells', popped, perm, cleared⟩

/-- Two timers, due at 5 s and at 10 s, with wakers 1 and 2 and tracers 7 and 8. -/
def twoTimers : List (TimerCondVar Nat × Nat) × (Nat → Nat) :=
  let first := pushTimer (Instant.fromSecs 5) 1 7 [] fun _ => usizeMax.toNat
  pushTimer (Instant.fromSecs 10) 2 8 first.1 first.2

theorem twoTimers_reachable : Reachable twoTimers :=
  .tail (.single ⟨.pushTimer ⟨5, 0, by norm_num⟩ 1 7, ⟨by decide, by decide⟩, rfl⟩)
    ⟨.pushTimer ⟨10, 0, by norm_num⟩ 2 8, ⟨by decide, by decide⟩, rfl⟩

/-- At 7 s the timer due at 5 s is woken and the other stays; a heap with one element
pushed is good. -/
theorem traceHeap_timers_exact_at_two :
    HeapGood (fun n : Nat => n)
      ⟨(MaxHeapEx.push (fun n : Nat => n) (traceUpdater Nat) (3, 7) [] fun _ => 0).1,
        (MaxHeapEx.push (fun n : Nat => n) (traceUpdater Nat) (3, 7) [] fun _ => 0).2, [(3, 7)],
        []⟩ ∧
      ∃ woken queue' cells', checkTimer ⟨7, 0, by norm_num⟩ twoTimers.1 twoTimers.2 =
          some (woken, queue', cells') ∧
        woken.Perm (twoTimers.1.filter fun e => e.1.timeout ≤ ⟨7, 0, by norm_num⟩) ∧
        queue'.Perm (twoTimers.1.filter fun e => ¬e.1.timeout ≤ ⟨7, 0, by norm_num⟩) :=
  ⟨((traceHeap_timers_exact (W := Nat) (Q := Nat) (fun n : Nat => n) (fun _ : Nat => 0)).1 _
      (.single ⟨.push (3, 7), by simp [HeapCall.Allowed], rfl⟩)).1,
    ((traceHeap_timers_exact (fun n : Nat => n) (fun _ : Nat => 0)).2 twoTimers
      twoTimers_reachable).1 _⟩

end SleepQueue

end FtlOs
