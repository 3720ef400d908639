import FtlOs.Library.Bitflags
import FtlOs.Library.Run
import Mathlib.Data.List.Basic

/-!
# The event bus

`EventBus` of `kernel/src/sync/even_bus.rs` holds a set of events and the waiters of
`wait_for_event`, each with the mask of events it waits for; `clear_then_set` wakes, in the same
critical section, every waiter whose mask meets the new events, and `close` wakes them all.
Every run of operations keeps `suspend_event` above the masks of the waiters and apart from the
events (`Inner.Good`), so no run panics (`eventBus_never_panics`), no waiter stays queued while
one of its events is set (`eventBus_no_lost_wakeup`), and the fast path of `clear_then_set`
gives what the locked path gives (`clearThenSet_fast_path`).
-/

namespace FtlOs

namespace EventBus

open Bitflags

/-- `Event`, a `u32` flag set. -/
abbrev Event := BitVec 32

/-- `Event::intersects`. -/
def intersects (a b : Event) : Bool := a &&& b != 0

/-- `EvenBusClosed`, the error of a closed bus. -/
inductive EvenBusClosed where
  | closed
  deriving DecidableEq, Repr

/-- A waiter's `BusNode`: its mask, the events that woke it, and the task its waker wakes. -/
structure BusNode (τ : Type) where
  mask : Event
  suspend : Event
  waker : τ
  deriving DecidableEq, Repr

/-- `EventBusInner`, without `remote`, whose closures no modelled operation reads.  `wakers`
lists the waiters in `next` order, standing for the intrusive list; a waiter's node is its mask,
the events that woke it and the task its waker wakes. -/
structure Inner (τ : Type) where
  closed : Bool
  event : Event
  suspendEvent : Event
  wakers : List (BusNode τ)
  deriving Repr

variable {τ : Type}

/-- `EventBus::new`. -/
def Inner.new : Inner τ := ⟨false, 0, 0, []⟩

/-- `should_suspend`: some event that a waiter may wait for is set. -/
def Inner.shouldSuspend (b : Inner τ) : Bool := intersects b.event b.suspendEvent

/-- The walk of `suspend` over the waiters in `next` order (`pop_when_race`), with the mask
gathered so far: a waiter whose mask misses `event` stays and adds its mask; the others are
woken, told `event`.  The mask gathered, the waiters kept and the waiters woken. -/
def scan (event : Event) : Event → List (BusNode τ) → Event × List (BusNode τ) × List (BusNode τ)
  | acc, [] => (acc, [], [])
  | acc, node :: rest =>
    if node.mask &&& event = 0 then
      let r := scan event (acc ||| node.mask) rest
      (r.1, node :: r.2.1, r.2.2)
    else
      let r := scan event acc rest
      (r.1, r.2.1, { node with suspend := event } :: r.2.2)

/-- `suspend`: the bus after it, and the waiters it woke. -/
def Inner.suspend (b : Inner τ) : Inner τ × List (BusNode τ) :=
  if b.shouldSuspend then
    let r := scan b.event 0 b.wakers
    ({ b with suspendEvent := r.1, wakers := r.2.1 }, r.2.2)
  else (b, [])

/-- `EventBusInner::clear_then_set`: the bus after it, and the waiters it woke. -/
def Inner.clearThenSet (b : Inner τ) (reset set : Event) :
    Except EvenBusClosed (Inner τ × List (BusNode τ)) :=
  if b.closed then .error .closed
  else .ok { b with event := (b.event &&& ~~~reset) ||| set }.suspend

/-- `EventBusInner::register`: the bus after it, and the node when it is woken at once. -/
def Inner.register (b : Inner τ) (node : BusNode τ) :
    Except EvenBusClosed (Inner τ × Option (BusNode τ)) :=
  if b.closed then .error .closed
  else if intersects b.event node.mask then .ok (b, some { node with suspend := b.event })
  else .ok ({ b with suspendEvent := b.suspendEvent ||| node.mask, wakers := b.wakers ++ [node] },
    none)

/-- `EventBusInner::remove`: `pop_self` of a node still in the list. -/
def Inner.remove [DecidableEq τ] (b : Inner τ) (node : BusNode τ) : Inner τ :=
  { b with wakers := b.wakers.erase node }

/-- `EventBusInner::close`: the closed bus and the waiters it woke; `none` when its assert
fails. -/
def Inner.close (b : Inner τ) : Option (Inner τ × List (BusNode τ)) :=
  if b.shouldSuspend then none else some ({ b with closed := true, wakers := [] }, b.wakers)

/-- `EventBus::clear_then_set`: the unlocked test of `closed`, the fast path when the events
would stay as they are (`clear_then_set_unchanged`), and the locked path. -/
def clearThenSet (b : Inner τ) (reset set : Event) :
    Except EvenBusClosed (Inner τ × List (BusNode τ)) :=
  if b.closed then .error .closed
  else if b.event = (b.event &&& ~~~reset) ||| set then .ok (b, [])
  else b.clearThenSet reset set

/-- `EventBus::set`. -/
def set (b : Inner τ) (events : Event) : Except EvenBusClosed (Inner τ × List (BusNode τ)) :=
  clearThenSet b 0 events

/-- `EventBus::clear`. -/
def clear (b : Inner τ) (reset : Event) : Except EvenBusClosed (Inner τ × List (BusNode τ)) :=
  clearThenSet b reset 0

/-- The calls a bus serves. -/
inductive Call (τ : Type) where
  | clearThenSet (reset set : Event)
  | register (node : BusNode τ)
  | remove (node : BusNode τ)
  | close

/-- One call: the bus after it, `none` for a panic.  A call that fails leaves the bus as it
was. -/
def exec [DecidableEq τ] (b : Inner τ) : Call τ → Option (Inner τ)
  | .clearThenSet reset set =>
    some (match clearThenSet b reset set with
      | .ok r => r.1
      | .error _ => b)
  | .register node =>
    some (match b.register node with
      | .ok r => r.1
      | .error _ => b)
  | .remove node => some (b.remove node)
  | .close => (b.close).map Prod.fst

/-! ## The walk of `suspend` -/

section Scan

/-- The walk keeps exactly the waiters whose mask misses the events. -/
theorem scan_kept (e acc : Event) (l : List (BusNode τ)) :
    (scan e acc l).2.1 = l.filter fun node => node.mask &&& e == 0 := by
  induction l generalizing acc with
  | nil => rfl
  | cons node rest ih =>
    simp only [scan]
    split_ifs with misses
    · rw [List.filter_cons, if_pos (by simpa using misses)]
      simp [ih]
    · rw [List.filter_cons, if_neg (by simpa using misses)]
      simp [ih]

/-- The walk wakes the other waiters, in order, each told the events. -/
theorem scan_woken (e acc : Event) (l : List (BusNode τ)) :
    (scan e acc l).2.2 =
      (l.filter fun node => node.mask &&& e != 0).map fun node => { node with suspend := e } := by
  induction l generalizing acc with
  | nil => rfl
  | cons node rest ih =>
    simp only [scan]
    split_ifs with misses
    · rw [List.filter_cons, if_neg (by simpa using misses)]
      simp [ih]
    · rw [List.filter_cons, if_pos (by simpa using misses)]
      simp [ih]

/-- The mask the walk gathers contains the one it started from, and the mask of every waiter
it keeps. -/
theorem scan_covers (e acc : Event) (l : List (BusNode τ)) :
    acc &&& (scan e acc l).1 = acc ∧
      ∀ node ∈ (scan e acc l).2.1, node.mask &&& (scan e acc l).1 = node.mask := by
  induction l generalizing acc with
  | nil => simp [scan]
  | cons node rest ih =>
    by_cases misses : node.mask &&& e = 0
    · -- the kept waiter's mask joins the mask gathered so far
      obtain ⟨grown, kept⟩ := ih (acc ||| node.mask)
      simp only [scan, misses, if_true, List.mem_cons, forall_eq_or_imp]
      exact ⟨subset_trans (subset_or_of_subset BitVec.and_self node.mask) grown,
        subset_trans (subset_or_self node.mask acc) grown, kept⟩
    · simp only [scan, misses, if_false]
      exact ih acc

/-- The walk gathers only masks that miss the events. -/
theorem scan_disjoint (e acc : Event) (l : List (BusNode τ)) (apart : acc &&& e = 0) :
    (scan e acc l).1 &&& e = 0 := by
  induction l generalizing acc with
  | nil => exact apart
  | cons node rest ih =>
    by_cases misses : node.mask &&& e = 0
    · simp only [scan, misses, if_true]
      apply ih
      rw [BitVec.and_or_distrib_right, apart, misses]
      simp
    · simp only [scan, misses, if_false]
      exact ih acc apart

end Scan

/-! ## The invariant -/

/-- `suspend_event` contains the mask of every waiter and misses every event set. -/
structure Inner.Good (b : Inner τ) : Prop where
  calm : b.event &&& b.suspendEvent = 0
  covers : ∀ node ∈ b.wakers, node.mask &&& b.suspendEvent = node.mask

theorem good_new : (Inner.new : Inner τ).Good :=
  ⟨by simp [Inner.new], fun _ member => by simp [Inner.new] at member⟩

section Good

variable {b b' : Inner τ}

theorem Inner.Good.shouldSuspend_eq_false (good : b.Good) : b.shouldSuspend = false := by
  simp [Inner.shouldSuspend, intersects, good.calm]

/-- A queued waiter misses every event set. -/
theorem Inner.Good.apart (good : b.Good) {node : BusNode τ} (queued : node ∈ b.wakers) :
    node.mask &&& b.event = 0 :=
  disjoint_of_subset (good.covers node queued) (by rw [BitVec.and_comm]; exact good.calm)

/-- `suspend` leaves no event set that a waiter may wait for. -/
theorem Inner.suspend_good
    (covers : ∀ node ∈ b.wakers, node.mask &&& b.suspendEvent = node.mask) :
    b.suspend.1.Good := by
  unfold Inner.suspend
  split_ifs with should
  · refine ⟨?_, fun node kept => (scan_covers _ _ _).2 node kept⟩
    rw [BitVec.and_comm]
    exact scan_disjoint _ _ _ (BitVec.zero_and)
  · exact ⟨by simpa [Inner.shouldSuspend, intersects] using should, covers⟩

/-- `suspend` on a bus whose `suspend_event` covers its waiters keeps exactly the waiters whose
mask misses the events and wakes the others, in order, each told the events. -/
theorem Inner.suspend_spec
    (covers : ∀ node ∈ b.wakers, node.mask &&& b.suspendEvent = node.mask) :
    b.suspend.1.event = b.event ∧
      b.suspend.1.wakers = b.wakers.filter (fun node => node.mask &&& b.event == 0) ∧
      b.suspend.2 = (b.wakers.filter fun node => node.mask &&& b.event != 0).map
        fun node => { node with suspend := b.event } := by
  unfold Inner.suspend
  split_ifs with should
  · exact ⟨rfl, scan_kept _ _ _, scan_woken _ _ _⟩
  · -- no event a waiter may wait for is set: the walk is skipped, and rightly so
    have calm : b.suspendEvent &&& b.event = 0 := by
      rw [BitVec.and_comm]
      simpa [Inner.shouldSuspend, intersects] using should
    have misses : ∀ node ∈ b.wakers, node.mask &&& b.event = 0 := fun node queued =>
      disjoint_of_subset (covers node queued) calm
    refine ⟨rfl, (List.filter_eq_self.mpr fun node queued => ?_).symm, ?_⟩
    · simp [misses node queued]
    · simpa using misses

theorem Inner.suspend_closed (b : Inner τ) : b.suspend.1.closed = b.closed := by
  unfold Inner.suspend
  split_ifs <;> rfl

theorem Inner.Good.clearThenSet (good : b.Good) {reset set : Event}
    {woken : List (BusNode τ)} (result : b.clearThenSet reset set = .ok (b', woken)) :
    b'.Good := by
  unfold Inner.clearThenSet at result
  split_ifs at result
  simp only [Except.ok.injEq] at result
  rw [← show ({ b with event := (b.event &&& ~~~reset) ||| set }.suspend).1 = b' by
    rw [result]]
  exact Inner.suspend_good good.covers

theorem Inner.Good.register (good : b.Good) {node : BusNode τ}
    {woken : Option (BusNode τ)} (result : b.register node = .ok (b', woken)) : b'.Good := by
  unfold Inner.register at result
  split_ifs at result with closed meets
  · cases result
    exact good
  · -- the mask of the new waiter joins `suspend_event`
    cases result
    have misses : b.event &&& node.mask = 0 := by simpa [intersects] using meets
    refine ⟨disjoint_or_iff.mpr ⟨good.calm, misses⟩, fun other queued => ?_⟩
    rcases List.mem_append.mp queued with old | added
    · exact subset_or_of_subset (good.covers other old) node.mask
    · rw [List.mem_singleton.mp added]
      exact subset_or_self node.mask b.suspendEvent

theorem Inner.Good.remove [DecidableEq τ] (good : b.Good) (node : BusNode τ) :
    (b.remove node).Good :=
  ⟨good.calm, fun other queued => good.covers other (List.mem_of_mem_erase queued)⟩

/-- On a good bus `close` does not panic, and leaves a good bus. -/
theorem Inner.Good.close (good : b.Good) :
    ∃ b', b.close = some (b', b.wakers) ∧ b'.Good := by
  refine ⟨{ b with closed := true, wakers := [] }, ?_, good.calm, fun _ none => by simp at none⟩
  simp [Inner.close, good.shouldSuspend_eq_false]

/-- The fast path of `EventBus::clear_then_set` gives what the locked path gives, on a good
bus. -/
theorem Inner.Good.clearThenSet_eq (good : b.Good) (reset set : Event) :
    EventBus.clearThenSet b reset set = b.clearThenSet reset set := by
  unfold EventBus.clearThenSet
  split_ifs with closed unchanged
  · simp [Inner.clearThenSet, closed]
  · -- the events stay: the locked path finds nothing to wake
    have same : { b with event := (b.event &&& ~~~reset) ||| set } = b := by
      rw [← unchanged]
    rw [Inner.clearThenSet, if_neg closed, same]
    simp [Inner.suspend, good.shouldSuspend_eq_false]
  · rfl

theorem Inner.Good.exec [DecidableEq τ] (good : b.Good) (call : Call τ) :
    ∃ b', EventBus.exec b call = some b' ∧ b'.Good := by
  cases call with
  | clearThenSet reset set =>
    refine ⟨_, rfl, ?_⟩
    rw [good.clearThenSet_eq]
    cases result : b.clearThenSet reset set with
    | ok r => exact good.clearThenSet result
    | error _ => exact good
  | register node =>
    refine ⟨_, rfl, ?_⟩
    cases result : b.register node with
    | ok r => exact good.register result
    | error _ => exact good
  | remove node => exact ⟨_, rfl, good.remove node⟩
  | close =>
    obtain ⟨b', closed, good'⟩ := good.close
    exact ⟨b', by simp [EventBus.exec, closed], good'⟩

end Good

/-! ## Closing -/

section Closing

variable {b b' : Inner τ}

/-- A closed bus has no waiters. -/
def Inner.Sealed (b : Inner τ) : Prop := b.closed = true → b.wakers = []

/-- A `clear_then_set` that succeeds leaves the bus open. -/
theorem clearThenSet_open {reset set : Event} {r : Inner τ × List (BusNode τ)}
    (result : clearThenSet b reset set = .ok r) : r.1.closed = false := by
  unfold clearThenSet Inner.clearThenSet at result
  split_ifs at result with closed
  · cases result
    simpa using closed
  · cases result
    rw [Inner.suspend_closed]
    simpa using closed

/-- A `register` that succeeds leaves the bus open. -/
theorem Inner.register_open {node : BusNode τ} {r : Inner τ × Option (BusNode τ)}
    (result : b.register node = .ok r) : r.1.closed = false := by
  unfold Inner.register at result
  split_ifs at result with closed <;> cases result <;> simpa using closed

/-- No call queues a waiter on a closed bus, and `close` pops them all. -/
theorem Inner.Sealed.exec [DecidableEq τ] (sealed : b.Sealed) {call : Call τ}
    (stepped : EventBus.exec b call = some b') : b'.Sealed := by
  cases call with
  | clearThenSet reset set =>
    cases stepped
    cases result : EventBus.clearThenSet b reset set with
    | ok r =>
      intro closed
      rw [clearThenSet_open result] at closed
      cases closed
    | error _ => exact sealed
  | register node =>
    cases stepped
    cases result : b.register node with
    | ok r =>
      intro closed
      rw [Inner.register_open result] at closed
      cases closed
    | error _ => exact sealed
  | remove node =>
    cases stepped
    intro closed
    simp [Inner.remove, sealed closed]
  | close =>
    obtain ⟨r, closed, rfl⟩ := Option.map_eq_some_iff.mp stepped
    unfold Inner.close at closed
    split_ifs at closed
    cases closed
    exact fun _ => rfl

/-- Every call leaves a good closed bus as it is. -/
theorem Inner.Good.exec_of_closed [DecidableEq τ] (good : b.Good) (closed : b.closed = true)
    (empty : b.wakers = []) (call : Call τ) : EventBus.exec b call = some b := by
  -- `remove` and `close` set what is set already
  have emptied : { b with wakers := [] } = b := by
    rw [← empty]
  have closing : { b with closed := true, wakers := [] } = b := by
    rw [← closed, ← empty]
  cases call with
  | clearThenSet reset set => simp [EventBus.exec, EventBus.clearThenSet, closed]
  | register node => simp [EventBus.exec, Inner.register, closed]
  | remove node => simp [EventBus.exec, Inner.remove, empty, emptied]
  | close => simp [EventBus.exec, Inner.close, good.shouldSuspend_eq_false, closing]

end Closing

/-! ## Runs -/

section Runs

variable [DecidableEq τ]

theorem good_of_run {calls : List (Call τ)} {b : Inner τ}
    (ran : Run.run exec Inner.new calls = some b) : b.Good :=
  @Run.invariant_of_run (Inner τ) (Call τ) exec Inner.Good (fun _ => True)
    (fun _ call _ good _ stepped => by
      obtain ⟨b', ran', good'⟩ := good.exec call
      rw [stepped] at ran'
      cases ran'
      exact good')
    calls _ _ good_new (fun _ _ => trivial) ran

/-- No sequence of calls on a new bus panics: the assert of `close` always holds. -/
theorem eventBus_never_panics (calls : List (Call τ)) :
    ∃ b, Run.run exec Inner.new calls = some b := by
  obtain ⟨b, ran, -⟩ := @Run.run_of_progress (Inner τ) (Call τ) exec Inner.Good (fun _ => True)
    (fun _ call good _ => good.exec call) calls _ good_new (fun _ _ => trivial)
  exact ⟨b, ran⟩

/-- After every sequence of calls no queued waiter waits for an event that is set: a waiter
whose event comes is never left behind. -/
theorem eventBus_no_lost_wakeup {calls : List (Call τ)} {b : Inner τ}
    (ran : Run.run exec Inner.new calls = some b) {node : BusNode τ} (queued : node ∈ b.wakers) :
    intersects node.mask b.event = false := by
  simp [intersects, (good_of_run ran).apart queued]

/-- A waiter for event `1` stays queued while event `2` is set. -/
theorem eventBus_no_lost_wakeup_other_event :
    Run.run exec Inner.new [.register ⟨1, 0, ()⟩, .clearThenSet 0 2] =
        some ⟨false, 2, 1, [⟨1, 0, ()⟩]⟩ ∧
      intersects 1 2 = false :=
  ⟨rfl, eventBus_no_lost_wakeup
    (show Run.run exec Inner.new [.register ⟨1, 0, ()⟩, .clearThenSet 0 2] =
      some (⟨false, 2, 1, [⟨1, 0, ()⟩]⟩ : Inner Unit) from rfl)
    (List.mem_singleton_self _)⟩

/-- On every bus a run reaches, `clear_then_set` wakes exactly the waiters whose mask meets the
new events, in order and told the events, and keeps the others queued in order. -/
theorem clearThenSet_wakes {calls : List (Call τ)} {b b' : Inner τ}
    (ran : Run.run exec Inner.new calls = some b) {reset set : Event} {woken : List (BusNode τ)}
    (result : b.clearThenSet reset set = .ok (b', woken)) :
    b'.event = (b.event &&& ~~~reset) ||| set ∧
      b'.wakers = b.wakers.filter (fun node => node.mask &&& b'.event == 0) ∧
      woken = (b.wakers.filter fun node => node.mask &&& b'.event != 0).map
        fun node => { node with suspend := b'.event } := by
  unfold Inner.clearThenSet at result
  split_ifs at result
  simp only [Except.ok.injEq] at result
  have spec := Inner.suspend_spec (b := { b with event := (b.event &&& ~~~reset) ||| set })
    (good_of_run ran).covers
  rw [result] at spec
  dsimp only at spec
  obtain ⟨event, kept, woke⟩ := spec
  rw [event]
  exact ⟨rfl, kept, woke⟩

/-- Waiters for events `1` and `2`: setting `1` wakes the first, told `1`, and keeps the
second. -/
theorem clearThenSet_wakes_first :
    ∃ b' woken, (⟨false, 0, 3, [⟨1, 0, ()⟩, ⟨2, 0, ()⟩]⟩ : Inner Unit).clearThenSet 0 1 =
        .ok (b', woken) ∧ b'.wakers = [⟨2, 0, ()⟩] ∧ woken = [⟨1, 1, ()⟩] := by
  have ran : Run.run exec Inner.new [.register ⟨1, 0, ()⟩, .register ⟨2, 0, ()⟩] =
      some (⟨false, 0, 3, [⟨1, 0, ()⟩, ⟨2, 0, ()⟩]⟩ : Inner Unit) := rfl
  have result : (⟨false, 0, 3, [⟨1, 0, ()⟩, ⟨2, 0, ()⟩]⟩ : Inner Unit).clearThenSet 0 1 =
      .ok (⟨false, 1, 2, [⟨2, 0, ()⟩]⟩, [⟨1, 1, ()⟩]) := rfl
  obtain ⟨-, kept, woke⟩ := clearThenSet_wakes ran result
  exact ⟨_, _, result, kept.trans (by decide), woke.trans (by decide)⟩

/-- A closed bus is final: it has no waiters, and every later sequence of calls leaves it as it
is. -/
theorem eventBus_closed_final {calls : List (Call τ)} {b : Inner τ}
    (ran : Run.run exec Inner.new calls = some b) (closed : b.closed = true) :
    b.wakers = [] ∧ ∀ more : List (Call τ), Run.run exec b more = some b := by
  have sealed : b.Sealed :=
    @Run.invariant_of_run (Inner τ) (Call τ) exec Inner.Sealed (fun _ => True)
      (fun _ _ _ sealed _ stepped => sealed.exec stepped)
      calls _ _ (fun fresh => by cases fresh) (fun _ _ => trivial) ran
  have fixed := (good_of_run ran).exec_of_closed closed (sealed closed)
  refine ⟨sealed closed, fun more => ?_⟩
  -- the bus itself is the invariant of the later run
  obtain ⟨b', later, rfl⟩ := @Run.run_of_progress (Inner τ) (Call τ) exec (· = b) (fun _ => True)
    (fun _ call same _ => ⟨b, by rw [same]; exact fixed call, rfl⟩) more b rfl (fun _ _ => trivial)
  exact later

/-- A waiter registers and the bus is closed: the waiter is gone, and a later `set` changes
nothing. -/
theorem eventBus_closed_final_after_close :
    Run.run exec Inner.new [.register ⟨1, 0, ()⟩, .close] = some ⟨true, 0, 1, []⟩ ∧
      Run.run exec (⟨true, 0, 1, []⟩ : Inner Unit) [.clearThenSet 0 1, .register ⟨1, 0, ()⟩] =
        some ⟨true, 0, 1, []⟩ :=
  ⟨rfl, (eventBus_closed_final
    (show Run.run exec Inner.new [.register ⟨1, 0, ()⟩, .close] =
      some (⟨true, 0, 1, []⟩ : Inner Unit) from rfl) rfl).2 _⟩

/-- On every bus a run reaches, the fast path of `EventBus::clear_then_set` gives what the locked
path gives. -/
theorem clearThenSet_fast_path {calls : List (Call τ)} {b : Inner τ}
    (ran : Run.run exec Inner.new calls = some b) (reset set : Event) :
    clearThenSet b reset set = b.clearThenSet reset set :=
  (good_of_run ran).clearThenSet_eq reset set

/-- Setting no event on a bus with a waiter takes the fast path, and the locked path leaves
the bus as it is too. -/
theorem clearThenSet_fast_path_unchanged :
    clearThenSet (⟨false, 0, 1, [⟨1, 0, ()⟩]⟩ : Inner Unit) 0 0 =
        .ok (⟨false, 0, 1, [⟨1, 0, ()⟩]⟩, []) ∧
      clearThenSet (⟨false, 0, 1, [⟨1, 0, ()⟩]⟩ : Inner Unit) 0 0 =
        Inner.clearThenSet ⟨false, 0, 1, [⟨1, 0, ()⟩]⟩ 0 0 :=
  ⟨rfl, clearThenSet_fast_path
    (show Run.run exec Inner.new [.register ⟨1, 0, ()⟩] =
      some (⟨false, 0, 1, [⟨1, 0, ()⟩]⟩ : Inner Unit) from rfl) 0 0⟩

end Runs

end EventBus

end FtlOs
