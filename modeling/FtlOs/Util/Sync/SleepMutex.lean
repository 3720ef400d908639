import Mathlib
import FtlOs.Util.Sync.RwSleepMutex.Progress

/-!
# The async sleep lock

`ftl_util::sync::sleep_mutex`: a spin-locked `MutexInner` with a flag `status` and one
intrusive queue of waiting futures, pushed at the tail (`push_prev`) and popped at the
head (`pop_next`). A future that finds the lock taken stores its waker and is queued;
a dropped guard pops the first waiter, releases the spin lock, and only then takes its
waker and sets its flag. The critical sections are steps as in the reader-writer lock.

The sleep lock is the unique half of the reader-writer lock. `State.abs` maps a state
to a reader-writer state with no shared user, and every step to a step
(`Step.abs`), so the invariant, the hand-over order and the liveness proved there
hold here: `status` is set exactly while one user holds the lock, waiters are served
in the order they queued, and in a fair run every waiter is granted.
-/

namespace FtlOs
namespace SleepMutex

/-- Where one user of the lock is. -/
inductive Phase (ι : Type) where
  | idle
  /-- Queued, flag clear. -/
  | waiting
  /-- Popped by a drop that has not set its flag yet. -/
  | handed
  /-- Flag set, not polled yet. -/
  | ready
  /-- Holds a `SleepMutexGuard`. -/
  | held
  /-- Dropped its guard, popped `next` and released the spin lock; `next`'s flag is not
  set yet. -/
  | handOff (next : ι)
  deriving DecidableEq, Repr

/-- `MutexInner` and the users of the lock. -/
structure State (ι : Type) where
  status : Bool
  /-- `MutexInner::queue`, head first. -/
  queue : List ι
  /-- Whether the user's node holds a waker. -/
  waker : ι → Bool
  phase : ι → Phase ι

/-- `SleepMutex::new`, before any user. -/
def State.init {ι : Type} : State ι := ⟨false, [], fun _ => false, fun _ => .idle⟩

variable {ι : Type} [DecidableEq ι]

/-- `SleepLockFuture::init`: the lock taken and the flag set, or the waker stored and
the node queued. -/
def lock (i : ι) (s : State ι) : State ι :=
  if !s.status then { s with status := true, phase := Function.update s.phase i .ready }
  else { s with queue := s.queue ++ [i], waker := Function.update s.waker i true,
                phase := Function.update s.phase i .waiting }

/-- `SleepMutex::try_lock`; on `None` nothing changes. -/
def tryLock (i : ι) (s : State ι) : State ι :=
  if s.status then s else { s with status := true, phase := Function.update s.phase i .held }

/-- `poll` of the future of `i`: `Ready` with its guard once the flag is set. -/
def poll (i : ι) (s : State ι) : State ι :=
  match s.phase i with
  | .ready => { s with phase := Function.update s.phase i .held }
  | _ => s

/-- `SleepMutexGuard::drop` up to `drop(inner)`: the lock freed, or the first waiter
popped with `status` left set. -/
def drop (i : ι) (s : State ι) : State ι :=
  match s.queue with
  | [] => { s with status := false, phase := Function.update s.phase i .idle }
  | j :: rest =>
    { s with queue := rest,
             phase := Function.update (Function.update s.phase i (.handOff j)) j .handed }

/-- The end of `SleepMutexGuard::drop`: the waker of the popped node taken (`unwrap`)
and its flag set. -/
def handOff (i j : ι) (s : State ι) : Option (State ι) :=
  if s.waker j then
    some { s with waker := Function.update s.waker j false,
                  phase := Function.update (Function.update s.phase i .idle) j .ready }
  else none

/-! ## Runs -/

/-- What a user does next. -/
inductive Action where
  | lock
  | tryLock
  | poll
  | drop
  | handOff
  deriving DecidableEq, Repr

/-- The actions a user can take in each phase. -/
def Action.Allowed : Action → Phase ι → Prop
  | .lock, p | .tryLock, p => p = .idle
  | .poll, p => p = .waiting ∨ p = .handed ∨ p = .ready
  | .drop, p => p = .held
  | .handOff, p => ∃ j, p = .handOff j

/-- Action `a` of the user `i`. -/
def act (i : ι) (s : State ι) : Action → Option (State ι)
  | .lock => some (lock i s)
  | .tryLock => some (tryLock i s)
  | .poll => some (poll i s)
  | .drop =>
    match s.phase i with
    | .held => some (drop i s)
    | _ => none
  | .handOff =>
    match s.phase i with
    | .handOff j => handOff i j s
    | _ => none

/-- One action of one user. -/
inductive Step : State ι → State ι → Prop
  | act {s s' : State ι} (i : ι) (a : Action) (allowed : a.Allowed (s.phase i))
      (ran : act i s a = some s') : Step s s'

/-- The states that runs from a new lock reach. -/
def Reachable (s : State ι) : Prop := Relation.ReflTransGen Step State.init s

/-! ## The sleep lock is the unique half of the reader-writer lock -/

/-- A phase of the sleep lock as the phase of a unique user. -/
def Phase.abs : Phase ι → RwSleepMutex.Phase ι
  | .idle => .idle
  | .waiting => .waitUnique
  | .handed => .handed
  | .ready => .readyUnique
  | .held => .unique
  | .handOff j => .handOff j

/-- The reader-writer state with no shared user. -/
def State.abs (s : State ι) : RwSleepMutex.State ι :=
  ⟨if s.status then .unique else .unlock, [], s.queue, s.waker, fun k => (s.phase k).abs⟩

/-- The reader-writer action of each action. -/
def Action.abs : Action → RwSleepMutex.Action
  | .lock => .uniqueLock
  | .tryLock => .tryUniqueLock
  | .poll => .poll
  | .drop => .drop
  | .handOff => .handOff

section Abs

omit [DecidableEq ι]

@[simp] theorem Phase.abs_idle : (Phase.idle : Phase ι).abs = .idle := rfl
@[simp] theorem Phase.abs_waiting : (Phase.waiting : Phase ι).abs = .waitUnique := rfl
@[simp] theorem Phase.abs_handed : (Phase.handed : Phase ι).abs = .handed := rfl
@[simp] theorem Phase.abs_ready : (Phase.ready : Phase ι).abs = .readyUnique := rfl
@[simp] theorem Phase.abs_held : (Phase.held : Phase ι).abs = .unique := rfl
@[simp] theorem Phase.abs_handOff (j : ι) : (Phase.handOff j).abs = .handOff j := rfl

theorem Phase.abs_injective : Function.Injective (Phase.abs (ι := ι)) := by
  intro p q same
  cases p <;> cases q <;> simp_all [Phase.abs]

end Abs

theorem abs_update (f : ι → Phase ι) (i : ι) (p : Phase ι) :
    (fun k => (Function.update f i p k).abs) = Function.update (fun k => (f k).abs) i p.abs := by
  funext k
  by_cases here : k = i
  · subst here
    simp
  · simp [Function.update_of_ne here]

omit [DecidableEq ι] in
theorem Action.Allowed.abs {a : Action} {p : Phase ι} (allowed : a.Allowed p) :
    a.abs.Allowed p.abs := by
  cases a with
  | lock | tryLock =>
    subst allowed
    rfl
  | drop =>
    subst allowed
    exact .inr rfl
  | poll => rcases allowed with rfl | rfl | rfl <;> simp [Action.abs, RwSleepMutex.Action.Allowed]
  | handOff =>
    obtain ⟨j, rfl⟩ := allowed
    exact ⟨j, rfl⟩

section Simulation

variable {s : State ι} {i : ι}

theorem lock_abs : (lock i s).abs = RwSleepMutex.uniqueLock i s.abs := by
  cases status : s.status <;>
    simp [lock, State.abs, RwSleepMutex.uniqueLock, RwSleepMutex.queueUnique, status, abs_update]

theorem tryLock_abs : (tryLock i s).abs = RwSleepMutex.tryUniqueLock i s.abs := by
  cases status : s.status <;>
    simp [tryLock, State.abs, RwSleepMutex.tryUniqueLock, status, abs_update]

theorem poll_abs : (poll i s).abs = RwSleepMutex.poll i s.abs := by
  unfold poll RwSleepMutex.poll
  cases phase : s.phase i <;> simp [State.abs, phase, abs_update]

/-- A drop of a held guard: `status` is set while somebody holds the lock. -/
theorem drop_abs (taken : s.status = true) :
    RwSleepMutex.dropUnique i s.abs = some (drop i s).abs := by
  cases queue : s.queue with
  | nil =>
    have empty : s.abs.uniqueQ = [] := by simp [State.abs, queue]
    rw [RwSleepMutex.dropUnique_of_empty rfl empty]
    simp [drop, State.abs, queue, abs_update]
  | cons j rest =>
    have first : s.abs.uniqueQ = j :: rest := by simp [State.abs, queue]
    rw [RwSleepMutex.dropUnique_of_uniqueWaiter rfl first]
    simp [drop, State.abs, queue, abs_update, taken]

theorem handOff_abs {j : ι} : RwSleepMutex.handOff i j s.abs = (handOff i j s).map State.abs := by
  unfold handOff RwSleepMutex.handOff
  split <;> simp_all [State.abs, abs_update]

/-- Each action is the reader-writer action of its user, `status` being set while
somebody holds the lock. -/
theorem act_abs {a : Action} (taken : s.phase i = .held → s.status = true) :
    RwSleepMutex.act i s.abs a.abs = (act i s a).map State.abs := by
  cases a with
  | lock => simp [act, Action.abs, RwSleepMutex.act, lock_abs]
  | tryLock => simp [act, Action.abs, RwSleepMutex.act, tryLock_abs]
  | poll => simp [act, Action.abs, RwSleepMutex.act, poll_abs]
  | drop =>
    cases phase : s.phase i with
    | held =>
      simp [act, Action.abs, RwSleepMutex.act, State.abs, phase]
      exact drop_abs (taken phase)
    | _ => simp [act, Action.abs, RwSleepMutex.act, State.abs, phase]
  | handOff =>
    cases phase : s.phase i with
    | handOff j =>
      simp [act, Action.abs, RwSleepMutex.act, State.abs, phase]
      exact handOff_abs
    | _ => simp [act, Action.abs, RwSleepMutex.act, State.abs, phase]

end Simulation

/-! ## What carries over -/

/-- A user that holds the lock: a guard, a future whose flag is set, or a hand-off on
its way. -/
def Phase.holds : Phase ι → Bool
  | .ready | .held | .handOff _ => true
  | _ => false

/-- A user that waits: queued, or popped by a hand-off that has not set its flag. -/
def Phase.waits : Phase ι → Bool
  | .waiting | .handed => true
  | _ => false

/-- The users that hold the lock. -/
def State.holders [Fintype ι] (s : State ι) : ℕ := ∑ k, if (s.phase k).holds then 1 else 0

section Transfer

omit [DecidableEq ι]

theorem Phase.uniqueWeight_abs (p : Phase ι) :
    p.abs.uniqueWeight = if p.holds then 1 else 0 := by
  cases p <;> rfl

theorem Phase.queued_abs (p : Phase ι) : p.abs.queued = p.waits := by
  cases p <;> rfl

theorem Phase.owes_abs (p : Phase ι) : p.abs.owes = p.holds := by
  cases p <;> rfl

variable [Fintype ι] {s : State ι}

theorem uniqueHolders_abs : s.abs.uniqueHolders = s.holders := by
  simp [RwSleepMutex.State.uniqueHolders, State.holders, State.abs, Phase.uniqueWeight_abs]

/-- While a user holds a guard, `status` is set. -/
theorem taken_of_good (good : s.abs.Good) {i : ι} (holds : s.phase i = .held) :
    s.status = true := by
  have unique := (good.status_of_unique (i := i) (by simp [State.abs, holds]; rfl)).1
  cases status : s.status
  · simp [State.abs, status] at unique
  · rfl

end Transfer

section Runs

variable [Fintype ι] {s s' : State ι}

/-- A step of the sleep lock is a step of the reader-writer lock. -/
theorem Step.abs (good : s.abs.Good) (step : Step s s') : RwSleepMutex.Step s.abs s'.abs := by
  obtain ⟨i, a, allowed, ran⟩ := step
  refine .act i a.abs allowed.abs ?_
  rw [act_abs (fun holds => taken_of_good good holds), ran]
  rfl

theorem Reachable.abs (reach : Reachable s) : RwSleepMutex.Reachable s.abs := by
  induction reach with
  | refl => exact .refl
  | tail _ step reached =>
    exact reached.tail (step.abs (RwSleepMutex.State.Good.of_reachable reached))

theorem State.good_abs (reach : Reachable s) : s.abs.Good :=
  RwSleepMutex.State.Good.of_reachable reach.abs

/-- `status` is set exactly while one user holds the lock, and nobody else does. -/
theorem State.holders_eq (reach : Reachable s) : s.holders = if s.status then 1 else 0 := by
  have counts := (State.good_abs reach).counts
  rw [← uniqueHolders_abs]
  cases status : s.status <;> simp [State.abs, status, RwSleepMutex.Status.Counts] at counts ⊢
    <;> exact counts.2

/-- The queue holds exactly the users that wait in it, and every waiter has its waker. -/
theorem State.placed (reach : Reachable s) (k : ι) :
    (k ∈ s.queue ↔ s.phase k = .waiting) ∧ ((s.phase k).waits → s.waker k = true) := by
  obtain ⟨-, unique, woken⟩ := (State.good_abs reach).placed k
  refine ⟨?_, fun waits => woken (by rw [State.abs, Phase.queued_abs]; exact waits)⟩
  rw [show k ∈ s.queue ↔ k ∈ s.abs.uniqueQ from Iff.rfl, unique]
  exact ⟨fun waits => Phase.abs_injective waits, fun waiting => by simp [State.abs, waiting]⟩

/-- Nobody waits on a free lock. -/
theorem State.free (reach : Reachable s) (free : s.status = false) (k : ι) :
    (s.phase k).waits = false := by
  have good := State.good_abs reach
  have unlocked := good.unlocked (by simp [State.abs, free])
  rw [← Phase.queued_abs]
  exact good.not_queued_of_free unlocked.1 unlocked.2 k (by simp [State.abs, free])

/-- Waiters are served in the order they queued: the queue grows only at its tail,
and a waiter leaves it only from the head, popped by a hand-off. -/
theorem Step.fifo (reach : Reachable s) (step : Step s s') :
    (s.queue <+: s'.queue ∨ ∃ k, s.queue = k :: s'.queue) ∧
    ∀ k, s.phase k = .waiting → s'.phase k ≠ .waiting →
      s.queue = k :: s'.queue ∧ s'.phase k = .handed := by
  have handover := (State.good_abs reach).step_handover (step.abs (State.good_abs reach))
  refine ⟨handover.fifo, fun k waits moved => ?_⟩
  obtain ⟨popped, handed, -⟩ := handover.uniqueHead k (by simp [State.abs, waits])
    (fun still => moved (Phase.abs_injective still))
  exact ⟨popped, Phase.abs_injective handed⟩

end Runs

/-- A run of the sleep lock from a new one. -/
structure Run (ι : Type) [DecidableEq ι] where
  state : ℕ → State ι
  start : state 0 = State.init
  next : ∀ n, Step (state n) (state (n + 1)) ∨ state (n + 1) = state n

/-- Every holder eventually moves on: a future whose flag is set is polled, a guard is
dropped, and a hand-off ends. -/
def Run.Fair (r : Run ι) : Prop :=
  ∀ n k, ((r.state n).phase k).holds → ∃ m ≥ n, (r.state m).phase k ≠ (r.state n).phase k

section Fair

variable [Fintype ι] (r : Run ι)

omit [Fintype ι] in
theorem Run.reachable (n : ℕ) : Reachable (r.state n) := by
  induction n with
  | zero =>
    rw [r.start]
    exact .refl
  | succ n ih =>
    rcases r.next n with step | same
    · exact ih.tail step
    · rw [same]
      exact ih

/-- The run of the reader-writer lock that the run simulates. -/
def Run.abs : RwSleepMutex.Run ι where
  state n := (r.state n).abs
  start := by rw [r.start]; rfl
  next n := by
    rcases r.next n with step | same
    · exact .inl (step.abs (State.good_abs (r.reachable n)))
    · exact .inr (by rw [same])

theorem Run.Fair.abs {r : Run ι} (fair : r.Fair) : r.abs.Fair := by
  intro n k owes
  obtain ⟨m, after, changed⟩ :=
    fair n k (by simpa [Run.abs, State.abs, Phase.owes_abs] using owes)
  exact ⟨m, after, fun same => changed (Phase.abs_injective same)⟩

/-- In a fair run every waiter is granted: its flag is set at some later time. -/
theorem Run.granted {r : Run ι} (fair : r.Fair) (n : ℕ) (w : ι)
    (waits : ((r.state n).phase w).waits) : ∃ m ≥ n, (r.state m).phase w = .ready := by
  obtain ⟨m, after, ready⟩ := r.abs.granted fair.abs n w
    (by simpa [Run.abs, State.abs, Phase.queued_abs] using waits)
  refine ⟨m, after, ?_⟩
  simp only [Run.abs, State.abs] at ready
  cases phase : (r.state m).phase w <;> simp [phase] at ready ⊢

end Fair

/-! ## The two sleep locks -/

/-- The sleep locks of the FAT32 inodes, with every critical section one step and
"holding the lock" counting guards, futures whose flag is set and hand-offs on their
way. `RwSleepMutex`: `status` counts the holders, a set flag is counted before the poll
that sees it, every waiter has its waker, nobody waits on a free lock, every step
hands the lock on in the documented order, and in a fair run every waiter is granted.
`SleepMutex`: `status` is set exactly while one user holds the lock, every waiter has
its waker, nobody waits on a free lock, waiters leave the queue in the order they
joined it, and in a fair run every waiter is granted. -/
theorem sleep_locks_safe_ordered_live {ι : Type} [DecidableEq ι] [Fintype ι] :
    (∀ s : RwSleepMutex.State ι, RwSleepMutex.Reachable s →
      s.status.Counts s.sharedHolders s.uniqueHolders ∧
      (∀ k, (s.phase k = .readyShared → ∃ n, s.status = .shared n) ∧
        (s.phase k = .readyUnique → s.status = .unique)) ∧
      (∀ k, (s.phase k).queued → s.waker k = true) ∧
      (s.status = .unlock → ∀ k, (s.phase k).queued = false)) ∧
    (∀ s s' : RwSleepMutex.State ι, RwSleepMutex.Reachable s → RwSleepMutex.Step s s' →
      RwSleepMutex.Handover s s') ∧
    (∀ r : RwSleepMutex.Run ι, r.Fair → ∀ n w, ((r.state n).phase w).queued →
      ∃ m ≥ n, (r.state m).phase w = .readyShared ∨ (r.state m).phase w = .readyUnique) ∧
    (∀ s : State ι, Reachable s →
      s.holders = (if s.status then 1 else 0) ∧ (∀ k, (s.phase k).waits → s.waker k = true) ∧
      (s.status = false → ∀ k, (s.phase k).waits = false)) ∧
    (∀ s s' : State ι, Reachable s → Step s s' →
      (s.queue <+: s'.queue ∨ ∃ k, s.queue = k :: s'.queue) ∧
      ∀ k, s.phase k = .waiting → s'.phase k ≠ .waiting →
        s.queue = k :: s'.queue ∧ s'.phase k = .handed) ∧
    (∀ r : Run ι, r.Fair → ∀ n w, ((r.state n).phase w).waits →
      ∃ m ≥ n, (r.state m).phase w = .ready) := by
  refine ⟨fun s reach => ?_, fun s s' reach step => ?_,
    fun r fair n w waits => r.granted fair n w waits,
    fun s reach => ⟨State.holders_eq reach, fun k => (State.placed reach k).2, State.free reach⟩,
    fun s s' reach step => Step.fifo reach step, fun r fair n w waits => r.granted fair n w waits⟩
  · have good := RwSleepMutex.State.Good.of_reachable reach
    refine ⟨good.counts, good.status_of_ready, fun k => (good.placed k).2.2, fun unlock k => ?_⟩
    have empty := good.unlocked unlock
    exact good.not_queued_of_free empty.1 empty.2 k (by simp [unlock])
  · exact (RwSleepMutex.State.Good.of_reachable reach).step_handover step

/-- Two users on a new sleep lock: the second queues behind the first and is popped
by its drop. -/
theorem sleep_mutex_hands_to_waiter :
    (poll 0 (lock 1 (lock (0 : Fin 2) .init))).queue
        = 1 :: (drop 0 (poll 0 (lock 1 (lock (0 : Fin 2) .init)))).queue ∧
      (drop 0 (poll 0 (lock 1 (lock (0 : Fin 2) .init)))).phase 1 = .handed := by
  have reach : Reachable (poll 0 (lock 1 (lock (0 : Fin 2) .init))) :=
    .tail (.tail (.single (.act 0 .lock rfl rfl)) (.act 1 .lock rfl rfl))
      (.act 0 .poll (.inr (.inr rfl)) rfl)
  exact (sleep_locks_safe_ordered_live.2.2.2.2.1 _ _ reach (.act 0 .drop rfl rfl)).2 1 rfl
    (by decide)

/-- A shared lock call on a new lock counts its user in `Shared(1)` before its future
is polled, while no `SharedSleepMutexGuard` exists yet. -/
theorem shared_status_before_guard :
    RwSleepMutex.Reachable (RwSleepMutex.sharedLock (0 : Fin 1) .init) ∧
      (RwSleepMutex.sharedLock (0 : Fin 1) .init).status = .shared 1 ∧
      ∀ k, (RwSleepMutex.sharedLock (0 : Fin 1) .init).phase k ≠ .shared :=
  ⟨.single (.act 0 .sharedLock rfl rfl), rfl, by decide⟩

end SleepMutex
end FtlOs
