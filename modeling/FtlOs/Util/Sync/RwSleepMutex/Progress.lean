import Mathlib
import FtlOs.Library.Liveness
import FtlOs.Util.Sync.RwSleepMutex.Invariant

/-!
# Every waiter of the sleep lock is granted, in the documented order

What each step does to the users it does not belong to (`State.Good.act_other`): it
leaves them where they are, wakes shared waiters, pops the first unique waiter, or
ends its hand-off. A lock call made while somebody waits queues and a `try_*` call
fails, so nobody is let in past a waiter.

The order in which the lock changes hands is `Handover`, kept by every step
(`State.Good.step_handover`): shared waiters are released all at once, by a unique
guard; unique waiters one at a time from the head of their queue, by the last shared
guard or by a unique guard with no shared waiter behind it.

Liveness rests on a rank per waiter (`State.rank`): how many times the lock still
changes hands before the waiter is granted, then what the holders still owe (polls,
drops and the end of a hand-off). No step raises it and every step of a holder lowers
it, so in a run in which every holder eventually moves on, every waiter is granted.
-/

namespace FtlOs
namespace RwSleepMutex

variable {ι : Type} [DecidableEq ι]

/-! ## Lock calls while somebody waits -/

section Busy

variable {s : State ι} {i : ι}

/-- A shared lock call behind a unique holder or a unique waiter queues. -/
theorem sharedLock_of_busy (busy : s.status = .unique ∨ (∃ n, s.status = .shared n) ∧ s.uniqueQ ≠ []) :
    sharedLock i s = queueShared i s := by
  rcases busy with unique | ⟨⟨n, shared⟩, waiting⟩
  · simp [sharedLock, unique]
  · simp [sharedLock, shared, waiting]

/-- A unique lock call on a taken lock queues. -/
theorem uniqueLock_of_busy (busy : s.status ≠ .unlock) : uniqueLock i s = queueUnique i s := by
  cases status : s.status with
  | unlock => exact absurd status busy
  | unique | shared n => simp [uniqueLock, status]

/-- `try_shared_lock` fails behind a unique holder or a unique waiter. -/
theorem trySharedLock_of_busy
    (busy : s.status = .unique ∨ (∃ n, s.status = .shared n) ∧ s.uniqueQ ≠ []) :
    trySharedLock i s = s := by
  rcases busy with unique | ⟨⟨n, shared⟩, waiting⟩
  · simp [trySharedLock, unique]
  · simp [trySharedLock, shared, waiting]

/-- `try_unique_lock` fails on a taken lock. -/
theorem tryUniqueLock_of_busy (busy : s.status ≠ .unlock) : tryUniqueLock i s = s := by
  cases status : s.status with
  | unlock => exact absurd status busy
  | unique | shared n => simp [tryUniqueLock, status]

end Busy

/-! ## Steps that move one user -/

section Others

variable {s : State ι} {i k : ι}

/-- The lock calls and a poll move their own user only. -/
theorem sharedLock_phase_of_ne (other : k ≠ i) : (sharedLock i s).phase k = s.phase k := by
  unfold sharedLock queueShared
  split
  · exact Function.update_of_ne other _ _
  · split
    · exact Function.update_of_ne other _ _
    · exact Function.update_of_ne other _ _
  · exact Function.update_of_ne other _ _

theorem uniqueLock_phase_of_ne (other : k ≠ i) : (uniqueLock i s).phase k = s.phase k := by
  unfold uniqueLock queueUnique
  split
  · exact Function.update_of_ne other _ _
  · exact Function.update_of_ne other _ _

theorem trySharedLock_phase_of_ne (other : k ≠ i) : (trySharedLock i s).phase k = s.phase k := by
  unfold trySharedLock
  split
  · exact Function.update_of_ne other _ _
  · split
    · exact Function.update_of_ne other _ _
    · rfl
  · rfl

theorem tryUniqueLock_phase_of_ne (other : k ≠ i) : (tryUniqueLock i s).phase k = s.phase k := by
  unfold tryUniqueLock
  split
  · exact Function.update_of_ne other _ _
  · rfl

theorem poll_phase_of_ne (other : k ≠ i) : (poll i s).phase k = s.phase k := by
  unfold poll
  split
  · exact Function.update_of_ne other _ _
  · exact Function.update_of_ne other _ _
  · rfl

end Others

section Good

variable [Fintype ι] {s s' : State ι}

omit [DecidableEq ι] in
/-- A user popped by a hand-off waits on a unique holder. -/
theorem State.Good.status_of_handed (good : s.Good) {w : ι} (handed : s.phase w = .handed) :
    s.status = .unique := by
  obtain ⟨d, handing⟩ := good.handOffs.2 w handed
  exact (good.status_of_unique (by rw [handing]; rfl)).1

omit [DecidableEq ι] in
/-- While somebody waits, the lock is taken, and taken with a unique waiter when it is
shared. -/
theorem State.Good.busy (good : s.Good) {w : ι} (waits : (s.phase w).queued) :
    s.status = .unique ∨ (∃ n, s.status = .shared n) ∧ s.uniqueQ ≠ [] := by
  cases phase : s.phase w with
  | waitShared =>
    have member : w ∈ s.sharedQ := (good.placed w).1.mpr phase
    cases status : s.status with
    | unlock => exact absurd (good.unlocked status).1 (List.ne_nil_of_mem member)
    | unique => exact .inl rfl
    | shared n =>
      exact .inr ⟨⟨n, rfl⟩, good.sharedWaits (by simp [status]) (List.ne_nil_of_mem member)⟩
  | waitUnique =>
    have member : w ∈ s.uniqueQ := (good.placed w).2.1.mpr phase
    cases status : s.status with
    | unlock => exact absurd (good.unlocked status).2 (List.ne_nil_of_mem member)
    | unique => exact .inl rfl
    | shared n => exact .inr ⟨⟨n, rfl⟩, List.ne_nil_of_mem member⟩
  | handed => exact .inl (good.status_of_handed phase)
  | _ => simp [phase, Phase.queued] at waits

omit [DecidableEq ι] in
/-- Nobody waits on a lock whose guards are all gone. -/
theorem State.Good.not_queued_of_free (good : s.Good) (noShared : s.sharedQ = [])
    (noUnique : s.uniqueQ = []) (w : ι) (holder : s.status = .unique → ∀ k, s.phase k ≠ .handed) :
    (s.phase w).queued = false := by
  cases phase : s.phase w with
  | waitShared => simp [← (good.placed w).1, noShared] at phase
  | waitUnique => simp [← (good.placed w).2.1, noUnique] at phase
  | handed => exact absurd phase (holder (good.status_of_handed phase) w)
  | _ => rfl

/-- A unique guard is not a hand-off, so no user waits for one. -/
theorem State.Good.not_handed_of_unique (good : s.Good) {i : ι} (holds : s.phase i = .unique)
    (k : ι) : s.phase k ≠ .handed := by
  obtain ⟨-, -, uniqueCount⟩ := good.status_of_unique (by rw [holds]; rfl)
  exact (good.no_handOff uniqueCount.le (by rw [holds]; rfl) (.inl (by rw [holds]; rfl))).2 k

omit [DecidableEq ι] in
/-- A future whose flag is set is already counted in `status`. -/
theorem State.Good.status_of_ready (good : s.Good) (k : ι) :
    (s.phase k = .readyShared → ∃ n, s.status = .shared n) ∧
      (s.phase k = .readyUnique → s.status = .unique) := by
  refine ⟨fun ready => ?_, fun ready => (good.status_of_unique (by rw [ready]; rfl)).1⟩
  have counted := sharedWeight_le s k
  have counts := good.counts
  rw [ready] at counted
  cases status : s.status with
  | shared n => exact ⟨n, rfl⟩
  | unlock | unique =>
    rw [status] at counts
    simp only [Status.Counts, Phase.sharedWeight] at counts counted
    omega

/-! ## What a drop can do -/

/-- `SharedSleepMutexGuard::drop` hands the lock to the first unique waiter, frees it,
or counts itself out. -/
theorem State.Good.dropShared_cases (good : s.Good) {i : ι} (holds : s.phase i = .shared)
    (ran : RwSleepMutex.dropShared i s = some s') :
    (∃ j rest, s.status = .shared 1 ∧ s.uniqueQ = j :: rest ∧
      s' = { s with status := .unique, uniqueQ := rest,
                    phase := Function.update (Function.update s.phase i (.handOff j)) j .handed }) ∨
    (s.status = .shared 1 ∧ s.sharedQ = [] ∧ s.uniqueQ = [] ∧
      s' = { s with status := .unlock, phase := Function.update s.phase i .idle }) ∨
    (∃ n, s.status = .shared (n + 2) ∧
      s' = { s with status := .shared (n + 1), phase := Function.update s.phase i .idle }) := by
  obtain ⟨n, status, -, -⟩ := good.status_of_shared holds
  cases n with
  | zero =>
    cases queue : s.uniqueQ with
    | cons j rest =>
      rw [dropShared_of_uniqueWaiter status queue, Option.some.injEq] at ran
      exact .inl ⟨j, rest, status, rfl, ran.symm⟩
    | nil =>
      have noShared : s.sharedQ = [] := by
        by_contra waiting
        exact good.sharedWaits (by rw [status]; simp) waiting queue
      rw [dropShared_of_empty status noShared queue, Option.some.injEq] at ran
      exact .inr (.inl ⟨status, noShared, rfl, by rw [← ran, queue]⟩)
  | succ n =>
    rw [dropShared_of_others status, Option.some.injEq] at ran
    exact .inr (.inr ⟨n, status, ran.symm⟩)

/-- `UnqiueSleepMutexGuard::drop` wakes every shared waiter, hands the lock to the
first unique waiter, or frees it. -/
theorem State.Good.dropUnique_cases (good : s.Good) {i : ι} (ran : RwSleepMutex.dropUnique i s = some s') :
    (s.sharedQ ≠ [] ∧
      s' = { s with status := .shared s.sharedQ.length, sharedQ := [],
                    waker := fun k => if k ∈ s.sharedQ then false else s.waker k,
                    phase := Function.update
                      (fun k => if k ∈ s.sharedQ then .readyShared else s.phase k) i .idle }) ∨
    (∃ j rest, s.sharedQ = [] ∧ s.uniqueQ = j :: rest ∧
      s' = { s with status := .unique, uniqueQ := rest,
                    phase := Function.update (Function.update s.phase i (.handOff j)) j .handed }) ∨
    (s.sharedQ = [] ∧ s.uniqueQ = [] ∧
      s' = { s with status := .unlock, phase := Function.update s.phase i .idle }) := by
  by_cases waiting : s.sharedQ = []
  · cases queue : s.uniqueQ with
    | cons j rest =>
      rw [dropUnique_of_uniqueWaiter waiting queue, Option.some.injEq] at ran
      exact .inr (.inl ⟨j, rest, waiting, rfl, ran.symm⟩)
    | nil =>
      rw [dropUnique_of_empty waiting queue, Option.some.injEq] at ran
      exact .inr (.inr ⟨waiting, rfl, by rw [← ran, queue]⟩)
  · rw [dropUnique_of_sharedWaiters good.sharedNodup good.sharedWakers waiting,
      Option.some.injEq] at ran
    exact .inl ⟨waiting, ran.symm⟩

/-! ## What a step does to the other users -/

/-- A hand-off moves only the dropping user and the first unique waiter. -/
theorem State.Good.handTo_other (good : s.Good) {i j k : ι} {rest : List ι}
    (queue : s.uniqueQ = j :: rest) (other : k ≠ i) :
    Function.update (Function.update s.phase i (.handOff j)) j .handed k = s.phase k ∨
      s.phase k = .waitUnique ∧
        Function.update (Function.update s.phase i (.handOff j)) j .handed k = .handed := by
  by_cases popped : k = j
  · subst popped
    exact .inr ⟨((good.placed k).2.1).mp (by simp [queue]), by simp⟩
  · exact .inl (by simp [Function.update_of_ne popped, Function.update_of_ne other])

/-- Each step leaves every other user where it is, except that it wakes shared
waiters, pops the first unique waiter, or ends the hand-off of the user it popped. -/
theorem State.Good.act_other (good : s.Good) {i : ι} {a : Action} (ran : RwSleepMutex.act i s a = some s')
    {k : ι} (other : k ≠ i) :
    s'.phase k = s.phase k ∨ (s.phase k = .waitShared ∧ s'.phase k = .readyShared) ∨
      (s.phase k = .waitUnique ∧ s'.phase k = .handed) ∨
      (s.phase k = .handed ∧ s'.phase k = .readyUnique) := by
  have untouched : ∀ p, Function.update s.phase i p k = s.phase k :=
    fun p => Function.update_of_ne other p s.phase
  cases a with
  | sharedLock =>
    rw [RwSleepMutex.act, Option.some.injEq] at ran
    exact .inl (ran ▸ sharedLock_phase_of_ne other)
  | uniqueLock =>
    rw [RwSleepMutex.act, Option.some.injEq] at ran
    exact .inl (ran ▸ uniqueLock_phase_of_ne other)
  | trySharedLock =>
    rw [RwSleepMutex.act, Option.some.injEq] at ran
    exact .inl (ran ▸ trySharedLock_phase_of_ne other)
  | tryUniqueLock =>
    rw [RwSleepMutex.act, Option.some.injEq] at ran
    exact .inl (ran ▸ tryUniqueLock_phase_of_ne other)
  | poll =>
    rw [RwSleepMutex.act, Option.some.injEq] at ran
    exact .inl (ran ▸ poll_phase_of_ne other)
  | drop =>
    cases holds : s.phase i with
    | shared =>
      simp only [RwSleepMutex.act, holds] at ran
      rcases good.dropShared_cases holds ran with ⟨j, rest, -, queue, rfl⟩ | ⟨-, -, -, rfl⟩ |
        ⟨n, -, rfl⟩
      · rcases good.handTo_other queue other with same | popped
        · exact .inl same
        · exact .inr (.inr (.inl popped))
      · exact .inl (untouched _)
      · exact .inl (untouched _)
    | unique =>
      simp only [RwSleepMutex.act, holds] at ran
      rcases good.dropUnique_cases ran with ⟨-, rfl⟩ | ⟨j, rest, -, queue, rfl⟩ | ⟨-, -, rfl⟩
      · by_cases woken : k ∈ s.sharedQ
        · exact .inr (.inl ⟨((good.placed k).1).mp woken, by simp [Function.update_of_ne other, woken]⟩)
        · exact .inl (by simp [Function.update_of_ne other, woken])
      · rcases good.handTo_other queue other with same | popped
        · exact .inl same
        · exact .inr (.inr (.inl popped))
      · exact .inl (untouched _)
    | _ => simp [RwSleepMutex.act, holds] at ran
  | handOff =>
    cases holds : s.phase i with
    | handOff j =>
      simp only [RwSleepMutex.act, holds, RwSleepMutex.handOff] at ran
      split at ran
      · rw [Option.some.injEq] at ran
        subst ran
        by_cases popped : k = j
        · subst popped
          have handing := good.handOffs.1 i k holds
          exact .inr (.inr (.inr ⟨handing, by simp⟩))
        · exact .inl (by simp [Function.update_of_ne popped, untouched])
      · cases ran
    | _ => simp [RwSleepMutex.act, holds] at ran

omit [Fintype ι] in
/-- A waiter's own step is a poll that finds its flag clear. -/
theorem act_of_queued {i : ι} {a : Action} (waits : (s.phase i).queued)
    (allowed : a.Allowed (s.phase i)) (ran : RwSleepMutex.act i s a = some s') : s' = s := by
  cases a with
  | poll =>
    rw [RwSleepMutex.act, Option.some.injEq] at ran
    subst ran
    unfold RwSleepMutex.poll
    split
    · next ready => simp [ready, Phase.queued] at waits
    · next ready => simp [ready, Phase.queued] at waits
    · rfl
  | drop => rcases allowed with holds | holds <;> simp [holds, Phase.queued] at waits
  | handOff =>
    obtain ⟨j, holds⟩ := allowed
    simp [holds, Phase.queued] at waits
  | _ => simp [Action.Allowed] at allowed; simp [allowed, Phase.queued] at waits

/-- A waiter leaves its queue only with its flag set. -/
theorem State.Good.act_granted (good : s.Good) {i : ι} {a : Action}
    (allowed : a.Allowed (s.phase i)) (ran : RwSleepMutex.act i s a = some s') {w : ι}
    (waits : (s.phase w).queued) (granted : (s'.phase w).queued = false) :
    s'.phase w = .readyShared ∨ s'.phase w = .readyUnique := by
  by_cases own : w = i
  · subst own
    rw [act_of_queued waits allowed ran, waits] at granted
    contradiction
  rcases good.act_other ran own with same | ⟨-, woken⟩ | ⟨-, popped⟩ | ⟨-, handed⟩
  · rw [same, waits] at granted
    contradiction
  · exact .inl woken
  · rw [popped] at granted
    contradiction
  · exact .inr handed

/-! ## The rank of a waiter -/

/-- A user that owes the lock a step: a poll of a future whose flag is set, a drop of
its guard, or the end of its hand-off. -/
def Phase.owes : Phase ι → Bool
  | .readyShared | .readyUnique | .shared | .unique | .handOff _ => true
  | _ => false

/-- What a user still owes before the lock moves on: the end of a hand-off sets a flag,
a set flag is polled to a guard, and a guard is dropped. -/
def Phase.work : Phase ι → Nat
  | .handOff _ => 3
  | .readyShared | .readyUnique => 2
  | .shared | .unique => 1
  | _ => 0

/-- What the holders of the lock still owe. -/
def State.work (s : State ι) : Nat := ∑ k, (s.phase k).work

/-- How often the lock still changes hands before `w` is granted: a unique waiter
waits for the holders ahead of it in `unique`, each after the shared batch that may
come between, and a shared waiter for the unique holder that releases its batch. -/
def State.distance (s : State ι) (w : ι) : Nat :=
  match s.phase w with
  | .handed => 0
  | .waitShared => if s.status = .unique then 1 else 2
  | .waitUnique => 2 * s.uniqueQ.idxOf w + if s.status = .unique then 2 else 1
  | _ => 0

/-- The rank of `w`: its distance, then the work of the holders. -/
def State.rank (s : State ι) (w : ι) : ℕ ×ₗ ℕ := toLex (s.distance w, s.work)

omit [DecidableEq ι] [Fintype ι] in
theorem Phase.owes_of_queued {p : Phase ι} (waits : p.queued) : p.owes = false := by
  cases p <;> simp_all [Phase.queued, Phase.owes]

omit [Fintype ι] in
/-- The distance of `w` reads the status only for whether it is `Unique`. -/
theorem distance_congr {w : ι} (unique : s'.status = .unique ↔ s.status = .unique)
    (queue : s'.uniqueQ = s.uniqueQ) (phase : s'.phase w = s.phase w) :
    s'.distance w = s.distance w := by
  unfold State.distance
  rw [phase, queue]
  simp only [unique]

theorem rank_lt_of_distance {w : ι} (closer : s'.distance w < s.distance w) :
    s'.rank w < s.rank w :=
  Prod.Lex.toLex_lt_toLex.mpr (.inl closer)

theorem rank_lt_of_work {w : ι} (same : s'.distance w = s.distance w) (less : s'.work < s.work) :
    s'.rank w < s.rank w :=
  Prod.Lex.toLex_lt_toLex.mpr (.inr ⟨same, less⟩)

/-- Moving one user changes the work by the difference of its two phases. -/
theorem work_update (after before : State ι) {i : ι} {p : Phase ι}
    (moved : after.phase = Function.update before.phase i p) :
    after.work + (before.phase i).work = before.work + p.work := by
  unfold State.work
  rw [moved]
  exact sum_update_add before.phase Phase.work i p

/-- A queued lock call changes no waiter's rank. -/
theorem rank_queueShared {i w : ι} (idle : s.phase i = .idle)
    (other : w ≠ i) : (RwSleepMutex.queueShared i s).rank w = s.rank w := by
  have moved := work_update (RwSleepMutex.queueShared i s) s rfl
  rw [idle] at moved
  have same : (RwSleepMutex.queueShared i s).distance w = s.distance w :=
    distance_congr Iff.rfl rfl (Function.update_of_ne other _ _)
  have sameWork : (RwSleepMutex.queueShared i s).work = s.work := by
    simpa [Phase.work] using moved
  simp only [State.rank, same, sameWork]

theorem State.Good.rank_queueUnique (good : s.Good) {i w : ι} (idle : s.phase i = .idle)
    (other : w ≠ i) : (RwSleepMutex.queueUnique i s).rank w = s.rank w := by
  have moved := work_update (RwSleepMutex.queueUnique i s) s rfl
  rw [idle] at moved
  have same : (RwSleepMutex.queueUnique i s).distance w = s.distance w := by
    have phase : (RwSleepMutex.queueUnique i s).phase w = s.phase w := Function.update_of_ne other _ _
    unfold State.distance
    rw [phase]
    cases waits : s.phase w with
    | waitUnique =>
      -- the caller goes behind `w`
      have member : w ∈ s.uniqueQ := ((good.placed w).2.1).mpr waits
      simp only [RwSleepMutex.queueUnique, List.idxOf_append_of_mem member]
      rfl
    | _ => rfl
  have sameWork : (RwSleepMutex.queueUnique i s).work = s.work := by
    simpa [Phase.work] using moved
  simp only [State.rank, same, sameWork]

/-- A step of a user that owes nothing changes no waiter's rank. -/
theorem State.Good.rank_calm (good : s.Good) {i : ι} {a : Action} (allowed : a.Allowed (s.phase i))
    (calm : (s.phase i).owes = false) (ran : RwSleepMutex.act i s a = some s') {w : ι}
    (waits : (s.phase w).queued) : s'.rank w = s.rank w := by
  by_cases queued : (s.phase i).queued
  · rw [act_of_queued queued allowed ran]
  -- a user that neither waits nor owes is idle, and its lock call finds the lock taken
  have idle : s.phase i = .idle := by
    cases phase : s.phase i <;> simp_all [Phase.owes, Phase.queued]
  have other : w ≠ i := by
    rintro rfl
    rw [idle] at waits
    contradiction
  have busy := good.busy waits
  have taken : s.status ≠ .unlock := by
    rcases busy with unique | ⟨⟨n, shared⟩, -⟩
    · simp [unique]
    · simp [shared]
  cases a with
  | sharedLock =>
    rw [RwSleepMutex.act, Option.some.injEq, sharedLock_of_busy busy] at ran
    exact ran ▸ rank_queueShared idle other
  | uniqueLock =>
    rw [RwSleepMutex.act, Option.some.injEq, uniqueLock_of_busy taken] at ran
    exact ran ▸ good.rank_queueUnique idle other
  | trySharedLock =>
    rw [RwSleepMutex.act, Option.some.injEq, trySharedLock_of_busy busy] at ran
    rw [ran]
  | tryUniqueLock =>
    rw [RwSleepMutex.act, Option.some.injEq, tryUniqueLock_of_busy taken] at ran
    rw [ran]
  | poll => simp [Action.Allowed, idle] at allowed
  | drop => simp [Action.Allowed, idle] at allowed
  | handOff => simp [Action.Allowed, idle] at allowed

omit [DecidableEq ι] in
/-- Somebody owes the lock a step while anybody waits. -/
theorem State.Good.exists_owes (good : s.Good) {w : ι} (waits : (s.phase w).queued) :
    ∃ k, (s.phase k).owes := by
  have counts := good.counts
  rcases good.busy waits with unique | ⟨⟨n, shared⟩, -⟩
  · rw [unique] at counts
    obtain ⟨k, -, holds⟩ := Finset.exists_ne_zero_of_sum_ne_zero
      (s := Finset.univ) (f := fun k => (s.phase k).uniqueWeight)
      (by unfold State.uniqueHolders Status.Counts at counts; omega)
    exact ⟨k, by cases phase : s.phase k <;> simp_all [Phase.uniqueWeight, Phase.owes]⟩
  · rw [shared] at counts
    obtain ⟨k, -, holds⟩ := Finset.exists_ne_zero_of_sum_ne_zero
      (s := Finset.univ) (f := fun k => (s.phase k).sharedWeight)
      (by unfold State.sharedHolders Status.Counts at counts; omega)
    exact ⟨k, by cases phase : s.phase k <;> simp_all [Phase.sharedWeight, Phase.owes]⟩

/-- A poll that finds its flag set turns the future into a guard. -/
theorem rank_retag {i w : ι} {p : Phase ι} (other : w ≠ i) (less : p.work < (s.phase i).work) :
    ({ s with phase := Function.update s.phase i p } : State ι).rank w < s.rank w := by
  have moved := work_update { s with phase := Function.update s.phase i p } s rfl
  exact rank_lt_of_work (distance_congr Iff.rfl rfl (Function.update_of_ne other _ _)) (by omega)

/-- A hand-off brings every waiter closer: the shared waiters, which now wait for a
unique holder, and the unique waiters, which move up in the queue. -/
theorem State.Good.distance_handTo (good : s.Good) {i j w : ι} {rest : List ι}
    (queue : s.uniqueQ = j :: rest) (other : w ≠ i) (waits : (s.phase w).queued)
    (notHanded : s.phase w ≠ .handed) (sharedBehind : s.phase w = .waitShared → s.status ≠ .unique) :
    ({ s with status := .unique, uniqueQ := rest,
               phase := Function.update (Function.update s.phase i (.handOff j)) j .handed } :
        State ι).distance w < s.distance w := by
  have popped : s.phase j = .waitUnique := ((good.placed j).2.1).mp (by simp [queue])
  unfold State.distance
  cases phase : s.phase w with
  | waitShared =>
    have notPopped : w ≠ j := by
      rintro rfl
      rw [phase] at popped
      cases popped
    simp [Function.update_of_ne notPopped, Function.update_of_ne other, phase,
      sharedBehind phase]
  | waitUnique =>
    by_cases first : w = j
    · subst first
      simp only [Function.update_self, queue, List.idxOf_cons_self]
      split <;> omega
    · simp only [Function.update_of_ne first, Function.update_of_ne other, phase, queue,
        List.idxOf_cons_ne rest (Ne.symm first), if_pos]
      split <;> omega
  | handed => exact absurd phase notHanded
  | _ => simp [phase, Phase.queued] at waits

/-- A step of a user that owes the lock lowers the rank of every waiter that is still
waiting after it. -/
theorem State.Good.rank_owes (good : s.Good) {i : ι} {a : Action} (allowed : a.Allowed (s.phase i))
    (owes : (s.phase i).owes) (ran : RwSleepMutex.act i s a = some s') {w : ι}
    (waits : (s.phase w).queued) (stillWaits : (s'.phase w).queued) : s'.rank w < s.rank w := by
  have other : w ≠ i := by
    rintro rfl
    rw [Phase.owes_of_queued waits] at owes
    contradiction
  cases a with
  | poll =>
    rw [RwSleepMutex.act, Option.some.injEq] at ran
    subst ran
    unfold RwSleepMutex.poll
    split
    · next ready => exact rank_retag other (by simp [ready, Phase.work])
    · next ready => exact rank_retag other (by simp [ready, Phase.work])
    · rcases allowed with p | p | p | p | p <;> simp_all [Phase.owes]
  | drop =>
    rcases allowed with holds | holds
    · simp only [RwSleepMutex.act, holds] at ran
      rcases good.dropShared_cases holds ran with ⟨j, rest, status, queue, rfl⟩ |
        ⟨-, noShared, noUnique, -⟩ | ⟨n, status, rfl⟩
      · refine rank_lt_of_distance (good.distance_handTo queue other waits ?_ ?_)
        · intro handed
          rw [good.status_of_handed handed] at status
          cases status
        · intro _
          rw [status]
          simp
      · rw [good.not_queued_of_free noShared noUnique w
          (fun unique => by rw [(good.status_of_shared holds).choose_spec.1] at unique; cases unique)]
          at waits
        contradiction
      · have moved := work_update
          { s with status := .shared (n + 1), phase := Function.update s.phase i .idle } s rfl
        rw [holds] at moved
        refine rank_lt_of_work (distance_congr ?_ rfl (Function.update_of_ne other _ _))
          (by simp only [Phase.work] at moved; omega)
        simp [status]
    · simp only [RwSleepMutex.act, holds] at ran
      have notHanded := good.not_handed_of_unique holds
      rcases good.dropUnique_cases ran with ⟨waiting, rfl⟩ | ⟨j, rest, noShared, queue, rfl⟩ |
        ⟨noShared, noUnique, -⟩
      · -- the batch is woken, so `w` waits in `unique`, and now behind shared holders
        have notWoken : w ∉ s.sharedQ := by
          intro woken
          simp [Function.update_of_ne other, woken, Phase.queued] at stillWaits
        have unique : s.phase w = .waitUnique := by
          cases phase : s.phase w with
          | waitShared => exact absurd ((good.placed w).1.mpr phase) notWoken
          | waitUnique => rfl
          | handed => exact absurd phase (notHanded w)
          | _ => simp [phase, Phase.queued] at waits
        have status := (good.status_of_unique (by rw [holds]; rfl)).1
        refine rank_lt_of_distance ?_
        unfold State.distance
        simp [Function.update_of_ne other, notWoken, unique, status]
      · refine rank_lt_of_distance (good.distance_handTo queue other waits (notHanded w) ?_)
        intro waitsShared
        simp [← (good.placed w).1, noShared] at waitsShared
      · rw [good.not_queued_of_free noShared noUnique w (fun _ => notHanded)] at waits
        contradiction
  | handOff =>
    obtain ⟨j, handing⟩ := allowed
    simp only [RwSleepMutex.act, handing, RwSleepMutex.handOff] at ran
    split at ran
    · rw [Option.some.injEq] at ran
      subst ran
      have handed := good.handOffs.1 i j handing
      have notPopped : w ≠ j := by
        rintro rfl
        simp [Phase.queued] at stillWaits
      have atJ : Function.update s.phase i .idle j = .handed := by
        rw [Function.update_of_ne (fun same => by rw [same, handing] at handed; cases handed),
          handed]
      have first := work_update { s with phase := Function.update s.phase i .idle } s rfl
      have second := work_update
        { s with waker := Function.update s.waker j false,
                 phase := Function.update (Function.update s.phase i .idle) j .readyUnique }
        { s with phase := Function.update s.phase i .idle } rfl
      simp only [atJ, handing, Phase.work] at first second
      refine rank_lt_of_work (distance_congr Iff.rfl rfl ?_) (by omega)
      simp [Function.update_of_ne notPopped, Function.update_of_ne other]
    · cases ran
  | _ => simp [Action.Allowed] at allowed; simp [allowed, Phase.owes] at owes

/-! ## The order in which the lock changes hands -/

/-- How the lock changes hands from `s` to `s'`: shared waiters are released all at
once, by a unique guard; a unique waiter is released from the head of `unique`, by the
last shared guard or by a unique guard with no shared waiter; `unique` otherwise grows
only at its tail; and a lock call that takes the lock at once finds nobody waiting. -/
structure Handover (s s' : State ι) : Prop where
  sharedBatch : ∀ k, s.phase k = .waitShared → s'.phase k ≠ .waitShared →
    s.status = .unique ∧ s'.sharedQ = [] ∧ ∀ j ∈ s.sharedQ, s'.phase j = .readyShared
  uniqueHead : ∀ k, s.phase k = .waitUnique → s'.phase k ≠ .waitUnique →
    s.uniqueQ = k :: s'.uniqueQ ∧ s'.phase k = .handed ∧
      (s.status = .shared 1 ∨ s.status = .unique ∧ s.sharedQ = [])
  fifo : s.uniqueQ <+: s'.uniqueQ ∨ ∃ k, s.uniqueQ = k :: s'.uniqueQ
  noBarging : ∀ k, s.phase k = .idle → (s'.phase k).owes → s.sharedQ = [] ∧ s.uniqueQ = []

omit [Fintype ι] in
/-- A step that moves only its own user, who does not wait, and lets it take the lock
only when nobody waits. -/
theorem Handover.of_single {i : ι} (others : ∀ k, k ≠ i → s'.phase k = s.phase k)
    (self : (s.phase i).queued = false) (queue : s.uniqueQ <+: s'.uniqueQ)
    (join : s.phase i = .idle → (s'.phase i).owes → s.sharedQ = [] ∧ s.uniqueQ = []) :
    Handover s s' := by
  have notSelf : ∀ k, (s.phase k).queued → k ≠ i := by
    rintro k waits rfl
    rw [self] at waits
    contradiction
  refine ⟨fun k waits moved => ?_, fun k waits moved => ?_, .inl queue, fun k idle owes => ?_⟩
  · exact (moved ((others k (notSelf k (by rw [waits]; rfl))).trans waits)).elim
  · exact (moved ((others k (notSelf k (by rw [waits]; rfl))).trans waits)).elim
  · by_cases own : k = i
    · subst own
      exact join idle owes
    · rw [others k own, idle] at owes
      contradiction

omit [DecidableEq ι] [Fintype ι] in
theorem Handover.refl : Handover s s := by
  refine ⟨fun k waits moved => (moved waits).elim, fun k waits moved => (moved waits).elim,
    .inl (List.prefix_refl _), fun k idle owes => ?_⟩
  rw [idle] at owes
  contradiction

omit [DecidableEq ι] in
/-- Either nobody waits, or a lock call has to queue. -/
theorem State.Good.empty_or_busy (good : s.Good) :
    s.sharedQ = [] ∧ s.uniqueQ = [] ∨
      s.status = .unique ∨ (∃ n, s.status = .shared n) ∧ s.uniqueQ ≠ [] := by
  cases status : s.status with
  | unlock => exact .inl (good.unlocked status)
  | unique => exact .inr (.inl rfl)
  | shared n =>
    by_cases waiting : s.uniqueQ = []
    · refine .inl ⟨?_, waiting⟩
      by_contra sharedWaiting
      exact good.sharedWaits (by simp [status]) sharedWaiting waiting
    · exact .inr (.inr ⟨⟨n, rfl⟩, waiting⟩)

/-- A lock call from an idle user that queues whenever the lock is busy. -/
theorem State.Good.handover_lock (good : s.Good) {i : ι} (idle : s.phase i = .idle)
    (others : ∀ k, k ≠ i → s'.phase k = s.phase k) (queue : s.uniqueQ <+: s'.uniqueQ)
    (queued : s.status = .unique ∨ (∃ n, s.status = .shared n) ∧ s.uniqueQ ≠ [] →
      (s'.phase i).owes = false) : Handover s s' := by
  refine Handover.of_single others (by rw [idle]; rfl) queue fun _ owes => ?_
  rcases good.empty_or_busy with empty | busy
  · exact empty
  · rw [queued busy] at owes
    contradiction

/-- The hand-off of a drop to the first unique waiter. -/
theorem State.Good.handover_handTo (good : s.Good) {i j : ι} {rest : List ι}
    (holds : s.phase i = .shared ∨ s.phase i = .unique) (queue : s.uniqueQ = j :: rest)
    (last : s.status = .shared 1 ∨ s.status = .unique ∧ s.sharedQ = []) :
    Handover s { s with status := .unique, uniqueQ := rest,
                        phase := Function.update (Function.update s.phase i (.handOff j)) j
                          .handed } := by
  have popped : s.phase j = .waitUnique := ((good.placed j).2.1).mp (by simp [queue])
  -- the users other than the dropping one and the popped one stay where they are
  have others : ∀ k, s.phase k = .idle ∨ (s.phase k).queued → k ≠ j →
      Function.update (Function.update s.phase i (.handOff j)) j .handed k = s.phase k := by
    intro k plain notPopped
    have notI : k ≠ i := by
      rintro rfl
      rcases holds with holds | holds <;> rw [holds] at plain <;> simp [Phase.queued] at plain
    rw [Function.update_of_ne notPopped, Function.update_of_ne notI]
  refine ⟨fun k waits moved => ?_, fun k waits moved => ?_, .inr ⟨j, queue⟩,
    fun k idle owes => ?_⟩
  · have notPopped : k ≠ j := by
      rintro rfl
      rw [waits] at popped
      cases popped
    exact (moved ((others k (.inr (by rw [waits]; rfl)) notPopped).trans waits)).elim
  · by_cases first : k = j
    · subst first
      exact ⟨queue, by simp, last⟩
    · exact (moved ((others k (.inr (by rw [waits]; rfl)) first).trans waits)).elim
  · have notPopped : k ≠ j := by
      rintro rfl
      rw [idle] at popped
      cases popped
    dsimp only at owes
    rw [others k (.inl idle) notPopped, idle] at owes
    contradiction

/-- A unique guard's drop wakes the whole shared batch. -/
theorem State.Good.handover_batch (good : s.Good) {i : ι} (holds : s.phase i = .unique) :
    Handover s { s with status := .shared s.sharedQ.length, sharedQ := [],
                        waker := fun k => if k ∈ s.sharedQ then false else s.waker k,
                        phase := Function.update
                          (fun k => if k ∈ s.sharedQ then .readyShared else s.phase k) i .idle } := by
  have notI : ∀ k, s.phase k ≠ .unique → k ≠ i := by
    rintro k plain rfl
    exact plain holds
  -- a user outside the batch and other than the dropping one stays where it is
  have others : ∀ k, k ∉ s.sharedQ → s.phase k ≠ .unique →
      Function.update (fun k => if k ∈ s.sharedQ then .readyShared else s.phase k) i .idle k
        = s.phase k := by
    intro k outside plain
    simp [Function.update_of_ne (notI k plain), outside]
  have outside : ∀ k, s.phase k ≠ .waitShared → k ∉ s.sharedQ :=
    fun k plain member => plain ((good.placed k).1.mp member)
  refine ⟨fun k _ _ => ⟨(good.status_of_unique (by rw [holds]; rfl)).1, rfl, fun j woken => ?_⟩,
    fun k waits moved => ?_, .inl (List.prefix_refl _), fun k idle owes => ?_⟩
  · have waitsJ := (good.placed j).1.mp woken
    simp [Function.update_of_ne (notI j (by rw [waitsJ]; simp)), woken]
  · exact (moved ((others k (outside k (by rw [waits]; simp)) (by rw [waits]; simp)).trans waits)).elim
  · dsimp only at owes
    rw [others k (outside k (by rw [idle]; simp)) (by rw [idle]; simp), idle] at owes
    contradiction

/-- The end of a hand-off sets the flag of the user it popped. -/
theorem State.Good.handover_handOff (good : s.Good) {i j : ι} (handing : s.phase i = .handOff j) :
    Handover s { s with waker := Function.update s.waker j false,
                        phase := Function.update (Function.update s.phase i .idle) j
                          .readyUnique } := by
  have handed := good.handOffs.1 i j handing
  -- only the two ends of the hand-off move
  have others : ∀ k, s.phase k = .idle ∨ (s.phase k).queued ∧ s.phase k ≠ .handed →
      Function.update (Function.update s.phase i .idle) j .readyUnique k = s.phase k := by
    intro k plain
    have notJ : k ≠ j := by
      rintro rfl
      rw [handed] at plain
      simp at plain
    have notI : k ≠ i := by
      rintro rfl
      rw [handing] at plain
      simp [Phase.queued] at plain
    rw [Function.update_of_ne notJ, Function.update_of_ne notI]
  refine ⟨fun k waits moved => ?_, fun k waits moved => ?_, .inl (List.prefix_refl _),
    fun k idle owes => ?_⟩
  · exact (moved ((others k (.inr ⟨by rw [waits]; rfl, by rw [waits]; simp⟩)).trans waits)).elim
  · exact (moved ((others k (.inr ⟨by rw [waits]; rfl, by rw [waits]; simp⟩)).trans waits)).elim
  · dsimp only at owes
    rw [others k (.inl idle), idle] at owes
    contradiction

/-- Every step hands the lock on in the documented order. -/
theorem State.Good.step_handover (good : s.Good) (step : Step s s') : Handover s s' := by
  obtain ⟨i, a, allowed, ran⟩ := step
  cases a with
  | sharedLock =>
    rw [RwSleepMutex.act, Option.some.injEq] at ran
    subst ran
    refine good.handover_lock allowed (fun k other => sharedLock_phase_of_ne other) ?_
      fun busy => by simp [sharedLock_of_busy busy, RwSleepMutex.queueShared, Phase.owes]
    unfold RwSleepMutex.sharedLock
    split <;> (try split) <;> exact List.prefix_refl _
  | uniqueLock =>
    rw [RwSleepMutex.act, Option.some.injEq] at ran
    subst ran
    refine good.handover_lock allowed (fun k other => uniqueLock_phase_of_ne other) ?_
      fun busy => ?_
    · unfold RwSleepMutex.uniqueLock
      split
      · exact List.prefix_refl _
      · exact List.prefix_append _ _
    · have taken : s.status ≠ .unlock := by
        rcases busy with unique | ⟨⟨n, shared⟩, -⟩
        · simp [unique]
        · simp [shared]
      simp [uniqueLock_of_busy taken, RwSleepMutex.queueUnique, Phase.owes]
  | trySharedLock =>
    rw [RwSleepMutex.act, Option.some.injEq] at ran
    subst ran
    refine good.handover_lock allowed (fun k other => trySharedLock_phase_of_ne other) ?_
      fun busy => by simp [trySharedLock_of_busy busy, show s.phase i = .idle from allowed, Phase.owes]
    unfold RwSleepMutex.trySharedLock
    split <;> (try split) <;> exact List.prefix_refl _
  | tryUniqueLock =>
    rw [RwSleepMutex.act, Option.some.injEq] at ran
    subst ran
    refine good.handover_lock allowed (fun k other => tryUniqueLock_phase_of_ne other) ?_
      fun busy => ?_
    · unfold RwSleepMutex.tryUniqueLock
      split <;> exact List.prefix_refl _
    · have taken : s.status ≠ .unlock := by
        rcases busy with unique | ⟨⟨n, shared⟩, -⟩
        · simp [unique]
        · simp [shared]
      simp [tryUniqueLock_of_busy taken, show s.phase i = .idle from allowed, Phase.owes]
  | poll =>
    by_cases waits : (s.phase i).queued
    · rw [act_of_queued waits allowed ran]
      exact Handover.refl
    rw [RwSleepMutex.act, Option.some.injEq] at ran
    subst ran
    refine Handover.of_single (fun k other => poll_phase_of_ne other) (by simpa using waits) ?_
      fun idle => by simp [RwSleepMutex.poll, idle, Phase.owes]
    unfold RwSleepMutex.poll
    split <;> exact List.prefix_refl _
  | drop =>
    rcases allowed with holds | holds
    · simp only [RwSleepMutex.act, holds] at ran
      rcases good.dropShared_cases holds ran with ⟨j, rest, status, queue, rfl⟩ |
        ⟨-, -, -, rfl⟩ | ⟨n, -, rfl⟩
      · exact good.handover_handTo (.inl holds) queue (.inl status)
      all_goals
        exact Handover.of_single (fun k other => Function.update_of_ne other _ _)
          (by rw [holds]; rfl) (List.prefix_refl _) (fun idle => by rw [holds] at idle; cases idle)
    · simp only [RwSleepMutex.act, holds] at ran
      rcases good.dropUnique_cases ran with ⟨-, rfl⟩ | ⟨j, rest, noShared, queue, rfl⟩ |
        ⟨-, -, rfl⟩
      · exact good.handover_batch holds
      · exact good.handover_handTo (.inr holds) queue
          (.inr ⟨(good.status_of_unique (by rw [holds]; rfl)).1, noShared⟩)
      · exact Handover.of_single (fun k other => Function.update_of_ne other _ _)
          (by rw [holds]; rfl) (List.prefix_refl _) (fun idle => by rw [holds] at idle; cases idle)
  | handOff =>
    obtain ⟨j, handing⟩ := allowed
    simp only [RwSleepMutex.act, handing, RwSleepMutex.handOff] at ran
    split at ran
    · rw [Option.some.injEq] at ran
      subst ran
      exact good.handover_handOff handing
    · cases ran

end Good

/-! ## Fair runs -/

/-- A run of the lock from a new one: each state is a step from the one before, or the
same state. -/
structure Run (ι : Type) [DecidableEq ι] where
  state : ℕ → State ι
  start : state 0 = State.init
  next : ∀ n, Step (state n) (state (n + 1)) ∨ state (n + 1) = state n

/-- Every holder eventually moves on: a future whose flag is set is polled, a guard is
dropped, and a hand-off ends. -/
def Run.Fair (r : Run ι) : Prop :=
  ∀ n k, ((r.state n).phase k).owes → ∃ m ≥ n, (r.state m).phase k ≠ (r.state n).phase k

theorem Run.reachable (r : Run ι) (n : ℕ) : Reachable (r.state n) := by
  induction n with
  | zero =>
    rw [r.start]
    exact .refl
  | succ n ih =>
    rcases r.next n with step | same
    · exact ih.tail step
    · rw [same]
      exact ih

section Fair

variable [Fintype ι] (r : Run ι)

theorem Run.good (n : ℕ) : (r.state n).Good := State.Good.of_reachable (r.reachable n)

/-- A user that owes the lock leaves its phase only by a step of its own. -/
theorem Run.own_step {m : ℕ} {k : ι} (owes : ((r.state m).phase k).owes)
    (changed : (r.state (m + 1)).phase k ≠ (r.state m).phase k) :
    ∃ a, a.Allowed ((r.state m).phase k) ∧ act k (r.state m) a = some (r.state (m + 1)) := by
  rcases r.next m with ⟨i, a, allowed, ran⟩ | same
  · by_cases own : k = i
    · subst own
      exact ⟨a, allowed, ran⟩
    · -- the others only move users that wait
      rcases (r.good m).act_other ran own with same | ⟨moved, -⟩ | ⟨moved, -⟩ | ⟨moved, -⟩
      · exact absurd same changed
      all_goals
        rw [moved] at owes
        contradiction
  · exact absurd (by rw [same]) changed

/-- No step raises the rank of a waiter that still waits after it. -/
theorem Run.rank_le (w : ι) (n : ℕ) (waits : ((r.state n).phase w).queued)
    (stillWaits : ((r.state (n + 1)).phase w).queued) :
    (r.state (n + 1)).rank w ≤ (r.state n).rank w := by
  rcases r.next n with ⟨i, a, allowed, ran⟩ | same
  · by_cases owes : ((r.state n).phase i).owes
    · exact ((r.good n).rank_owes allowed owes ran waits stillWaits).le
    · exact ((r.good n).rank_calm allowed (by simpa using owes) ran waits).le
  · rw [same]

/-- In a fair run the rank of a waiter drops at some later step. -/
theorem Run.rank_drops (fair : r.Fair) (w : ι) (n : ℕ) (waits : ((r.state n).phase w).queued) :
    ∃ m ≥ n, ((r.state m).phase w).queued → ((r.state (m + 1)).phase w).queued →
      (r.state (m + 1)).rank w < (r.state m).rank w := by
  -- a holder that owes the lock moves at some step, and that step is its own
  obtain ⟨k, owes⟩ := (r.good n).exists_owes waits
  obtain ⟨m, after, unchanged, changed⟩ :=
    Liveness.exists_change_step (fun m => (r.state m).phase k) n (fair n k owes)
  have owesM : ((r.state m).phase k).owes := by
    rw [unchanged]
    exact owes
  obtain ⟨a, allowed, ran⟩ := r.own_step owesM (by rw [unchanged]; exact changed)
  exact ⟨m, after, fun waitsM stillWaits => (r.good m).rank_owes allowed owesM ran waitsM stillWaits⟩

/-- In a fair run every waiter is granted: its flag is set at some later time. -/
theorem Run.granted (fair : r.Fair) (n : ℕ) (w : ι) (waits : ((r.state n).phase w).queued) :
    ∃ m ≥ n, (r.state m).phase w = .readyShared ∨ (r.state m).phase w = .readyUnique := by
  obtain ⟨stop, after, stopped⟩ :=
    Liveness.wait_ends r.state (fun s => (s.phase w).queued) (fun s => s.rank w)
      (fun m waitsM stillWaits => r.rank_le w m waitsM stillWaits)
      (fun m waitsM => r.rank_drops fair w m waitsM) n waits
  -- the step at which `w` stops waiting sets its flag
  obtain ⟨m, later, stillQueued, left⟩ :=
    Liveness.exists_change_step (fun m => ((r.state m).phase w).queued) n
      ⟨stop, after, by simpa [waits] using stopped⟩
  simp only [waits] at stillQueued left
  refine ⟨m + 1, by omega, ?_⟩
  rcases r.next m with ⟨i, a, allowed, ran⟩ | same
  · exact (r.good m).act_granted allowed ran stillQueued (by simpa using left)
  · rw [same, stillQueued] at left
    contradiction

end Fair

end RwSleepMutex
end FtlOs
