import Mathlib.Logic.Function.Basic
import Mathlib.Logic.Relation

/-!
# The async reader-writer sleep lock

`ftl_util::sync::rw_sleep_mutex`, the lock of the FAT32 inodes. Its spin-locked
`MutexInner` holds a `Status` (`Unlock`, `Unique` or `Shared(n)`) and two intrusive
queues of waiting futures, `shared` and `unique`, pushed at the tail and popped at
the head. A future that cannot take the lock stores its waker in its node and is
queued; a dropped guard hands the lock on: a shared batch after a unique guard, a
unique waiter after the last shared guard, "shared - unique - shared - unique".

Each user of the lock goes through the phases of one lock call and the guard it
gives. Each critical section under the spin lock is one step. Where a drop releases
the spin lock before it sets the flag of the unique waiter it popped, the hand-off
is a step of its own (`Phase.handOff`). A future's `poll` reads only its node's
flag; the flags of a shared batch are set inside the critical section that counts
them, so a poll between two of them sees what a poll after the section sees.

`status` counts the users that hold the lock: guards, futures whose flag is set but
that have not been polled, and a unique hand-off on its way.
-/

namespace FtlOs
namespace RwSleepMutex

/-- `Status`. -/
inductive Status where
  | unlock
  | unique
  | shared (n : Nat)
  deriving DecidableEq, Repr

/-- `Status::shared_count`. -/
def Status.sharedCount : Status → Option Nat
  | .shared n => some n
  | _ => none

/-- Where one user of the lock is. -/
inductive Phase (ι : Type) where
  | idle
  /-- Queued on `shared`, flag clear. -/
  | waitShared
  /-- Queued on `unique`, flag clear. -/
  | waitUnique
  /-- Popped from `unique` by a hand-off that has not set its flag yet. -/
  | handed
  /-- Flag set, not polled yet. -/
  | readyShared
  | readyUnique
  /-- Holds a `SharedSleepMutexGuard`. -/
  | shared
  /-- Holds an `UnqiueSleepMutexGuard`. -/
  | unique
  /-- Dropped a guard, popped the unique waiter `next` and released the spin lock;
  `next`'s flag is not set yet. -/
  | handOff (next : ι)
  deriving DecidableEq, Repr

/-- `MutexInner` and the users of the lock. -/
structure State (ι : Type) where
  status : Status
  /-- `MutexInner::shared`, head first. -/
  sharedQ : List ι
  /-- `MutexInner::unique`, head first. -/
  uniqueQ : List ι
  /-- Whether the user's node holds a waker (`data.1.is_some()`). -/
  waker : ι → Bool
  phase : ι → Phase ι

/-- `RwSleepMutex::new`, before any user. -/
def State.init {ι : Type} : State ι := ⟨.unlock, [], [], fun _ => false, fun _ => .idle⟩

variable {ι : Type} [DecidableEq ι]

/-- The last arm of `SharedSleepLockFuture::init`: the waker stored, the node
queued on `shared`. -/
def queueShared (i : ι) (s : State ι) : State ι :=
  { s with sharedQ := s.sharedQ ++ [i], waker := Function.update s.waker i true,
           phase := Function.update s.phase i .waitShared }

/-- `SharedSleepLockFuture::init`. -/
def sharedLock (i : ι) (s : State ι) : State ι :=
  match s.status with
  | .unlock => { s with status := .shared 1, phase := Function.update s.phase i .readyShared }
  | .shared n =>
    if s.uniqueQ.isEmpty then
      { s with status := .shared (n + 1), phase := Function.update s.phase i .readyShared }
    else queueShared i s
  | .unique => queueShared i s

/-- The last arm of `UniqueSleepLockFuture::init`: the waker stored, the node
queued on `unique`. -/
def queueUnique (i : ι) (s : State ι) : State ι :=
  { s with uniqueQ := s.uniqueQ ++ [i], waker := Function.update s.waker i true,
           phase := Function.update s.phase i .waitUnique }

/-- `UniqueSleepLockFuture::init`. -/
def uniqueLock (i : ι) (s : State ι) : State ι :=
  match s.status with
  | .unlock => { s with status := .unique, phase := Function.update s.phase i .readyUnique }
  | _ => queueUnique i s

/-- `RwSleepMutex::try_shared_lock`; on `None` nothing changes. -/
def trySharedLock (i : ι) (s : State ι) : State ι :=
  match s.status with
  | .unlock => { s with status := .shared 1, phase := Function.update s.phase i .shared }
  | .shared n =>
    if s.uniqueQ.isEmpty then
      { s with status := .shared (n + 1), phase := Function.update s.phase i .shared }
    else s
  | .unique => s

/-- `RwSleepMutex::try_unique_lock`; on `None` nothing changes. -/
def tryUniqueLock (i : ι) (s : State ι) : State ι :=
  match s.status with
  | .unlock => { s with status := .unique, phase := Function.update s.phase i .unique }
  | _ => s

/-- `poll` of the future of `i`: `Ready` with its guard once the flag is set. -/
def poll (i : ι) (s : State ι) : State ι :=
  match s.phase i with
  | .readyShared => { s with phase := Function.update s.phase i .shared }
  | .readyUnique => { s with phase := Function.update s.phase i .unique }
  | _ => s

/-- The loop `while let Some(shared) = mx_list.shared.pop_next()` of both drops:
each waker taken (`unwrap`) and each flag set, in order. -/
def wakeShared : List ι → (ι → Bool) → (ι → Phase ι) → Option ((ι → Bool) × (ι → Phase ι))
  | [], waker, phase => some (waker, phase)
  | j :: rest, waker, phase =>
    if waker j then
      wakeShared rest (Function.update waker j false) (Function.update phase j .readyShared)
    else none

/-- `SharedSleepMutexGuard::drop`. -/
def dropShared (i : ι) (s : State ι) : Option (State ι) :=
  match s.status.sharedCount with
  | none | some 0 => none
  | some 1 =>
    match s.uniqueQ with
    | j :: rest =>
      some { s with status := .unique, uniqueQ := rest,
                    phase := Function.update (Function.update s.phase i (.handOff j)) j .handed }
    | [] =>
      (wakeShared s.sharedQ s.waker s.phase).map fun (waker, phase) =>
        { s with status := if s.sharedQ.length = 0 then .unlock else .shared s.sharedQ.length,
                 sharedQ := [], waker, phase := Function.update phase i .idle }
  | some (n + 2) => some { s with status := .shared (n + 1), phase := Function.update s.phase i .idle }

/-- The end of a drop after `drop(mx_list)`: the waker of the popped unique node
taken (`unwrap`) and its flag set. -/
def handOff (i j : ι) (s : State ι) : Option (State ι) :=
  if s.waker j then
    some { s with waker := Function.update s.waker j false,
                  phase := Function.update (Function.update s.phase i .idle) j .readyUnique }
  else none

/-- `UnqiueSleepMutexGuard::drop`. -/
def dropUnique (i : ι) (s : State ι) : Option (State ι) :=
  (wakeShared s.sharedQ s.waker s.phase).map fun (waker, phase) =>
    if s.sharedQ.length ≠ 0 then
      { s with status := .shared s.sharedQ.length, sharedQ := [], waker,
               phase := Function.update phase i .idle }
    else
      match s.uniqueQ with
      | j :: rest =>
        { s with status := .unique, uniqueQ := rest, waker,
                 phase := Function.update (Function.update phase i (.handOff j)) j .handed }
      | [] => { s with status := .unlock, waker, phase := Function.update phase i .idle }

/-! ## Runs -/

/-- What a user does next. -/
inductive Action where
  | sharedLock
  | uniqueLock
  | trySharedLock
  | tryUniqueLock
  | poll
  | drop
  | handOff
  deriving DecidableEq, Repr

/-- The actions a user can take in each phase. -/
def Action.Allowed : Action → Phase ι → Prop
  | .sharedLock, p | .uniqueLock, p | .trySharedLock, p | .tryUniqueLock, p => p = .idle
  | .poll, p => p = .waitShared ∨ p = .waitUnique ∨ p = .handed ∨ p = .readyShared ∨
      p = .readyUnique
  | .drop, p => p = .shared ∨ p = .unique
  | .handOff, p => ∃ j, p = .handOff j

/-- Action `a` of the user `i`. -/
def act (i : ι) (s : State ι) : Action → Option (State ι)
  | .sharedLock => some (sharedLock i s)
  | .uniqueLock => some (uniqueLock i s)
  | .trySharedLock => some (trySharedLock i s)
  | .tryUniqueLock => some (tryUniqueLock i s)
  | .poll => some (poll i s)
  | .drop =>
    match s.phase i with
    | .shared => dropShared i s
    | .unique => dropUnique i s
    | _ => none
  | .handOff =>
    match s.phase i with
    | .handOff j => handOff i j s
    | _ => none

/-- One action of one user. -/
inductive Step : State ι → State ι → Prop
  | act {s s' : State ι} (i : ι) (a : Action) (allowed : a.Allowed (s.phase i))
      (ran : act i s a = some s') : Step s s'

/-- The states that runs from a new lock reach. -/
def Reachable (s : State ι) : Prop := Relation.ReflTransGen Step State.init s

end RwSleepMutex
end FtlOs
