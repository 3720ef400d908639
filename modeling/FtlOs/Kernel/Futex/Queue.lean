import Mathlib
import FtlOs.Util.ListNode
import FtlOs.Kernel.Config

/-!
# Futex wait queues

`futex/queue.rs` links each waiting thread's `Node` into its futex's
`FutexQueue`.  The node's `ViewFutex` says where it is: `Queued(f)` in futex
`f`'s queue, `Waited` in a `TempQueue` between the two halves of a requeue,
`Issued` once released.  A released waiter's future is ready, but its task
runs again only when its waker is called.

`wake` and `wake_requeue` unlink waiters with `pop_many_ex`; `wake` calls the
waker of each, `wake_requeue` calls the first `max_wake` and moves the rest to
a `TempQueue`, which `futex_requeue` appends to the second futex.  Dropping a
`TempQueue` (when `futex_requeue` returns early) issues its nodes without
calling their wakers.
-/

namespace FtlOs

namespace Futex

/-- `ViewOp`: where a waiter's node is. -/
inductive View where
  | issued
  | queued (futex : Nat)
  | waited
  deriving DecidableEq, Repr

/-- A waiter's `Node`, and whether its waker has been called. -/
structure Node where
  id : Nat
  mask : UInt32
  pid : Option Nat
  view : View
  woken : Bool
  deriving DecidableEq, Repr

/-- `FutexQueue`. -/
structure FutexQueue where
  list : List Node
  closed : Bool

/-- `WakeStatus`. -/
inductive WakeStatus where
  | ok (n : Nat)
  | fail
  | closed
  deriving DecidableEq, Repr

/-- Release a node: `set_issued`, then `waker.wake()`. -/
def Node.release (node : Node) : Node := { node with view := .issued, woken := true }

/-- The nodes `wake` unlinks: a matching mask, and for a private futex the
waker's own process. -/
def wakeMatch (mask : UInt32) (pid : Option Nat) (node : Node) : Bool :=
  match pid, node.pid with
  | some x, some y => if x ≠ y then false else node.mask &&& mask != 0
  | _, _ => node.mask &&& mask != 0

/-- The nodes `wake_requeue` unlinks: for a private futex, the waker's own process. -/
def requeueMatch (pid : Option Nat) (node : Node) : Bool :=
  match pid, node.pid with
  | some x, some y => x == y
  | _, _ => true

namespace FutexQueue

/-- `FutexQueue::wake`: the status, the queue left, and the nodes released. -/
def wake (q : FutexQueue) (mask : UInt32) (max : Nat) (pid : Option Nat) (fail : Bool) :
    WakeStatus × FutexQueue × List Node :=
  if q.closed then (.closed, q, [])
  else if fail then (.fail, q, [])
  else
    let (kept, popped) := ListNode.popManyEx max (wakeMatch mask pid) 0 q.list
    (.ok popped.length, { q with list := kept }, popped.map Node.release)

section Wake

variable (q : FutexQueue) (mask : UInt32) (pid : Option Nat)

/-- For `max = 0`, `wake` wakes every matching waiter. -/
theorem wake_zero (notClosed : q.closed = false) :
    (q.wake mask 0 pid false).1 = .ok (q.list.countP (wakeMatch mask pid)) := by
  have popsAll := ListNode.popManyEx_of_le 0 (wakeMatch mask pid) (le_refl 0) q.list
  simp [wake, notClosed, popsAll, List.countP_eq_length_filter]

end Wake

/-- `FutexQueue::wake_requeue`: the status, the queue left, the nodes released,
and the `TempQueue` of the rest when there are any. -/
def wakeRequeue (q : FutexQueue) (maxWake maxRequeue : Nat) (pid : Option Nat) (fail : Bool) :
    WakeStatus × FutexQueue × List Node × Option (List Node) :=
  if q.closed then (.closed, q, [], none)
  else if fail then (.fail, q, [], none)
  else
    let (kept, popped) := ListNode.popManyEx (maxWake + maxRequeue) (requeueMatch pid) 0 q.list
    let woken := (popped.take maxWake).map Node.release
    let waiting := (popped.drop maxWake).map fun node => { node with view := .waited }
    (.ok woken.length, { q with list := kept }, woken,
      if popped.length = woken.length then none else some waiting)

/-- `WaitStatus`, as the wait stands once it has linked its node or given up: `ok`
means the waiter sleeps until it is woken or its deadline passes. -/
inductive WaitStatus where
  | ok
  | fail
  | closed
  deriving DecidableEq, Repr

/-- `Futex::wait` and `FutexQueue::wait` up to the sleep: a closed futex, or a value
that changed, returns at once; otherwise the waiter's node is linked at the back. -/
def wait (q : FutexQueue) (node : Node) (fail : Bool) : WaitStatus × FutexQueue :=
  if q.closed then (.closed, q)
  else if fail then (.fail, q)
  else (.ok, { q with list := q.list ++ [node] })

/-- `FutexQueue::append`: link a `TempQueue` to this futex, unless it is closed. -/
def append (q : FutexQueue) (tq : List Node) (futex : Nat) : Option FutexQueue :=
  if q.closed then none
  else some { q with list := q.list ++ tq.map fun node => { node with view := .queued futex } }

/-- `FutexQueue::wake_all_close`: close, and release every node. -/
def wakeAllClose (q : FutexQueue) : FutexQueue × List Node :=
  let (kept, popped) := ListNode.popManyEx usizeMax.toNat (fun _ => true) 0 q.list
  ({ list := kept, closed := true }, popped.map Node.release)

end FutexQueue

/-- `TempQueue::drop`: every node is issued, and no waker is called. -/
def tempQueueDrop (tq : List Node) : List Node := tq.map fun node => { node with view := .issued }

/-- A waiter on futex `0` with mask `1`. -/
def waiter (id : Nat) : Node := ⟨id, 1, none, .queued 0, false⟩

/-- `wake` with `max = 0` wakes both waiters of a queue, and a requeue whose
temporary queue is dropped leaves its one waiter issued with its waker never
called. -/
theorem futex_wake_zero_and_dropped_requeue :
    ((⟨[waiter 0, waiter 1], false⟩ : FutexQueue).wake 1 0 none false).1 = .ok 2 ∧
    ((⟨[waiter 0], false⟩ : FutexQueue).wakeRequeue 0 1 none false).2.2.2.map tempQueueDrop =
      some [{ waiter 0 with view := .issued }] := by
  refine ⟨?_, by decide⟩
  -- with `max = 0` the count reaches the bound only after it is passed
  rw [FutexQueue.wake_zero _ 1 none rfl]
  decide

end Futex

end FtlOs
