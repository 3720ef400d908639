import Mathlib

/-!
# The queued spin lock

`QSpinLock` of `ftl-util/src/sync/qspinlock.rs` is a queued spin lock in the manner of Linux's:
one 32-bit word `QVal` holds a `locked` byte, a `pending` byte and a 16-bit `tail`.  A caller
takes a free word with one `compare_exchange`; the first contender sets `pending` and waits for
`locked` to clear; the others put their CPU's MCS node at `tail`, and the head of that queue
takes the lock and hands the head on to its successor's node.  A `Phase` is the atomic
instruction or volatile access a CPU executes next, and the CPUs run in any interleaving, in
sequential consistency: the memory orderings and fences of the source are not modelled.
-/

namespace FtlOs

namespace QSpinLock

/-- `MAX_CPU`. -/
def maxCpu : Nat := 32

instance : NeZero maxCpu := ⟨by decide⟩

/-- `MAX_NEST`, the nodes of each CPU. -/
def maxNest : Nat := 4

/-- A CPU, the user of the lock. -/
abbrev Cpu := Fin maxCpu

/-- `encode_tail(cpuid, 0)`: `(cpuid + 1) * MAX_NEST`, never `0`. -/
def encodeTail (c : Cpu) : Nat := (c.val + 1) * maxNest + 0

/-- `decode_tail`: the CPU whose node a tail names. -/
def decodeTail (t : Nat) : Cpu := Fin.ofNat maxCpu (t / maxNest - 1)

/-- The lock word, as its `LPT` view: the `locked` and `pending` bytes, which only ever hold
`0` or `1`, and the `tail`. -/
structure QVal where
  locked : Bool
  pending : Bool
  tail : Nat
  deriving DecidableEq, Repr

/-- `QVal::new((0, 0, 0))`, the free word. -/
def QVal.free : QVal := ⟨false, false, 0⟩

/-- `QVal::new((0, 0, 1))`, the word of a lock taken with an empty queue. -/
def QVal.taken : QVal := ⟨true, false, 0⟩

/-- `QVal::new((0, 1, 0))`, a pending owner about to take the lock. -/
def QVal.pendingOnly : QVal := ⟨false, true, 0⟩

/-- A CPU's node as the lock uses it: `next`, the node of the CPU queued behind it, and the
`locked` flag its predecessor sets to hand it the head of the queue. -/
structure QNode where
  next : Option Cpu
  locked : Bool
  deriving DecidableEq, Repr

/-- `QNode::init` and `QNode::EMPTY` as the lock sees them. -/
def QNode.empty : QNode := ⟨none, false⟩

/-- Where one CPU is: the atomic instruction of `lock` it executes next, with the values it
holds in locals, or the guard it holds. -/
inductive Phase where
  | idle
  /-- `obtain_lock_fast`, its `compare_exchange((0, 0, 0), (0, 0, 1))`. -/
  | fast
  /-- `obtain_lock` waiting out `(0, 1, 0)`: the load of round `k` of at most `0x100`. -/
  | transit (k : Nat)
  /-- `fetch_set_pending`, the `fetch_or` of the pending byte. -/
  | setPending
  /-- the store of `0` into `pending` by a caller that set it over a queue. -/
  | clearPending
  /-- the owner of `pending` waiting for `locked` to clear: its load. -/
  | waitLocked
  /-- the owner of `pending` storing `(locked, pending) = (1, 0)`. -/
  | takePending
  /-- the queue path's `node.init()`. -/
  | initNode
  /-- `try_obtain_lock`, its load. -/
  | tryLoad
  /-- `try_obtain_lock`, its `compare_exchange((0, 0, 0), (0, 0, 1))`. -/
  | tryCas
  /-- the `swap` of `tail`. -/
  | swapTail
  /-- the write of `prev.next`. -/
  | link (prev : Cpu)
  /-- the wait for `node.locked`: its load. -/
  | waitNode
  /-- the read of `node.next` once the node is the head. -/
  | readNext
  /-- the wait for `(x, 0, 0)`: its load, with the `next` read so far. -/
  | headWait (next : Option Cpu)
  /-- the `compare_exchange(qval, (0, 0, 1))` of a head that saw its own `tail`. -/
  | headCas (qval : QVal) (next : Option Cpu)
  /-- the store of `1` into `locked`. -/
  | headLock (next : Option Cpu)
  /-- the wait for `node.next`: its load. -/
  | waitNext
  /-- the store of `1` into the successor's `locked`. -/
  | passOn (next : Cpu)
  /-- a live `QMutexGuard`. -/
  | held
  deriving DecidableEq, Repr

/-- What `obtain_lock` does with a word it read: queue when `pending` or `tail` is set, else
set `pending`. -/
def afterRead (qval : QVal) : Phase :=
  if qval.pending || qval.tail ≠ 0 then .initNode else .setPending

namespace Phase

/-- One instruction of CPU `i` in phase `ph` on the word `w` and the nodes `n`: the phase,
word and nodes after it.  An idle CPU executes nothing and changes nothing. -/
def step (i : Cpu) : Phase → QVal → (Cpu → QNode) → Phase × QVal × (Cpu → QNode)
  | idle, w, n => (idle, w, n)
  | fast, w, n =>
    if w = .free then (held, .taken, n)
    else if w = .pendingOnly then (transit 0, w, n) else (afterRead w, w, n)
  | transit k, w, n =>
    if w ≠ .pendingOnly ∨ k + 1 = 0x100 then (afterRead w, w, n) else (transit (k + 1), w, n)
  -- `fetch_or` returns the old word: the caller owns `pending` when it was clear
  | setPending, w, n =>
    if w.pending || w.tail ≠ 0 then
      (if w.pending then initNode else clearPending, { w with pending := true }, n)
    else (if w.locked then waitLocked else takePending, { w with pending := true }, n)
  | clearPending, w, n => (initNode, { w with pending := false }, n)
  | waitLocked, w, n => (if w.locked then waitLocked else takePending, w, n)
  | takePending, w, n => (held, { w with locked := true, pending := false }, n)
  | initNode, w, n => (tryLoad, w, Function.update n i .empty)
  | tryLoad, w, n => (if w = .free then tryCas else swapTail, w, n)
  | tryCas, w, n => if w = .free then (held, .taken, n) else (swapTail, w, n)
  | swapTail, w, n =>
    (if w.tail ≠ 0 then link (decodeTail w.tail) else headWait none,
      { w with tail := encodeTail i }, n)
  | link prev, w, n => (waitNode, w, Function.update n prev { n prev with next := some i })
  | waitNode, w, n => (if (n i).locked then readNext else waitNode, w, n)
  | readNext, w, n => (headWait (n i).next, w, n)
  -- the `&&` of the source: the exchange only when the tail is still this CPU's
  | headWait next, w, n =>
    if w.locked || w.pending then (headWait next, w, n)
    else if w.tail = encodeTail i then (headCas w next, w, n) else (headLock next, w, n)
  | headCas qval next, w, n => if w = qval then (held, .taken, n) else (headLock next, w, n)
  | headLock next, w, n =>
    (match next with
      | some c => passOn c
      | none => waitNext, { w with locked := true }, n)
  | waitNext, w, n =>
    (match (n i).next with
      | some c => passOn c
      | none => waitNext, w, n)
  | passOn c, w, n => (held, w, Function.update n c { n c with locked := true })
  | held, w, n => (idle, { w with locked := false }, n)

end Phase

/-- The lock word, the nodes and every CPU's phase. -/
@[ext] structure State where
  word : QVal
  nodes : Cpu → QNode
  phase : Cpu → Phase

/-- `QSpinLock::new` and `PER_CPU_NODES` as they start: no CPU in a call. -/
def State.init : State := ⟨.free, fun _ => .empty, fun _ => .idle⟩

/-- One CPU starts `lock`, or executes one instruction.  A CPU takes the lock from one
context at a time, so its node is node `0` of its four and `count` is `0` whenever it enters
the queue; the nested calls of interrupt handlers, which use nodes `1` to `3`, are left out, and
so are `S::before_lock` and `S::after_unlock`, which only switch interrupts. -/
inductive Step : State → State → Prop
  | begin {s : State} (i : Cpu) (idle : s.phase i = .idle) :
      Step s ⟨s.word, s.nodes, Function.update s.phase i .fast⟩
  | atomic {s : State} {ph : Phase} {w : QVal} {n : Cpu → QNode} (i : Cpu)
      (ran : (s.phase i).step i s.word s.nodes = (ph, w, n)) :
      Step s ⟨w, n, Function.update s.phase i ph⟩

/-- The states some interleaving reaches. -/
def Reachable (s : State) : Prop := Relation.ReflTransGen Step State.init s

/-- CPU `i` acts: an idle CPU starts `lock`, any other executes its next instruction. -/
def State.act (s : State) (i : Cpu) : State :=
  if s.phase i = .idle then ⟨s.word, s.nodes, Function.update s.phase i .fast⟩
  else
    ⟨((s.phase i).step i s.word s.nodes).2.1, ((s.phase i).step i s.word s.nodes).2.2,
      Function.update s.phase i ((s.phase i).step i s.word s.nodes).1⟩

/-- The CPUs act one after another, in the order `order`. -/
def State.run (s : State) (order : List Cpu) : State := order.foldl State.act s

theorem Step.act (s : State) (i : Cpu) : Step s (s.act i) := by
  unfold State.act
  split_ifs with idle
  · exact .begin i idle
  · exact .atomic i rfl

/-- Every order of the CPUs' actions is an interleaving. -/
theorem reachable_run (order : List Cpu) : Reachable (State.init.run order) := by
  suffices ∀ s, Reachable s → Reachable (s.run order) from this _ .refl
  induction order with
  | nil => exact fun _ reach => reach
  | cons i rest ih => exact fun s reach => ih (s.act i) (reach.tail (Step.act s i))

end QSpinLock

end FtlOs
