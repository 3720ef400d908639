import Mathlib
import FtlOs.Kernel.Config

/-!
# The async semaphore

`ftl_util::sync::semaphore`: a count `cur` of free permits out of `max`, and a
queue of the `take_n` futures that could not be served at once, in the order they
came. A permit holder is a `MultiplySemaphore`, or a `SemaphoreGuard`, which is one
of value 1; dropping a holder gives its value back and wakes, from the head of
the queue, every future that the count now covers.

The counts are `isize`, here `BitVec 64` with the signed order, as the release
build computes them: wrapping, and with the `debug_assert!`s gone. Each critical
section under the semaphore's spin lock is one step. A future's `poll` reads only
its node's flag, which `release_task` sets after it has counted the value, so a
poll between two wake-ups sees what a poll after them sees.

Around the semaphore the world keeps the permit holders, the futures granted but
not polled yet, the tickets that number the futures in the order they came, and
a ghost log of every grant with the count at its time.
-/

namespace FtlOs
namespace Semaphore

/-- `isize`, with the release build's wrapping arithmetic. -/
abbrev Isize := BitVec 64

/-- `n as isize`. -/
def toIsize (n : Usize) : Isize := n.toBitVec

/-- A `SemaphoreFuture`'s node `(_, val, waker)`, with the future's ticket; whether
its flag is set is where the node is. -/
structure Node where
  ticket : Nat
  val : Isize
  waker : Option Nat
  deriving DecidableEq, Repr

/-- `next.2.take()`: the node once its waker has been taken to wake it. -/
def Node.wake (node : Node) : Node := { node with waker := none }

/-- `SemaphoreInner`. -/
structure Inner where
  cur : Isize
  max : Isize
  queue : List Node
  deriving DecidableEq, Repr

/-- `SemaphoreInner::release_task`: wake futures from the head of the queue while
`cur` covers them, the `unwrap` of a missing waker being a panic. The new `cur`,
the woken futures in order, and the queue left. -/
def releaseTask : Isize → List Node → Option (Isize × List Node × List Node)
  | cur, [] => some (cur, [], [])
  | cur, next :: queue =>
    if cur.slt next.val then some (cur, [], next :: queue)
    else match next.waker with
      | none => none
      | some _ =>
        (releaseTask (cur - next.val) queue).map fun (cur, woken, rest) =>
          (cur, next.wake :: woken, rest)

/-- A grant: the future's ticket and value, and `cur` when it was granted. -/
structure Grant where
  ticket : Nat
  val : Isize
  cur : Isize
  deriving DecidableEq, Repr

/-- The semaphore and where its permits are. -/
structure World where
  inner : Inner
  /-- The values of the live `MultiplySemaphore`s and `SemaphoreGuard`s. -/
  guards : List Isize
  /-- The futures whose flag is set and that have not been polled. -/
  granted : List Node
  /-- The ticket of the next future. -/
  tickets : Nat
  /-- Every grant so far, in order. -/
  log : List Grant
  deriving DecidableEq, Repr

/-- `Semaphore::new(n)`. -/
def World.new (n : Usize) : World :=
  { inner := { cur := toIsize n, max := toIsize n, queue := [] },
    guards := [], granted := [], tickets := 0, log := [] }

/-- The values out: the live holders and the granted futures. -/
def World.held (w : World) : Isize :=
  w.guards.sum + (w.granted.map Node.val).sum

/-- The grants of futures woken in turn, starting from `cur`. -/
def grantsFrom : Isize → List Node → List Grant
  | _, [] => []
  | cur, node :: rest => ⟨node.ticket, node.val, cur⟩ :: grantsFrom (cur - node.val) rest

/-- `release_task` on the world: the woken futures are granted. -/
def World.release (w : World) : Option World :=
  (releaseTask w.inner.cur w.inner.queue).map fun (cur, woken, queue) =>
    { w with inner := { w.inner with cur, queue }, granted := w.granted ++ woken,
             log := w.log ++ grantsFrom w.inner.cur woken }

/-- `Semaphore::change(n)`. -/
def change (n : Isize) (w : World) : Option World :=
  let w := { w with inner := { w.inner with cur := w.inner.cur + n, max := w.inner.max + n } }
  if (0 : Isize).slt n then w.release else some w

/-- `Semaphore::try_take_n(n)`: a holder of `n` when no future waits and `cur` covers it. -/
def tryTakeN (n : Usize) (w : World) : World :=
  let val := toIsize n
  if w.inner.queue.isEmpty && val.sle w.inner.cur then
    { w with inner := { w.inner with cur := w.inner.cur - val }, guards := w.guards ++ [val] }
  else w

/-- `Semaphore::try_take`. -/
def tryTake (w : World) : World := tryTakeN 1 w

/-- `SemaphoreFuture::init` of `take_n(n)`: served at once when no future waits and
`cur` covers it, queued with its waker otherwise. -/
def takeN (n : Usize) (w : World) : World :=
  let val := toIsize n
  let ticket := w.tickets
  if w.inner.queue.isEmpty && val.sle w.inner.cur then
    { w with inner := { w.inner with cur := w.inner.cur - val },
             granted := w.granted ++ [⟨ticket, val, none⟩], tickets := ticket + 1,
             log := w.log ++ [⟨ticket, val, w.inner.cur⟩] }
  else
    { w with inner := { w.inner with queue := w.inner.queue ++ [⟨ticket, val, some ticket⟩] },
             tickets := ticket + 1 }

/-- `Semaphore::take`. -/
def take (w : World) : World := takeN 1 w

/-- `SemaphoreFuture::poll`: `Ready` with a holder of the future's value once its
flag is set, `Pending` before. -/
def poll (ticket : Nat) (w : World) : World :=
  match w.granted.find? (·.ticket = ticket) with
  | some node => { w with granted := w.granted.erase node, guards := w.guards ++ [node.val] }
  | none => w

/-- `MultiplySemaphore::drop` of the `i`-th live holder. -/
def drop (i : Nat) (w : World) : Option World :=
  match w.guards[i]? with
  | none => none
  | some val =>
    let w := { w with guards := w.guards.eraseIdx i }
    if val ≠ 0 then { w with inner := { w.inner with cur := w.inner.cur + val } }.release
    else some w

/-- `MultiplySemaphore::try_take` on the `i`-th live holder: one permit split off
into a new `SemaphoreGuard`. -/
def split (i : Nat) (w : World) : Option World :=
  match w.guards[i]? with
  | none => none
  | some val => if val = 0 then some w else some { w with guards := w.guards.set i (val - 1) ++ [1] }

/-! ## Runs -/

/-- The calls on a semaphore. -/
inductive Call where
  | change (n : Isize)
  | tryTakeN (n : Usize)
  | takeN (n : Usize)
  | poll (ticket : Nat)
  | drop (guard : Nat)
  | split (guard : Nat)
  deriving DecidableEq, Repr

/-- One call. -/
def Call.exec : Call → World → Option World
  | .change n, w => Semaphore.change n w
  | .tryTakeN n, w => some (Semaphore.tryTakeN n w)
  | .takeN n, w => some (Semaphore.takeN n w)
  | .poll ticket, w => some (Semaphore.poll ticket w)
  | .drop i, w => Semaphore.drop i w
  | .split i, w => Semaphore.split i w

/-- The calls the code makes: on holders that exist, and for requests within
`isize`, as `take_n` and `try_take_n` assert. -/
def Call.Allowed : Call → World → Prop
  | .tryTakeN n, _ | .takeN n, _ => n.toNat < 2 ^ 63
  | .drop i, w | .split i, w => i < w.guards.length
  | .change _, _ | .poll _, _ => True

instance Call.decidableAllowed : (c : Call) → (w : World) → Decidable (c.Allowed w)
  | .tryTakeN n, _ | .takeN n, _ => inferInstanceAs (Decidable (n.toNat < 2 ^ 63))
  | .drop i, w | .split i, w => inferInstanceAs (Decidable (i < w.guards.length))
  | .change _, _ | .poll _, _ => inferInstanceAs (Decidable True)

/-- The calls that end in `release_task`: a drop of a nonzero holder, and a
`change` by a positive amount. -/
def Call.Releases : Call → World → Prop
  | .change n, _ => (0 : Isize).slt n
  | .drop i, w => ∃ val, w.guards[i]? = some val ∧ val ≠ 0
  | _, _ => False

/-- One allowed call. -/
inductive Step : World → World → Prop
  | call {w w' : World} (c : Call) (allowed : c.Allowed w) (ran : c.exec w = some w') : Step w w'

/-- The worlds that allowed calls reach from a new semaphore. -/
def Reachable (w : World) : Prop :=
  ∃ n : Usize, Relation.ReflTransGen Step (World.new n) w

/-! ## `isize` values and list sums -/

/-- A request within `isize` is its own value. -/
theorem toInt_toIsize {n : Usize} (small : n.toNat < 2 ^ 63) : (toIsize n).toInt = n.toNat := by
  rw [toIsize, BitVec.toInt_eq_toNat_of_msb]
  · simp
  · rw [BitVec.msb_eq_decide]
    simp
    omega

section Sums

variable {M : Type} [AddCommGroup M]

theorem sum_eraseIdx_add {l : List M} {i : Nat} {v : M} (at_i : l[i]? = some v) :
    (l.eraseIdx i).sum + v = l.sum := by
  induction l generalizing i with
  | nil => simp at at_i
  | cons x l ih =>
    cases i with
    | zero =>
      simp only [List.getElem?_cons_zero, Option.some.injEq] at at_i
      simp [at_i, add_comm]
    | succ i =>
      simp only [List.getElem?_cons_succ] at at_i
      simp [← ih at_i, add_assoc]

theorem sum_set_add {l : List M} {i : Nat} {v : M} (at_i : l[i]? = some v) (a : M) :
    (l.set i a).sum + v = l.sum + a := by
  induction l generalizing i with
  | nil => simp at at_i
  | cons x l ih =>
    cases i with
    | zero =>
      simp only [List.getElem?_cons_zero, Option.some.injEq] at at_i
      simp [at_i]
      abel
    | succ i =>
      simp only [List.getElem?_cons_succ] at at_i
      simp only [List.set_cons_succ, List.sum_cons, add_assoc, ih at_i]

end Sums

/-- Moving the first `k` of a sorted list to the end of a sorted log that comes
before all of it keeps the log sorted and before what is left. -/
theorem sorted_shift {log queue : List Nat} (k : Nat) (sorted : queue.Pairwise (· < ·))
    (logSorted : log.Pairwise (· < ·)) (before : ∀ t ∈ log, ∀ u ∈ queue, t < u) :
    (log ++ queue.take k).Pairwise (· < ·) ∧ ∀ t ∈ log ++ queue.take k, ∀ u ∈ queue.drop k, t < u := by
  have split := sorted
  rw [← List.take_append_drop k queue, List.pairwise_append] at split
  refine ⟨List.pairwise_append.mpr ⟨logSorted, sorted.take, ?_⟩, ?_⟩
  · exact fun t inLog u inTaken => before t inLog u (List.mem_of_mem_take inTaken)
  · intro t inNew u inRest
    rcases List.mem_append.mp inNew with inLog | inTaken
    · exact before t inLog u (List.mem_of_mem_drop inRest)
    · exact split.2.2 t inTaken u inRest

/-! ## `release_task` -/

@[simp] theorem val_wake (node : Node) : node.wake.val = node.val := rfl

@[simp] theorem ticket_wake (node : Node) : node.wake.ticket = node.ticket := rfl

@[simp] theorem map_ticket_grantsFrom (cur : Isize) (nodes : List Node) :
    (grantsFrom cur nodes).map Grant.ticket = nodes.map Node.ticket := by
  induction nodes generalizing cur with
  | nil => rfl
  | cons node nodes ih => simp [grantsFrom, ih]

@[simp] theorem grantsFrom_map_wake (cur : Isize) (nodes : List Node) :
    grantsFrom cur (nodes.map Node.wake) = grantsFrom cur nodes := by
  induction nodes generalizing cur with
  | nil => rfl
  | cons node nodes ih => simp [grantsFrom, ih]

theorem val_of_mem_grantsFrom {cur : Isize} {nodes : List Node} {e : Grant}
    (mem : e ∈ grantsFrom cur nodes) : ∃ node ∈ nodes, e.val = node.val := by
  induction nodes generalizing cur with
  | nil => simp [grantsFrom] at mem
  | cons node nodes ih =>
    rcases List.mem_cons.mp mem with rfl | later
    · exact ⟨node, List.mem_cons_self, rfl⟩
    · obtain ⟨other, inNodes, same⟩ := ih later
      exact ⟨other, List.mem_cons_of_mem node inNodes, same⟩

/-- `release_task` wakes a prefix of the queue: each future of it covered by what
`cur` was when it was woken, and the future left at the head not covered. It does not
panic while every queued future has its waker. -/
theorem releaseTask_spec (cur : Isize) (queue : List Node)
    (wakers : ∀ q ∈ queue, q.waker.isSome) :
    ∃ k, releaseTask cur queue
        = some (cur - ((queue.take k).map Node.val).sum, (queue.take k).map Node.wake,
            queue.drop k) ∧
      (∀ e ∈ grantsFrom cur (queue.take k), e.val.toInt ≤ e.cur.toInt) ∧
      ∀ q ∈ (queue.drop k).head?, (cur - ((queue.take k).map Node.val).sum).toInt < q.val.toInt := by
  induction queue generalizing cur with
  | nil => exact ⟨0, by simp [releaseTask, grantsFrom]⟩
  | cons next queue ih =>
    by_cases stops : cur.slt next.val
    · refine ⟨0, by simp [releaseTask, stops], by simp [grantsFrom], ?_⟩
      simpa [BitVec.slt_iff_toInt_lt] using stops
    · obtain ⟨waker, hasWaker⟩ := Option.isSome_iff_exists.mp (wakers next List.mem_cons_self)
      obtain ⟨k, ran, covered, stopped⟩ :=
        ih (cur - next.val) fun q inQueue => wakers q (List.mem_cons_of_mem next inQueue)
      have covers : next.val.toInt ≤ cur.toInt := by
        rw [BitVec.slt_iff_toInt_lt] at stops
        omega
      refine ⟨k + 1, ?_, ?_, ?_⟩
      · simp only [releaseTask, stops, hasWaker, ran, Option.map_some, List.take_succ_cons,
          List.map_cons, List.sum_cons, List.drop_succ_cons, Bool.false_eq_true, if_false]
        rw [sub_add_eq_sub_sub]
      · simpa [grantsFrom, covers] using covered
      · simpa [sub_add_eq_sub_sub] using stopped

/-- A key above every key of a sorted list can be appended to it. -/
theorem pairwise_append_above {l : List Nat} {t : Nat} (sorted : l.Pairwise (· < ·))
    (above : ∀ u ∈ l, u < t) : (l ++ [t]).Pairwise (· < ·) :=
  List.pairwise_append.mpr ⟨sorted, List.pairwise_singleton _ _,
    fun u inList _ isNew => List.mem_singleton.mp isNew ▸ above u inList⟩

/-- Appending an element keyed by the next ticket keeps every key below the ticket
after it. -/
theorem lt_succ_of_mem_append {α : Type} {key : α → Nat} {l : List α} {x : α} {t : Nat}
    (below : ∀ e ∈ l, key e < t) (fresh : key x = t) : ∀ e ∈ l ++ [x], key e < t + 1 := by
  intro e member
  rcases List.mem_append.mp member with old | new
  · exact Nat.lt_succ_of_lt (below e old)
  · rw [List.mem_singleton.mp new, fresh]
    exact Nat.lt_succ_self t

/-! ## The invariant -/

/-- What every reachable world keeps: `cur` and the values out make `max`; the queue
is in ticket order, with its wakers and with requests within `isize`; the grants are
logged in ticket order, before every queued future, each covered by `cur` at its time. -/
structure World.Good (w : World) : Prop where
  balance : w.inner.cur + w.held = w.inner.max
  sorted : (w.inner.queue.map Node.ticket).Pairwise (· < ·)
  fresh : ∀ q ∈ w.inner.queue, q.ticket < w.tickets
  wakers : ∀ q ∈ w.inner.queue, q.waker.isSome
  requests : ∀ q ∈ w.inner.queue, 0 ≤ q.val.toInt
  logSorted : (w.log.map Grant.ticket).Pairwise (· < ·)
  logBefore : ∀ t ∈ w.log.map Grant.ticket, ∀ u ∈ w.inner.queue.map Node.ticket, t < u
  logFresh : ∀ e ∈ w.log, e.ticket < w.tickets
  covered : ∀ e ∈ w.log, 0 ≤ e.val.toInt ∧ e.val.toInt ≤ e.cur.toInt

theorem good_new (n : Usize) : (World.new n).Good := by
  constructor <;> simp [World.new, World.held]

namespace World.Good

variable {w : World}

/-- `release_task` keeps the invariant, does not panic, and leaves at the head of the
queue only a future that `cur` does not cover. -/
theorem release (good : w.Good) :
    ∃ w', w.release = some w' ∧ w'.Good ∧
      ∀ q ∈ w'.inner.queue.head?, w'.inner.cur.toInt < q.val.toInt := by
  obtain ⟨k, ran, covered, stopped⟩ := releaseTask_spec w.inner.cur w.inner.queue good.wakers
  have shifted := sorted_shift k good.sorted good.logSorted good.logBefore
  rw [← List.map_take, ← List.map_drop, ← map_ticket_grantsFrom w.inner.cur,
    ← List.map_append] at shifted
  have released : w.release = some
      { w with inner := { w.inner with cur := w.inner.cur - ((w.inner.queue.take k).map Node.val).sum,
                                       queue := w.inner.queue.drop k },
               granted := w.granted ++ (w.inner.queue.take k).map Node.wake,
               log := w.log ++ grantsFrom w.inner.cur (w.inner.queue.take k) } := by
    rw [World.release, ran]
    simp only [Option.map_some, grantsFrom_map_wake]
  refine ⟨_, released, ⟨?_, ?_, ?_, ?_, ?_, ?_, ?_, ?_, ?_⟩, stopped⟩
  · have balance := good.balance
    simp only [World.held, List.map_append, List.map_map, List.sum_append] at balance ⊢
    rw [show Node.val ∘ Node.wake = Node.val from rfl, ← balance]
    abel
  · simpa [List.map_drop] using good.sorted.drop
  · exact fun q inRest => good.fresh q (List.mem_of_mem_drop inRest)
  · exact fun q inRest => good.wakers q (List.mem_of_mem_drop inRest)
  · exact fun q inRest => good.requests q (List.mem_of_mem_drop inRest)
  · exact shifted.1
  · exact shifted.2
  · intro e logged
    rcases List.mem_append.mp logged with old | new
    · exact good.logFresh e old
    · have ticketed : e.ticket ∈ (w.inner.queue.take k).map Node.ticket := by
        rw [← map_ticket_grantsFrom w.inner.cur]
        exact List.mem_map_of_mem new
      obtain ⟨q, inTaken, same⟩ := List.mem_map.mp ticketed
      exact same ▸ good.fresh q (List.mem_of_mem_take inTaken)
  · intro e logged
    rcases List.mem_append.mp logged with old | new
    · exact good.covered e old
    · obtain ⟨q, inTaken, same⟩ := val_of_mem_grantsFrom new
      exact ⟨same ▸ good.requests q (List.mem_of_mem_take inTaken), covered e new⟩

/-- A world with the queue, tickets and log of a good one is good once its books
balance. -/
theorem rebalance (good : w.Good) {w' : World} (queue : w'.inner.queue = w.inner.queue)
    (tickets : w'.tickets = w.tickets) (log : w'.log = w.log)
    (balance : w'.inner.cur + w'.held = w'.inner.max) : w'.Good where
  balance := balance
  sorted := by rw [queue]; exact good.sorted
  fresh := by rw [queue, tickets]; exact good.fresh
  wakers := by rw [queue]; exact good.wakers
  requests := by rw [queue]; exact good.requests
  logSorted := by rw [log]; exact good.logSorted
  logBefore := by rw [queue, log]; exact good.logBefore
  logFresh := by rw [log, tickets]; exact good.logFresh
  covered := by rw [log]; exact good.covered

theorem change (good : w.Good) (n : Isize) :
    ∃ w', Semaphore.change n w = some w' ∧ w'.Good ∧
      ((0 : Isize).slt n → ∀ q ∈ w'.inner.queue.head?, w'.inner.cur.toInt < q.val.toInt) := by
  have moved : World.Good
      { w with inner := { w.inner with cur := w.inner.cur + n, max := w.inner.max + n } } := by
    refine good.rebalance rfl rfl rfl ?_
    have balance := good.balance
    simp only [World.held] at balance ⊢
    rw [← balance]
    abel
  by_cases raised : (0 : Isize).slt n
  · obtain ⟨w', released, good', stopped⟩ := moved.release
    exact ⟨w', by rw [Semaphore.change, if_pos raised, released], good', fun _ => stopped⟩
  · exact ⟨_, by rw [Semaphore.change, if_neg raised], moved, fun raised' => absurd raised' raised⟩

theorem tryTakeN (good : w.Good) (n : Usize) : (Semaphore.tryTakeN n w).Good := by
  dsimp only [Semaphore.tryTakeN]
  split
  · refine good.rebalance rfl rfl rfl ?_
    have balance := good.balance
    simp only [World.held, List.sum_append, List.sum_singleton] at balance ⊢
    rw [← balance]
    abel
  · exact good

theorem takeN (good : w.Good) {n : Usize} (small : n.toNat < 2 ^ 63) :
    (Semaphore.takeN n w).Good := by
  have request : 0 ≤ (toIsize n).toInt := by rw [toInt_toIsize small]; omega
  have logAbove : ∀ t ∈ w.log.map Grant.ticket, t < w.tickets := by
    simpa using good.logFresh
  dsimp only [Semaphore.takeN]
  split
  case isTrue served =>
    simp only [Bool.and_eq_true, List.isEmpty_iff, BitVec.sle_iff_toInt_le] at served
    obtain ⟨empty, covers⟩ := served
    refine ⟨?_, by simp [empty], by simp [empty], by simp [empty], by simp [empty], ?_,
      by simp [empty], lt_succ_of_mem_append good.logFresh rfl, ?_⟩
    · have balance := good.balance
      simp only [World.held, List.map_append, List.sum_append, List.map_singleton,
        List.sum_singleton] at balance ⊢
      rw [← balance]
      abel
    · simpa using pairwise_append_above good.logSorted logAbove
    · intro e logged
      rcases List.mem_append.mp logged with old | new
      · exact good.covered e old
      · rw [List.mem_singleton.mp new]
        exact ⟨request, covers⟩
  case isFalse =>
    have queueAbove : ∀ u ∈ w.inner.queue.map Node.ticket, u < w.tickets := by
      simpa using good.fresh
    refine ⟨good.balance, ?_, lt_succ_of_mem_append good.fresh rfl, ?_, ?_, good.logSorted, ?_,
      fun e logged => Nat.lt_succ_of_lt (good.logFresh e logged), good.covered⟩
    · simpa using pairwise_append_above good.sorted queueAbove
    · intro q queued
      rcases List.mem_append.mp queued with old | new
      · exact good.wakers q old
      · rw [List.mem_singleton.mp new]
        rfl
    · intro q queued
      rcases List.mem_append.mp queued with old | new
      · exact good.requests q old
      · rw [List.mem_singleton.mp new]
        exact request
    · intro t logged u queued
      simp only [List.map_append, List.map_singleton, List.mem_append,
        List.mem_singleton] at queued
      rcases queued with old | rfl
      · exact good.logBefore t logged u old
      · exact logAbove t logged

theorem poll (good : w.Good) (ticket : Nat) : (Semaphore.poll ticket w).Good := by
  unfold Semaphore.poll
  split
  case h_1 node found =>
    refine good.rebalance rfl rfl rfl ?_
    have taken := List.sum_map_erase Node.val (List.mem_of_find?_eq_some found)
    have balance := good.balance
    simp only [World.held, List.sum_append, List.sum_singleton] at balance ⊢
    rw [← balance, ← taken]
    abel
  case h_2 => exact good

theorem drop (good : w.Good) {i : Nat} (exists_i : i < w.guards.length) :
    ∃ w', Semaphore.drop i w = some w' ∧ w'.Good ∧
      ((∃ val, w.guards[i]? = some val ∧ val ≠ 0) →
        ∀ q ∈ w'.inner.queue.head?, w'.inner.cur.toInt < q.val.toInt) := by
  obtain ⟨val, at_i⟩ : ∃ val, w.guards[i]? = some val :=
    ⟨w.guards[i], List.getElem?_eq_getElem exists_i⟩
  have erased := sum_eraseIdx_add at_i
  by_cases zero : val = 0
  · have good' : World.Good { w with guards := w.guards.eraseIdx i } := by
      refine good.rebalance rfl rfl rfl ?_
      have balance := good.balance
      simp only [World.held] at balance ⊢
      rw [← balance, ← erased, zero]
      abel
    refine ⟨_, ?_, good', ?_⟩
    · rw [Semaphore.drop, at_i]
      exact if_neg (not_not.mpr zero)
    rintro ⟨val', at_i', nonzero⟩
    rw [at_i, Option.some.injEq] at at_i'
    exact absurd (at_i' ▸ zero) nonzero
  · have returned : World.Good { w with
        guards := w.guards.eraseIdx i, inner := { w.inner with cur := w.inner.cur + val } } := by
      refine good.rebalance rfl rfl rfl ?_
      have balance := good.balance
      simp only [World.held] at balance ⊢
      rw [← balance, ← erased]
      abel
    obtain ⟨w', released, good', stopped⟩ := returned.release
    refine ⟨w', ?_, good', fun _ => stopped⟩
    rw [Semaphore.drop, at_i]
    exact (if_pos zero).trans released

theorem split (good : w.Good) {i : Nat} (exists_i : i < w.guards.length) :
    ∃ w', Semaphore.split i w = some w' ∧ w'.Good := by
  obtain ⟨val, at_i⟩ : ∃ val, w.guards[i]? = some val :=
    ⟨w.guards[i], List.getElem?_eq_getElem exists_i⟩
  by_cases zero : val = 0
  · refine ⟨w, ?_, good⟩
    rw [Semaphore.split, at_i]
    exact if_pos zero
  · have splitOff : Semaphore.split i w
        = some { w with guards := w.guards.set i (val - 1) ++ [1] } := by
      rw [Semaphore.split, at_i]
      exact if_neg zero
    refine ⟨_, splitOff, good.rebalance rfl rfl rfl ?_⟩
    have set := sum_set_add at_i (val - 1)
    have balance := good.balance
    simp only [World.held, List.sum_append, List.sum_singleton] at balance ⊢
    rw [← balance, ← sub_eq_iff_eq_add.mpr set]
    abel

/-- Every allowed call keeps the invariant and does not panic; a release leaves at
the head of the queue only a future that `cur` does not cover. -/
theorem exec (good : w.Good) {c : Call} (allowed : c.Allowed w) :
    ∃ w', c.exec w = some w' ∧ w'.Good ∧
      (c.Releases w → ∀ q ∈ w'.inner.queue.head?, w'.inner.cur.toInt < q.val.toInt) := by
  cases c with
  | change n => exact good.change n
  | tryTakeN n => exact ⟨_, rfl, good.tryTakeN n, fun released => released.elim⟩
  | takeN n => exact ⟨_, rfl, good.takeN allowed, fun released => released.elim⟩
  | poll ticket => exact ⟨_, rfl, good.poll ticket, fun released => released.elim⟩
  | drop i => exact good.drop allowed
  | split i =>
    obtain ⟨w', ran, good'⟩ := good.split allowed
    exact ⟨w', ran, good', fun released => released.elim⟩

theorem of_reachable {w : World} (reach : Reachable w) : w.Good := by
  obtain ⟨n, run⟩ := reach
  induction run with
  | refl => exact good_new n
  | tail _ step good =>
    cases step with
    | call c allowed ran =>
      obtain ⟨w', ran', good', -⟩ := good.exec allowed
      rw [ran] at ran'
      cases ran'
      exact good'

end World.Good

/-! ## Accounting and first come, first served -/

/-- Over every run of calls within the contract: `cur` and the values out, the live
holders and the futures granted but not polled yet, make `max`; futures are granted
in the order they came, none while an earlier one still waits, each when `cur`
covers its request; no allowed call panics; after a release or a positive `change`
the future left at the head of the queue is one that `cur` does not cover; and
`try_take_n` takes nothing while a future waits. -/
theorem semaphore_accounting_fifo {w : World} (reach : Reachable w) :
    w.inner.cur + w.held = w.inner.max ∧
    (w.log.map Grant.ticket).Pairwise (· < ·) ∧
    (∀ e ∈ w.log, ∀ q ∈ w.inner.queue, e.ticket < q.ticket) ∧
    (∀ e ∈ w.log, 0 ≤ e.val.toInt ∧ e.val.toInt ≤ e.cur.toInt) ∧
    ∀ c : Call, c.Allowed w → ∃ w', c.exec w = some w' ∧
      (c.Releases w → ∀ q ∈ w'.inner.queue.head?, w'.inner.cur.toInt < q.val.toInt) ∧
      ∀ n : Usize, c = .tryTakeN n → w.inner.queue ≠ [] → w' = w := by
  have good := World.Good.of_reachable reach
  refine ⟨good.balance, good.logSorted, ?_, good.covered, ?_⟩
  · intro e logged q queued
    exact good.logBefore e.ticket (List.mem_map_of_mem logged) q.ticket (List.mem_map_of_mem queued)
  · intro c allowed
    obtain ⟨w', ran, -, stopped⟩ := good.exec allowed
    refine ⟨w', ran, stopped, ?_⟩
    rintro n rfl waiting
    have refused : (w.inner.queue.isEmpty && (toIsize n).sle w.inner.cur) = false := by
      simp [waiting]
    simp only [Call.exec, Semaphore.tryTakeN, refused, Bool.false_eq_true, if_false,
      Option.some.injEq] at ran
    exact ran.symm

/-- A semaphore of one permit: the first future is served at once, the second waits,
and the first holder's drop hands the permit over to it. -/
theorem semaphore_handoff :
    ∃ w, Reachable w ∧ w.log.map Grant.ticket = [0, 1] ∧ w.inner.queue = [] ∧
      w.inner.cur + w.held = w.inner.max := by
  have run : Reachable _ := ⟨1,
    ((((Relation.ReflTransGen.single (Step.call (.takeN 1) (by decide) rfl)).tail
      (Step.call (.takeN 1) (by decide) rfl)).tail (Step.call (.poll 0) trivial rfl)).tail
      (Step.call (.drop 0) (by decide) rfl))⟩
  exact ⟨_, run, rfl, rfl, (semaphore_accounting_fifo run).1⟩

/-- Past the contract, `take_n(usize::MAX)` is a request of `-1`: on a semaphore with
no permit it is granted at once with `cur = 0`, and `try_take` then makes a holder of
a semaphore whose `max` is 0. -/
theorem semaphore_grants_usize_max :
    (takeN usizeMax (World.new 0)).log = [⟨0, -1, 0⟩] ∧
    (tryTake (takeN usizeMax (World.new 0))).guards = [1] ∧
    (tryTake (takeN usizeMax (World.new 0))).inner.max = 0 := by
  decide

end Semaphore
end FtlOs
