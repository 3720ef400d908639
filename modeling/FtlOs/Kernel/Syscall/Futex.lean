import FtlOs.Kernel.Futex.Queue
import FtlOs.Kernel.Syscall.Mmap
import FtlOs.Util.Time
import FtlOs.Util.Error

/-!
# `sys_futex`

The dispatcher of `syscall/futex.rs` and its handlers, over the user words they read and write
and the futexes of the address space.  A handler returns, or links its thread into a futex's
queue, where it sleeps until it is woken or its deadline passes and then returns `Ok(0)`.  A
word is there only inside the user range, so a `UserCheck` that passes also makes `as_uptr`
succeed, and `fetch_futex` never hands out a closed futex, so the `Closed => continue` arms are
not reached.  Three things panic in any build: the dispatcher's `panic!()` for an `op` whose
low four bits name no operation, `as_uptr().unwrap()` on a null or kernel address before the
user check (the wait and the two requeues), and the `+` of `Duration` when a timeout's seconds
overflow.
-/

namespace FtlOs

namespace FutexSys

open Futex

/-- `USER_BASE`, the first byte of user space. -/
def userBase : Nat := 0x10000

/-- `FUTEX_PRIVATE_FLAG`. -/
def futexPrivateFlag : UInt32 := 0x80

/-- `FUTEX_BITSET_MATCH_ANY`. -/
def futexBitsetMatchAny : UInt32 := 0xFFFF_FFFF

/-- The user memory `sys_futex` touches: the `u32` words a `UserCheck` can read
(with whether their page is writable) and the `TimeSpec`s it can read.  A word is
there only inside the user range. -/
structure UserMem where
  word : Nat → Option UInt32
  writable : Nat → Bool
  timespec : Nat → Option TimeSpec
  word_user : ∀ p v, word p = some v → userBase ≤ p ∧ p + 4 ≤ userEnd

namespace UserMem

/-- The atomic store of `futex_wake_op_impl`'s `compare_exchange`. -/
def store (mem : UserMem) (p : Nat) (v : UInt32) : UserMem where
  word q := if q = p then (mem.word q).map fun _ => v else mem.word q
  writable := mem.writable
  timespec := mem.timespec
  word_user q w stored := by
    split_ifs at stored with same
    · obtain ⟨old, was, -⟩ := Option.map_eq_some_iff.mp stored
      exact mem.word_user q old was
    · exact mem.word_user q w stored

@[simp] theorem store_word_self (mem : UserMem) (p : Nat) (v : UInt32) :
    (mem.store p v).word p = (mem.word p).map fun _ => v := by
  simp [store]

@[simp] theorem store_writable (mem : UserMem) (p : Nat) (v : UInt32) :
    (mem.store p v).writable = mem.writable := rfl

end UserMem

/-- `UserCheck::readonly_value` of a `u32`. -/
def readonlyValue (mem : UserMem) (p : Nat) : SysR UInt32 :=
  if p % 4 ≠ 0 then .error .EFAULT
  else
    match mem.word p with
    | some v => .ok v
    | none => .error .EFAULT

/-- `UserCheck::atomic_u32`: the word must be writable as well. -/
def atomicU32 (mem : UserMem) (p : Nat) : SysR UInt32 :=
  if p % 4 ≠ 0 then .error .EFAULT
  else if mem.writable p then readonlyValue mem p
  else .error .EFAULT

/-- `UserCheck::readonly_value` of a `TimeSpec`, aligned to 8. -/
def readonlyTimeSpec (mem : UserMem) (p : Nat) : SysR TimeSpec :=
  if p % 8 ≠ 0 then .error .EFAULT
  else
    match mem.timespec p with
    | some ts => .ok ts
    | none => .error .EFAULT

/-- `UserPtr::as_uptr`: `None` for a null pointer or one past `USER_END`. -/
def asUptr (p : Nat) : Option Nat :=
  if p = 0 ∨ userEnd < p then none else some p

/-- What a `sys_futex` call does: it returns, or its thread sleeps in the queue of the
futex at `addr` until it is woken or `deadline` passes, and then returns `Ok(0)`. -/
inductive FutexRet where
  | returns (r : SysR Nat)
  | sleeps (addr : Nat) (deadline : Instant)

/-- What `sys_futex` reads and changes: user memory, the futex of each address, the
waiters it has released, the time, and the calling thread and process. -/
structure State where
  mem : UserMem
  futexes : Nat → FutexQueue
  released : List Futex.Node
  now : Instant
  pid : Nat
  tid : Nat

/-- The six arguments, as `self.cx.into()` reads them. -/
structure Args where
  ua : Usize
  op : UInt32
  val : UInt32
  timeout : Usize
  ua2 : Usize
  val3 : UInt32

/-- `Thread::fetch_futex`: the futex of the address, or a new one in place of a closed one. -/
def fetchFutex (futexes : Nat → FutexQueue) (addr : Nat) : FutexQueue :=
  if (futexes addr).closed then ⟨[], false⟩ else futexes addr

/-- A private futex (`FUTEX_PRIVATE_FLAG`) only meets waiters of the caller's process. -/
def privatePid (s : State) (op : UInt32) : Option Nat :=
  if op &&& futexPrivateFlag ≠ 0 then some s.pid else none

/-- Put back the futex of `addr` and record the waiters it released. -/
def State.putQueue (s : State) (addr : Nat) (q : FutexQueue) (released : List Futex.Node) : State :=
  { s with futexes := Function.update s.futexes addr q, released := s.released ++ released }

/-- The loop around `futex.wake(mask, max, pid, || false)` on the futex of `addr`. -/
def wakeAt (s : State) (addr : Nat) (mask : UInt32) (max : Nat) (pid : Option Nat) :
    Option (Nat × State) :=
  match (fetchFutex s.futexes addr).wake mask max pid false with
  | (.ok n, q, released) => some (n, s.putQueue addr q released)
  -- `Fail` is `unreachable!()`; `Closed` is not reached, as `fetch_futex` gives an open futex
  | _ => none

/-- The deadline of `futex_wait`: `Instant::MAX` for a null `timeout`, otherwise the
`TimeSpec` read from user memory, relative to now or absolute. -/
def waitDeadline (s : State) (timeout : Nat) (relative : Bool) : Option (SysR Instant) :=
  if timeout = 0 then some (.ok Instant.MAX)
  else
    match readonlyTimeSpec s.mem timeout with
    | .error e => some (.error e)
    | .ok ts => (if relative then ts.asDuration.bind s.now.checkedAdd else ts.asInstant).map .ok

/-- `futex_wait`: sleep on the futex of `ua` if it still holds `val`. -/
def futexWait (s : State) (op : UInt32) (ua : Nat) (val : UInt32) (timeout : Nat × Bool)
    (mask : UInt32) : Option (FutexRet × State) :=
  if mask = 0 then some (.returns (.error .EINVAL), s)
  else
    match waitDeadline s timeout.1 timeout.2 with
    | none => none
    | some (.error e) => some (.returns (.error e), s)
    | some (.ok deadline) =>
      -- `ua.as_uptr().unwrap()`, before `ua` is checked
      match asUptr ua with
      | none => none
      | some addr =>
        match readonlyValue s.mem ua with
        | .error e => some (.returns (.error e), s)
        | .ok v =>
          let node : Futex.Node := ⟨s.tid, mask, privatePid s op, .queued addr, false⟩
          match (fetchFutex s.futexes addr).wait node (v != val) with
          | (.ok, q) => some (.sleeps addr deadline, s.putQueue addr q [])
          | (.fail, _) => some (.returns (.error .EAGAIN), s)
          | (.closed, _) => none

/-- `futex_wake`: wake at most `max` waiters of `ua` whose mask meets `mask`. -/
def futexWake (s : State) (op : UInt32) (ua : Nat) (max mask : UInt32) :
    Option (FutexRet × State) :=
  match readonlyValue s.mem ua with
  | .error e => some (.returns (.error e), s)
  | .ok _ =>
    match asUptr ua with
    | none => none
    | some addr =>
      match wakeAt s addr mask max.toNat (privatePid s op) with
      | some (n, s') => some (.returns (.ok n), s')
      | none => none

/-- `futex_requeue`: if `ua` holds `should` (when given), wake `max_wake` waiters of `ua`
and move up to `max_requeue` more to `ua2`. -/
def futexRequeue (s : State) (op : UInt32) (ua ua2 : Nat) (should : Option UInt32)
    (maxWake maxRequeue : UInt32) : Option (FutexRet × State) :=
  -- both `as_uptr().unwrap()`s come before any check
  match asUptr ua, asUptr ua2 with
  | some addr, some addr2 =>
    match readonlyValue s.mem ua with
    | .error e => some (.returns (.error e), s)
    | .ok v =>
      let fail := match should with
        | some w => v != w
        | none => false
      match (fetchFutex s.futexes addr).wakeRequeue maxWake.toNat maxRequeue.toNat
          (privatePid s op) fail with
      | (.ok n, q, woken, temp) =>
        let s1 := s.putQueue addr q woken
        match temp with
        | none => some (.returns (.ok n), s1)
        | some tq =>
          match readonlyValue s1.mem ua2 with
          -- the `TempQueue` is dropped: its waiters are issued and never woken
          | .error e => some (.returns (.error e), { s1 with released := s1.released ++ tempQueueDrop tq })
          | .ok _ =>
            match (fetchFutex s1.futexes addr2).append tq addr2 with
            | some q2 => some (.returns (.ok n), s1.putQueue addr2 q2 [])
            | none => none
      | (.fail, _, _, _) => some (.returns (.error .EAGAIN), s)
      | (.closed, _, _, _) => none
  | _, _ => none

/-- The operation of `FUTEX_WAKE_OP`, by the low three bits of its field. -/
def opFn (op : UInt32) : Option (UInt32 → UInt32 → UInt32) :=
  match (op &&& 0x7).toNat with
  | 0 => some fun a _ => a
  | 1 => some fun a b => a + b
  | 2 => some fun a b => a ||| b
  | 3 => some fun a b => a &&& b
  | 4 => some fun a b => a ^^^ b
  | _ => none

/-- The comparison of `FUTEX_WAKE_OP`. -/
def cmpFn (cmp : UInt32) : Option (UInt32 → UInt32 → Bool) :=
  match cmp.toNat with
  | 0 => some fun a b => a == b
  | 1 => some fun a b => a != b
  | 2 => some fun a b => decide (a < b)
  | 3 => some fun a b => decide (a ≤ b)
  | 4 => some fun a b => decide (a > b)
  | 5 => some fun a b => decide (a ≥ b)
  | _ => none

/-- The operand of `FUTEX_WAKE_OP`: `1 << oparg` when `FUTEX_OP_OPARG_SHIFT` is set.  The
shift of `u32` takes its amount modulo 32 in a release build, as `UInt32`'s does. -/
def wakeOpArg (mop : UInt32) : UInt32 :=
  let oparg := (mop >>> 12) &&& 0xfff
  if ((mop >>> 28) &&& 0xf) &&& 8 ≠ 0 then 1 <<< oparg else oparg

/-- `futex_wake_op_impl`: apply the operation to the word at `ua2`, wake `max1` waiters of
`ua`, and `max2` of `ua2` when the old word passes the comparison. -/
def futexWakeOpImpl (s : State) (fop : UInt32) (ua ua2 : Nat) (max1 max2 mop : UInt32) :
    Option (FutexRet × State) :=
  match asUptr ua, asUptr ua2 with
  | some addr, some addr2 =>
    let pid := privatePid s fop
    match opFn ((mop >>> 28) &&& 0xf), cmpFn ((mop >>> 24) &&& 0xf) with
    | some opf, some cmpf =>
      match atomicU32 s.mem ua2 with
      | .error e => some (.returns (.error e), s)
      | .ok old =>
        -- the `compare_exchange` loop stores `op(old, oparg)` for the value it last read
        let s1 := { s with mem := s.mem.store ua2 (opf old (wakeOpArg mop)) }
        match readonlyValue s1.mem ua with
        | .error e => some (.returns (.error e), s1)
        | .ok _ =>
          match wakeAt s1 addr futexBitsetMatchAny max1.toNat pid with
          | none => none
          | some (n1, s2) =>
            if cmpf old (mop &&& 0xfff) then
              match readonlyValue s2.mem ua2 with
              | .error e => some (.returns (.error e), s2)
              | .ok _ =>
                match wakeAt s2 addr2 futexBitsetMatchAny max2.toNat pid with
                | some (n2, s3) => some (.returns (.ok (n1 + n2)), s3)
                | none => none
            else some (.returns (.ok n1), s2)
    | _, _ => some (.returns (.error .EINVAL), s)
  | _, _ => none

/-- `sys_futex`: dispatch on the low four bits of `op`. -/
def sysFutex (s : State) (a : Args) : Option (FutexRet × State) :=
  let val2 := a.timeout.toUInt32
  match (a.op &&& 0xf).toNat with
  | 0 => futexWait s a.op a.ua.toNat a.val (a.timeout.toNat, true) futexBitsetMatchAny
  | 1 => futexWake s a.op a.ua.toNat a.val futexBitsetMatchAny
  | 2 => some (.returns (.error .EINVAL), s)
  | 3 => futexRequeue s a.op a.ua.toNat a.ua2.toNat none a.val val2
  | 4 => futexRequeue s a.op a.ua.toNat a.ua2.toNat (some a.val3) a.val val2
  | 5 => futexWakeOpImpl s a.op a.ua.toNat a.ua2.toNat a.val val2 a.val3
  | 9 => futexWait s a.op a.ua.toNat a.val (a.timeout.toNat, false) a.val3
  | 10 => futexWake s a.op a.ua.toNat a.val a.val3
  | _ => none

/-! ## The deadline and the operand -/

/-- A null `timeout` waits for ever. -/
theorem waitDeadline_zero (s : State) (relative : Bool) :
    waitDeadline s 0 relative = some (.ok Instant.MAX) := by
  simp [waitDeadline]

/-- A relative timeout whose seconds, added to now, reach `2^64` overflows `Duration`. -/
theorem waitDeadline_eq_none (s : State) {timeout : Nat} (nonnull : timeout ≠ 0)
    {ts : TimeSpec} (read : readonlyTimeSpec s.mem timeout = .ok ts)
    (overflow : 2 ^ 64 ≤ s.now.secs + ts.tvSec.toNat) : waitDeadline s timeout true = none := by
  simp only [waitDeadline, if_neg nonnull, read, if_true,
    ts.asDuration_bind_checkedAdd_eq_none s.now overflow, Option.map_none]

/-! ## The handlers -/

/-- `futex_wait` unwraps `ua` before it checks it: a null or kernel `ua` panics. -/
theorem futexWait_eq_none_of_asUptr (s : State) (op : UInt32) {ua : Nat} (val : UInt32)
    (timeout : Nat × Bool) {mask : UInt32} (nonzero : mask ≠ 0) {deadline : Instant}
    (timed : waitDeadline s timeout.1 timeout.2 = some (.ok deadline)) (bad : asUptr ua = none) :
    futexWait s op ua val timeout mask = none := by
  simp only [futexWait, if_neg nonzero, timed, bad]

theorem futexWait_eq_none_of_overflow (s : State) (op : UInt32) (ua : Nat) (val : UInt32)
    (timeout : Nat × Bool) {mask : UInt32} (nonzero : mask ≠ 0)
    (overflow : waitDeadline s timeout.1 timeout.2 = none) :
    futexWait s op ua val timeout mask = none := by
  simp only [futexWait, if_neg nonzero, overflow]

/-- Both requeues unwrap `ua` and `ua2` first. -/
theorem futexRequeue_eq_none_of_asUptr (s : State) (op : UInt32) {ua ua2 : Nat}
    (should : Option UInt32) (maxWake maxRequeue : UInt32)
    (bad : asUptr ua = none ∨ asUptr ua2 = none) :
    futexRequeue s op ua ua2 should maxWake maxRequeue = none := by
  unfold futexRequeue
  rcases bad with bad | bad
  · rw [bad]
  · rw [bad]
    cases asUptr ua <;> rfl

theorem futexWakeOpImpl_eq_none_of_asUptr (s : State) (fop : UInt32) {ua ua2 : Nat}
    (max1 max2 mop : UInt32) (bad : asUptr ua = none ∨ asUptr ua2 = none) :
    futexWakeOpImpl s fop ua ua2 max1 max2 mop = none := by
  unfold futexWakeOpImpl
  rcases bad with bad | bad
  · rw [bad]
  · rw [bad]
    cases asUptr ua <;> rfl

/-! ## The dispatcher -/

theorem asUptr_eq_none {p : Nat} (bad : p = 0 ∨ userEnd < p) : asUptr p = none := by
  simp only [asUptr, if_pos bad]

/-- `sys_futex` panics: on an `op` that names no operation, on a null or kernel `uaddr` or
`uaddr2` of a requeue or of `FUTEX_WAKE_OP`, on a null or kernel `uaddr` of `FUTEX_WAIT`,
and on a relative timeout whose seconds overflow `Duration` when added to now. -/
theorem sysFutex_panics :
    (∀ s a, (a.op &&& 0xf).toNat ∉ [0, 1, 2, 3, 4, 5, 9, 10] → sysFutex s a = none) ∧
    (∀ s a, (a.op &&& 0xf).toNat ∈ [3, 4, 5] →
      (a.ua.toNat = 0 ∨ userEnd < a.ua.toNat) ∨ (a.ua2.toNat = 0 ∨ userEnd < a.ua2.toNat) →
      sysFutex s a = none) ∧
    (∀ s a, (a.op &&& 0xf).toNat = 0 → a.timeout.toNat = 0 →
      (a.ua.toNat = 0 ∨ userEnd < a.ua.toNat) → sysFutex s a = none) ∧
    (∀ s a ts, (a.op &&& 0xf).toNat = 0 → a.timeout.toNat ≠ 0 →
      readonlyTimeSpec s.mem a.timeout.toNat = .ok ts → 2 ^ 64 ≤ s.now.secs + ts.tvSec.toNat →
      sysFutex s a = none) := by
  have matchAny : futexBitsetMatchAny ≠ 0 := by decide
  refine ⟨?undefined, ?requeue, ?nullWait, ?overflow⟩
  case undefined =>
    intro s a undefined
    unfold sysFutex
    split <;> simp_all
  case requeue =>
    intro s a op bad
    have unwrapped : asUptr a.ua.toNat = none ∨ asUptr a.ua2.toNat = none :=
      bad.imp asUptr_eq_none asUptr_eq_none
    simp only [List.mem_cons, List.not_mem_nil, or_false] at op
    rcases op with op | op | op <;> simp only [sysFutex, op]
    · exact futexRequeue_eq_none_of_asUptr _ _ _ _ _ unwrapped
    · exact futexRequeue_eq_none_of_asUptr _ _ _ _ _ unwrapped
    · exact futexWakeOpImpl_eq_none_of_asUptr _ _ _ _ _ unwrapped
  case nullWait =>
    intro s a op null bad
    simp only [sysFutex, op]
    have forever : waitDeadline s a.timeout.toNat true = some (.ok Instant.MAX) := by
      rw [null]
      exact waitDeadline_zero s true
    exact futexWait_eq_none_of_asUptr _ _ _ _ matchAny forever (asUptr_eq_none bad)
  case overflow =>
    intro s a ts op nonnull read overflow
    simp only [sysFutex, op]
    exact futexWait_eq_none_of_overflow _ _ _ _ _ matchAny
      (waitDeadline_eq_none s nonnull read overflow)

end FutexSys

end FtlOs
