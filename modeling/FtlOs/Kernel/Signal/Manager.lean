import Mathlib
import FtlOs.Kernel.Config

/-!
# Signal managers

`signal/manager.rs` keeps a process's signals in `ProcSignalManager` and a
thread's in `ThreadSignalManager`.  Other harts send a thread signals through
its mailbox, under a spin lock; only the thread itself moves them from the
mailbox to its own pending sets.  Whether there is anything to look at is told
by sequence numbers, without the lock: the mailbox's `send_id` and the
process's `recv_id` grow by two with every signal received, and the thread
keeps the values it last saw in `recv_id` and `proc_recv_id`.  The low bit of
the thread's `recv_id` is a local flag: the thread has signals of its own to
look at.

Signal sets are the bits of `SignalSet` (`StdSignalSet` is its low 32 bits),
as functions from signals to bits.  The realtime queue `RTQueue` hands out the
earliest signal its mask lets through, and is modelled as the list of its
signals in arrival order.
-/

namespace FtlOs

namespace Signal

/-- `SIG_N`. -/
def sigN : Nat := 64

/-- `Sig`: a signal's number minus one. -/
abbrev Sig := Fin sigN

/-- `SIGKILL`. -/
def sigKill : Sig := ⟨8, by decide⟩

/-- `SIGUSR1`. -/
def sigUsr1 : Sig := ⟨9, by decide⟩

/-- `SIGSEGV`. -/
def sigSegv : Sig := ⟨10, by decide⟩

/-- `SIGUSR2`. -/
def sigUsr2 : Sig := ⟨11, by decide⟩

/-- `SIGCHLD`. -/
def sigChld : Sig := ⟨16, by decide⟩

/-- `SIGCONT`. -/
def sigCont : Sig := ⟨17, by decide⟩

/-- `SIGSTOP`. -/
def sigStop : Sig := ⟨18, by decide⟩

/-- `SIGURG`. -/
def sigUrg : Sig := ⟨22, by decide⟩

/-- A `SignalSet`, as its bits. -/
abbrev SigSet := Sig → Bool

namespace SigSet

/-- `SignalSet::EMPTY`. -/
def empty : SigSet := fun _ => false

/-- The set of one signal: `StdSignalSet::from_sig`, or one `insert_bit`. -/
def single (sig : Sig) : SigSet := fun s => s == sig

/-- `A | B`: `SignalSet::insert`. -/
def union (a b : SigSet) : SigSet := fun s => a s || b s

/-- `A & !B`: `SignalSet::remove`. -/
def diff (a b : SigSet) : SigSet := fun s => a s && !b s

/-- `SignalSet::std_signal`: the low 32 bits. -/
def std (a : SigSet) : SigSet := fun s => decide (s.val < 32) && a s

/-- `NEVER_CAPTURE`: `SIGKILL` and `SIGSTOP`. -/
def neverCapture : SigSet := fun s => s == sigKill || s == sigStop

/-- `is_empty`. -/
def isEmpty (a : SigSet) : Bool := (List.finRange sigN).all fun s => !a s

/-- `StdSignalSet::fetch_never_capture`: `SIGKILL`, then `SIGSTOP`, looked at only when
the set `contains(NEVER_CAPTURE)`, both of them. -/
def fetchNeverCapture (a : SigSet) : Option Sig :=
  if a sigKill && a sigStop then
    if a sigKill then some sigKill else if a sigStop then some sigStop else none
  else none

/-- `StdSignalSet::fetch_segv`. -/
def fetchSegv (a : SigSet) : Option Sig := if a sigSegv then some sigSegv else none

/-- `StdSignalSet::fetch`: each `?` returns what the step before it found; last comes the
lowest signal of the set, its `trailing_zeros`. -/
def fetch (a : SigSet) : Option Sig :=
  if a.isEmpty then none
  else (a.fetchNeverCapture.or a.fetchSegv).or ((List.finRange sigN).find? a)

/-- `StdSignalSet::clear_sig`: `SIGKILL` and `SIGSTOP` stay. -/
def clearSig (a : SigSet) (sig : Sig) : SigSet :=
  if neverCapture sig then a else a.diff (single sig)

@[simp] theorem union_apply (a b : SigSet) (s : Sig) : a.union b s = (a s || b s) := rfl

@[simp] theorem diff_apply (a b : SigSet) (s : Sig) : a.diff b s = (a s && !b s) := rfl

@[simp] theorem single_apply (sig s : Sig) : single sig s = (s == sig) := rfl

@[simp] theorem empty_apply (s : Sig) : empty s = false := rfl

theorem isEmpty_iff (a : SigSet) : a.isEmpty = true ↔ ∀ s, a s = false := by
  simp [isEmpty, List.all_eq_true]

/-- Without both never-capture signals and without `SIGSEGV`, `fetch` returns the lowest
signal of the set: `SIGKILL` does not come before a lower signal. -/
theorem fetch_ne_kill_of_lower (a : SigSet) (noStop : a sigStop = false)
    (noSegv : a sigSegv = false) {low : Sig} (lower : low < sigKill) (pending : a low = true) :
    a.fetch ≠ some sigKill := by
  have notEmpty : a.isEmpty = false := by
    cases empty : a.isEmpty
    · rfl
    · simp [(isEmpty_iff a).mp empty low] at pending
  have noPair : a.fetchNeverCapture = none := by simp [fetchNeverCapture, noStop]
  have noSegvFound : a.fetchSegv = none := by simp [fetchSegv, noSegv]
  simp only [fetch, notEmpty, Bool.false_eq_true, if_false, noPair, noSegvFound, Option.or_none,
    Option.none_or]
  intro found
  obtain ⟨-, before, after, split, skipped⟩ := List.find?_eq_some_iff_append.mp found
  -- `finRange` is sorted, so the lower signal comes before `SIGKILL` and was skipped
  have sorted := List.pairwise_lt_finRange sigN
  rw [split] at sorted
  have lowIn : low ∈ before ++ sigKill :: after := split ▸ List.mem_finRange low
  rcases List.mem_append.mp lowIn with inBefore | inRest
  · simpa [pending] using skipped low inBefore
  · rcases List.mem_cons.mp inRest with same | inAfter
    · exact absurd same (ne_of_lt lower)
    · have above := List.rel_of_pairwise_cons (List.pairwise_append.mp sorted).2.1 inAfter
      exact absurd (lower.trans above) (lt_irrefl _)

end SigSet

/-- `RTQueue`: the realtime signals in the order they came. -/
abbrev RTQueue := List Sig

namespace RTQueue

/-- `RTQueue::can_fetch`: some queued signal is not blocked. -/
def canFetch (q : RTQueue) (mask : SigSet) : Bool := q.any fun s => !mask s

/-- `RTQueue::fetch`: take the earliest signal that is not blocked. -/
def fetch (q : RTQueue) (mask : SigSet) : Option Sig × RTQueue :=
  match q.find? (fun s => !mask s) with
  | some s => (some s, q.erase s)
  | none => (none, q)

end RTQueue

/-- What `handle_signal` does with a signal. -/
inductive Action where
  | abort
  | ignore
  | handler (entry : Usize)
  deriving DecidableEq

/-- The fields of `SigAction` the signal path reads. -/
structure SigAction where
  /-- `handler`: `SIG_DFL` (0), `SIG_IGN` (1), `SIG_ERR` (`usize::MAX`) or an address. -/
  handler : Usize
  /-- `mask`: the signals blocked while the handler runs. -/
  mask : SigSet

/-- `SigAction::defalut_action`. -/
def defaultAction (sig : Sig) : Action :=
  if sig.val < 32 then
    if sig = sigChld ∨ sig = sigCont ∨ sig = sigUrg then .ignore else .abort
  else .ignore

/-- `SigAction::get_action`. -/
def SigAction.getAction (act : SigAction) (sig : Sig) : Action :=
  if act.handler = 0 then defaultAction sig
  else if act.handler = 1 then .ignore
  else if act.handler = usizeMax then .abort
  else .handler act.handler

/-- The signals a table of actions ignores, as `replace_action` recomputes them. -/
def ignoreOf (action : Sig → SigAction) : SigSet :=
  fun s => (action s).getAction s == .ignore

/-- `ProcSignalManagerInner`. -/
structure ProcSignalManager where
  /-- `pending`: the standard signals sent to the process. -/
  pending : SigSet
  /-- `realtime`. -/
  realtime : RTQueue
  /-- `action`. -/
  action : Sig → SigAction
  /-- `ignore`. -/
  ignore : SigSet
  /-- `recv_id`: grows by two with every signal received. -/
  recvId : Usize

namespace ProcSignalManager

/-- `ProcSignalManagerInner::receive`. -/
def receive (p : ProcSignalManager) (sig : Sig) : ProcSignalManager :=
  if p.ignore sig then p
  else
    let p := if sig.val < 32 then { p with pending := p.pending.union (SigSet.single sig) }
      else { p with realtime := p.realtime ++ [sig] }
    { p with recvId := p.recvId + 2 }

/-- `ProcSignalManager::have_signal`: the process received a signal since the
thread last looked. -/
def haveSignal (p : ProcSignalManager) (recvId : Usize) : Bool := recvId != p.recvId

/-- `can_take_std_signal`. -/
def canTakeStdSignal (p : ProcSignalManager) (mask : SigSet) : Bool :=
  !(p.pending.diff mask |>.diff p.ignore.std).isEmpty

/-- `take_std_signal`. -/
def takeStdSignal (p : ProcSignalManager) (mask : SigSet) : Option Sig × ProcSignalManager :=
  match ((p.pending.diff mask).diff p.ignore.std).fetch with
  | some a => (some a, { p with pending := p.pending.clearSig a })
  | none => (none, p)

/-- `take_rt_signal`. -/
def takeRtSignal (p : ProcSignalManager) (mask : SigSet) : Option Sig × ProcSignalManager :=
  let (sig, realtime) := p.realtime.fetch mask
  (sig, { p with realtime := realtime })

/-- `ProcSignalManager::have_signal_local`. -/
def haveSignalLocal (p : ProcSignalManager) (mask : SigSet) : Bool :=
  p.canTakeStdSignal mask.std || p.realtime.canFetch mask

/-- `get_action`: the action and the mask its handler runs under. -/
def getAction (p : ProcSignalManager) (sig : Sig) : Action × SigSet :=
  ((p.action sig).getAction sig, (p.action sig).mask)

/-- Taking a signal does not count as receiving one. -/
@[simp] theorem takeStdSignal_recvId (p : ProcSignalManager) (mask : SigSet) :
    (p.takeStdSignal mask).2.recvId = p.recvId := by
  unfold takeStdSignal
  split <;> rfl

@[simp] theorem takeRtSignal_recvId (p : ProcSignalManager) (mask : SigSet) :
    (p.takeRtSignal mask).2.recvId = p.recvId := rfl

/-- Taking a standard signal changes only `pending`. -/
theorem takeStdSignal_snd (p : ProcSignalManager) (mask : SigSet) :
    (p.takeStdSignal mask).2 = { p with pending := (p.takeStdSignal mask).2.pending } := by
  unfold takeStdSignal
  split <;> rfl

theorem takeRtSignal_snd (p : ProcSignalManager) (mask : SigSet) :
    (p.takeRtSignal mask).2 = { p with realtime := (p.takeRtSignal mask).2.realtime } := rfl

end ProcSignalManager

/-- `ThreadSignalMailbox`. -/
structure ThreadSignalMailbox where
  /-- `std`. -/
  std : SigSet
  /-- `send_id`: grows by two with every signal received; always even. -/
  sendId : Usize
  /-- `realtime`. -/
  realtime : List Sig

/-- `ThreadSignalMailbox::receive`: a standard signal already in the box is not
counted again. -/
def ThreadSignalMailbox.receive (m : ThreadSignalMailbox) (sig : Sig) : ThreadSignalMailbox :=
  if sig.val < 32 then
    if m.std sig then m
    else { m with std := m.std.union (SigSet.single sig), sendId := m.sendId + 2 }
  else { m with realtime := m.realtime ++ [sig], sendId := m.sendId + 2 }

/-- `SEQ_MASK`: all bits but the lowest. -/
def seqMask : Usize := 0xFFFF_FFFF_FFFF_FFFE

/-- `QUE_MASK`: the lowest bit. -/
def queMask : Usize := 1

/-! ### The two parts of `recv_id`

A word is its `SEQ_MASK` part and its `QUE_MASK` part; the lemmas below say
what the flag operations do to each, bit by bit. -/

section Flag

theorem seqMask_eq_not : seqMask = ~~~queMask := by decide

@[simp] theorem getElem_queMask {i : Nat} (h : i < 64) : queMask.toBitVec[i] = decide (i = 0) := by
  simp [queMask, BitVec.getElem_one]

@[simp] theorem getElem_seqMask {i : Nat} (h : i < 64) : seqMask.toBitVec[i] = decide (i ≠ 0) := by
  rw [seqMask_eq_not, UInt64.toBitVec_not, BitVec.getElem_not, getElem_queMask h]
  simp

/-- Two words are equal exactly when both their parts are. -/
theorem eq_iff_seq_que {x y : Usize} :
    x = y ↔ x &&& seqMask = y &&& seqMask ∧ x &&& queMask = y &&& queMask := by
  constructor
  · rintro rfl
    exact ⟨rfl, rfl⟩
  · rintro ⟨seq, que⟩
    apply UInt64.toBitVec_inj.mp
    ext i h
    have seqBit := congrArg (fun z : Usize => z.toBitVec[i]) seq
    have queBit := congrArg (fun z : Usize => z.toBitVec[i]) que
    simp only [UInt64.toBitVec_and, BitVec.getElem_and, getElem_seqMask h,
      getElem_queMask h] at seqBit queBit
    by_cases zero : i = 0 <;> simp_all

/-- An even word is its own sequence part. -/
theorem and_seqMask_of_even {x : Usize} (even : x &&& queMask = 0) : x &&& seqMask = x := by
  refine eq_iff_seq_que.mpr ⟨?_, ?_⟩
  · apply UInt64.toBitVec_inj.mp
    ext i h
    simp
  · rw [even]
    apply UInt64.toBitVec_inj.mp
    ext i h
    by_cases zero : i = 0 <;> simp [zero]

@[simp] theorem or_queMask_and_seqMask (x : Usize) : (x ||| queMask) &&& seqMask = x &&& seqMask := by
  apply UInt64.toBitVec_inj.mp
  ext i h
  by_cases zero : i = 0 <;> simp [zero]

@[simp] theorem or_queMask_and_queMask (x : Usize) : (x ||| queMask) &&& queMask = queMask := by
  apply UInt64.toBitVec_inj.mp
  ext i h
  by_cases zero : i = 0 <;> simp [zero]

@[simp] theorem and_seqMask_and_queMask (x : Usize) : x &&& seqMask &&& queMask = 0 := by
  apply UInt64.toBitVec_inj.mp
  ext i h
  by_cases zero : i = 0 <;> simp [zero]

/-- The word `fetch_mailbox` stores: a new sequence part, the old flag. -/
theorem or_flag_and_seqMask (s x : Usize) (even : s &&& queMask = 0) :
    (s ||| x &&& queMask) &&& seqMask = s := by
  rw [← and_seqMask_of_even even]
  apply UInt64.toBitVec_inj.mp
  ext i h
  by_cases zero : i = 0 <;> simp [zero]

theorem or_flag_and_queMask (s x : Usize) (even : s &&& queMask = 0) :
    (s ||| x &&& queMask) &&& queMask = x &&& queMask := by
  have bitZero := congrArg (fun z : Usize => z.toBitVec[0]) even
  simp only [UInt64.toBitVec_and, BitVec.getElem_and, getElem_queMask (by decide : 0 < 64)] at bitZero
  apply UInt64.toBitVec_inj.mp
  ext i h
  by_cases zero : i = 0
  · subst zero
    simp_all
  · simp [zero]

/-- Adding two keeps a word's flag. -/
theorem add_two_and_queMask (x : Usize) : (x + 2) &&& queMask = x &&& queMask := by
  apply UInt64.toNat_inj.mp
  simp [queMask, UInt64.toNat_add, Nat.and_one_is_mod]

end Flag

/-- `ThreadSignalManager`. -/
structure ThreadSignalManager where
  mailbox : ThreadSignalMailbox
  /-- `recv_id`: the mailbox's `send_id` last seen, with the local flag in bit 0. -/
  recvId : Usize
  stdPending : SigSet
  realPending : RTQueue
  signalMask : SigSet
  /-- `proc_recv_id`: the process's `recv_id` last seen. -/
  procRecvId : Usize

namespace ThreadSignalManager

/-- `ThreadSignalManager::new`. -/
def new : ThreadSignalManager := ⟨⟨SigSet.empty, 0, []⟩, 0, SigSet.empty, [], SigSet.empty, 0⟩

/-- `ThreadSignalManager::receive`. -/
def receive (t : ThreadSignalManager) (sig : Sig) : ThreadSignalManager :=
  { t with mailbox := t.mailbox.receive sig }

/-- The loop of `fetch_mailbox` over the realtime signals it took from the box. -/
def addFetched (t : ThreadSignalManager) : List Sig → ThreadSignalManager
  | [] => t
  | sig :: rest =>
      let t := if sig.val < 32 then { t with stdPending := t.stdPending.union (SigSet.single sig) }
        else { t with realPending := t.realPending ++ [sig] }
      addFetched t rest

/-- `fetch_mailbox`: move the mailbox's signals to the thread's own sets. -/
def fetchMailbox (t : ThreadSignalManager) : ThreadSignalManager :=
  let sendId := t.mailbox.sendId
  if t.recvId &&& seqMask = sendId then t
  else
    { t with
      recvId := sendId ||| (t.recvId &&& queMask)
      stdPending := t.stdPending.union t.mailbox.std
      mailbox := { t.mailbox with std := SigSet.empty, realtime := [] } }.addFetched
      t.mailbox.realtime

/-- `mask_changed`: a changed mask may let a pending signal through. -/
def maskChanged (t : ThreadSignalManager) : ThreadSignalManager :=
  { t with recvId := t.recvId ||| queMask }

/-- `insert_local_flag`. -/
def insertLocalFlag (t : ThreadSignalManager) : ThreadSignalManager :=
  { t with recvId := t.recvId ||| queMask }

/-- `clear_local_flag`. -/
def clearLocalFlag (t : ThreadSignalManager) : ThreadSignalManager :=
  { t with recvId := t.recvId &&& seqMask }

/-- `set_mask`: `SIGKILL` and `SIGSTOP` cannot be blocked. -/
def setMask (t : ThreadSignalManager) (mask : SigSet) : ThreadSignalManager :=
  { t with signalMask := mask.diff SigSet.neverCapture }

/-- `ThreadSignalManager::have_signal`: the mailbox received a signal since the
thread last looked, or the local flag is up. -/
def haveSignal (t : ThreadSignalManager) : Bool := t.recvId != t.mailbox.sendId

/-- `ThreadSignalManager::have_signal_local`. -/
def haveSignalLocal (t : ThreadSignalManager) : Bool :=
  !(t.stdPending.diff t.signalMask.std).isEmpty || t.realPending.canFetch t.signalMask

/-- `ThreadSignalManager::take_std_signal`. -/
def takeStdSignal (t : ThreadSignalManager) : Option Sig × ThreadSignalManager :=
  match (t.stdPending.diff t.signalMask.std).fetch with
  | some a => (some a, { t with stdPending := t.stdPending.clearSig a })
  | none => (none, t)

/-- `ThreadSignalManager::take_rt_signal`. -/
def takeRtSignal (t : ThreadSignalManager) : Option Sig × ThreadSignalManager :=
  let (sig, realPending) := t.realPending.fetch t.signalMask
  (sig, { t with realPending := realPending })

/-- Taking a standard signal changes only `std_pending`. -/
theorem takeStdSignal_snd (t : ThreadSignalManager) :
    t.takeStdSignal.2 = { t with stdPending := t.takeStdSignal.2.stdPending } := by
  unfold takeStdSignal
  split <;> rfl

theorem takeRtSignal_snd (t : ThreadSignalManager) :
    t.takeRtSignal.2 = { t with realPending := t.takeRtSignal.2.realPending } := rfl

/-! ### What each operation does to the sequence numbers -/

section Sequence

variable (t : ThreadSignalManager)

@[simp] theorem addFetched_mailbox (sigs : List Sig) : (t.addFetched sigs).mailbox = t.mailbox := by
  induction sigs generalizing t with
  | nil => rfl
  | cons sig rest ih => simp only [addFetched]; split <;> exact ih _

@[simp] theorem addFetched_recvId (sigs : List Sig) : (t.addFetched sigs).recvId = t.recvId := by
  induction sigs generalizing t with
  | nil => rfl
  | cons sig rest ih => simp only [addFetched]; split <;> exact ih _

@[simp] theorem addFetched_signalMask (sigs : List Sig) :
    (t.addFetched sigs).signalMask = t.signalMask := by
  induction sigs generalizing t with
  | nil => rfl
  | cons sig rest ih => simp only [addFetched]; split <;> exact ih _

@[simp] theorem fetchMailbox_sendId : t.fetchMailbox.mailbox.sendId = t.mailbox.sendId := by
  unfold fetchMailbox
  dsimp only
  split <;> simp

@[simp] theorem fetchMailbox_signalMask : t.fetchMailbox.signalMask = t.signalMask := by
  unfold fetchMailbox
  dsimp only
  split <;> simp

/-- The mailbox's `send_id` is even: the local flag of the thread is not in it. -/
def Even : Prop := t.mailbox.sendId &&& queMask = 0

variable {t}

theorem even_receive (even : t.Even) (sig : Sig) : (t.receive sig).Even := by
  unfold Even receive ThreadSignalMailbox.receive
  split_ifs
  · exact even
  · simp only [add_two_and_queMask]; exact even
  · simp only [add_two_and_queMask]; exact even

theorem Even.fetchMailbox (even : t.Even) : t.fetchMailbox.Even := by
  unfold Even
  rw [fetchMailbox_sendId]
  exact even

/-- After `fetch_mailbox` the sequence part of `recv_id` is `send_id`. -/
theorem fetchMailbox_recvId_seq (even : t.Even) :
    t.fetchMailbox.recvId &&& seqMask = t.mailbox.sendId := by
  unfold fetchMailbox
  dsimp only
  split
  case isTrue seen => exact seen
  case isFalse => simpa using or_flag_and_seqMask _ t.recvId even

/-- `fetch_mailbox` keeps the local flag. -/
theorem fetchMailbox_recvId_que (even : t.Even) :
    t.fetchMailbox.recvId &&& queMask = t.recvId &&& queMask := by
  unfold fetchMailbox
  dsimp only
  split
  case isTrue => rfl
  case isFalse => simpa using or_flag_and_queMask _ t.recvId even

/-- Once the thread has seen the mailbox's `send_id`, `have_signal` reads the
local flag. -/
theorem haveSignal_iff_flag (even : t.Even) (seen : t.recvId &&& seqMask = t.mailbox.sendId) :
    t.haveSignal = true ↔ t.recvId &&& queMask ≠ 0 := by
  have sendSeq : t.mailbox.sendId &&& seqMask = t.mailbox.sendId := and_seqMask_of_even even
  rw [haveSignal, bne_iff_ne, ne_eq, ne_eq, not_iff_not, eq_iff_seq_que, seen, sendSeq]
  simp only [true_and]
  rw [even]

/-- `mask_changed` always makes `have_signal` true: the flag is not in `send_id`. -/
theorem haveSignal_maskChanged (even : t.Even) : t.maskChanged.haveSignal = true := by
  rw [haveSignal, bne_iff_ne, ne_eq, eq_iff_seq_que, not_and_or]
  right
  simp only [maskChanged, or_queMask_and_queMask]
  rw [even]
  decide

theorem haveSignal_insertLocalFlag (even : t.Even) : t.insertLocalFlag.haveSignal = true :=
  haveSignal_maskChanged even

/-- With the mailbox seen, clearing the flag makes `have_signal` false. -/
theorem haveSignal_clearLocalFlag (seen : t.recvId &&& seqMask = t.mailbox.sendId) :
    t.clearLocalFlag.haveSignal = false := by
  simp [haveSignal, clearLocalFlag, seen]

end Sequence

end ThreadSignalManager

end Signal

end FtlOs
