import Mathlib
import FtlOs.Kernel.Signal.Manager
import FtlOs.Library.Run
import FtlOs.Util.Error

/-!
# Noticing and handling signals

`signal/mod.rs` decides on every return to user space whether to look for a
signal at all: `have_signal` compares the sequence numbers, with no lock.
`handle_signal` then moves the mailbox to the thread, takes one signal (the
thread's standard signals first, then the process's, then the two realtime
queues) and runs its action.  When it finds none it sets the local flag to
whether anything is left; when it finds one it leaves the flag as it was.
`sys_rt_sigprocmask` raises the flag after changing the mask (`mask_changed`);
`sys_rt_sigreturn` restores the mask saved on entry to the handler and does not.

The model keeps, of a thread, its `ThreadSignalManager` and the masks saved in
the chain of signal contexts that `scx_ptr` heads.  The user stack is taken to
be writable, so entering a handler does not fail, and faults on the user
buffers of `sys_rt_sigprocmask` (which leave the mask as it was) are left out.

The main results: the sequence numbers stay even over every run; a
`handle_signal` that finds nothing leaves `have_signal` equal to the exact test
`have_signal_local`; but one that delivers a signal leaves `have_signal` equal
to the old local flag whatever is still pending, and `sigreturn` does not
touch it, so a pending signal the mask lets through can go unnoticed.
-/

namespace FtlOs

namespace Signal

/-- What `handle_signal` did: `dead` is its `Err(Dead)`. -/
inductive Handled where
  | nothing
  | dead
  | ignored (sig : Sig)
  | delivered (sig : Sig)
  deriving DecidableEq

/-- The part of `ThreadInner` the signal path uses. -/
structure Thread where
  signalManager : ThreadSignalManager
  /-- The masks saved in the signal contexts on the user stack, the latest first. -/
  contexts : List SigSet

/-- `have_signal`. -/
def haveSignal (th : Thread) (p : ProcSignalManager) : Bool :=
  th.signalManager.haveSignal || p.haveSignal th.signalManager.procRecvId

/-- The `try` block of `handle_signal`: the first of the four sources that has
a signal the mask lets through gives it up. -/
def takeSignal (t : ThreadSignalManager) (p : ProcSignalManager) (mask : SigSet) :
    Option Sig × ThreadSignalManager × ProcSignalManager :=
  match t.takeStdSignal with
  | (some sig, t) => (some sig, t, p)
  | (none, t) =>
    match p.takeStdSignal mask.std with
    | (some sig, p) => (some sig, t, p)
    | (none, p) =>
      match t.takeRtSignal with
      | (some sig, t) => (some sig, t, p)
      | (none, t) =>
        let (sig, p) := p.takeRtSignal mask
        (sig, t, p)

/-- Of the thread's manager, the take changes only the pending sets. -/
theorem takeSignal_thread (t : ThreadSignalManager) (p : ProcSignalManager) (mask : SigSet) :
    ∃ std real, (takeSignal t p mask).2.1 = { t with stdPending := std, realPending := real } := by
  unfold takeSignal
  have std := t.takeStdSignal_snd
  rcases taken : t.takeStdSignal with ⟨_ | sig, t1⟩ <;> rw [taken] at std <;> dsimp only at std ⊢
  case none =>
    rcases p.takeStdSignal mask.std with ⟨_ | sig, p2⟩ <;> dsimp only
    case none =>
      have rt := t1.takeRtSignal_snd
      rcases takenRt : t1.takeRtSignal with ⟨_ | sig, t3⟩ <;> rw [takenRt] at rt <;> dsimp only at rt ⊢
      all_goals exact ⟨t1.stdPending, t3.realPending, by rw [rt, std]⟩
    case some => exact ⟨t1.stdPending, t.realPending, std⟩
  case some => exact ⟨t1.stdPending, t.realPending, std⟩

/-- Of the process's manager, the take changes only the pending sets. -/
theorem takeSignal_proc (t : ThreadSignalManager) (p : ProcSignalManager) (mask : SigSet) :
    ∃ pending realtime,
      (takeSignal t p mask).2.2 = { p with pending := pending, realtime := realtime } := by
  unfold takeSignal
  rcases t.takeStdSignal with ⟨_ | sig, t1⟩ <;> dsimp only
  case none =>
    have std := p.takeStdSignal_snd mask.std
    rcases taken : p.takeStdSignal mask.std with ⟨_ | sig, p2⟩ <;> rw [taken] at std <;>
      dsimp only at std ⊢
    case none =>
      rcases t1.takeRtSignal with ⟨_ | sig, t3⟩ <;> dsimp only
      case none => exact ⟨p2.pending, (p2.takeRtSignal mask).2.realtime, by rw [p2.takeRtSignal_snd, std]⟩
      case some => exact ⟨p2.pending, p.realtime, std⟩
    case some => exact ⟨p2.pending, p.realtime, std⟩
  case some => exact ⟨p.pending, p.realtime, rfl⟩

/-- The rest of `handle_signal`, once the `try` block has run under `mask`:
catch up with the process's `recv_id`, then set the local flag if nothing was
taken, or run the action of the signal taken. -/
def finishSignal (th : Thread) (mask : SigSet) :
    Option Sig × ThreadSignalManager × ProcSignalManager → Handled × Thread × ProcSignalManager
  | (taken, t, p) =>
    let t := { t with procRecvId := p.recvId }
    match taken with
    | none =>
      let t := if t.haveSignalLocal || p.haveSignalLocal mask then t.insertLocalFlag
        else t.clearLocalFlag
      (.nothing, { th with signalManager := t }, p)
    | some sig =>
      match p.getAction sig with
      | (.abort, _) => (.dead, { th with signalManager := t }, p)
      | (.ignore, _) => (.ignored sig, { th with signalManager := t }, p)
      | (.handler _, sigMask) =>
        -- the old mask is saved in the new signal context
        let t := t.setMask ((mask.union sigMask).union (SigSet.single sig))
        (.delivered sig, { signalManager := t, contexts := mask :: th.contexts }, p)

/-- The finish said once: the process is handed back as the take left it;
with nothing taken the local flag is set to the exact test, and with a signal
taken the thread's manager is the one the take left, at most with a new mask. -/
theorem finishSignal_spec (th : Thread) (mask : SigSet) (taken : Option Sig)
    (t : ThreadSignalManager) (p : ProcSignalManager) :
    let t' := { t with procRecvId := p.recvId }
    let r := finishSignal th mask (taken, t, p)
    r.2.2 = p ∧
      (r.1 = .nothing ∧ r.2.1.signalManager =
          (if t'.haveSignalLocal || p.haveSignalLocal mask then t'.insertLocalFlag
            else t'.clearLocalFlag) ∨
        r.1 ≠ .nothing ∧ (r.2.1.signalManager = t' ∨ ∃ m, r.2.1.signalManager = t'.setMask m)) := by
  rcases taken with _ | sig
  · simp [finishSignal]
  · rcases action : p.getAction sig with ⟨_ | _ | entry, sigMask⟩
    case abort => simp [finishSignal, action]
    case ignore => simp [finishSignal, action]
    case handler =>
      simp only [finishSignal, action, true_and]
      exact .inr ⟨by simp, .inr ⟨_, rfl⟩⟩

/-- `handle_signal`. -/
def handleSignal (th : Thread) (p : ProcSignalManager) : Handled × Thread × ProcSignalManager :=
  let t := th.signalManager.fetchMailbox
  finishSignal th t.signalMask (takeSignal t p t.signalMask)

section Handle

variable (th : Thread) (p : ProcSignalManager)

/-- `handle_signal` said once, in terms of `t`, the thread's manager after the
take: it is the fetched one up to its pending sets, caught up with the
process's `recv_id`, which the take does not move. -/
theorem handleSignal_spec :
    ∃ (t : ThreadSignalManager) (p' : ProcSignalManager),
      t.recvId = th.signalManager.fetchMailbox.recvId ∧
      t.mailbox = th.signalManager.fetchMailbox.mailbox ∧
      t.signalMask = th.signalManager.signalMask ∧
      t.procRecvId = p'.recvId ∧ p'.recvId = p.recvId ∧
      (handleSignal th p).2.2 = p' ∧
      ((handleSignal th p).1 = .nothing ∧
          (handleSignal th p).2.1.signalManager =
            (if t.haveSignalLocal || p'.haveSignalLocal t.signalMask then
              t.insertLocalFlag else t.clearLocalFlag) ∨
        (handleSignal th p).1 ≠ .nothing ∧
          ((handleSignal th p).2.1.signalManager = t ∨
            ∃ mask, (handleSignal th p).2.1.signalManager = t.setMask mask)) := by
  -- the thread and the process as the take leaves them
  let x := takeSignal th.signalManager.fetchMailbox p th.signalManager.fetchMailbox.signalMask
  obtain ⟨std, real, thread⟩ : ∃ std real,
      x.2.1 = { th.signalManager.fetchMailbox with stdPending := std, realPending := real } :=
    takeSignal_thread _ _ _
  obtain ⟨pending, realtime, proc⟩ : ∃ pending realtime,
      x.2.2 = { p with pending := pending, realtime := realtime } :=
    takeSignal_proc _ _ _
  obtain ⟨procSame, outcome⟩ :=
    finishSignal_spec th th.signalManager.fetchMailbox.signalMask x.1 x.2.1 x.2.2
  refine ⟨{ x.2.1 with procRecvId := x.2.2.recvId }, x.2.2, ?_, ?_, ?_, rfl, ?_, procSame, ?_⟩
  · simp [thread]
  · simp [thread]
  · simp [thread]
  · simp [proc]
  · -- the flag is tested under the mask the take used
    have sameMask : ({ x.2.1 with procRecvId := x.2.2.recvId } : ThreadSignalManager).signalMask =
        th.signalManager.fetchMailbox.signalMask := by
      simp [thread]
    rw [sameMask]
    exact outcome

/-- `handle_signal` does not move the mailbox's `send_id`. -/
theorem handleSignal_sendId :
    (handleSignal th p).2.1.signalManager.mailbox.sendId = th.signalManager.mailbox.sendId := by
  obtain ⟨t, p', -, mailbox, -, -, -, -, outcome⟩ := handleSignal_spec th p
  rcases outcome with ⟨-, thread⟩ | ⟨-, thread | ⟨mask, thread⟩⟩
  · rw [thread]
    split <;> simp [ThreadSignalManager.insertLocalFlag, ThreadSignalManager.clearLocalFlag, mailbox]
  · simp [thread, mailbox]
  · simp [thread, mailbox, ThreadSignalManager.setMask]

variable {th p}

/-- A `handle_signal` that takes a signal leaves `have_signal` equal to the local
flag as it was before, whatever is still pending. -/
theorem haveSignal_handleSignal_of_taken (even : th.signalManager.Even)
    (taken : (handleSignal th p).1 ≠ .nothing) :
    haveSignal (handleSignal th p).2.1 (handleSignal th p).2.2 = true ↔
      th.signalManager.recvId &&& queMask ≠ 0 := by
  obtain ⟨t, p', recvId, mailbox, -, procRecvId, -, proc, outcome⟩ := handleSignal_spec th p
  have kept : (handleSignal th p).2.1.signalManager.recvId = t.recvId ∧
      (handleSignal th p).2.1.signalManager.mailbox = t.mailbox ∧
      (handleSignal th p).2.1.signalManager.procRecvId = t.procRecvId := by
    rcases outcome with ⟨nothing, -⟩ | ⟨-, thread | ⟨mask, thread⟩⟩
    · exact absurd nothing taken
    · simp [thread]
    · simp [thread, ThreadSignalManager.setMask]
  obtain ⟨keptRecv, keptMailbox, keptProc⟩ := kept
  -- the process has nothing new: the thread caught up with its `recv_id`
  have procQuiet : p'.haveSignal (handleSignal th p).2.1.signalManager.procRecvId = false := by
    simp [ProcSignalManager.haveSignal, keptProc, procRecvId]
  have sendSame : (handleSignal th p).2.1.signalManager.mailbox.sendId =
      th.signalManager.mailbox.sendId := by
    rw [keptMailbox, mailbox, ThreadSignalManager.fetchMailbox_sendId]
  have evenAfter : (handleSignal th p).2.1.signalManager.Even := by
    rw [ThreadSignalManager.Even, sendSame]
    exact even
  have seen : (handleSignal th p).2.1.signalManager.recvId &&& seqMask =
      (handleSignal th p).2.1.signalManager.mailbox.sendId := by
    rw [keptRecv, recvId, sendSame, ThreadSignalManager.fetchMailbox_recvId_seq even]
  rw [haveSignal, proc, procQuiet, Bool.or_false,
    ThreadSignalManager.haveSignal_iff_flag evenAfter seen, keptRecv, recvId,
    ThreadSignalManager.fetchMailbox_recvId_que even]

/-- A `handle_signal` that finds nothing leaves `have_signal` equal to the exact
test `have_signal_local`. -/
theorem haveSignal_handleSignal_of_nothing (even : th.signalManager.Even)
    (nothing : (handleSignal th p).1 = .nothing) :
    haveSignal (handleSignal th p).2.1 (handleSignal th p).2.2 =
      ((handleSignal th p).2.1.signalManager.haveSignalLocal ||
        (handleSignal th p).2.2.haveSignalLocal (handleSignal th p).2.1.signalManager.signalMask) := by
  obtain ⟨t, p', recvId, mailbox, -, procRecvId, -, proc, outcome⟩ := handleSignal_spec th p
  obtain ⟨-, thread⟩ : (handleSignal th p).1 = .nothing ∧ _ := by
    rcases outcome with found | ⟨taken, -⟩
    · exact found
    · exact absurd nothing taken
  have evenT : t.Even := by
    rw [ThreadSignalManager.Even, mailbox, ThreadSignalManager.fetchMailbox_sendId]
    exact even
  have seen : t.recvId &&& seqMask = t.mailbox.sendId := by
    rw [recvId, mailbox, ThreadSignalManager.fetchMailbox_recvId_seq even,
      ThreadSignalManager.fetchMailbox_sendId]
  have procQuiet : p'.haveSignal t.procRecvId = false := by
    simp [ProcSignalManager.haveSignal, procRecvId]
  rw [haveSignal, proc, thread]
  -- raising or clearing the flag touches neither the pending sets nor the mask
  split
  case isTrue left =>
    simp only [ThreadSignalManager.haveSignal_insertLocalFlag evenT, Bool.true_or]
    simpa [ThreadSignalManager.insertLocalFlag, ThreadSignalManager.haveSignalLocal] using left.symm
  case isFalse left =>
    simp only [ThreadSignalManager.haveSignal_clearLocalFlag seen, Bool.false_or]
    simp only [ThreadSignalManager.clearLocalFlag, procQuiet]
    simpa [ThreadSignalManager.haveSignalLocal] using left

end Handle

/-- `sigreturn`, reached when `scx_ptr` is not null; `none` is
`sys_rt_sigreturn` failing with `EPERM` and the thread exiting. -/
def sigreturn (th : Thread) : Option Thread :=
  match th.contexts with
  | [] => none
  | mask :: rest => some { signalManager := th.signalManager.setMask mask, contexts := rest }

/-- `sigreturn` changes the mask but not `have_signal`: it does not call
`mask_changed`. -/
theorem haveSignal_sigreturn {th th' : Thread} (returned : sigreturn th = some th')
    (p : ProcSignalManager) : haveSignal th' p = haveSignal th p := by
  unfold sigreturn at returned
  split at returned
  case h_1 => cases returned
  case h_2 =>
    cases returned
    rfl

theorem sigreturn_sendId {th th' : Thread} (returned : sigreturn th = some th') :
    th'.signalManager.mailbox.sendId = th.signalManager.mailbox.sendId := by
  unfold sigreturn at returned
  split at returned
  case h_1 => cases returned
  case h_2 =>
    cases returned
    rfl

/-- `SIG_BLOCK`. -/
def sigBlock : Usize := 0

/-- `SIG_UNBLOCK`. -/
def sigUnblock : Usize := 1

/-- `SIG_SETMASK`. -/
def sigSetmask : Usize := 2

/-- `sys_rt_sigprocmask`, with the new set as read from user memory (`none`
for a null `newset`).  The mask is written directly, not through `set_mask`. -/
def sysRtSigprocmask (th : Thread) (how : Usize) (newset : Option SigSet) : SysR Thread :=
  match newset with
  | none => .ok th
  | some set => do
    let t := th.signalManager
    let mask ← if how = sigBlock then pure (t.signalMask.union set)
      else if how = sigUnblock then pure (t.signalMask.diff set)
      else if how = sigSetmask then pure set
      else throw .EINVAL
    pure { th with signalManager := { t with signalMask := mask }.maskChanged }

/-- A successful `sys_rt_sigprocmask` with a new set leaves the thread with a
mask as its `how` says and `have_signal` true. -/
theorem sysRtSigprocmask_spec {th th' : Thread} {how : Usize} {set : SigSet}
    (changed : sysRtSigprocmask th how (some set) = .ok th') :
    ∃ mask, th' = { th with signalManager := { th.signalManager with signalMask := mask }.maskChanged } := by
  unfold sysRtSigprocmask at changed
  -- three hows give a new mask; any other fails with `EINVAL`
  split_ifs at changed <;> cases changed
  all_goals exact ⟨_, rfl⟩

theorem sysRtSigprocmask_sendId {th th' : Thread} {how : Usize} {newset : Option SigSet}
    (changed : sysRtSigprocmask th how newset = .ok th') :
    th'.signalManager.mailbox.sendId = th.signalManager.mailbox.sendId := by
  cases newset with
  | none => cases changed; rfl
  | some set =>
    obtain ⟨mask, rfl⟩ := sysRtSigprocmask_spec changed
    rfl

/-- `SIG_BLOCK` adds the whole set to the mask, never-capture signals included. -/
theorem sysRtSigprocmask_block {th th' : Thread} {set : SigSet}
    (changed : sysRtSigprocmask th sigBlock (some set) = .ok th') :
    th'.signalManager.signalMask = th.signalManager.signalMask.union set := by
  simp only [sysRtSigprocmask, if_true] at changed
  cases changed
  rfl

/-- A thread and its process, as the signal path sees them. -/
structure SignalState where
  thread : Thread
  proc : ProcSignalManager

/-- The calls that touch the signal state. -/
inductive SignalEvent where
  | threadReceive (sig : Sig)
  | procReceive (sig : Sig)
  | handleSignal
  | sigprocmask (how : Usize) (newset : Option SigSet)
  | sigreturn

namespace SignalState

/-- One call; `none` once the thread is dead or has exited.  A failed
`sys_rt_sigprocmask` changes nothing. -/
def step (s : SignalState) : SignalEvent → Option SignalState
  | .threadReceive sig =>
    some { s with thread := { s.thread with signalManager := s.thread.signalManager.receive sig } }
  | .procReceive sig => some { s with proc := s.proc.receive sig }
  | .handleSignal =>
    match Signal.handleSignal s.thread s.proc with
    | (.dead, _, _) => none
    | (_, th, p) => some ⟨th, p⟩
  | .sigprocmask how newset =>
    match sysRtSigprocmask s.thread how newset with
    | .ok th => some { s with thread := th }
    | .error _ => some s
  | .sigreturn => (Signal.sigreturn s.thread).map fun th => { s with thread := th }

/-- A new thread of a process whose actions are `action`: `ignore` as
`replace_action` computes it. -/
def init (action : Sig → SigAction) : SignalState :=
  ⟨⟨ThreadSignalManager.new, []⟩, ⟨SigSet.empty, [], action, ignoreOf action, 0⟩⟩

/-- A signal waits for the thread: it is in the thread's mailbox or pending
sets or in the process's, and the thread's mask neither blocks it nor does
the process ignore it. -/
def deliverable (s : SignalState) (sig : Sig) : Bool :=
  let t := s.thread.signalManager
  (t.mailbox.std sig || t.mailbox.realtime.contains sig || t.stdPending sig
      || t.realPending.contains sig || s.proc.pending sig || s.proc.realtime.contains sig)
    && !t.signalMask sig && !s.proc.ignore sig

/-- What a `handle_signal` step leaves: the thread and the process `handle_signal`
returns. -/
theorem step_handleSignal_eq {s s' : SignalState} (handled : s.step .handleSignal = some s') :
    s'.thread = (Signal.handleSignal s.thread s.proc).2.1 ∧
      s'.proc = (Signal.handleSignal s.thread s.proc).2.2 := by
  simp only [SignalState.step] at handled
  split at handled
  case h_1 => cases handled
  case h_2 result =>
    cases handled
    simp [result]

/-- What a `sigreturn` step leaves: the thread `sigreturn` returns, and the same process. -/
theorem step_sigreturn_eq {s s' : SignalState} (returned : s.step .sigreturn = some s') :
    Signal.sigreturn s.thread = some s'.thread ∧ s'.proc = s.proc := by
  obtain ⟨th, back, rfl⟩ := Option.map_eq_some_iff.mp returned
  exact ⟨back, rfl⟩

/-! ### Over whole runs -/

/-- The mailbox's `send_id` is even, so the local flag is apart from it. -/
def Even (s : SignalState) : Prop := s.thread.signalManager.Even

theorem even_init (action : Sig → SigAction) : (init action).Even := by
  show (0 : Usize) &&& queMask = 0
  decide

/-- Every call keeps `send_id` even: receiving adds two, nothing else moves it. -/
theorem Even.step {s s' : SignalState} {e : SignalEvent} (even : s.Even)
    (stepped : s.step e = some s') : s'.Even := by
  cases e with
  | threadReceive sig =>
    cases stepped
    exact ThreadSignalManager.even_receive even sig
  | procReceive sig =>
    cases stepped
    exact even
  | handleSignal =>
    have sendSame := handleSignal_sendId s.thread s.proc
    simp only [SignalState.step] at stepped
    split at stepped
    case h_1 => cases stepped
    case h_2 handled th p _ result =>
      cases stepped
      rw [result] at sendSame
      unfold Even ThreadSignalManager.Even
      rw [sendSame]
      exact even
  | sigprocmask how newset =>
    simp only [SignalState.step] at stepped
    split at stepped
    case h_1 th changed =>
      cases stepped
      unfold Even ThreadSignalManager.Even
      rw [sysRtSigprocmask_sendId changed]
      exact even
    case h_2 =>
      cases stepped
      exact even
  | sigreturn =>
    simp only [SignalState.step, Option.map_eq_some_iff] at stepped
    obtain ⟨th, returned, rfl⟩ := stepped
    unfold Even ThreadSignalManager.Even
    rw [sigreturn_sendId returned]
    exact even

theorem even_of_run {action : Sig → SigAction} {events : List SignalEvent} {s : SignalState}
    (reached : Run.run step (init action) events = some s) : s.Even :=
  Run.invariant_of_run (fun _ _ _ even _ stepped => even.step stepped) events _ s
    (even_init action) (fun _ _ => trivial) reached

/-- In every reachable state where the local flag is down, a `handle_signal`
that takes a signal leaves `have_signal` false, whatever is still pending. -/
theorem haveSignal_false_of_taken {action : Sig → SigAction} {events : List SignalEvent}
    {s : SignalState} (reached : Run.run step (init action) events = some s)
    (flagDown : s.thread.signalManager.recvId &&& queMask = 0)
    (taken : (Signal.handleSignal s.thread s.proc).1 ≠ .nothing) :
    haveSignal (Signal.handleSignal s.thread s.proc).2.1
      (Signal.handleSignal s.thread s.proc).2.2 = false := by
  have flag := haveSignal_handleSignal_of_taken (even_of_run reached) taken
  rw [flagDown, ne_self_iff_false, iff_false] at flag
  simpa using flag

/-- In every reachable state, a `handle_signal` that finds nothing leaves
`have_signal` equal to the exact test of the thread and the process. -/
theorem haveSignal_of_nothing {action : Sig → SigAction} {events : List SignalEvent}
    {s : SignalState} (reached : Run.run step (init action) events = some s)
    (nothing : (Signal.handleSignal s.thread s.proc).1 = .nothing) :
    haveSignal (Signal.handleSignal s.thread s.proc).2.1 (Signal.handleSignal s.thread s.proc).2.2 =
      ((Signal.handleSignal s.thread s.proc).2.1.signalManager.haveSignalLocal ||
        (Signal.handleSignal s.thread s.proc).2.2.haveSignalLocal
          (Signal.handleSignal s.thread s.proc).2.1.signalManager.signalMask) :=
  haveSignal_handleSignal_of_nothing (even_of_run reached) nothing

/-- A run that ends with a `handle_signal` which takes a signal while the local flag is
down ends with `have_signal` false, whatever is still pending. -/
theorem haveSignal_false_after_taken {action : Sig → SigAction} {events : List SignalEvent}
    {s s' : SignalState} (reached : Run.run step (init action) events = some s)
    (flagDown : s.thread.signalManager.recvId &&& queMask = 0)
    (taken : (Signal.handleSignal s.thread s.proc).1 ≠ .nothing)
    (final : Run.run step (init action) (events ++ [.handleSignal]) = some s') :
    haveSignal s'.thread s'.proc = false := by
  rw [Run.run_append, reached, Option.bind_some, Run.run_cons] at final
  obtain ⟨s₁, handled, finished⟩ := Option.bind_eq_some_iff.mp final
  cases finished
  obtain ⟨thread, proc⟩ := step_handleSignal_eq handled
  rw [thread, proc]
  exact haveSignal_false_of_taken reached flagDown taken

/-- A run that ends with a `handle_signal` which finds nothing and then a `sigreturn` ends
with `have_signal` as the `handle_signal` set it, under the handler's mask and not the
mask `sigreturn` restores. -/
theorem haveSignal_after_nothing_and_sigreturn {action : Sig → SigAction}
    {events : List SignalEvent} {s s' : SignalState}
    (reached : Run.run step (init action) events = some s)
    (nothing : (Signal.handleSignal s.thread s.proc).1 = .nothing)
    (final : Run.run step (init action) (events ++ [.handleSignal, .sigreturn]) = some s') :
    haveSignal s'.thread s'.proc =
      ((Signal.handleSignal s.thread s.proc).2.1.signalManager.haveSignalLocal ||
        (Signal.handleSignal s.thread s.proc).2.2.haveSignalLocal
          (Signal.handleSignal s.thread s.proc).2.1.signalManager.signalMask) := by
  rw [Run.run_append, reached, Option.bind_some, Run.run_cons] at final
  obtain ⟨s₁, handled, final⟩ := Option.bind_eq_some_iff.mp final
  rw [Run.run_cons] at final
  obtain ⟨s₂, returned, finished⟩ := Option.bind_eq_some_iff.mp final
  cases finished
  obtain ⟨thread, proc⟩ := step_handleSignal_eq handled
  obtain ⟨back, sameProc⟩ := step_sigreturn_eq returned
  rw [sameProc, haveSignal_sigreturn back, thread, proc]
  exact haveSignal_of_nothing reached nothing

end SignalState

/-- A process with handlers for `SIGUSR1` and `SIGUSR2` at `0x1000`, and the
default action for every other signal. -/
def usrHandlers : Sig → SigAction := fun s =>
  if s = sigUsr1 ∨ s = sigUsr2 then ⟨0x1000, SigSet.empty⟩ else ⟨0, SigSet.empty⟩

open SignalState in
/-- Two runs that end with a signal the mask lets through pending and
`have_signal` false.  In the first, `SIGUSR2` waits behind `SIGUSR1`, whose
delivery leaves the flag down; in the second, `SIGUSR1` arrives again while
its handler runs, and `sigreturn` unblocks it without raising the flag. -/
theorem signal_pending_but_not_noticed :
    (Run.run step (init usrHandlers)
        [.threadReceive sigUsr1, .threadReceive sigUsr2, .handleSignal]).map
      (fun s => (s.deliverable sigUsr2, haveSignal s.thread s.proc)) = some (true, false) ∧
    (Run.run step (init usrHandlers)
        [.threadReceive sigUsr1, .handleSignal, .threadReceive sigUsr1, .handleSignal, .sigreturn]).map
      (fun s => (s.deliverable sigUsr1, haveSignal s.thread s.proc)) = some (true, false) := by
  constructor
  · -- `SIGUSR1` is taken with the local flag down, and `SIGUSR2` stays pending
    obtain ⟨s, final⟩ : ∃ s, Run.run step (init usrHandlers)
        [.threadReceive sigUsr1, .threadReceive sigUsr2, .handleSignal] = some s := ⟨_, rfl⟩
    have pending : (Run.run step (init usrHandlers)
        [.threadReceive sigUsr1, .threadReceive sigUsr2, .handleSignal]).map
          (fun s => s.deliverable sigUsr2) = some true := by decide +kernel
    have quiet := haveSignal_false_after_taken
      (show Run.run step (init usrHandlers) [.threadReceive sigUsr1, .threadReceive sigUsr2] =
        some _ from rfl) (by decide) (by decide) final
    rw [final, Option.map_some] at pending ⊢
    rw [Option.some.inj pending, quiet]
  · -- the second `SIGUSR1` comes while its handler masks it: `handle_signal` finds nothing
    -- and lowers the flag, and `sigreturn` unmasks it without raising the flag
    obtain ⟨s, final⟩ : ∃ s, Run.run step (init usrHandlers)
        [.threadReceive sigUsr1, .handleSignal, .threadReceive sigUsr1, .handleSignal,
          .sigreturn] = some s := ⟨_, rfl⟩
    have pending : (Run.run step (init usrHandlers)
        [.threadReceive sigUsr1, .handleSignal, .threadReceive sigUsr1, .handleSignal,
          .sigreturn]).map (fun s => s.deliverable sigUsr1) = some true := by decide +kernel
    have lowered := haveSignal_after_nothing_and_sigreturn
      (show Run.run step (init usrHandlers)
        [.threadReceive sigUsr1, .handleSignal, .threadReceive sigUsr1] = some _ from rfl)
      (by decide) final
    rw [final, Option.map_some] at pending ⊢
    rw [Option.some.inj pending, lowered]
    decide

open SignalState in
/-- `SIGKILL` can be both blocked and delayed.  `SIG_BLOCK` writes the mask through
`mask_mut`, which does not strip never-capture signals, and a masked `SIGKILL` stays
pending through `handle_signal`.  And `fetch_never_capture` looks at `SIGKILL` only when
`SIGSTOP` is pending too, so a lone `SIGKILL` comes after any lower signal. -/
theorem sigkill_blocked_or_outranked :
    (∀ (th th' : Thread) (set : SigSet), set sigKill = true →
      sysRtSigprocmask th sigBlock (some set) = .ok th' →
      th'.signalManager.signalMask sigKill = true) ∧
    (∀ (a : SigSet) (low : Sig), a sigStop = false → a sigSegv = false → low < sigKill →
      a low = true → a.fetch ≠ some sigKill) ∧
    (Run.run step (init usrHandlers)
        [.sigprocmask sigBlock (some (SigSet.single sigKill)), .threadReceive sigKill,
          .handleSignal]).map
      (fun s => (s.thread.signalManager.stdPending sigKill,
        s.thread.signalManager.signalMask sigKill)) = some (true, true) ∧
    SigSet.fetch ((SigSet.single ⟨0, by decide⟩).union (SigSet.single sigKill)) =
      some ⟨0, by decide⟩ := by
  refine ⟨?blocked, ?outranked, by decide +kernel, by decide +kernel⟩
  case blocked =>
    intro th th' set killed changed
    rw [sysRtSigprocmask_block changed]
    simp [SigSet.union, killed]
  case outranked =>
    intro a low noStop noSegv lower pending
    exact a.fetch_ne_kill_of_lower noStop noSegv lower pending

end Signal

end FtlOs
