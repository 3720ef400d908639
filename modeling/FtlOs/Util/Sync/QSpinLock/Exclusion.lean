import FtlOs.Library.Token
import FtlOs.Util.Sync.QSpinLock.Queue

/-!
# Mutual exclusion of the queued spin lock

The `locked` byte of the word is set exactly while one CPU owns the lock: it holds the guard,
or it stored `locked` as the head of the queue and hands the head over before it returns.
The `pending` byte is set exactly while one CPU owns it, from its `fetch_or` to the store
that clears it.  Both are flags that record a token (`Token.Records`).  Three more facts tie
the bytes to the queue:

* the owner of `pending` about to store `(1, 0)` saw `locked` clear, and no head of the queue
  is past its wait;
* a head past its wait for `(x, 0, 0)` finds `locked` clear, and no owner of `pending` that
  takes the lock through it;
* a head about to exchange the word read it with both bytes clear and with its own `tail`.

`State.Bits` says all this and `State.Good` adds the queue of `State.Queue`.  What one
instruction can do is sorted by its effect (`Move`, `Phase.step_moves`), every kind of move
keeps both invariants (`State.Good.move`), and so in every state of every interleaving at
most one CPU holds the guard (`qSpinLock_exclusive`).
-/

namespace FtlOs

namespace QSpinLock

namespace Phase

/-- A CPU that set `locked`: it holds the guard, or hands the head of the queue over first. -/
def owns : Phase → Bool
  | held | waitNext | passOn _ => true
  | _ => false

/-- A CPU that set `pending` with its `fetch_or` and has not cleared it yet. -/
def ownsPending : Phase → Bool
  | clearPending | waitLocked | takePending => true
  | _ => false

/-- The owner of `pending` that set it over an empty queue and takes the lock through it. -/
def pendingOwner : Phase → Bool
  | waitLocked | takePending => true
  | _ => false

/-- A head of the queue past its wait for `(x, 0, 0)`. -/
def heads : Phase → Bool
  | headCas _ _ | headLock _ => true
  | _ => false

/-- A CPU about to take the lock by a store or an exchange that finds `locked` clear: the
owner of `pending` storing `(1, 0)`, or a head past its wait. -/
def locking : Phase → Bool
  | takePending | headCas _ _ | headLock _ => true
  | _ => false

/-- A phase that owns neither byte and is not about to take the lock. -/
def off (ph : Phase) : Bool := !ph.owns && !ph.ownsPending && !ph.locking

theorem leads_of_heads {ph : Phase} (node : QNode) (heading : ph.heads = true) :
    ph.leads node = true := by
  cases ph <;> simp_all [heads, leads]

theorem ownsPending_of_pendingOwner {ph : Phase} (owner : ph.pendingOwner = true) :
    ph.ownsPending = true := by
  cases ph <;> simp_all [pendingOwner, ownsPending]

theorem locking_of_heads {ph : Phase} (heading : ph.heads = true) : ph.locking = true := by
  cases ph <;> simp_all [heads, locking]

theorem locking_cases {ph : Phase} (lockingPh : ph.locking = true) :
    ph = takePending ∨ ph.heads = true := by
  cases ph <;> simp_all [locking, heads]

theorem locking_eq_false_of_owns {ph : Phase} (owning : ph.owns = true) :
    ph.locking = false := by
  cases ph <;> simp_all [owns, locking]

theorem heads_eq_false_of_pendingOwner {ph : Phase} (owner : ph.pendingOwner = true) :
    ph.heads = false := by
  cases ph <;> simp_all [pendingOwner, heads]

theorem queued_of_linking {ph : Phase} (linkingPh : ph.linking = true) : ph.queued = true := by
  cases ph <;> simp_all [linking, queued]

/-- Two phases in the same relation to the bytes of the word: a move from `old` to `ph` that
changes neither byte keeps `State.Bits`. -/
structure SameBits (old ph : Phase) : Prop where
  owns : ph.owns = old.owns
  ownsPending : ph.ownsPending = old.ownsPending
  pendingOwner : ph.pendingOwner = old.pendingOwner
  heads : ph.heads = old.heads
  taking : ph = takePending → old = takePending
  casRead : ∀ qval next, ph = headCas qval next → old = headCas qval next

end Phase

/-- What one instruction of CPU `i` does to its phase, the word and the nodes, sorted by what
the invariant sees of it. -/
inductive Move (i : Cpu) : Phase → QVal → (Cpu → QNode) → Phase × QVal × (Cpu → QNode) → Prop
  /-- a load, a failed exchange, or a `fetch_or` of a set `pending`, which leave the word
  and the nodes as they are -/
  | quiet {old ph : Phase} {w : QVal} {n : Cpu → QNode} (sameQueue : old.SameQueue ph (n i))
      (sameBits : old.SameBits ph) : Move i old w n (ph, w, n)
  /-- `obtain_lock_fast` or `try_obtain_lock` exchanging the free word -/
  | grabFree {old : Phase} {n : Cpu → QNode} (trying : old = .fast ∨ old = .tryCas) :
      Move i old .free n (.held, .taken, n)
  /-- a `fetch_or` that set `pending` over a queue: its CPU clears it again -/
  | claimPending {w : QVal} {n : Cpu → QNode} (clear : w.pending = false) (busy : w.tail ≠ 0) :
      Move i .setPending w n (.clearPending, { w with pending := true }, n)
  /-- a `fetch_or` that set `pending` over an empty queue: its CPU takes the lock through it -/
  | ownPending {w : QVal} {n : Cpu → QNode} {ph : Phase} (clear : w.pending = false)
      (empty : w.tail = 0) (waits : ph = .waitLocked ∨ ph = .takePending ∧ w.locked = false) :
      Move i .setPending w n (ph, { w with pending := true }, n)
  | clearPending {w : QVal} {n : Cpu → QNode} :
      Move i .clearPending w n (.initNode, { w with pending := false }, n)
  /-- the owner of `pending` seeing `locked` clear -/
  | takeTurn {w : QVal} {n : Cpu → QNode} (unlocked : w.locked = false) :
      Move i .waitLocked w n (.takePending, w, n)
  | takePending {w : QVal} {n : Cpu → QNode} :
      Move i .takePending w n (.held, { w with locked := true, pending := false }, n)
  | initNode {w : QVal} {n : Cpu → QNode} :
      Move i .initNode w n (.tryLoad, w, Function.update n i .empty)
  | swapTail {w : QVal} {n : Cpu → QNode} :
      Move i .swapTail w n (if w.tail ≠ 0 then .link (decodeTail w.tail) else .headWait none,
        { w with tail := encodeTail i }, n)
  | link {p : Cpu} {w : QVal} {n : Cpu → QNode} :
      Move i (.link p) w n (.waitNode, w, Function.update n p { n p with next := some i })
  /-- the head seeing `(x, 0, 0)` -/
  | enterHead {next : Option Cpu} {w : QVal} {n : Cpu → QNode} {ph : Phase}
      (clear : w.locked = false ∧ w.pending = false)
      (enters : ph = .headCas w next ∧ w.tail = encodeTail i ∨ ph = .headLock next) :
      Move i (.headWait next) w n (ph, w, n)
  /-- the head exchanging the word it read -/
  | grabQueue {qval : QVal} {next : Option Cpu} {n : Cpu → QNode} :
      Move i (.headCas qval next) qval n (.held, .taken, n)
  | headLock {next : Option Cpu} {w : QVal} {n : Cpu → QNode} :
      Move i (.headLock next) w n (next.elim .waitNext .passOn, { w with locked := true }, n)
  | passOn {c : Cpu} {w : QVal} {n : Cpu → QNode} :
      Move i (.passOn c) w n (.held, w, Function.update n c { n c with locked := true })
  /-- the guard's drop -/
  | release {w : QVal} {n : Cpu → QNode} :
      Move i .held w n (.idle, { w with locked := false }, n)

namespace Phase

/-- Two phases outside the queue, the second one not between `node.init()` and the swap. -/
theorem sameQueue_of_outside {old ph : Phase} (oldOut : old.queued = false)
    (phOut : ph.queued = false) (plain : ph.fresh = false) (node : QNode) :
    old.SameQueue ph node := by
  -- a phase outside the queue neither leads it nor links into it
  have outside : ∀ {p : Phase}, p.queued = false → p.leads node = false ∧ p.linking = false := by
    intro p out
    constructor
    · cases leading : p.leads node
      · rfl
      · rw [queued_of_leads leading] at out
        cases out
    · cases linkingP : p.linking
      · rfl
      · rw [queued_of_linking linkingP] at out
        cases out
  refine ⟨by rw [oldOut, phOut], by rw [(outside oldOut).1, (outside phOut).1],
    ⟨(outside phOut).2, (outside oldOut).2⟩, fun c holding => ?_, fun isFresh => ?_⟩
  · have leading := leads_of_localNext node holding
    rw [(outside phOut).1] at leading
    cases leading
  · rw [plain] at isFresh
    cases isFresh

theorem off_parts {ph : Phase} (isOff : ph.off = true) :
    ph.owns = false ∧ ph.ownsPending = false ∧ ph.pendingOwner = false ∧ ph.heads = false ∧
      ph ≠ takePending ∧ ∀ qval next, ph ≠ headCas qval next := by
  cases ph <;> simp_all [off, owns, ownsPending, locking, pendingOwner, heads]

/-- Two phases that own no byte and are not about to take the lock. -/
theorem sameBits_of_off {old ph : Phase} (oldOff : old.off = true) (phOff : ph.off = true) :
    old.SameBits ph := by
  obtain ⟨ownsOld, ownsPendingOld, pendingOwnerOld, headsOld, -, -⟩ := off_parts oldOff
  obtain ⟨ownsPh, ownsPendingPh, pendingOwnerPh, headsPh, notTaking, notCas⟩ := off_parts phOff
  exact ⟨by rw [ownsOld, ownsPh], by rw [ownsPendingOld, ownsPendingPh],
    by rw [pendingOwnerOld, pendingOwnerPh], by rw [headsOld, headsPh],
    fun taking => absurd taking notTaking,
    fun qval next reading => absurd reading (notCas qval next)⟩

/-- A CPU in `lock` before it sets `pending`, takes the word or swaps `tail`, or an idle one. -/
def early : Phase → Bool
  | idle | fast | transit _ | setPending | initNode => true
  | _ => false

theorem afterRead_early (qval : QVal) : (afterRead qval).early = true := by
  unfold afterRead
  split <;> rfl

theorem early_parts {ph : Phase} (isEarly : ph.early = true) :
    ph.queued = false ∧ ph.fresh = false ∧ ph.off = true := by
  cases ph <;> simp_all [early, queued, fresh, off, owns, ownsPending, locking]

theorem sameQueue_refl (ph : Phase) (node : QNode) (notLinking : ph.linking = false) :
    ph.SameQueue ph node :=
  ⟨rfl, rfl, ⟨notLinking, notLinking⟩, fun _ kept => .inl kept, id⟩

theorem sameBits_refl (ph : Phase) : ph.SameBits ph :=
  ⟨rfl, rfl, rfl, rfl, id, fun _ _ => id⟩

end Phase

/-- A move between two phases before the queue and the bytes. -/
theorem Move.early {i : Cpu} {old ph : Phase} {w : QVal} {n : Cpu → QNode}
    (oldEarly : old.early = true) (phEarly : ph.early = true) : Move i old w n (ph, w, n) := by
  obtain ⟨oldOut, -, oldOff⟩ := Phase.early_parts oldEarly
  obtain ⟨phOut, phPlain, phOff⟩ := Phase.early_parts phEarly
  exact .quiet (Phase.sameQueue_of_outside oldOut phOut phPlain (n i))
    (Phase.sameBits_of_off oldOff phOff)

/-- A wait that reads again. -/
theorem Move.stay {i : Cpu} {ph : Phase} {w : QVal} {n : Cpu → QNode}
    (notLinking : ph.linking = false) : Move i ph w n (ph, w, n) :=
  .quiet (Phase.sameQueue_refl ph (n i) notLinking) (Phase.sameBits_refl ph)

namespace Phase

/-- Every instruction is one of the moves. -/
theorem step_moves (i : Cpu) (old : Phase) (w : QVal) (n : Cpu → QNode) :
    Move i old w n (old.step i w n) := by
  cases old with
  | idle => exact .stay rfl
  | fast =>
    simp only [step]
    split_ifs with free
    · subst free
      exact .grabFree (.inl rfl)
    · exact .early rfl rfl
    · exact .early rfl (afterRead_early w)
  | transit k =>
    simp only [step]
    split_ifs
    · exact .early rfl (afterRead_early w)
    · exact .early rfl rfl
  | setPending =>
    simp only [step]
    by_cases pending : w.pending
    · -- `pending` was set already: the word stays as it was
      have same : { w with pending := true } = w := by
        cases w
        simp_all
      simp only [pending, Bool.true_or, if_true, same]
      exact .early rfl rfl
    · have clear : w.pending = false := by simpa using pending
      simp only [clear, Bool.false_or, Bool.false_eq_true, if_false, decide_eq_true_eq]
      split_ifs with busy locked
      · exact .claimPending clear busy
      · exact .ownPending clear (by simpa using busy) (.inl rfl)
      · exact .ownPending clear (by simpa using busy) (.inr ⟨rfl, by simpa using locked⟩)
  | clearPending => exact .clearPending
  | waitLocked =>
    simp only [step]
    split_ifs with locked
    · exact .stay rfl
    · exact .takeTurn (by simpa using locked)
  | takePending => exact .takePending
  | initNode => exact .initNode
  | tryLoad =>
    simp only [step]
    split_ifs
    all_goals
      exact .quiet ⟨rfl, rfl, ⟨rfl, rfl⟩, by simp [localNext], fun _ => rfl⟩
        (sameBits_of_off rfl rfl)
  | tryCas =>
    simp only [step]
    split_ifs with free
    · subst free
      exact .grabFree (.inr rfl)
    · exact .quiet ⟨rfl, rfl, ⟨rfl, rfl⟩, by simp [localNext], fun _ => rfl⟩
        (sameBits_of_off rfl rfl)
  | swapTail => exact .swapTail
  | link p => exact .link
  | waitNode =>
    simp only [step]
    split_ifs with locked
    · exact .quiet ⟨rfl, by simp [leads, locked], ⟨rfl, rfl⟩, by simp [localNext],
        fun isFresh => by cases isFresh⟩
        (sameBits_of_off rfl rfl)
    · exact .stay rfl
  | readNext =>
    exact .quiet ⟨rfl, rfl, ⟨rfl, rfl⟩, fun _ named => .inr named,
      fun isFresh => by cases isFresh⟩
      (sameBits_of_off rfl rfl)
  | headWait next =>
    simp only [step]
    split_ifs with busy mine
    · exact .stay rfl
    · exact .enterHead (by simpa using busy) (.inl ⟨rfl, mine⟩)
    · exact .enterHead (by simpa using busy) (.inr rfl)
  | headCas qval next =>
    simp only [step]
    split_ifs with same
    · subst same
      exact .grabQueue
    · exact .quiet ⟨rfl, rfl, ⟨rfl, rfl⟩, fun _ kept => .inl kept,
        fun isFresh => by cases isFresh⟩
        ⟨rfl, rfl, rfl, rfl, fun taking => (by cases taking), fun _ _ reading => by cases reading⟩
  | headLock next =>
    cases next <;> exact .headLock
  | waitNext =>
    simp only [step]
    split
    · next c named =>
      exact .quiet ⟨rfl, rfl, ⟨rfl, rfl⟩,
        fun _ holding => .inr (by simpa [localNext, named] using holding),
        fun isFresh => by cases isFresh⟩
        ⟨rfl, rfl, rfl, rfl, fun taking => (by cases taking), fun _ _ reading => by cases reading⟩
    · exact .stay rfl
  | passOn c => exact .passOn
  | held => exact .release

end Phase

/-! ## The bytes of the word -/

/-- The bytes of the word record the CPUs that set them; a CPU about to take the lock finds
`locked` clear; no head of the queue is past its wait while an owner of `pending` takes the
lock through it; and a head about to exchange the word read it with both bytes clear and its
own `tail`. -/
structure State.Bits (s : State) : Prop where
  locked : Token.Records s.word.locked Phase.owns s.phase
  pending : Token.Records s.word.pending Phase.ownsPending s.phase
  locking : ∀ i, (s.phase i).locking = true → s.word.locked = false
  apart : ∀ i j, (s.phase i).pendingOwner = true → (s.phase j).heads = false
  casRead : ∀ i qval next, s.phase i = .headCas qval next →
    qval.locked = false ∧ qval.pending = false ∧ qval.tail = encodeTail i

theorem bits_init : State.init.Bits where
  locked := ⟨by simp [State.init, QVal.free, Phase.owns],
    fun _ _ owner => by simp [State.init, Phase.owns] at owner⟩
  pending := ⟨by simp [State.init, QVal.free, Phase.ownsPending],
    fun _ _ owner => by simp [State.init, Phase.ownsPending] at owner⟩
  locking _ taking := by simp [State.init, Phase.locking] at taking
  apart _ _ owner := by simp [State.init, Phase.pendingOwner] at owner
  casRead _ _ _ reading := by simp [State.init] at reading

section Bits

variable {s : State} {i : Cpu} {old ph : Phase} {w : QVal} {n : Cpu → QNode}

/-- A move that sets no `locked` keeps the bits, when the bytes after it record their owners,
and a new taker or head saw what it must. -/
theorem State.Bits.quiet (bits : s.Bits) (was : s.phase i = old)
    (locked : Token.Records w.locked Phase.owns (Function.update s.phase i ph))
    (keepsLock : w.locked = true → s.word.locked = true)
    (pending : Token.Records w.pending Phase.ownsPending (Function.update s.phase i ph))
    (locking : ph.locking = true → old.locking = true ∨ s.word.locked = false)
    (pendingOwner : ph.pendingOwner = true →
      old.pendingOwner = true ∨ ∀ j, (s.phase j).heads = false)
    (heads : ph.heads = true → old.heads = true ∨ ∀ j, (s.phase j).pendingOwner = false)
    (casRead : ∀ qval next, ph = .headCas qval next → old = .headCas qval next ∨
      qval.locked = false ∧ qval.pending = false ∧ qval.tail = encodeTail i) :
    (⟨w, n, Function.update s.phase i ph⟩ : State).Bits := by
  subst was
  refine ⟨locked, pending, fun j taking => ?_, fun j k owner => ?_,
    fun j qval next reading => ?_⟩
  · -- `locked` was clear, and the move does not set it
    have before : s.word.locked = false := by
      by_cases here : j = i
      · subst here
        rcases locking (by simpa using taking) with old | fresh
        · exact bits.locking j old
        · exact fresh
      · exact bits.locking j (by simpa [Function.update_of_ne here] using taking)
    cases lockedNow : w.locked
    · rfl
    · rw [keepsLock lockedNow] at before
      cases before
  · -- an owner of `pending` and a head: one of them may be the moving CPU
    by_cases ownerMoved : j = i
    · subst ownerMoved
      have phOwner : ph.pendingOwner = true := by simpa using owner
      by_cases here : k = j
      · subst here
        simpa using Phase.heads_eq_false_of_pendingOwner phOwner
      · simp only [Function.update_of_ne here]
        rcases pendingOwner phOwner with old | noHead
        · exact bits.apart j k old
        · exact noHead k
    · have oldOwner : (s.phase j).pendingOwner = true := by
        simpa [Function.update_of_ne ownerMoved] using owner
      by_cases here : k = i
      · subst here
        simp only [Function.update_self]
        cases headsNow : ph.heads
        · rfl
        · rcases heads headsNow with old | noOwner
          · rw [bits.apart j k oldOwner] at old
            cases old
          · rw [noOwner j] at oldOwner
            cases oldOwner
      · simp only [Function.update_of_ne here]
        exact bits.apart j k oldOwner
  · by_cases here : j = i
    · subst here
      rcases casRead qval next (by simpa using reading) with old | fresh
      · exact bits.casRead j qval next old
      · exact fresh
    · exact bits.casRead j qval next (by simpa [Function.update_of_ne here] using reading)

/-- A move that changes neither byte, between phases in the same relation to them. -/
theorem State.Bits.same (bits : s.Bits) (was : s.phase i = old) (same : old.SameBits ph)
    (sameLocked : w.locked = s.word.locked) (samePending : w.pending = s.word.pending) :
    (⟨w, n, Function.update s.phase i ph⟩ : State).Bits := by
  have locked : Token.Records w.locked Phase.owns (Function.update s.phase i ph) := by
    rw [sameLocked]
    exact bits.locked.keep (by rw [was]; exact same.owns)
  have pending : Token.Records w.pending Phase.ownsPending (Function.update s.phase i ph) := by
    rw [samePending]
    exact bits.pending.keep (by rw [was]; exact same.ownsPending)
  refine bits.quiet was locked (fun lockedNow => sameLocked ▸ lockedNow) pending
    (fun lockingPh => .inl ?_) (fun owner => .inl (same.pendingOwner ▸ owner))
    (fun heading => .inl (same.heads ▸ heading))
    (fun qval next reading => .inl (same.casRead qval next reading))
  rcases Phase.locking_cases lockingPh with taking | heading
  · rw [same.taking taking]
    rfl
  · exact Phase.locking_of_heads (same.heads ▸ heading)

/-- A CPU takes the lock while no CPU owns it and no other CPU is about to take it. -/
theorem State.Bits.acquire (bits : s.Bits) (unlocked : s.word.locked = false)
    (owning : ph.owns = true) (taken : w.locked = true)
    (pending : Token.Records w.pending Phase.ownsPending (Function.update s.phase i ph))
    (noLocking : ∀ j, j ≠ i → (s.phase j).locking = false) :
    (⟨w, n, Function.update s.phase i ph⟩ : State).Bits := by
  -- after the move no CPU is about to take the lock
  have noLockingAfter : ∀ j, (Function.update s.phase i ph j).locking = false := by
    intro j
    by_cases here : j = i
    · subst here
      simpa using Phase.locking_eq_false_of_owns owning
    · rw [Function.update_of_ne here]
      exact noLocking j here
  refine ⟨by rw [taken]; exact bits.locked.take unlocked owning, pending,
    fun j taking => ?_, fun j k _ => ?_, fun j qval next reading => ?_⟩
  · dsimp only at taking
    rw [noLockingAfter j] at taking
    cases taking
  · dsimp only
    cases heading : (Function.update s.phase i ph k).heads
    · rfl
    · have none := noLockingAfter k
      rw [Phase.locking_of_heads heading] at none
      cases none
  · dsimp only at reading
    have none := noLockingAfter j
    rw [reading] at none
    cases none

end Bits

/-! ## The invariant -/

/-- The invariant of the lock: the CPUs past their swap of `tail` form a queue, and the bytes of
the word agree with the CPUs. -/
structure State.Good (s : State) : Prop where
  queue : ∃ Q, s.Queue Q
  bits : s.Bits

theorem good_init : State.init.Good := ⟨⟨[], queue_init⟩, bits_init⟩

section Good

variable {s : State} {Q : List Cpu}

/-- With no tail, no CPU heads the queue. -/
theorem State.Queue.not_heads (queue : s.Queue Q) (empty : s.word.tail = 0) (j : Cpu) :
    (s.phase j).heads = false := by
  cases heading : (s.phase j).heads
  · rfl
  · have first := queue.first (Phase.leads_of_heads (s.nodes j) heading)
    rw [queue.tail_eq_zero.mp empty] at first
    cases first

/-- With no tail and `pending` clear, no CPU is about to take the lock. -/
theorem State.Bits.not_locking (bits : s.Bits) (queue : s.Queue Q) (empty : s.word.tail = 0)
    (clear : s.word.pending = false) (j : Cpu) : (s.phase j).locking = false := by
  cases lockingJ : (s.phase j).locking
  · rfl
  · rcases Phase.locking_cases lockingJ with taking | heading
    · have owner := bits.pending.not_holds clear j
      rw [taking] at owner
      cases owner
    · rw [queue.not_heads empty j] at heading
      cases heading

/-- Past its wait, a head of the queue is the only CPU about to take the lock. -/
theorem State.Bits.not_locking_of_heads (bits : s.Bits) (queue : s.Queue Q) {i : Cpu}
    (heading : (s.phase i).heads = true) (j : Cpu) (other : j ≠ i) :
    (s.phase j).locking = false := by
  cases lockingJ : (s.phase j).locking
  · rfl
  · rcases Phase.locking_cases lockingJ with taking | headingJ
    · have apart := bits.apart j i (by rw [taking]; rfl)
      rw [heading] at apart
      cases apart
    · have firstJ := queue.first (Phase.leads_of_heads (s.nodes j) headingJ)
      have firstI := queue.first (Phase.leads_of_heads (s.nodes i) heading)
      exact absurd (Option.some.inj (firstJ.symm.trans firstI)) other

/-- The owner of `pending` that takes the lock through it is the only CPU about to take it. -/
theorem State.Bits.not_locking_of_pendingOwner (bits : s.Bits) {i : Cpu}
    (owner : (s.phase i).pendingOwner = true) (j : Cpu) (other : j ≠ i) :
    (s.phase j).locking = false := by
  cases lockingJ : (s.phase j).locking
  · rfl
  · rcases Phase.locking_cases lockingJ with taking | heading
    · exact absurd (bits.pending.one j i (by rw [taking]; rfl)
        (Phase.ownsPending_of_pendingOwner owner)) other
    · rw [bits.apart i j owner] at heading
      cases heading

/-- Every move keeps a queue. -/
theorem State.Queue.move (queue : s.Queue Q) (bits : s.Bits) {i : Cpu} {ph : Phase} {w : QVal}
    {n : Cpu → QNode} (moves : Move i (s.phase i) s.word s.nodes (ph, w, n)) :
    ∃ Q', (⟨w, n, Function.update s.phase i ph⟩ : State).Queue Q' := by
  generalize was : s.phase i = old at moves
  generalize sameWord : s.word = word at moves
  generalize sameNodes : s.nodes = nodes at moves
  cases moves with
  | quiet sameQueue _ =>
    subst sameWord sameNodes
    exact ⟨Q, queue.quiet was sameQueue rfl⟩
  | grabFree trying =>
    subst sameNodes
    have outside : old.queued = false := by rcases trying with rfl | rfl <;> rfl
    exact ⟨Q, queue.quiet was (Phase.sameQueue_of_outside outside rfl rfl _)
      (by rw [sameWord]; rfl)⟩
  | claimPending =>
    subst sameWord sameNodes
    exact ⟨Q, queue.quiet was (Phase.sameQueue_of_outside rfl rfl rfl _) rfl⟩
  | ownPending _ _ waits =>
    subst sameWord sameNodes
    rcases waits with rfl | ⟨rfl, -⟩
    all_goals exact ⟨Q, queue.quiet was (Phase.sameQueue_of_outside rfl rfl rfl _) rfl⟩
  | clearPending | takeTurn _ | takePending | release =>
    subst sameWord sameNodes
    exact ⟨Q, queue.quiet was (Phase.sameQueue_of_outside rfl rfl rfl _) rfl⟩
  | initNode =>
    subst sameWord sameNodes
    exact ⟨Q, queue.initNode was⟩
  | swapTail =>
    subst sameWord sameNodes
    exact ⟨Q ++ [i], queue.swapTail was⟩
  | link =>
    subst sameWord sameNodes
    exact ⟨Q, queue.link was⟩
  | enterHead _ enters =>
    subst sameWord sameNodes
    rcases enters with ⟨rfl, -⟩ | rfl
    all_goals exact ⟨Q, queue.quiet was ⟨rfl, rfl, ⟨rfl, rfl⟩, fun _ kept => .inl kept, nofun⟩ rfl⟩
  | grabQueue =>
    subst sameNodes
    -- the head read its own `tail`: it is alone in the queue, which the exchange empties
    have mine : s.word.tail = encodeTail i := by
      rw [sameWord]
      exact (bits.casRead i _ _ was).2.2
    obtain ⟨-, emptied⟩ := queue.empty (by rw [was]; rfl) mine
      (show QVal.taken.tail = 0 from rfl) (show Phase.held.queued = false from rfl) rfl rfl
    exact ⟨[], emptied⟩
  | headLock =>
    subst sameWord sameNodes
    rename_i next
    have same : (Phase.headLock next).SameQueue (next.elim .waitNext .passOn) (s.nodes i) := by
      cases next <;> exact ⟨rfl, rfl, ⟨rfl, rfl⟩, fun _ kept => .inl kept, nofun⟩
    exact ⟨Q, queue.quiet was same rfl⟩
  | passOn =>
    subst sameWord sameNodes
    obtain ⟨rest, -, after⟩ := queue.passOn was
    exact ⟨rest, after⟩

/-- Every move keeps the bits. -/
theorem State.Bits.move (bits : s.Bits) (queue : s.Queue Q) {i : Cpu} {ph : Phase} {w : QVal}
    {n : Cpu → QNode} (moves : Move i (s.phase i) s.word s.nodes (ph, w, n)) :
    (⟨w, n, Function.update s.phase i ph⟩ : State).Bits := by
  generalize was : s.phase i = old at moves
  generalize sameWord : s.word = word at moves
  cases moves with
  | quiet _ sameBits =>
    subst sameWord
    exact bits.same was sameBits rfl rfl
  | grabFree trying =>
    have outside : old.ownsPending = false := by rcases trying with rfl | rfl <;> rfl
    have clear : s.word.pending = false := by rw [sameWord]; rfl
    have pending : Token.Records QVal.taken.pending Phase.ownsPending
        (Function.update s.phase i .held) := by
      rw [show QVal.taken.pending = s.word.pending by rw [clear]; rfl]
      exact bits.pending.keep (by rw [was, outside]; rfl)
    exact bits.acquire (by rw [sameWord]; rfl) rfl rfl pending
      (fun j _ => bits.not_locking queue (by rw [sameWord]; rfl) clear j)
  | claimPending clear _ =>
    subst sameWord
    exact bits.quiet was (bits.locked.keep (by rw [was]; rfl)) id (bits.pending.take clear rfl)
      nofun nofun nofun (fun _ _ => nofun)
  | ownPending clear empty waits =>
    subst sameWord
    -- over an empty queue nobody heads it
    have noHead := queue.not_heads empty
    rcases waits with rfl | ⟨rfl, unlocked⟩
    · exact bits.quiet was (bits.locked.keep (by rw [was]; rfl)) id
        (bits.pending.take clear rfl) nofun (fun _ => .inr noHead) nofun (fun _ _ => nofun)
    · exact bits.quiet was (bits.locked.keep (by rw [was]; rfl)) id
        (bits.pending.take clear rfl) (fun _ => .inr unlocked) (fun _ => .inr noHead) nofun
        (fun _ _ => nofun)
  | clearPending =>
    subst sameWord
    exact bits.quiet was (bits.locked.keep (by rw [was]; rfl)) id
      (bits.pending.give (by rw [was]; rfl) rfl) nofun nofun nofun (fun _ _ => nofun)
  | takeTurn unlocked =>
    subst sameWord
    exact bits.quiet was (bits.locked.keep (by rw [was]; rfl)) id
      (bits.pending.keep (by rw [was]; rfl)) (fun _ => .inr unlocked) (fun _ => .inl rfl) nofun
      (fun _ _ => nofun)
  | takePending =>
    subst sameWord
    have owner : (s.phase i).pendingOwner = true := by rw [was]; rfl
    exact bits.acquire (bits.locking i (by rw [was]; rfl)) rfl rfl
      (bits.pending.give (Phase.ownsPending_of_pendingOwner owner) rfl)
      (bits.not_locking_of_pendingOwner owner)
  | initNode | link =>
    subst sameWord
    exact bits.same was (Phase.sameBits_of_off rfl rfl) rfl rfl
  | swapTail =>
    subst sameWord
    exact bits.same was (Phase.sameBits_of_off rfl (by split <;> rfl)) rfl rfl
  | enterHead clear enters =>
    subst sameWord
    -- `pending` was clear: nobody owns it
    have noOwner : ∀ j, (s.phase j).pendingOwner = false := by
      intro j
      cases owner : (s.phase j).pendingOwner
      · rfl
      · have none := bits.pending.not_holds clear.2 j
        rw [Phase.ownsPending_of_pendingOwner owner] at none
        cases none
    rcases enters with ⟨rfl, mine⟩ | rfl
    · refine bits.quiet was (bits.locked.keep (by rw [was]; rfl)) id
        (bits.pending.keep (by rw [was]; rfl)) (fun _ => .inr clear.1) nofun
        (fun _ => .inr noOwner) (fun qval next reading => .inr ?_)
      cases reading
      exact ⟨clear.1, clear.2, mine⟩
    · exact bits.quiet was (bits.locked.keep (by rw [was]; rfl)) id
        (bits.pending.keep (by rw [was]; rfl)) (fun _ => .inr clear.1) nofun
        (fun _ => .inr noOwner) (fun _ _ => nofun)
  | grabQueue =>
    have read := bits.casRead i _ _ was
    have pending : Token.Records QVal.taken.pending Phase.ownsPending
        (Function.update s.phase i .held) := by
      rw [show QVal.taken.pending = s.word.pending by rw [sameWord, read.2.1]; rfl]
      exact bits.pending.keep (by rw [was]; rfl)
    exact bits.acquire (by rw [sameWord]; exact read.1) rfl rfl pending
      (bits.not_locking_of_heads queue (by rw [was]; rfl))
  | headLock =>
    subst sameWord
    rename_i next
    exact bits.acquire (bits.locking i (by rw [was]; rfl)) (by cases next <;> rfl) rfl
      (bits.pending.keep (by rw [was]; cases next <;> rfl))
      (bits.not_locking_of_heads queue (by rw [was]; rfl))
  | passOn =>
    subst sameWord
    exact bits.same was ⟨rfl, rfl, rfl, rfl, nofun, fun _ _ => nofun⟩ rfl rfl
  | release =>
    subst sameWord
    exact bits.quiet was (bits.locked.give (by rw [was]; rfl) rfl) nofun
      (bits.pending.keep (by rw [was]; rfl)) nofun nofun nofun (fun _ _ => nofun)

theorem State.Good.move (good : s.Good) {i : Cpu} {ph : Phase} {w : QVal} {n : Cpu → QNode}
    (moves : Move i (s.phase i) s.word s.nodes (ph, w, n)) :
    (⟨w, n, Function.update s.phase i ph⟩ : State).Good := by
  obtain ⟨⟨Q, queue⟩, bits⟩ := good
  exact ⟨queue.move bits moves, bits.move queue moves⟩

/-- Every step of every CPU keeps the invariant. -/
theorem State.Good.step {s' : State} (good : s.Good) (step : Step s s') : s'.Good := by
  cases step with
  | begin i idle => exact good.move (Move.early (by rw [idle]; rfl) rfl)
  | atomic i ran =>
    have moves := Phase.step_moves i (s.phase i) s.word s.nodes
    rw [ran] at moves
    exact good.move moves

theorem good_of_reachable (reach : Reachable s) : s.Good := by
  induction reach with
  | refl => exact good_init
  | tail _ step good => exact good.step step

end Good

/-- In every state of every interleaving at most one CPU holds the guard. -/
theorem qSpinLock_exclusive {s : State} (reach : Reachable s) {i j : Cpu}
    (holdingI : s.phase i = .held) (holdingJ : s.phase j = .held) : i = j :=
  (good_of_reachable reach).bits.locked.one i j (by rw [holdingI]; rfl) (by rw [holdingJ]; rfl)

theorem qSpinLock_exclusive_after_lock :
    ∃ s : State, Reachable s ∧ s.phase 0 = .held ∧ (0 : Cpu) = 0 := by
  have run : Reachable _ :=
    (Relation.ReflTransGen.single (Step.begin 0 rfl)).tail (Step.atomic 0 rfl)
  exact ⟨_, run, rfl, qSpinLock_exclusive run rfl rfl⟩

/-! ## The lock it implements -/

/-- The CPU that owns the lock: it set `locked` and has not dropped its guard yet. -/
def State.holder (s : State) : Option Cpu := Token.holder Phase.owns s.phase

/-- A step moves one CPU. -/
theorem Step.moves_one {s s' : State} (step : Step s s') :
    ∃ i ph, s'.phase = Function.update s.phase i ph := by
  cases step with
  | begin i _ => exact ⟨i, _, rfl⟩
  | atomic i _ => exact ⟨i, _, rfl⟩

/-- The queued spin lock implements a lock: in every interleaving each step leaves the owner
as it is, takes the lock while nobody owns it, or gives the owner's lock back. -/
theorem qSpinLock_refines {s s' : State} (reach : Reachable s) (step : Step s s') :
    s'.holder = s.holder ∨ Token.Pass s.holder s'.holder := by
  obtain ⟨i, ph, moved⟩ := step.moves_one
  have before := (good_of_reachable reach).bits.locked
  have after := (good_of_reachable (reach.tail step)).bits.locked
  rw [moved] at after
  simp only [State.holder, moved]
  exact Token.holder_update before after

/-- CPU `0` holds the lock, `1` owns `pending`, and `2` and `3` queue behind them; then `0`
releases the lock. -/
theorem qSpinLock_refines_contended :
    Reachable (State.init.run [0, 0, 1, 1, 1, 2, 2, 2, 2, 2, 3, 3, 3, 3, 3, 3]) ∧
      Step (State.init.run [0, 0, 1, 1, 1, 2, 2, 2, 2, 2, 3, 3, 3, 3, 3, 3])
        ((State.init.run [0, 0, 1, 1, 1, 2, 2, 2, 2, 2, 3, 3, 3, 3, 3, 3]).act 0) ∧
      (((State.init.run [0, 0, 1, 1, 1, 2, 2, 2, 2, 2, 3, 3, 3, 3, 3, 3]).act 0).holder =
          (State.init.run [0, 0, 1, 1, 1, 2, 2, 2, 2, 2, 3, 3, 3, 3, 3, 3]).holder ∨
        Token.Pass (State.init.run [0, 0, 1, 1, 1, 2, 2, 2, 2, 2, 3, 3, 3, 3, 3, 3]).holder
          ((State.init.run [0, 0, 1, 1, 1, 2, 2, 2, 2, 2, 3, 3, 3, 3, 3, 3]).act 0).holder) :=
  ⟨reachable_run _, Step.act _ 0, qSpinLock_refines (reachable_run _) (Step.act _ 0)⟩

/-- The `locked` byte says whether some CPU owns the lock, and a CPU with a guard is its
owner. -/
theorem qSpinLock_locked_owner {s : State} (reach : Reachable s) :
    s.word.locked = s.holder.isSome ∧ ∀ i, s.phase i = .held → s.holder = some i := by
  have locked := (good_of_reachable reach).bits.locked
  exact ⟨locked.flag_eq_isSome, fun i holding => locked.holder_eq_some (by rw [holding]; rfl)⟩

/-- CPU `0` holds the lock while `1` owns `pending` and `2` and `3` queue. -/
theorem qSpinLock_locked_owner_contended :
    Reachable (State.init.run [0, 0, 1, 1, 1, 2, 2, 2, 2, 2, 3, 3, 3, 3, 3, 3]) ∧
      (State.init.run [0, 0, 1, 1, 1, 2, 2, 2, 2, 2, 3, 3, 3, 3, 3, 3]).phase 0 = .held ∧
      ((State.init.run [0, 0, 1, 1, 1, 2, 2, 2, 2, 2, 3, 3, 3, 3, 3, 3]).word.locked =
          (State.init.run [0, 0, 1, 1, 1, 2, 2, 2, 2, 2, 3, 3, 3, 3, 3, 3]).holder.isSome ∧
        ∀ i, (State.init.run [0, 0, 1, 1, 1, 2, 2, 2, 2, 2, 3, 3, 3, 3, 3, 3]).phase i = .held →
          (State.init.run [0, 0, 1, 1, 1, 2, 2, 2, 2, 2, 3, 3, 3, 3, 3, 3]).holder = some i) :=
  ⟨reachable_run _, by decide, qSpinLock_locked_owner (reachable_run _)⟩

/-- The head's store into its successor's flag reaches a CPU that waits for it: in the queue
of CPUs that swapped `tail`, the head stands first and the successor right behind it, in its
wait for `node.locked`, with its flag still clear. -/
theorem qSpinLock_passOn_waiting {s : State} (reach : Reachable s) {i c : Cpu}
    (passing : s.phase i = .passOn c) :
    ∃ Q, s.Queue Q ∧ Q[0]? = some i ∧ Q[1]? = some c ∧
      s.phase c = .waitNode ∧ (s.nodes c).locked = false := by
  obtain ⟨Q, queue⟩ := (good_of_reachable reach).queue
  exact ⟨Q, queue, queue.passOn_target passing⟩

/-- CPU `0` takes the lock, `1` owns `pending`, `2` and `3` queue; then `0` and `1` are done
and `2`, the head, hands over to `3`. -/
theorem qSpinLock_passOn_waiting_contended :
    Reachable (State.init.run [0, 0, 1, 1, 1, 2, 2, 2, 2, 2, 3, 3, 3, 3, 3, 3, 0, 1, 1, 1, 2, 2, 2]) ∧
      (State.init.run [0, 0, 1, 1, 1, 2, 2, 2, 2, 2, 3, 3, 3, 3, 3, 3, 0, 1, 1, 1, 2, 2, 2]).phase 2 =
        .passOn 3 ∧
      ∃ Q, (State.init.run [0, 0, 1, 1, 1, 2, 2, 2, 2, 2, 3, 3, 3, 3, 3, 3, 0, 1, 1, 1, 2, 2, 2]).Queue
          Q ∧ Q[0]? = some 2 ∧ Q[1]? = some 3 ∧
        (State.init.run [0, 0, 1, 1, 1, 2, 2, 2, 2, 2, 3, 3, 3, 3, 3, 3, 0, 1, 1, 1, 2, 2, 2]).phase 3 =
          .waitNode ∧ ((State.init.run
            [0, 0, 1, 1, 1, 2, 2, 2, 2, 2, 3, 3, 3, 3, 3, 3, 0, 1, 1, 1, 2, 2, 2]).nodes 3).locked =
              false :=
  ⟨reachable_run _, by decide, qSpinLock_passOn_waiting (reachable_run _) (i := 2) (by decide)⟩

/-- A CPU links itself behind a CPU of the queue whose node names no successor yet: the write
of `prev.next` never overwrites a link. -/
theorem qSpinLock_link_unlinked {s : State} (reach : Reachable s) {i p : Cpu}
    (linking : s.phase i = .link p) : (s.phase p).queued = true ∧ (s.nodes p).next = none := by
  obtain ⟨Q, queue⟩ := (good_of_reachable reach).queue
  obtain ⟨k, atK, -, unlinked⟩ := queue.behind_of_link linking
  exact ⟨(queue.queued p).mp (List.mem_of_getElem? atK), unlinked⟩

/-- CPU `0` takes the lock, `1` owns `pending`, `2` heads the queue and `3` swaps `tail` behind
it. -/
theorem qSpinLock_link_unlinked_contended :
    Reachable (State.init.run [0, 0, 1, 1, 1, 2, 2, 2, 2, 2, 3, 3, 3, 3, 3]) ∧
      (State.init.run [0, 0, 1, 1, 1, 2, 2, 2, 2, 2, 3, 3, 3, 3, 3]).phase 3 = .link 2 ∧
      (((State.init.run [0, 0, 1, 1, 1, 2, 2, 2, 2, 2, 3, 3, 3, 3, 3]).phase 2).queued = true ∧
        ((State.init.run [0, 0, 1, 1, 1, 2, 2, 2, 2, 2, 3, 3, 3, 3, 3]).nodes 2).next = none) :=
  ⟨reachable_run _, by decide, qSpinLock_link_unlinked (reachable_run _) (i := 3) (by decide)⟩

end QSpinLock

end FtlOs
