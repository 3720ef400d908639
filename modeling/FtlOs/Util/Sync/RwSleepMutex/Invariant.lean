import Mathlib
import FtlOs.Util.Sync.RwSleepMutex.Defs

/-!
# What every reachable state of the sleep lock keeps

`status` counts the users that hold the lock (`Status.Counts`), the queues hold
exactly the users that wait in them, each with its waker, every hand-off on its way
has popped a user that waits for it, nobody waits while the lock is free, and a
shared waiter always has a unique holder or a unique waiter ahead of it. Each action
keeps all of it and, from an allowed phase, never reaches a panic.
-/

namespace FtlOs
namespace RwSleepMutex

variable {ι : Type} [DecidableEq ι]

/-! ## Counting the users that hold the lock -/

/-- `1` for a user that `Shared(n)` counts: a shared guard, or a shared future whose
flag is set. -/
def Phase.sharedWeight : Phase ι → Nat
  | .readyShared | .shared => 1
  | _ => 0

/-- `1` for a user that `Unique` counts: a unique guard, a unique future whose flag is
set, or a hand-off on its way. -/
def Phase.uniqueWeight : Phase ι → Nat
  | .readyUnique | .unique | .handOff _ => 1
  | _ => 0

/-- What `status` says of the users that hold the lock. -/
def Status.Counts : Status → Nat → Nat → Prop
  | .unlock, sharedHolders, uniqueHolders => sharedHolders = 0 ∧ uniqueHolders = 0
  | .unique, sharedHolders, uniqueHolders => sharedHolders = 0 ∧ uniqueHolders = 1
  | .shared n, sharedHolders, uniqueHolders => 0 < n ∧ sharedHolders = n ∧ uniqueHolders = 0

section Counting

variable [Fintype ι]

/-- The users holding the lock shared. -/
def State.sharedHolders (s : State ι) : Nat := ∑ k, (s.phase k).sharedWeight

/-- The users holding the lock unique. -/
def State.uniqueHolders (s : State ι) : Nat := ∑ k, (s.phase k).uniqueWeight

/-- Moving one user to another phase moves a count by the difference of its weights. -/
theorem sum_update_add {β : Type} (f : ι → β) (w : β → Nat) (i : ι) (b : β) :
    ∑ k, w (Function.update f i b k) + w (f i) = ∑ k, w (f k) + w b := by
  have pointwise : (fun k => w (Function.update f i b k))
      = Function.update (fun k => w (f k)) i (w b) := by
    funext k
    by_cases here : k = i
    · subst here
      simp
    · simp [Function.update_of_ne here]
  rw [pointwise, Finset.sum_update_of_mem (Finset.mem_univ i),
    Finset.sum_eq_add_sum_sdiff_singleton_of_mem (Finset.mem_univ i) (f := fun k => w (f k))]
  ring

/-- Waking a batch of distinct waiters moves each of them from `waitShared` to
`readyShared`. -/
theorem sum_batch (l : List ι) (nodup : l.Nodup) (phase : ι → Phase ι)
    (waiting : ∀ j ∈ l, phase j = .waitShared) (w : Phase ι → Nat) :
    ∑ k, w (if k ∈ l then .readyShared else phase k) + l.length * w .waitShared
      = ∑ k, w (phase k) + l.length * w .readyShared := by
  have card : (Finset.univ.filter fun k => k ∈ l).card = l.length := by
    rw [← List.toFinset_card_of_nodup nodup]
    congr 1
    ext k
    simp
  have inBatch : ∑ k ∈ Finset.univ.filter (fun k => k ∈ l), w (phase k)
      = l.length * w .waitShared := by
    rw [Finset.sum_congr rfl fun k member => by rw [waiting k (by simpa using member)],
      Finset.sum_const, card, smul_eq_mul]
  simp_rw [apply_ite w]
  rw [Finset.sum_ite, Finset.sum_const, card, smul_eq_mul,
    ← Finset.sum_filter_add_sum_filter_not Finset.univ (fun k => k ∈ l), inBatch]
  ring

end Counting

/-- The batch loop of the drops takes every waker and sets every flag of distinct
waiters that all have their waker. -/
theorem wakeShared_spec (l : List ι) (nodup : l.Nodup) (waker : ι → Bool) (phase : ι → Phase ι)
    (wakers : ∀ j ∈ l, waker j = true) :
    wakeShared l waker phase
      = some (fun k => if k ∈ l then false else waker k,
          fun k => if k ∈ l then .readyShared else phase k) := by
  induction l generalizing waker phase with
  | nil => simp [wakeShared]
  | cons j rest ih =>
    obtain ⟨notRest, nodupRest⟩ := List.nodup_cons.mp nodup
    rw [wakeShared, if_pos (wakers j List.mem_cons_self), ih nodupRest]
    · congr 2 <;> funext k <;> by_cases here : k = j
      all_goals simp [here, notRest, Function.update_of_ne]
    · intro k member
      rw [Function.update_of_ne (fun (same : k = j) => notRest (same ▸ member))]
      exact wakers k (List.mem_cons_of_mem j member)

/-! ## What the drops leave -/

section Drops

variable {s : State ι} {i j : ι} {rest : List ι}

/-- The last shared guard hands the lock to the first unique waiter. -/
theorem dropShared_of_uniqueWaiter (status : s.status = .shared 1) (queue : s.uniqueQ = j :: rest) :
    dropShared i s = some { s with status := .unique, uniqueQ := rest,
                                   phase := Function.update (Function.update s.phase i (.handOff j)) j
                                     .handed } := by
  simp [dropShared, status, Status.sharedCount, queue]

/-- The last shared guard with nobody waiting frees the lock. -/
theorem dropShared_of_empty (status : s.status = .shared 1) (noShared : s.sharedQ = [])
    (noUnique : s.uniqueQ = []) :
    dropShared i s = some { s with status := .unlock, phase := Function.update s.phase i .idle } := by
  simp [dropShared, status, Status.sharedCount, noUnique, noShared, wakeShared]

/-- A shared guard that is not the last one only counts itself out. -/
theorem dropShared_of_others {n : Nat} (status : s.status = .shared (n + 2)) :
    dropShared i s
      = some { s with status := .shared (n + 1), phase := Function.update s.phase i .idle } := by
  simp [dropShared, status, Status.sharedCount]

/-- A unique guard wakes every shared waiter at once. -/
theorem dropUnique_of_sharedWaiters (nodup : s.sharedQ.Nodup)
    (wakers : ∀ j ∈ s.sharedQ, s.waker j = true) (waiting : s.sharedQ ≠ []) :
    dropUnique i s
      = some { s with status := .shared s.sharedQ.length, sharedQ := [],
                      waker := fun k => if k ∈ s.sharedQ then false else s.waker k,
                      phase := Function.update
                        (fun k => if k ∈ s.sharedQ then .readyShared else s.phase k) i .idle } := by
  simp [dropUnique, wakeShared_spec s.sharedQ nodup s.waker s.phase wakers, waiting]

/-- A unique guard with no shared waiter hands the lock to the first unique waiter. -/
theorem dropUnique_of_uniqueWaiter (noShared : s.sharedQ = []) (queue : s.uniqueQ = j :: rest) :
    dropUnique i s = some { s with status := .unique, uniqueQ := rest,
                                   phase := Function.update (Function.update s.phase i (.handOff j)) j
                                     .handed } := by
  simp [dropUnique, noShared, queue, wakeShared]

/-- A unique guard with nobody waiting frees the lock. -/
theorem dropUnique_of_empty (noShared : s.sharedQ = []) (noUnique : s.uniqueQ = []) :
    dropUnique i s = some { s with status := .unlock, phase := Function.update s.phase i .idle } := by
  simp [dropUnique, noShared, noUnique, wakeShared]

end Drops

/-! ## The invariant -/

/-- A user whose node is queued, or popped with its waker still in it. -/
def Phase.queued : Phase ι → Bool
  | .waitShared | .waitUnique | .handed => true
  | _ => false

/-- How one user sits with the queues and its node: queued on `shared` exactly while
it waits shared, on `unique` exactly while it waits unique, and with its waker while
its node is linked or on its way. -/
def State.Placed (s : State ι) (k : ι) : Prop :=
  (k ∈ s.sharedQ ↔ s.phase k = .waitShared) ∧ (k ∈ s.uniqueQ ↔ s.phase k = .waitUnique) ∧
    ((s.phase k).queued → s.waker k = true)

/-- A hand-off on its way, from either end. -/
def Phase.inHandOff : Phase ι → Bool
  | .handed | .handOff _ => true
  | _ => false

/-- Every hand-off on its way has popped a user that waits for it, and the other way. -/
def HandOffs (phase : ι → Phase ι) : Prop :=
  (∀ d j, phase d = .handOff j → phase j = .handed) ∧
    ∀ j, phase j = .handed → ∃ d, phase d = .handOff j

/-- What every reachable state keeps. -/
structure State.Good [Fintype ι] (s : State ι) : Prop where
  counts : s.status.Counts s.sharedHolders s.uniqueHolders
  sharedNodup : s.sharedQ.Nodup
  uniqueNodup : s.uniqueQ.Nodup
  placed : ∀ k, s.Placed k
  handOffs : HandOffs s.phase
  unlocked : s.status = .unlock → s.sharedQ = [] ∧ s.uniqueQ = []
  sharedWaits : s.status ≠ .unique → s.sharedQ ≠ [] → s.uniqueQ ≠ []

section Good

variable [Fintype ι]

omit [DecidableEq ι] in
theorem good_init : (State.init : State ι).Good := by
  refine ⟨?_, List.nodup_nil, List.nodup_nil, ?_, ?_, fun _ => ⟨rfl, rfl⟩, fun _ empty => absurd rfl empty⟩
  · simp [State.init, Status.Counts, State.sharedHolders, State.uniqueHolders, Phase.sharedWeight,
      Phase.uniqueWeight]
  · intro k
    simp [State.Placed, State.init, Phase.queued]
  · constructor <;> simp [State.init]

omit [Fintype ι] in
/-- Moving a user that is in no hand-off to a phase that is in none keeps the
hand-offs. -/
theorem HandOffs.update {phase : ι → Phase ι} (handOffs : HandOffs phase) {i : ι} {p : Phase ι}
    (old : (phase i).inHandOff = false) (new : p.inHandOff = false) :
    HandOffs (Function.update phase i p) := by
  obtain ⟨popped, pending⟩ := handOffs
  constructor
  · intro d j handing
    have other : d ≠ i := by
      rintro rfl
      rw [Function.update_self] at handing
      rw [handing] at new
      contradiction
    rw [Function.update_of_ne other] at handing
    have waits := popped d j handing
    have notI : j ≠ i := by
      rintro rfl
      rw [waits] at old
      contradiction
    rw [Function.update_of_ne notI, waits]
  · intro j waits
    have notI : j ≠ i := by
      rintro rfl
      rw [Function.update_self] at waits
      rw [waits] at new
      contradiction
    rw [Function.update_of_ne notI] at waits
    obtain ⟨d, handing⟩ := pending j waits
    have other : d ≠ i := by
      rintro rfl
      rw [handing] at old
      contradiction
    exact ⟨d, by rw [Function.update_of_ne other, handing]⟩

omit [Fintype ι] in
/-- A user not in the queues, moved to a phase that is not queued, is placed. -/
theorem placed_update_self {s : State ι} {i : ι} {p : Phase ι} (notShared : i ∉ s.sharedQ)
    (notUnique : i ∉ s.uniqueQ) (plain : p.queued = false) :
    State.Placed { s with phase := Function.update s.phase i p } i := by
  refine ⟨?_, ?_, ?_⟩ <;> cases p <;> simp_all [Phase.queued]

/-- The users other than `i` are placed as they were when `i` alone moves. -/
theorem State.Good.placed_update {s : State ι} (good : s.Good) {i k : ι} (other : k ≠ i)
    {p : Phase ι} : State.Placed { s with phase := Function.update s.phase i p } k := by
  simpa [State.Placed, Function.update_of_ne other] using good.placed k

omit [DecidableEq ι] in
theorem State.Good.not_mem_of_idle {s : State ι} (good : s.Good) {i : ι} (idle : s.phase i = .idle) :
    i ∉ s.sharedQ ∧ i ∉ s.uniqueQ := by
  obtain ⟨shared, unique, -⟩ := good.placed i
  simp [shared, unique, idle]

omit [DecidableEq ι] in
/-- Every shared waiter has its waker. -/
theorem State.Good.sharedWakers {s : State ι} (good : s.Good) : ∀ j ∈ s.sharedQ, s.waker j = true :=
  fun j member => (good.placed j).2.2 (by rw [(good.placed j).1.mp member]; rfl)

/-- A user that takes the lock shared at once, from `Unlock` or beside other shared
holders with no unique waiter. -/
theorem State.Good.joinShared {s : State ι} (good : s.Good) {i : ι} (idle : s.phase i = .idle)
    {p : Phase ι} (holds : p = .readyShared ∨ p = .shared) {n : Nat}
    (free : s.status = .unlock ∧ n = 0 ∨ s.status = .shared n ∧ s.uniqueQ = []) :
    State.Good { s with status := .shared (n + 1), phase := Function.update s.phase i p } := by
  have sharedW : p.sharedWeight = 1 := by rcases holds with rfl | rfl <;> rfl
  have uniqueW : p.uniqueWeight = 0 := by rcases holds with rfl | rfl <;> rfl
  have before : s.sharedHolders = n ∧ s.uniqueHolders = 0 := by
    rcases free with ⟨unlock, rfl⟩ | ⟨shared, -⟩
    · have counts := good.counts
      rw [unlock] at counts
      exact counts
    · have counts := good.counts
      rw [shared] at counts
      exact counts.2
  have sharedMoved := sum_update_add s.phase Phase.sharedWeight i p
  have uniqueMoved := sum_update_add s.phase Phase.uniqueWeight i p
  rw [idle, sharedW] at sharedMoved
  rw [idle, uniqueW] at uniqueMoved
  obtain ⟨notShared, notUnique⟩ := good.not_mem_of_idle idle
  refine ⟨?_, good.sharedNodup, good.uniqueNodup, ?_, ?_, (fun unlock => by cases unlock), ?_⟩
  · simp only [State.sharedHolders, State.uniqueHolders, Phase.sharedWeight,
      Phase.uniqueWeight, Status.Counts] at sharedMoved uniqueMoved before ⊢
    omega
  · intro k
    by_cases here : k = i
    · subst here
      exact placed_update_self notShared notUnique (by rcases holds with rfl | rfl <;> rfl)
    · exact good.placed_update here
  · exact good.handOffs.update (by rw [idle]; rfl) (by rcases holds with rfl | rfl <;> rfl)
  · intro _ waiting
    rcases free with ⟨unlock, -⟩ | ⟨shared, empty⟩
    · exact absurd (good.unlocked unlock).1 waiting
    · exact absurd empty (good.sharedWaits (by rw [shared]; simp) waiting)

/-- A user that takes the lock unique at once, from `Unlock`. -/
theorem State.Good.takeUnique {s : State ι} (good : s.Good) {i : ι} (idle : s.phase i = .idle)
    {p : Phase ι} (holds : p = .readyUnique ∨ p = .unique) (unlock : s.status = .unlock) :
    State.Good { s with status := .unique, phase := Function.update s.phase i p } := by
  have before := good.counts
  rw [unlock] at before
  have sharedMoved := sum_update_add s.phase Phase.sharedWeight i p
  have uniqueMoved := sum_update_add s.phase Phase.uniqueWeight i p
  rw [idle] at sharedMoved uniqueMoved
  obtain ⟨notShared, notUnique⟩ := good.not_mem_of_idle idle
  refine ⟨?_, good.sharedNodup, good.uniqueNodup, ?_, ?_, (fun unlock => by cases unlock),
    fun notUnique => absurd rfl notUnique⟩
  · rcases holds with rfl | rfl <;>
      simp only [State.sharedHolders, State.uniqueHolders, Phase.sharedWeight,
        Phase.uniqueWeight, Status.Counts] at sharedMoved uniqueMoved before ⊢ <;> omega
  · intro k
    by_cases here : k = i
    · subst here
      exact placed_update_self notShared notUnique (by rcases holds with rfl | rfl <;> rfl)
    · exact good.placed_update here
  · exact good.handOffs.update (by rw [idle]; rfl) (by rcases holds with rfl | rfl <;> rfl)

/-- Moving a user to a phase of the same weights keeps both counts. -/
theorem holders_update {s : State ι} {i : ι} {p : Phase ι}
    (sameShared : p.sharedWeight = (s.phase i).sharedWeight)
    (sameUnique : p.uniqueWeight = (s.phase i).uniqueWeight) :
    ∑ k, (Function.update s.phase i p k).sharedWeight = s.sharedHolders ∧
      ∑ k, (Function.update s.phase i p k).uniqueWeight = s.uniqueHolders := by
  have sharedMoved := sum_update_add s.phase Phase.sharedWeight i p
  have uniqueMoved := sum_update_add s.phase Phase.uniqueWeight i p
  rw [sameShared] at sharedMoved
  rw [sameUnique] at uniqueMoved
  exact ⟨by simp only [State.sharedHolders]; omega, by simp only [State.uniqueHolders]; omega⟩

/-- A user queued on `shared` behind a unique holder, or behind a unique waiter. -/
theorem State.Good.queueShared {s : State ι} (good : s.Good) {i : ι} (idle : s.phase i = .idle)
    (busy : s.status = .unique ∨ (∃ n, s.status = .shared n) ∧ s.uniqueQ ≠ []) :
    (queueShared i s).Good := by
  obtain ⟨notShared, notUnique⟩ := good.not_mem_of_idle idle
  obtain ⟨sameShared, sameUnique⟩ := holders_update (s := s) (i := i) (p := .waitShared)
    (by rw [idle]; rfl) (by rw [idle]; rfl)
  refine ⟨?_, ?_, good.uniqueNodup, ?_, good.handOffs.update (by rw [idle]; rfl) rfl, ?_, ?_⟩
  · simp only [State.sharedHolders, State.uniqueHolders, RwSleepMutex.queueShared] at sameShared sameUnique ⊢
    rw [sameShared, sameUnique]
    exact good.counts
  · exact good.sharedNodup.append (List.nodup_singleton i)
      (List.disjoint_singleton.mpr notShared)
  · intro k
    by_cases here : k = i
    · subst here
      simp [State.Placed, RwSleepMutex.queueShared, notUnique, Phase.queued]
    · have placed := good.placed k
      simpa [State.Placed, RwSleepMutex.queueShared, here, Function.update_of_ne here] using placed
  · intro unlock
    rcases busy with unique | ⟨⟨n, shared⟩, -⟩
    · simp [RwSleepMutex.queueShared, unique] at unlock
    · simp [RwSleepMutex.queueShared, shared] at unlock
  · intro notUniqueStatus _
    rcases busy with unique | ⟨-, waiting⟩
    · exact absurd unique notUniqueStatus
    · exact waiting

/-- A user queued on `unique` behind a holder of any kind. -/
theorem State.Good.queueUnique {s : State ι} (good : s.Good) {i : ι} (idle : s.phase i = .idle)
    (busy : s.status ≠ .unlock) : (queueUnique i s).Good := by
  obtain ⟨notShared, notUnique⟩ := good.not_mem_of_idle idle
  obtain ⟨sameShared, sameUnique⟩ := holders_update (s := s) (i := i) (p := .waitUnique)
    (by rw [idle]; rfl) (by rw [idle]; rfl)
  refine ⟨?_, good.sharedNodup, ?_, ?_, good.handOffs.update (by rw [idle]; rfl) rfl,
    fun unlock => absurd unlock busy, fun _ _ => by simp [RwSleepMutex.queueUnique]⟩
  · simp only [State.sharedHolders, State.uniqueHolders, RwSleepMutex.queueUnique] at sameShared sameUnique ⊢
    rw [sameShared, sameUnique]
    exact good.counts
  · exact good.uniqueNodup.append (List.nodup_singleton i)
      (List.disjoint_singleton.mpr notUnique)
  · intro k
    by_cases here : k = i
    · subst here
      simp [State.Placed, RwSleepMutex.queueUnique, notShared, Phase.queued]
    · have placed := good.placed k
      simpa [State.Placed, RwSleepMutex.queueUnique, here, Function.update_of_ne here] using placed

theorem State.Good.sharedLock {s : State ι} (good : s.Good) {i : ι} (idle : s.phase i = .idle) :
    (sharedLock i s).Good := by
  unfold RwSleepMutex.sharedLock
  split
  case h_1 unlock => exact good.joinShared idle (.inl rfl) (.inl ⟨unlock, rfl⟩)
  case h_2 n shared =>
    split
    case isTrue empty =>
      exact good.joinShared idle (.inl rfl) (.inr ⟨shared, List.isEmpty_iff.mp empty⟩)
    case isFalse waiting =>
      exact good.queueShared idle (.inr ⟨⟨n, shared⟩, by simpa using waiting⟩)
  case h_3 unique => exact good.queueShared idle (.inl unique)

theorem State.Good.uniqueLock {s : State ι} (good : s.Good) {i : ι} (idle : s.phase i = .idle) :
    (uniqueLock i s).Good := by
  unfold RwSleepMutex.uniqueLock
  split
  case h_1 unlock => exact good.takeUnique idle (.inl rfl) unlock
  case h_2 busy => exact good.queueUnique idle busy

theorem State.Good.trySharedLock {s : State ι} (good : s.Good) {i : ι}
    (idle : s.phase i = .idle) : (trySharedLock i s).Good := by
  unfold RwSleepMutex.trySharedLock
  split
  case h_1 unlock => exact good.joinShared idle (.inr rfl) (.inl ⟨unlock, rfl⟩)
  case h_2 n shared =>
    split
    case isTrue empty =>
      exact good.joinShared idle (.inr rfl) (.inr ⟨shared, List.isEmpty_iff.mp empty⟩)
    case isFalse => exact good
  case h_3 => exact good

theorem State.Good.tryUniqueLock {s : State ι} (good : s.Good) {i : ι}
    (idle : s.phase i = .idle) : (tryUniqueLock i s).Good := by
  unfold RwSleepMutex.tryUniqueLock
  split
  case h_1 unlock => exact good.takeUnique idle (.inr rfl) unlock
  case h_2 => exact good

/-- A user outside the queues and the hand-offs that moves to a phase of the same
weights, again outside them. -/
theorem State.Good.retag {s : State ι} (good : s.Good) {i : ι} {p : Phase ι}
    (oldQueued : (s.phase i).queued = false) (oldHandOff : (s.phase i).inHandOff = false)
    (newQueued : p.queued = false) (newHandOff : p.inHandOff = false)
    (sameShared : p.sharedWeight = (s.phase i).sharedWeight)
    (sameUnique : p.uniqueWeight = (s.phase i).uniqueWeight) :
    State.Good { s with phase := Function.update s.phase i p } := by
  obtain ⟨holdersShared, holdersUnique⟩ := holders_update sameShared sameUnique
  obtain ⟨inShared, inUnique, -⟩ := good.placed i
  have notShared : i ∉ s.sharedQ := by
    rw [inShared]
    intro waiting
    rw [waiting] at oldQueued
    contradiction
  have notUnique : i ∉ s.uniqueQ := by
    rw [inUnique]
    intro waiting
    rw [waiting] at oldQueued
    contradiction
  refine ⟨?_, good.sharedNodup, good.uniqueNodup, ?_, good.handOffs.update oldHandOff newHandOff,
    good.unlocked, good.sharedWaits⟩
  · simp only [State.sharedHolders, State.uniqueHolders] at holdersShared holdersUnique ⊢
    rw [holdersShared, holdersUnique]
    exact good.counts
  · intro k
    by_cases here : k = i
    · subst here
      exact placed_update_self notShared notUnique newQueued
    · exact good.placed_update here

theorem State.Good.poll {s : State ι} (good : s.Good) (i : ι) : (poll i s).Good := by
  unfold RwSleepMutex.poll
  split
  case h_1 ready =>
    exact good.retag (p := .shared) (by rw [ready]; rfl) (by rw [ready]; rfl) rfl rfl
      (by rw [ready]; rfl) (by rw [ready]; rfl)
  case h_2 ready =>
    exact good.retag (p := .unique) (by rw [ready]; rfl) (by rw [ready]; rfl) rfl rfl
      (by rw [ready]; rfl) (by rw [ready]; rfl)
  case h_3 => exact good

omit [DecidableEq ι] in
theorem sharedWeight_le (s : State ι) (i : ι) : (s.phase i).sharedWeight ≤ s.sharedHolders :=
  Finset.single_le_sum (f := fun k => (s.phase k).sharedWeight) (fun _ _ => Nat.zero_le _)
    (Finset.mem_univ i)

omit [DecidableEq ι] in
theorem uniqueWeight_le (s : State ι) (i : ι) : (s.phase i).uniqueWeight ≤ s.uniqueHolders :=
  Finset.single_le_sum (f := fun k => (s.phase k).uniqueWeight) (fun _ _ => Nat.zero_le _)
    (Finset.mem_univ i)

/-- At most one user holds the lock unique. -/
theorem eq_of_uniqueWeight {s : State ι} (atMostOne : s.uniqueHolders ≤ 1) {a b : ι}
    (holdsA : (s.phase a).uniqueWeight = 1) (holdsB : (s.phase b).uniqueWeight = 1) : a = b := by
  by_contra other
  have pair : ∑ k ∈ {a, b}, (s.phase k).uniqueWeight ≤ s.uniqueHolders :=
    Finset.sum_le_sum_of_subset (Finset.subset_univ _)
  rw [Finset.sum_pair other, holdsA, holdsB] at pair
  omega

/-- When the only unique holder is a user outside the hand-offs, no hand-off is on its
way. -/
theorem State.Good.no_handOff {s : State ι} (good : s.Good) (atMostOne : s.uniqueHolders ≤ 1) {i : ι}
    (plain : (s.phase i).inHandOff = false)
    (holder : (s.phase i).uniqueWeight = 1 ∨ s.uniqueHolders = 0) :
    (∀ d j, s.phase d ≠ .handOff j) ∧ ∀ j, s.phase j ≠ .handed := by
  have none : ∀ d j, s.phase d ≠ .handOff j := by
    intro d j handing
    have weight : (s.phase d).uniqueWeight = 1 := by rw [handing]; rfl
    rcases holder with holds | zero
    · rw [← eq_of_uniqueWeight atMostOne weight holds, handing] at plain
      contradiction
    · have := uniqueWeight_le s d
      omega
  refine ⟨none, fun j waits => ?_⟩
  obtain ⟨d, handing⟩ := good.handOffs.2 j waits
  exact none d j handing

/-- The lock handed from its only holder `i` to the first unique waiter `j`: the
critical section of a drop that ends in `drop(mx_list)`. -/
theorem State.Good.handTo {s : State ι} (good : s.Good) {i j : ι} {rest : List ι}
    (queue : s.uniqueQ = j :: rest) (alone : s.sharedHolders + s.uniqueHolders = 1)
    (holds : (s.phase i).sharedWeight + (s.phase i).uniqueWeight = 1)
    (plainQueued : (s.phase i).queued = false) (plainHandOff : (s.phase i).inHandOff = false) :
    State.Good
      { s with status := .unique, uniqueQ := rest,
               phase := Function.update (Function.update s.phase i (.handOff j)) j .handed } := by
  have waits : s.phase j = .waitUnique := ((good.placed j).2.1).mp (by simp [queue])
  have other : j ≠ i := by
    rintro rfl
    rw [waits] at plainQueued
    contradiction
  obtain ⟨inShared, inUnique, -⟩ := good.placed i
  have notShared : i ∉ s.sharedQ := by
    rw [inShared]
    intro waiting
    rw [waiting] at plainQueued
    contradiction
  have notUnique : i ∉ s.uniqueQ := by
    rw [inUnique]
    intro waiting
    rw [waiting] at plainQueued
    contradiction
  have notRest : i ∉ rest := fun member =>
    notUnique (by rw [queue]; exact List.mem_cons_of_mem j member)
  have jShared : j ∉ s.sharedQ := by rw [(good.placed j).1, waits]; simp
  have jWaker : s.waker j = true := (good.placed j).2.2 (by rw [waits]; rfl)
  obtain ⟨jNotRest, restNodup⟩ := List.nodup_cons.mp (queue ▸ good.uniqueNodup)
  obtain ⟨noHandOff, noHanded⟩ := good.no_handOff (by omega) plainHandOff (by
    have := sharedWeight_le s i
    have := uniqueWeight_le s i
    omega)
  refine ⟨?_, good.sharedNodup, restNodup, ?_, ⟨?_, ?_⟩, (fun unlock => by cases unlock),
    fun notUnique => absurd rfl notUnique⟩
  · -- the holder's weights leave with it, the hand-off counts one unique
    have sharedI := sum_update_add s.phase Phase.sharedWeight i (.handOff j)
    have uniqueI := sum_update_add s.phase Phase.uniqueWeight i (.handOff j)
    have sharedJ := sum_update_add (Function.update s.phase i (.handOff j)) Phase.sharedWeight j
      .handed
    have uniqueJ := sum_update_add (Function.update s.phase i (.handOff j)) Phase.uniqueWeight j
      .handed
    rw [Function.update_of_ne other, waits] at sharedJ uniqueJ
    have := sharedWeight_le s i
    have := uniqueWeight_le s i
    simp only [State.sharedHolders, State.uniqueHolders, Phase.sharedWeight, Phase.uniqueWeight,
      Status.Counts] at sharedI uniqueI sharedJ uniqueJ alone holds this ⊢
    omega
  · intro k
    by_cases atI : k = i
    · subst atI
      simp [State.Placed, Function.update_of_ne (Ne.symm other), notShared, notRest,
        Phase.queued]
    by_cases atJ : k = j
    · subst atJ
      simp [State.Placed, jShared, jNotRest, jWaker, Phase.queued]
    · have placed := good.placed k
      simpa [State.Placed, Function.update_of_ne atI, Function.update_of_ne atJ, queue, atJ]
        using placed
  · intro d j' handing
    dsimp only at handing ⊢
    by_cases atJ : d = j
    · subst atJ
      simp at handing
    by_cases atI : d = i
    · subst atI
      rw [Function.update_of_ne atJ, Function.update_self] at handing
      cases handing
      simp
    · rw [Function.update_of_ne atJ, Function.update_of_ne atI] at handing
      exact absurd handing (noHandOff d j')
  · intro j' handed
    dsimp only at handed ⊢
    by_cases atJ : j' = j
    · subst atJ
      exact ⟨i, by rw [Function.update_of_ne (Ne.symm other), Function.update_self]⟩
    by_cases atI : j' = i
    · subst atI
      simp [Function.update_of_ne atJ] at handed
    · rw [Function.update_of_ne atJ, Function.update_of_ne atI] at handed
      exact absurd handed (noHanded j')

/-- The only holder leaves a lock that nobody waits for: `Unlock`. -/
theorem State.Good.free {s : State ι} (good : s.Good) {i : ι}
    (alone : s.sharedHolders + s.uniqueHolders = 1)
    (holds : (s.phase i).sharedWeight + (s.phase i).uniqueWeight = 1)
    (plainQueued : (s.phase i).queued = false) (plainHandOff : (s.phase i).inHandOff = false)
    (noShared : s.sharedQ = []) (noUnique : s.uniqueQ = []) :
    State.Good { s with status := .unlock, phase := Function.update s.phase i .idle } := by
  have sharedMoved := sum_update_add s.phase Phase.sharedWeight i .idle
  have uniqueMoved := sum_update_add s.phase Phase.uniqueWeight i .idle
  have := sharedWeight_le s i
  have := uniqueWeight_le s i
  refine ⟨?_, good.sharedNodup, good.uniqueNodup, ?_, good.handOffs.update plainHandOff rfl,
    fun _ => ⟨noShared, noUnique⟩, fun _ waiting => absurd noShared waiting⟩
  · simp only [State.sharedHolders, State.uniqueHolders, Phase.sharedWeight, Phase.uniqueWeight,
      Status.Counts] at sharedMoved uniqueMoved alone holds this ⊢
    omega
  · intro k
    by_cases here : k = i
    · subst here
      exact placed_update_self (by simp [noShared]) (by simp [noUnique]) rfl
    · exact good.placed_update here

/-- A shared holder leaves beside at least one other. -/
theorem State.Good.leaveShared {s : State ι} (good : s.Good) {i : ι} (holds : s.phase i = .shared)
    {n : Nat} (status : s.status = .shared (n + 2)) :
    State.Good { s with status := .shared (n + 1), phase := Function.update s.phase i .idle } := by
  have counts := good.counts
  rw [status] at counts
  have sharedMoved := sum_update_add s.phase Phase.sharedWeight i .idle
  have uniqueMoved := sum_update_add s.phase Phase.uniqueWeight i .idle
  rw [holds] at sharedMoved uniqueMoved
  refine ⟨?_, good.sharedNodup, good.uniqueNodup, ?_,
    good.handOffs.update (by rw [holds]; rfl) rfl, (fun unlock => by cases unlock), ?_⟩
  · simp only [State.sharedHolders, State.uniqueHolders, Phase.sharedWeight, Phase.uniqueWeight,
      Status.Counts] at sharedMoved uniqueMoved counts ⊢
    omega
  · intro k
    by_cases here : k = i
    · subst here
      obtain ⟨inShared, inUnique, -⟩ := good.placed k
      exact placed_update_self (by rw [inShared, holds]; simp) (by rw [inUnique, holds]; simp) rfl
    · exact good.placed_update here
  · intro _ waiting
    exact good.sharedWaits (by rw [status]; simp) waiting

/-- A unique holder leaves and every shared waiter is woken: `Shared(cnt)`. -/
theorem State.Good.releaseBatch {s : State ι} (good : s.Good) {i : ι} (holds : s.phase i = .unique)
    (waiting : s.sharedQ ≠ []) :
    State.Good
      { s with status := .shared s.sharedQ.length, sharedQ := [],
               waker := fun k => if k ∈ s.sharedQ then false else s.waker k,
               phase := Function.update (fun k => if k ∈ s.sharedQ then .readyShared else s.phase k)
                 i .idle } := by
  have counts := good.counts
  have unique : s.status = .unique := by
    have := uniqueWeight_le s i
    rw [holds] at this
    cases status : s.status <;> rw [status] at counts <;>
      simp only [Status.Counts, Phase.uniqueWeight] at counts this <;> first | rfl | omega
  rw [unique] at counts
  have oneUnique : s.uniqueHolders = 1 := counts.2
  have notBatch : i ∉ s.sharedQ := by rw [(good.placed i).1, holds]; simp
  have notUnique : i ∉ s.uniqueQ := by rw [(good.placed i).2.1, holds]; simp
  have waits : ∀ j ∈ s.sharedQ, s.phase j = .waitShared := fun j member =>
    (good.placed j).1.mp member
  have sharedBatch := sum_batch s.sharedQ good.sharedNodup s.phase waits Phase.sharedWeight
  have uniqueBatch := sum_batch s.sharedQ good.sharedNodup s.phase waits Phase.uniqueWeight
  have sharedMoved := sum_update_add (fun k => if k ∈ s.sharedQ then .readyShared else s.phase k)
    Phase.sharedWeight i .idle
  have uniqueMoved := sum_update_add (fun k => if k ∈ s.sharedQ then .readyShared else s.phase k)
    Phase.uniqueWeight i .idle
  simp only [notBatch, if_false, holds] at sharedMoved uniqueMoved
  obtain ⟨noHandOff, noHanded⟩ := good.no_handOff oneUnique.le (by rw [holds]; rfl)
    (by rw [holds]; simp [Phase.uniqueWeight])
  have length : 0 < s.sharedQ.length := List.length_pos_iff.mpr waiting
  refine ⟨?_, List.nodup_nil, good.uniqueNodup, ?_, ⟨?_, ?_⟩, (fun unlock => by cases unlock),
    fun _ empty => absurd rfl empty⟩
  · simp only [State.sharedHolders, State.uniqueHolders, Phase.sharedWeight, Phase.uniqueWeight,
      Status.Counts] at sharedBatch uniqueBatch sharedMoved uniqueMoved counts ⊢
    omega
  · intro k
    by_cases here : k = i
    · subst here
      simp [State.Placed, notUnique, Phase.queued]
    · have placed := good.placed k
      by_cases batch : k ∈ s.sharedQ
      · have : s.phase k = .waitShared := waits k batch
        simp [State.Placed, Function.update_of_ne here, batch, Phase.queued]
        rw [(good.placed k).2.1, this]
        simp
      · simpa [State.Placed, Function.update_of_ne here, batch] using placed
  · intro d j handing
    dsimp only at handing
    by_cases here : d = i
    · subst here
      simp at handing
    · rw [Function.update_of_ne here] at handing
      split_ifs at handing
      exact absurd handing (noHandOff d j)
  · intro j handed
    dsimp only at handed
    by_cases here : j = i
    · subst here
      simp at handed
    · rw [Function.update_of_ne here] at handed
      split_ifs at handed
      exact absurd handed (noHanded j)

omit [DecidableEq ι] in
/-- The status a shared holder sees. -/
theorem State.Good.status_of_shared {s : State ι} (good : s.Good) {i : ι}
    (holds : s.phase i = .shared) :
    ∃ n, s.status = .shared (n + 1) ∧ s.sharedHolders = n + 1 ∧ s.uniqueHolders = 0 := by
  have counts := good.counts
  have := sharedWeight_le s i
  rw [holds] at this
  cases status : s.status with
  | unlock =>
    rw [status] at counts
    simp only [Status.Counts, Phase.sharedWeight] at counts this
    omega
  | unique =>
    rw [status] at counts
    simp only [Status.Counts, Phase.sharedWeight] at counts this
    omega
  | shared n =>
    rw [status] at counts
    obtain ⟨positive, sharedCount, uniqueCount⟩ := counts
    exact ⟨n - 1, by rw [Nat.sub_add_cancel positive], by omega, uniqueCount⟩

omit [DecidableEq ι] in
/-- The status a user in a unique phase sees. -/
theorem State.Good.status_of_unique {s : State ι} (good : s.Good) {i : ι}
    (holds : (s.phase i).uniqueWeight = 1) :
    s.status = .unique ∧ s.sharedHolders = 0 ∧ s.uniqueHolders = 1 := by
  have counts := good.counts
  have := uniqueWeight_le s i
  rw [holds] at this
  cases status : s.status with
  | unlock =>
    rw [status] at counts
    simp only [Status.Counts] at counts
    omega
  | unique =>
    rw [status] at counts
    exact ⟨rfl, counts⟩
  | shared n =>
    rw [status] at counts
    simp only [Status.Counts] at counts
    omega

/-- A shared guard's drop does not panic and keeps the invariant. -/
theorem State.Good.dropShared {s : State ι} (good : s.Good) {i : ι} (holds : s.phase i = .shared) :
    ∃ s', dropShared i s = some s' ∧ s'.Good := by
  obtain ⟨n, status, sharedCount, uniqueCount⟩ := good.status_of_shared holds
  have weights : (s.phase i).sharedWeight + (s.phase i).uniqueWeight = 1 := by rw [holds]; rfl
  cases n with
  | zero =>
    cases queue : s.uniqueQ with
    | cons j rest =>
      exact ⟨_, dropShared_of_uniqueWaiter status queue,
        good.handTo queue (by omega) weights (by rw [holds]; rfl) (by rw [holds]; rfl)⟩
    | nil =>
      have noShared : s.sharedQ = [] := by
        by_contra waiting
        exact good.sharedWaits (by rw [status]; simp) waiting queue
      exact ⟨_, dropShared_of_empty status noShared queue,
        good.free (by omega) weights (by rw [holds]; rfl) (by rw [holds]; rfl) noShared queue⟩
  | succ n => exact ⟨_, dropShared_of_others status, good.leaveShared holds status⟩

/-- A unique guard's drop does not panic and keeps the invariant. -/
theorem State.Good.dropUnique {s : State ι} (good : s.Good) {i : ι} (holds : s.phase i = .unique) :
    ∃ s', dropUnique i s = some s' ∧ s'.Good := by
  obtain ⟨status, sharedCount, uniqueCount⟩ := good.status_of_unique (by rw [holds]; rfl)
  have weights : (s.phase i).sharedWeight + (s.phase i).uniqueWeight = 1 := by rw [holds]; rfl
  by_cases waiting : s.sharedQ = []
  · cases queue : s.uniqueQ with
    | cons j rest =>
      exact ⟨_, dropUnique_of_uniqueWaiter waiting queue,
        good.handTo queue (by omega) weights (by rw [holds]; rfl) (by rw [holds]; rfl)⟩
    | nil =>
      exact ⟨_, dropUnique_of_empty waiting queue,
        good.free (by omega) weights (by rw [holds]; rfl) (by rw [holds]; rfl) waiting queue⟩
  · exact ⟨_, dropUnique_of_sharedWaiters good.sharedNodup good.sharedWakers waiting,
      good.releaseBatch holds waiting⟩

/-- The end of a hand-off: the popped waiter's flag is set. -/
theorem State.Good.handOff {s : State ι} (good : s.Good) {i j : ι}
    (handing : s.phase i = .handOff j) : ∃ s', handOff i j s = some s' ∧ s'.Good := by
  have handed := good.handOffs.1 i j handing
  have other : j ≠ i := by
    rintro rfl
    rw [handing] at handed
    cases handed
  have waker : s.waker j = true := (good.placed j).2.2 (by rw [handed]; rfl)
  obtain ⟨status, sharedCount, uniqueCount⟩ := good.status_of_unique (by rw [handing]; rfl)
  have sharedI := sum_update_add s.phase Phase.sharedWeight i .idle
  have uniqueI := sum_update_add s.phase Phase.uniqueWeight i .idle
  have sharedJ := sum_update_add (Function.update s.phase i .idle) Phase.sharedWeight j .readyUnique
  have uniqueJ := sum_update_add (Function.update s.phase i .idle) Phase.uniqueWeight j .readyUnique
  rw [Function.update_of_ne other, handed] at sharedJ uniqueJ
  rw [handing] at sharedI uniqueI
  -- the hand-off was the only one on its way
  have onlyHandOff : ∀ d j', s.phase d = .handOff j' → d = i ∧ j' = j := by
    intro d j' handing'
    have same := eq_of_uniqueWeight uniqueCount.le (by rw [handing']; rfl) (by rw [handing]; rfl)
    subst same
    rw [handing] at handing'
    cases handing'
    exact ⟨rfl, rfl⟩
  refine ⟨{ s with waker := Function.update s.waker j false,
                   phase := Function.update (Function.update s.phase i .idle) j .readyUnique },
    by simp [RwSleepMutex.handOff, waker], ?_⟩
  refine ⟨?_, good.sharedNodup, good.uniqueNodup, ?_, ⟨?_, ?_⟩, ?_, ?_⟩
  · rw [status]
    simp only [State.sharedHolders, State.uniqueHolders, Phase.sharedWeight, Phase.uniqueWeight,
      Status.Counts] at sharedI uniqueI sharedJ uniqueJ sharedCount uniqueCount ⊢
    omega
  · intro k
    by_cases atJ : k = j
    · subst atJ
      simp [State.Placed, (good.placed k).1, (good.placed k).2.1, handed, Phase.queued]
    by_cases atI : k = i
    · subst atI
      simp [State.Placed, Function.update_of_ne atJ, (good.placed k).1, (good.placed k).2.1,
        handing, Phase.queued]
    · have placed := good.placed k
      simpa [State.Placed, Function.update_of_ne atJ, Function.update_of_ne atI] using placed
  · intro d j' handing'
    dsimp only at handing' ⊢
    by_cases atJ : d = j
    · subst atJ
      simp at handing'
    by_cases atI : d = i
    · subst atI
      simp [Function.update_of_ne atJ] at handing'
    · rw [Function.update_of_ne atJ, Function.update_of_ne atI] at handing'
      exact absurd (onlyHandOff d j' handing').1 atI
  · intro j' handed'
    dsimp only at handed' ⊢
    by_cases atJ : j' = j
    · subst atJ
      simp at handed'
    by_cases atI : j' = i
    · subst atI
      simp [Function.update_of_ne atJ] at handed'
    · rw [Function.update_of_ne atJ, Function.update_of_ne atI] at handed'
      obtain ⟨d, handing'⟩ := good.handOffs.2 j' handed'
      exact absurd (onlyHandOff d j' handing').2 atJ
  · intro unlock
    simp [status] at unlock
  · intro notUnique
    simp [status] at notUnique

/-- Every allowed action keeps the invariant and does not panic. -/
theorem State.Good.act {s : State ι} (good : s.Good) {i : ι} {a : Action}
    (allowed : a.Allowed (s.phase i)) : ∃ s', act i s a = some s' ∧ s'.Good := by
  cases a with
  | sharedLock => exact ⟨_, rfl, good.sharedLock allowed⟩
  | uniqueLock => exact ⟨_, rfl, good.uniqueLock allowed⟩
  | trySharedLock => exact ⟨_, rfl, good.trySharedLock allowed⟩
  | tryUniqueLock => exact ⟨_, rfl, good.tryUniqueLock allowed⟩
  | poll => exact ⟨_, rfl, good.poll i⟩
  | drop =>
    rcases allowed with holds | holds
    · obtain ⟨s', dropped, good'⟩ := good.dropShared holds
      exact ⟨s', by simp [RwSleepMutex.act, holds, dropped], good'⟩
    · obtain ⟨s', dropped, good'⟩ := good.dropUnique holds
      exact ⟨s', by simp [RwSleepMutex.act, holds, dropped], good'⟩
  | handOff =>
    obtain ⟨j, handing⟩ := allowed
    obtain ⟨s', handed, good'⟩ := good.handOff handing
    exact ⟨s', by simp [RwSleepMutex.act, handing, handed], good'⟩

theorem State.Good.of_reachable {s : State ι} (reach : Reachable s) : s.Good := by
  induction reach with
  | refl => exact good_init
  | tail _ step good =>
    cases step with
    | act i a allowed ran =>
      obtain ⟨s', ran', good'⟩ := good.act allowed
      rw [ran] at ran'
      cases ran'
      exact good'

end Good

end RwSleepMutex
end FtlOs
