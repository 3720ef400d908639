import FtlOs.Fat32.Block.Inner
import FtlOs.Library.Run

/-!
# The block cache as its tasks call it

`CacheManager` wraps `CacheManagerInner` in a sleep lock and adds the dirty semaphore
of `max_dirty` units, which the source requires to be fewer than the clusters the
cache holds.  `get_block_init` takes the lock twice and waits on the semaphore in
between, `write_block` waits and then takes the lock, and the sync task takes the
pending clusters, then the lock once per cluster and once more to end its round.
Each lock section and each wait is one step here, and the steps of the tasks
interleave in any order.  A dirty cluster keeps its unit in its dirty entry until the
sync task or `release_block` drops the entry, so over every run each unit is free,
held by a task or kept by a dirty cluster, and at most `max_dirty` clusters are dirty.
-/

namespace FtlOs

namespace CacheManager

open Lru OrdMap CacheManagerInner

variable {s s' : CacheManagerInner} {w : World Unit} {cid : Nat}

/-- `have_block_of`, then `release_block`: drop a cached copy of the cluster. -/
def releaseCached (cid : Nat) (s : CacheManagerInner) : Option CacheManagerInner :=
  if (s.search.get? cid).isSome then s.releaseBlock cid else some s

/-- The first lock section of `get_block_init`: drop a cached copy of the cluster,
then take a buffer. -/
def takeBuffer (w : World Unit) (cid : Nat) (s : CacheManagerInner) :
    Option (SysR (Option (Nat × Nat)) × CacheManagerInner) :=
  (releaseCached cid s).bind fun s => s.getNewUninitBlock w

/-- The second lock section of `get_block_init`: insert the initialised cluster and
mark it dirty with the unit taken from the dirty semaphore; also the units not kept,
which go back when the call's `MultiplySemaphore` is dropped. -/
def insertDirty (cid : Nat) (s : CacheManagerInner) : Option (Nat × CacheManagerInner × Nat) := do
  let (arc, s) ← s.forceInsertBlock cid
  let (s, left) ← s.becomeDirty cid 1
  return (arc, s, left)

/-- `write_block` after its wait: the write to the cluster's buffer, then
`become_dirty` with the unit the task took; also the units it gives back. -/
def writeBlock (w : World Unit) (cid : Nat) (s : CacheManagerInner) :
    Option (SysR Unit × CacheManagerInner × Nat) :=
  -- `cache.access_rw(op).await?`: the copy on write of the buffer; on failure the
  -- call returns and its unit goes back
  if w.copyOk cid then (s.becomeDirty cid 1).map fun (s, left) => (.ok (), s, left)
  else some (.error .ENOMEM, s, 1)

theorem releaseCached_dirty_le (released : releaseCached cid s = some s') :
    s'.dirty.size ≤ s.dirty.size := by
  unfold releaseCached at released
  split_ifs at released
  · obtain ⟨a, arc, -, rfl⟩ := releaseBlock_eq_some released
    exact size_erase_le
  · cases released
    exact Nat.le_refl _

theorem takeBuffer_dirty_le {r : SysR (Option (Nat × Nat))}
    (taken : takeBuffer w cid s = some (r, s')) : s'.dirty.size ≤ s.dirty.size := by
  obtain ⟨s₁, released, taken⟩ := Option.bind_eq_some_iff.mp taken
  rw [(getNewUninit_keepsDirty taken).dirty]
  exact releaseCached_dirty_le released

theorem insertDirty_units {arc left : Nat} (inserted : insertDirty cid s = some (arc, s', left)) :
    s'.dirty.size + left = s.dirty.size + 1 := by
  obtain ⟨⟨arc₂, s₂⟩, forced, inserted⟩ := Option.bind_eq_some_iff.mp inserted
  obtain ⟨⟨s₃, left₃⟩, became, finished⟩ := Option.bind_eq_some_iff.mp inserted
  cases finished
  rw [becomeDirty_units became, (forceInsert_keepsDirty forced).dirty]

theorem writeBlock_units {r : SysR Unit} {left : Nat}
    (written : writeBlock w cid s = some (r, s', left)) :
    s'.dirty.size + left = s.dirty.size + 1 := by
  unfold writeBlock at written
  split_ifs at written
  · obtain ⟨⟨s₂, left₂⟩, became, finished⟩ := Option.map_eq_some_iff.mp written
    cases finished
    exact becomeDirty_units became
  · cases written
    rfl

end CacheManager

/-- Where a task is in a call: between the waits and lock sections of `get_block_init`
and `write_block` it holds a buffer or a unit of the dirty semaphore. -/
inductive CacheManager.Phase where
  | idle
  /-- `get_block_init` has its buffer and waits for a unit. -/
  | initWait (cid : Nat)
  /-- `get_block_init` has its buffer and a unit. -/
  | initHold (cid : Nat)
  /-- `write_block` has a unit. -/
  | writeHold (cid : Nat)
  deriving DecidableEq, Repr

/-- Where the sync task is in a round: it took `taken` from `sync_pending`, and the
clusters `rest` still wait for `get_dirty_shared_buffer`. -/
inductive CacheManager.SyncPhase where
  | idle
  | sharing (taken rest : List Nat)
  deriving DecidableEq, Repr

/-- `CacheManager` with its tasks `τ` and its sync task. -/
structure CacheManager (τ : Type) where
  inner : CacheManagerInner
  /-- The free units of `dirty_semaphore`. -/
  dirtySemaphore : Nat
  tasks : τ → CacheManager.Phase
  syncTask : CacheManager.SyncPhase

/-- One step of a task or of the sync task: a lock section, or a wait on a semaphore. -/
inductive CacheManager.Event (τ : Type) where
  /-- `get_block`: its one lock section. -/
  | getBlock (t : τ) (w : World Unit) (cid : Nat)
  /-- `get_block_init` up to its first unlock. -/
  | initLock (t : τ) (w : World Unit) (cid : Nat)
  /-- `get_block_init`'s `dirty_semaphore.take().await`. -/
  | initTake (t : τ)
  /-- `get_block_init` from `init(blk.init_buffer()?)` to its end. -/
  | initInsert (t : τ) (w : World Unit)
  /-- `write_block`'s `dirty_semaphore.take().await`. -/
  | writeTake (t : τ) (cid : Nat)
  /-- `write_block` from `cache.access_rw(op).await?` to its end. -/
  | writeLock (t : τ) (w : World Unit)
  /-- `release_block`. -/
  | releaseBlock (t : τ) (cid : Nat)
  /-- The sync task's `WaitDirtyFuture`: take the pending clusters. -/
  | syncTake
  /-- The sync task's lock section `get_dirty_shared_buffer` for its next cluster. -/
  | syncShare
  /-- The lock section `dirty_suspend_iter` that ends the sync task's round. -/
  | syncSuspend

namespace CacheManager

open Lru OrdMap CacheManagerInner

variable {τ : Type}

/-- `CacheManager::new(max_dirty, max_cache_num)` after `init`, every task idle. -/
def new (maxDirty maxCacheNum : Nat) : CacheManager τ :=
  ⟨CacheManagerInner.new maxCacheNum, maxDirty, fun _ => .idle, .idle⟩

/-- The end of a lock section that leaves `inner`: each dirty entry it dropped gives
its unit back to the semaphore. -/
def unlock (m : CacheManager τ) (inner : CacheManagerInner) : CacheManager τ :=
  { m with inner, dirtySemaphore := m.dirtySemaphore + (m.inner.dirty.size - inner.dirty.size) }

@[simp] theorem unlock_inner (m : CacheManager τ) (inner : CacheManagerInner) :
    (m.unlock inner).inner = inner := rfl
@[simp] theorem unlock_dirtySemaphore (m : CacheManager τ) (inner : CacheManagerInner) :
    (m.unlock inner).dirtySemaphore =
      m.dirtySemaphore + (m.inner.dirty.size - inner.dirty.size) := rfl
@[simp] theorem unlock_tasks (m : CacheManager τ) (inner : CacheManagerInner) :
    (m.unlock inner).tasks = m.tasks := rfl

variable [DecidableEq τ]

/-- The task `t` moves on to `p`. -/
def setTask (m : CacheManager τ) (t : τ) (p : Phase) : CacheManager τ :=
  { m with tasks := Function.update m.tasks t p }

@[simp] theorem setTask_inner (m : CacheManager τ) (t : τ) (p : Phase) :
    (m.setTask t p).inner = m.inner := rfl
@[simp] theorem setTask_dirtySemaphore (m : CacheManager τ) (t : τ) (p : Phase) :
    (m.setTask t p).dirtySemaphore = m.dirtySemaphore := rfl
@[simp] theorem setTask_tasks (m : CacheManager τ) (t : τ) (p : Phase) :
    (m.setTask t p).tasks = Function.update m.tasks t p := rfl

/-- One step; `none` is a panic.  A call starts only from an idle task, a wait with no
unit free and the sync task's wait on an empty `sync_pending` leave everything as it
is, and so does an event of a task that is not at that point of a call. -/
def step (m : CacheManager τ) : Event τ → Option (CacheManager τ)
  | .getBlock t w cid =>
      if m.tasks t = .idle then (m.inner.getBlock w cid).map fun (_, inner) => m.unlock inner
      else some m
  | .initLock t w cid =>
      if m.tasks t = .idle then
        (takeBuffer w cid m.inner).map fun (blk, inner) =>
          match blk with
          | .ok _ => (m.unlock inner).setTask t (.initWait cid)
          -- `get_new_uninit_block()?`: the call returns
          | .error _ => m.unlock inner
      else some m
  | .initTake t =>
      match m.tasks t with
      | .initWait cid =>
          if 0 < m.dirtySemaphore then
            some ({ m with dirtySemaphore := m.dirtySemaphore - 1 }.setTask t (.initHold cid))
          else some m
      | _ => some m
  | .initInsert t w =>
      match m.tasks t with
      | .initHold cid =>
          -- `init(blk.init_buffer()?)`: on failure the buffer and the unit are dropped
          if w.copyOk cid then
            (insertDirty cid m.inner).map fun (_, inner, left) =>
              { m with inner, dirtySemaphore := m.dirtySemaphore + left }.setTask t .idle
          else some ({ m with dirtySemaphore := m.dirtySemaphore + 1 }.setTask t .idle)
      | _ => some m
  | .writeTake t cid =>
      if m.tasks t = .idle ∧ 0 < m.dirtySemaphore then
        some ({ m with dirtySemaphore := m.dirtySemaphore - 1 }.setTask t (.writeHold cid))
      else some m
  | .writeLock t w =>
      match m.tasks t with
      | .writeHold cid =>
          (writeBlock w cid m.inner).map fun (_, inner, left) =>
            { m with inner, dirtySemaphore := m.dirtySemaphore + left }.setTask t .idle
      | _ => some m
  | .releaseBlock t cid =>
      if m.tasks t = .idle then (m.inner.releaseBlock cid).map m.unlock else some m
  | .syncTake =>
      match m.syncTask with
      | .idle =>
          if m.inner.syncPending.size = 0 then some m
          else
            let (taken, inner) := m.inner.takePending
            some { m with inner, syncTask := .sharing taken taken }
      | _ => some m
  | .syncShare =>
      match m.syncTask with
      | .sharing taken (cid :: rest) =>
          -- `get_dirty_shared_buffer`: `self.dirty.get(&cid).unwrap()`
          if (m.inner.dirty.get? cid).isSome then some { m with syncTask := .sharing taken rest }
          else none
      | _ => some m
  | .syncSuspend =>
      match m.syncTask with
      | .sharing taken [] =>
          (m.inner.dirtySuspendIter taken).map fun inner => { m.unlock inner with syncTask := .idle }
      | _ => some m

/-! ## The steps of a call -/

section Steps

variable {m : CacheManager τ} {t : τ} {w : World Unit} {cid : Nat} {inner : CacheManagerInner}

theorem step_getBlock {r : SysR (Nat × Option Nat)} (idle : m.tasks t = .idle)
    (got : m.inner.getBlock w cid = some (r, inner)) :
    m.step (.getBlock t w cid) = some (m.unlock inner) := by
  simp [step, idle, got]

theorem step_writeTake (idle : m.tasks t = .idle) (unit : 0 < m.dirtySemaphore) :
    m.step (.writeTake t cid) =
      some ({ m with dirtySemaphore := m.dirtySemaphore - 1 }.setTask t (.writeHold cid)) := by
  simp [step, idle, unit]

theorem step_writeLock {r : SysR Unit} {left : Nat} (holding : m.tasks t = .writeHold cid)
    (written : writeBlock w cid m.inner = some (r, inner, left)) :
    m.step (.writeLock t w) =
      some ({ m with inner, dirtySemaphore := m.dirtySemaphore + left }.setTask t .idle) := by
  simp [step, holding, written]

end Steps

/-! ## Every unit is counted -/

/-- The units of the dirty semaphore a task holds. -/
def Phase.units : Phase → Nat
  | .initHold _ | .writeHold _ => 1
  | .idle | .initWait _ => 0

section Units

variable [Fintype τ] {maxDirty : Nat} {m m' : CacheManager τ}

/-- The units the tasks hold, each between its wait and the lock section that spends it. -/
def heldUnits (tasks : τ → Phase) : Nat := ∑ t, (tasks t).units

/-- Moving one task changes exactly its summand. -/
theorem heldUnits_update (tasks : τ → Phase) (t : τ) (p : Phase) :
    heldUnits (Function.update tasks t p) + (tasks t).units = heldUnits tasks + p.units := by
  have pushed : (fun x => (Function.update tasks t p x).units) =
      Function.update (fun x => (tasks x).units) t p.units :=
    funext fun x => Function.apply_update (fun _ => Phase.units) tasks t p x
  unfold heldUnits
  rw [pushed, Finset.sum_update_of_mem (Finset.mem_univ t),
    Finset.sum_eq_add_sum_sdiff_singleton_of_mem (Finset.mem_univ t) fun x => (tasks x).units]
  omega

/-- Every unit of the dirty semaphore is free, held by a task, or kept by a dirty
cluster. -/
def Counted (maxDirty : Nat) (m : CacheManager τ) : Prop :=
  m.dirtySemaphore + heldUnits m.tasks + m.inner.dirty.size = maxDirty

omit [DecidableEq τ] in
/-- A lock section that dirties nothing gives back the units of what it drops. -/
theorem Counted.unlock {inner : CacheManagerInner} (counted : Counted maxDirty m)
    (fewer : inner.dirty.size ≤ m.inner.dirty.size) : Counted maxDirty (m.unlock inner) := by
  unfold Counted at counted ⊢
  simp only [unlock_dirtySemaphore, unlock_tasks, unlock_inner]
  omega

/-- A task that moves between two points holding the same units. -/
theorem Counted.setTask {t : τ} {p : Phase} (counted : Counted maxDirty m)
    (same : p.units = (m.tasks t).units) : Counted maxDirty (m.setTask t p) := by
  have moved := heldUnits_update m.tasks t p
  unfold Counted at counted ⊢
  simp only [setTask_dirtySemaphore, setTask_tasks, setTask_inner]
  omega

/-- A task takes a unit from the semaphore, or ends its call and hands over the one it
held: to a dirty entry, or back to the semaphore as `left`. -/
theorem Counted.exchange {t : τ} {p : Phase} {inner : CacheManagerInner} {free : Nat}
    (counted : Counted maxDirty m)
    (balanced : free + p.units + inner.dirty.size =
      m.dirtySemaphore + (m.tasks t).units + m.inner.dirty.size) :
    Counted maxDirty ({ m with inner, dirtySemaphore := free }.setTask t p) := by
  have moved := heldUnits_update m.tasks t p
  unfold Counted at counted ⊢
  simp only [setTask_dirtySemaphore, setTask_tasks, setTask_inner]
  omega

/-- One step keeps every unit counted. -/
theorem Counted.next {e : Event τ} (counted : Counted maxDirty m) (stepped : m.step e = some m') :
    Counted maxDirty m' := by
  cases e with
  | getBlock t w cid =>
    simp only [CacheManager.step] at stepped
    split_ifs at stepped
    · obtain ⟨⟨r, inner⟩, got, rfl⟩ := Option.map_eq_some_iff.mp stepped
      exact counted.unlock (by rw [(get_keepsDirty got).dirty])
    · cases stepped
      exact counted
  | initLock t w cid =>
    simp only [CacheManager.step] at stepped
    split_ifs at stepped with idle
    · obtain ⟨⟨blk, inner⟩, taken, rfl⟩ := Option.map_eq_some_iff.mp stepped
      have unlocked := counted.unlock (takeBuffer_dirty_le taken)
      cases blk with
      | ok blk => exact unlocked.setTask (by simp [idle, Phase.units])
      | error e => exact unlocked
    · cases stepped
      exact counted
  | initTake t =>
    simp only [CacheManager.step] at stepped
    split at stepped
    · next cid waiting =>
      split_ifs at stepped with unit
      · cases stepped
        exact counted.exchange (by simp [waiting, Phase.units]; omega)
      · cases stepped
        exact counted
    · cases stepped
      exact counted
  | initInsert t w =>
    simp only [CacheManager.step] at stepped
    split at stepped
    · next cid holding =>
      split_ifs at stepped with copied
      · obtain ⟨⟨arc, inner, left⟩, inserted, rfl⟩ := Option.map_eq_some_iff.mp stepped
        have units := insertDirty_units inserted
        exact counted.exchange (by simp [holding, Phase.units]; omega)
      · cases stepped
        exact counted.exchange (by simp [holding, Phase.units])
    · cases stepped
      exact counted
  | writeTake t cid =>
    simp only [CacheManager.step] at stepped
    split_ifs at stepped with ready
    · cases stepped
      exact counted.exchange (by simp [ready.1, Phase.units]; omega)
    · cases stepped
      exact counted
  | writeLock t w =>
    simp only [CacheManager.step] at stepped
    split at stepped
    · next cid holding =>
      obtain ⟨⟨r, inner, left⟩, written, rfl⟩ := Option.map_eq_some_iff.mp stepped
      have units := writeBlock_units written
      exact counted.exchange (by simp [holding, Phase.units]; omega)
    · cases stepped
      exact counted
  | releaseBlock t cid =>
    simp only [CacheManager.step] at stepped
    split_ifs at stepped
    · obtain ⟨inner, released, rfl⟩ := Option.map_eq_some_iff.mp stepped
      obtain ⟨a, arc, -, rfl⟩ := releaseBlock_eq_some released
      exact counted.unlock size_erase_le
    · cases stepped
      exact counted
  | syncTake =>
    simp only [CacheManager.step] at stepped
    split at stepped
    · split_ifs at stepped
      · cases stepped
        exact counted
      · cases stepped
        exact counted
    · cases stepped
      exact counted
  | syncShare =>
    simp only [CacheManager.step] at stepped
    split at stepped
    · split_ifs at stepped
      cases stepped
      exact counted
    · cases stepped
      exact counted
  | syncSuspend =>
    simp only [CacheManager.step] at stepped
    split at stepped
    · next taken sharing =>
      obtain ⟨inner, suspended, rfl⟩ := Option.map_eq_some_iff.mp stepped
      exact counted.unlock (dirtySuspendIter_shrinks taken suspended).2
    · cases stepped
      exact counted

/-- Over every run from a new cache, in any interleaving of the tasks and the sync task,
every unit of the dirty semaphore is free, held by a task or kept by a dirty cluster; so
at most `max_dirty` clusters are dirty. -/
theorem dirty_le_of_run {maxCacheNum : Nat} {events : List (Event τ)}
    (ran : Run.run step (new maxDirty maxCacheNum) events = some m) :
    Counted maxDirty m ∧ m.inner.dirty.size ≤ maxDirty := by
  have start : Counted maxDirty (new maxDirty maxCacheNum : CacheManager τ) := by
    simp [Counted, new, heldUnits, Phase.units, CacheManagerInner.new, Lru.new, size]
  have preserve : ∀ (m : CacheManager τ) (e : Event τ) (m' : CacheManager τ),
      Counted maxDirty m → True → m.step e = some m' → Counted maxDirty m' :=
    fun _ _ _ counted _ stepped => counted.next stepped
  have counted := Run.invariant_of_run preserve events _ m start (fun _ _ => trivial) ran
  refine ⟨counted, ?_⟩
  unfold Counted at counted
  omega

end Units

end CacheManager

end FtlOs
