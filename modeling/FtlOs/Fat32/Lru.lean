import FtlOs.Library.OrdMap
import FtlOs.Util.Error

/-!
# The LRU bookkeeping of the fat32 caches

`CacheManagerInner` (data clusters, keyed by CID) and `ListManager` (FAT
sectors, keyed by UnitID) keep their cached objects in three ordered maps that
they update by hand:

* `search`: key ↦ (aid, Arc), every cached object;
* `clean`: aid ↦ (key, Arc), the objects that may be evicted, oldest first;
* `dirty`: key ↦ Arc, the objects the sync task still has to write back;

and `sync_pending`, the keys the sync task is asked to write.  Each object also
carries its own access id (an `UnsafeCell<AID>`) that readers refresh without the
manager's lock, so the key of an object's clean entry may be older than the
object's aid; the eviction scan repairs that as it meets it.

An `Arc` is a handle into a heap of objects.  What other tasks do while the
manager runs is a `World`: which objects they hold a strong reference to
(`Arc::strong_count(&cache) != 2`), whether a buffer allocation succeeds, and
what the device returns.  A panic (`unwrap`, `assert!`) is `none`.  The two
managers' eviction scans are the same code and are one definition here.
-/

namespace FtlOs

/-- A cached object behind an `Arc`: its access id and its contents. -/
structure Obj (D : Type) where
  aid : Nat
  data : D
  deriving DecidableEq, Repr

/-- What the rest of the system decides while the manager runs one call. -/
structure World (D : Type) where
  /-- The Arcs another task holds a strong reference to. -/
  held : Nat → Bool
  /-- `Buffer::new` succeeds. -/
  bufferOk : Bool
  /-- The copy on write of a key's shared buffer succeeds. -/
  copyOk : Nat → Bool
  /-- What `read_block` returns for a key. -/
  read : Nat → SysR D

/-- A world in which nobody else holds an object and every allocation, copy and
read succeeds, the device returning `read key` for a key. -/
def World.quiet {D : Type} (read : Nat → D) : World D :=
  ⟨fun _ => false, true, fun _ => true, fun key => .ok (read key)⟩

/-- The world a call sees while it holds the Arc `arc` itself. -/
def World.hold {D : Type} (w : World D) (arc : Nat) : World D :=
  { w with held := fun a => a == arc || w.held a }

/-- Nothing the device or the allocator does fails: every buffer allocation, copy on
write and read succeeds. -/
structure World.Reliable {D : Type} (w : World D) : Prop where
  bufferOk : w.bufferOk = true
  copyOk : ∀ k, w.copyOk k = true
  read : ∀ k, ∃ d, w.read k = .ok d

theorem World.reliable_quiet {D : Type} (read : Nat → D) : (World.quiet read).Reliable :=
  ⟨rfl, fun _ => rfl, fun k => ⟨read k, rfl⟩⟩

/-- Holding an Arc changes none of what can fail. -/
theorem World.Reliable.hold {D : Type} {w : World D} (reliable : w.Reliable) (arc : Nat) :
    (w.hold arc).Reliable :=
  ⟨reliable.bufferOk, reliable.copyOk, reliable.read⟩

/-- The bookkeeping `CacheManagerInner` and `ListManager` share. -/
structure Lru (D : Type) where
  /-- `max_cache_num`, `max_unit_num`. -/
  maxNum : Nat
  search : OrdMap Nat (Nat × Nat)
  clean : OrdMap Nat (Nat × Nat)
  dirty : OrdMap Nat Nat
  syncPending : OrdMap Nat Unit
  /-- The objects behind the Arcs. -/
  heap : OrdMap Nat (Obj D)
  /-- The next value of the `AIDAllocator`. -/
  aidNext : Nat
  /-- The next fresh Arc. -/
  arcNext : Nat

namespace Lru

variable {D : Type}

/-- The manager after `new` and `init`: nothing cached. -/
def new (maxNum : Nat) : Lru D :=
  ⟨maxNum, .empty, .empty, .empty, .empty, .empty, 0, 0⟩

/-- `update_aid` on the object behind an Arc. -/
def updateAid (s : Lru D) (arc aid : Nat) : Lru D :=
  { s with heap := s.heap.modify arc fun o => { o with aid } }

/-- A reader's access to a cached object (`ListUnit::get`, `update_aid` after a
lookup): it draws an access id and stores it in the object. -/
def touch (s : Lru D) (arc : Nat) : Lru D :=
  { s with aidNext := s.aidNext + 1 }.updateAid arc s.aidNext

/-- What one pass of the eviction loop ends with. -/
inductive Visit (D : Type) where
  /-- The loop returns. -/
  | done (result : SysR (Nat × Nat)) (s : Lru D)
  /-- The loop continues. -/
  | next (s : Lru D)

/-- The state a pass leaves. -/
def Visit.state : Visit D → Lru D
  | .done _ s => s
  | .next s => s

/-- One pass of the loop of `get_new_uninit_block` / `get_new_uninit_unit`, with
`searchMax` the access id drawn before the loop. -/
def visit (held : Nat → Bool) (searchMax : Nat) (s : Lru D) : Option (Visit D) := do
  let ((xaid, key, arc), clean) ← s.clean.popFirst
  if searchMax < xaid then
    -- every object was requeued since the scan began; the popped entry is not put back
    return .done (.error .ENOBUFS) { s with clean }
  let o ← s.heap.get? arc
  if o.aid ≠ xaid then
    -- a reader refreshed the object: requeue it under its own aid
    let search ← s.search.update key fun e => (o.aid, e.2)
    let clean ← clean.tryInsert o.aid (key, arc)
    return .next { s with search, clean }
  let ((_, ps), search) ← s.search.remove key
  if held arc then
    -- someone else holds the object: requeue it under a fresh aid
    let aid := s.aidNext
    let search ← search.tryInsert key (aid, ps)
    let clean ← clean.tryInsert aid (key, arc)
    return .next ({ s with search, clean, aidNext := aid + 1 }.updateAid arc aid)
  -- `Arc::try_unwrap` succeeds: the count was two and `ps` is dropped
  return .done (.ok (key, arc)) { s with search, clean }

/-- The eviction loop, with fuel; `getNewUninit` gives it enough. -/
def scan (held : Nat → Bool) (searchMax : Nat) : Nat → Lru D → Option (SysR (Nat × Nat) × Lru D)
  | 0, _ => none
  | fuel + 1, s =>
      match s.visit held searchMax with
      | none => none
      | some (.done result s) => some (result, s)
      | some (.next s) => scan held searchMax fuel s

/-- `get_new_uninit_block` / `get_new_uninit_unit`: a fresh buffer while the cache
has room, else the key and Arc of an evicted clean object. -/
def getNewUninit (w : World D) (s : Lru D) : Option (SysR (Option (Nat × Nat)) × Lru D) :=
  if s.search.size < s.maxNum then
    some (if w.bufferOk then .ok none else .error .ENOMEM, s)
  -- assert!(!self.clean.is_empty())
  else if s.clean.size = 0 then none
  else
    (scan w.held s.aidNext (2 * s.clean.size + 1) { s with aidNext := s.aidNext + 1 }).map
      fun (result, s) => (result.map some, s)

/-- `force_insert_block`, and the end of `get_unit`: the loaded object gets a new
Arc and a fresh aid, and enters search and clean. -/
def forceInsert (key : Nat) (data : D) (s : Lru D) : Option (Nat × Lru D) := do
  let aid := s.aidNext
  let arc := s.arcNext
  let search ← s.search.tryInsert key (aid, arc)
  let clean ← s.clean.tryInsert aid (key, arc)
  let heap := s.heap.insert arc ⟨aid, data⟩
  return (arc, { s with search, clean, heap, aidNext := aid + 1, arcNext := arc + 1 })

/-- `get_block` / `get_unit`: the cached Arc, or the object loaded from the device
into a fresh or evicted buffer.  Also returns the key of the evicted object. -/
def get (w : World D) (key : Nat) (s : Lru D) : Option (SysR (Nat × Option Nat) × Lru D) :=
  match s.search.get? key with
  | some (_, arc) => some (.ok (arc, none), s)
  | none =>
      match s.getNewUninit w with
      | none => none
      | some (.error e, s) => some (.error e, s)
      | some (.ok replaced, s) =>
          match w.read key with
          | .error e => some (.error e, s)
          | .ok data => (s.forceInsert key data).map fun (arc, s) =>
              (.ok (arc, replaced.map Prod.fst), s)

/-- The sync task's `WaitDirtyFuture`: take the pending keys. -/
def takePending (s : Lru D) : List Nat × Lru D :=
  (s.syncPending.keys, { s with syncPending := .empty })

/-- `dirty_suspend_iter`: the written keys that were not dirtied again go back to
clean under a fresh aid. -/
def dirtySuspendIter (s : Lru D) : List Nat → Option (Lru D)
  | [] => some s
  | key :: rest =>
      if (s.syncPending.get? key).isSome then s.dirtySuspendIter rest
      else do
        let (arc, dirty) ← s.dirty.remove key
        let aid := s.aidNext
        let clean ← s.clean.tryInsert aid (key, arc)
        let search ← s.search.update key fun e => (aid, e.2)
        dirtySuspendIter { s with dirty, clean, search, aidNext := aid + 1 } rest

/-! ## Field lemmas -/

@[simp] theorem updateAid_search (s : Lru D) (arc aid : Nat) :
    (s.updateAid arc aid).search = s.search := rfl
@[simp] theorem updateAid_clean (s : Lru D) (arc aid : Nat) :
    (s.updateAid arc aid).clean = s.clean := rfl
@[simp] theorem updateAid_dirty (s : Lru D) (arc aid : Nat) :
    (s.updateAid arc aid).dirty = s.dirty := rfl
@[simp] theorem updateAid_syncPending (s : Lru D) (arc aid : Nat) :
    (s.updateAid arc aid).syncPending = s.syncPending := rfl
@[simp] theorem updateAid_maxNum (s : Lru D) (arc aid : Nat) :
    (s.updateAid arc aid).maxNum = s.maxNum := rfl
@[simp] theorem updateAid_aidNext (s : Lru D) (arc aid : Nat) :
    (s.updateAid arc aid).aidNext = s.aidNext := rfl
@[simp] theorem updateAid_arcNext (s : Lru D) (arc aid : Nat) :
    (s.updateAid arc aid).arcNext = s.arcNext := rfl

theorem updateAid_heap (s : Lru D) (arc aid : Nat) :
    (s.updateAid arc aid).heap = s.heap.modify arc fun o => { o with aid } := rfl

theorem heap_updateAid (s : Lru D) (arc aid x : Nat) :
    (s.updateAid arc aid).heap.get? x =
      if x = arc then (s.heap.get? arc).map fun o => { o with aid } else s.heap.get? x :=
  OrdMap.get?_modify

end Lru

end FtlOs
