import FtlOs.Fat32.LruCalls

/-!
# The FAT sector cache

`ListManager` keeps sectors of the FAT in memory as `ListUnit`s, each holding the
entries of one sector, with the LRU bookkeeping of `FtlOs.Fat32.Lru` keyed by
`UnitID`.  It also keeps the number of free clusters and the cluster where the
next allocation starts its search, both read from the FSInfo sector.  A FAT entry
is a `CID`: free, the next cluster of a chain, the last one, bad or reserved.

The allocation and free calls read and write entries through the cached units.
`alloc_cluster` scans for a free entry, `free_cluster` frees one entry, and
`free_cluster_at` frees the rest of a chain while the caller's dirty-semaphore
units last.  Every unit they write goes to dirty through `unit_into_dirty`.
Unit ids and cluster ids are `u32`s.  The arithmetic on them wraps in a
release build, and the model wraps it too.
-/

namespace FtlOs

/-! ## FAT entries -/

/-- `ClStatus`: what a FAT entry says about its cluster. -/
inductive ClStatus where
  | free
  | reverse
  | next (cid : Nat)
  | bad
  | last
  deriving DecidableEq, Repr

namespace CID

/-- `CID::FREE`. -/
def free : Nat := 0x0

/-- `CID::LAST`. -/
def last : Nat := 0x0FFFFFFF

/-- `CID::status`: an entry with one of the top four bits set is a `panic!`. -/
def status (v : Nat) : Option ClStatus :=
  if v = 0x0 then some .free
  else if v = 0x1 then some .reverse
  else if v < 0x0FFFFFF0 then some (.next v)
  else if v < 0x0FFFFFF7 then some .reverse
  else if v = 0x0FFFFFF7 then some .bad
  else if v < 0x10000000 then some .last
  else none

/-- `CID::is_free`. -/
def isFree (v : Nat) : Option Bool := (status v).map (· == .free)

/-- `CID::is_next`. -/
def isNext (v : Nat) : Option Bool :=
  (status v).map fun
    | .next _ => true
    | _ => false

end CID

namespace U32

/-- `u32` addition in a release build. -/
def add (a b : Nat) : Nat := (a + b) % 2 ^ 32

/-- `u32` shift left: the bits shifted past the top are lost. -/
def shl (a k : Nat) : Nat := (a <<< k) % 2 ^ 32

end U32

/-- `FsinfoStatus`: whether the FSInfo sector needs a write, and whether one is
under way. -/
inductive FsinfoStatus where
  | clean
  | dirty
  | syncClean
  | syncDirty
  deriving DecidableEq, Repr

/-- `fsinfo_into_dirty`. -/
def FsinfoStatus.intoDirty : FsinfoStatus → FsinfoStatus
  | .clean | .dirty => .dirty
  | .syncClean | .syncDirty => .syncDirty

/-! ## Units -/

namespace ListUnit

/-- `ListUnit::raw_get`: one entry of the unit behind an Arc; past the buffer's end
the index panics. -/
def rawGet (units : Lru (List Nat)) (arc off : Nat) : Option Nat := do
  let o ← units.heap.get? arc
  o.data[off]?

/-- `ListUnit::get`: store a fresh aid in the unit, then read an entry. -/
def get (units : Lru (List Nat)) (arc off : Nat) : Option (Nat × Lru (List Nat)) :=
  (rawGet units arc off).map fun v => (v, units.touch arc)

/-- The write of one entry into a unit whose buffer is already unique. -/
def write (units : Lru (List Nat)) (arc off v : Nat) : Option (Lru (List Nat)) := do
  let o ← units.heap.get? arc
  if off < o.data.length then
    return { units with heap := units.heap.insert arc { o with data := o.data.set off v } }
  else none

/-- `ListUnit::to_unique`: the copy on write of the buffer of unit `uid`, which
fails when the allocation fails. -/
def toUnique (w : World (List Nat)) (uid : Nat) : SysR Unit :=
  if w.copyOk uid then .ok () else .error .ENOMEM

/-- `ListUnit::set`: `to_unique`, then the write. -/
def set (w : World (List Nat)) (uid : Nat) (units : Lru (List Nat)) (arc off v : Nat) :
    Option (SysR (Lru (List Nat))) :=
  match toUnique w uid with
  | .error e => some (.error e)
  | .ok () => (write units arc off v).map .ok

end ListUnit

/-! ## The manager -/

/-- `ListManager`: the unit cache with the free-cluster accounting. -/
structure ListManager where
  /-- `max_cid`: the number of data clusters; entries from it on are not searched. -/
  maxCid : Nat
  /-- `u32_per_sector_log2`: a sector holds `2 ^ u32PerSectorLog2` entries. -/
  u32PerSectorLog2 : Nat
  /-- `cluster_free`, a `u32`. -/
  clusterFree : Nat
  /-- `cluster_search`: where the next allocation starts. -/
  clusterSearch : Nat
  fsinfoStatus : FsinfoStatus
  /-- The cached units: `search`, `clean`, `dirty`, `sync_pending` and the buffers. -/
  units : Lru (List Nat)

namespace ListManager

/-- `ListManager::new` followed by `init`: nothing cached, and the free count and
the search start read from FSInfo. -/
def init (maxUnitNum maxCid u32PerSectorLog2 clusterFree clusterNext : Nat) : ListManager :=
  ⟨maxCid, u32PerSectorLog2, clusterFree, clusterNext, .clean, Lru.new maxUnitNum⟩

/-- `get_unit_of_cid`: the unit holding a cluster's entry, and the entry's offset. -/
def getUnitOfCid (s : ListManager) (cid : Nat) : Nat × Nat :=
  (cid >>> s.u32PerSectorLog2, cid % (1 <<< s.u32PerSectorLog2))

/-- `get_unit`: the cached unit's Arc, or the sector read into a fresh or evicted
buffer.  It does not refresh the unit's aid. -/
def getUnit (w : World (List Nat)) (uid : Nat) (s : ListManager) :
    Option (SysR Nat × ListManager) :=
  (s.units.get w uid).map fun (r, units) => (r.map Prod.fst, { s with units })

/-- `get_new_uninit_unit`. -/
def getNewUninitUnit (w : World (List Nat)) (s : ListManager) :
    Option (SysR (Option (Nat × Nat)) × ListManager) :=
  (s.units.getNewUninit w).map fun (r, units) => (r, { s with units })

/-- `unit_into_dirty`, with `sems` the units of the caller's `MultiplySemaphore`;
returns the units left to the caller. -/
def unitIntoDirty (uid sems : Nat) (s : ListManager) : Option (ListManager × Nat) :=
  -- `assert!(sems.val() >= 1)`
  if sems = 0 then none
  else if (s.units.dirty.get? uid).isSome then
    some ({ s with units := { s.units with syncPending := s.units.syncPending.insert uid () } },
      sems)
  else do
    let (aid, _) ← s.units.search.get? uid
    -- `self.clean.remove(&aid).unwrap()`
    let ((_, unit), clean) ← s.units.clean.remove aid
    let dirty ← s.units.dirty.tryInsert uid unit
    -- `sync_pending.insert(uid)` returning false is a `panic!()`
    if (s.units.syncPending.get? uid).isSome then none
    else return ({ s with units := { s.units with
      clean
      dirty
      syncPending := s.units.syncPending.insert uid () } }, sems - 1)

/-- `take_dirty_pending`. -/
def takeDirtyPending (s : ListManager) : List Nat × ListManager :=
  (s.units.takePending.1, { s with units := s.units.takePending.2 })

/-- `dirty_suspend_iter`. -/
def dirtySuspendIter (uids : List Nat) (s : ListManager) : Option ListManager :=
  (s.units.dirtySuspendIter uids).map fun units => { s with units }

/-- The inner `for` of `alloc_cluster` over a unit whose first entry is cluster
`base`: the offset of the first free entry below `max_cid`.  `CID::status` may
panic on an entry. -/
def findFree (base maxCid : Nat) : Nat → List Nat → Option (Option Nat)
  | _, [] => some none
  | off, x :: rest =>
      if maxCid ≤ U32.add base off then some none
      else
        match CID.isFree x with
        | none => none
        | some true => some (some off)
        | some false => findFree base maxCid (off + 1) rest

/-- The outer loop of `alloc_cluster` at unit `uid`, with its Arc in hand and `cnt`
passes over unit 0 so far; with fuel.  Returns the unit, its Arc and the offset of
the free entry. -/
def allocLoop (w : World (List Nat)) :
    Nat → Nat → Nat → Nat → ListManager → Option (SysR (Nat × Nat × Nat) × ListManager)
  | 0, _, _, _, _ => none
  | fuel + 1, uid, arc, cnt, s =>
      -- a third pass over unit 0 is a `panic!()`: FSInfo was wrong
      if uid = 0 ∧ cnt = 2 then none
      else
        let cnt := if uid = 0 then cnt + 1 else cnt
        let found := (s.units.heap.get? arc).bind fun o =>
          findFree (U32.shl uid s.u32PerSectorLog2) s.maxCid 0 o.data
        match found with
        | none => none
        | some (some off) => some (.ok (uid, arc, off), s)
        | some none =>
            let uid := U32.add uid 1
            let uid := if s.maxCid ≤ U32.shl uid s.u32PerSectorLog2 then 0 else uid
            let s := { s with
              fsinfoStatus := s.fsinfoStatus.intoDirty
              clusterSearch := U32.shl uid s.u32PerSectorLog2 }
            -- `unit = self.get_unit(uid).await?`: the unit in hand is held meanwhile
            match s.getUnit (w.hold arc) uid with
            | none => none
            | some (.error e, s) => some (.error e, s)
            | some (.ok arc', s) => allocLoop w fuel uid arc' cnt s

/-- `alloc_cluster`, with the caller's one semaphore unit.  The loop passes unit 0
at most three times and a unit id is a `u32`, so `3 * 2 ^ 32 + 1` passes are enough
fuel. -/
def allocCluster (w : World (List Nat)) (s : ListManager) : Option (SysR Nat × ListManager) :=
  if s.clusterFree = 0 then some (.error .ENOSPC, s)
  else
    match s.getUnit w (s.getUnitOfCid s.clusterSearch).1 with
    | none => none
    | some (.error e, s) => some (.error e, s)
    | some (.ok arc, s₁) =>
        match allocLoop w (3 * 2 ^ 32 + 1) (s.getUnitOfCid s.clusterSearch).1 arc 0 s₁ with
        | none => none
        | some (.error e, s) => some (.error e, s)
        | some (.ok (uid, arc, off), s) =>
            match ListUnit.set w uid s.units arc off CID.last with
            | none => none
            | some (.error e) => some (.error e, s)
            | some (.ok units) =>
                let s := { s with
                  units
                  clusterFree := s.clusterFree - 1
                  fsinfoStatus := s.fsinfoStatus.intoDirty }
                (s.unitIntoDirty uid 1).map fun (s, _) =>
                  (.ok (U32.add (U32.shl uid s.u32PerSectorLog2) off), s)

/-- `alloc_cluster_after`: allocate a cluster and link it after `cid`, the last of
its chain, with the caller's two semaphore units. -/
def allocClusterAfter (w : World (List Nat)) (cid : Nat) (s : ListManager) :
    Option (SysR Nat × ListManager) :=
  let (uid, uoff) := s.getUnitOfCid cid
  match s.getUnit w uid with
  | none => none
  | some (.error e, s) => some (.error e, s)
  | some (.ok blk, s) =>
      let s := { s with units := s.units.touch blk }
      match ListUnit.toUnique w uid with
      | .error e => some (.error e, s)
      | .ok () =>
          -- `alloc_cluster(sems.try_take().unwrap())`, holding `blk`
          match allocCluster (w.hold blk) s with
          | none => none
          | some (.error e, s) => some (.error e, s)
          | some (.ok new, s) =>
              -- `blk.set(uoff, cid).unwrap()`: `to_unique` made the write safe
              match ListUnit.write s.units blk uoff new with
              | none => none
              | some units =>
                  (({ s with units } : ListManager).unitIntoDirty uid 1).map fun (s, _) => (.ok new, s)

/-- `free_cluster`: free the entry of `cid`, with the caller's one semaphore unit. -/
def freeCluster (w : World (List Nat)) (cid : Nat) (s : ListManager) :
    Option (SysR Unit × ListManager) :=
  let (uid, uoff) := s.getUnitOfCid cid
  match s.getUnit w uid with
  | none => none
  | some (.error e, s) => some (.error e, s)
  | some (.ok arc, s) =>
      let s := { s with units := s.units.touch arc }
      match ListUnit.set w uid s.units arc uoff CID.free with
      | none => none
      | some (.error e) => some (.error e, s)
      | some (.ok units) =>
          let s := { s with
            units
            clusterFree := U32.add s.clusterFree 1
            fsinfoStatus := s.fsinfoStatus.intoDirty }
          (s.unitIntoDirty uid 1).map fun (s, _) => (.ok (), s)

end ListManager

end FtlOs
