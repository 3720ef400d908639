import FtlOs.Fat32.Inode.Cache

/-!
# Cluster lookups of a `RawInode`

`RawInode` finds the `n`-th cluster of its chain through its list cache, and
walks the FAT with `FatList::travel` from the furthest cluster the cache knows
when the cache cannot answer.  `get_nth_block_alloc` and `append_block` grow the
chain and record the new clusters with `append_first` and `append_last`.

The rest of the file system is a `Volume`: the FAT as a function, the clusters
`alloc_block` hands out, in order, and the cluster contents the block cache
holds.  FAT and block reads do not fail here.

Both growing calls give `append_last` the wrong offset.  `get_nth_block_alloc`
records each new cluster at the chain's new length, one past its offset, and
stops allocating one cluster short: asked for block `n` past the end, it
returns block `n - 1`.  `append_block` records the new cluster at the offset of
the old last one.
-/

namespace FtlOs

/-- `core::ops::ControlFlow`. -/
inductive ControlFlow (β α : Type) where
  /-- `Continue`. -/
  | cont (a : α)
  /-- `Break`. -/
  | stop (b : β)
  deriving DecidableEq, Repr

/-- The value either way, when both carry one type. -/
def ControlFlow.value {α : Type} : ControlFlow α α → α
  | .cont a => a
  | .stop a => a

/-- What an inode's calls see of the rest of the file system. -/
structure Volume where
  fat : Nat → Nat
  /-- The clusters `alloc_block` hands out, in order. -/
  free : List Nat
  /-- The contents of each cluster, as the block cache holds them. -/
  data : Nat → List UInt8
  /-- What a fresh, uninitialised cache buffer for a cluster holds. -/
  uninit : Nat → List UInt8
  /-- `cluster_bytes_log2`. -/
  clusterBytesLog2 : Nat

namespace Volume

/-- `FatList::alloc_block`: the next free cluster, now the last of a chain. -/
def allocBlock (v : Volume) : SysR (Nat × Volume) :=
  match v.free with
  | [] => .error .ENOSPC
  | cid :: rest => .ok (cid, { v with fat := Function.update v.fat cid CID.last, free := rest })

/-- `FatList::alloc_block_after`: the next free cluster, linked after `prev`. -/
def allocBlockAfter (v : Volume) (prev : Nat) : SysR (Nat × Volume) :=
  match v.free with
  | [] => .error .ENOSPC
  | cid :: rest => .ok (cid, { v with
      fat := Function.update (Function.update v.fat cid CID.last) prev cid
      free := rest })

/-- `get_block_init`: a fresh buffer for the cluster, filled by `init`. -/
def getBlockInit (v : Volume) (cid : Nat) (init : List UInt8 → List UInt8) : Volume :=
  { v with data := Function.update v.data cid (init (v.uninit cid)) }

end Volume

namespace FatList

/-- The loop of `FatList::travel` at cluster `cur`, whose entry has offset `i`: it
calls `op` with each entry and its offset while the cluster is a cluster id and
`op` continues.  It also returns the entries and offsets `op` was called with, which
both callers save.  A panic, or running out of fuel on a cyclic chain, is `none`. -/
def travelLoop {α β : Type} (fat : Nat → Nat) (op : α → Nat → Nat → Option (ControlFlow β α)) :
    Nat → Nat → Nat → α → Option (List (Nat × Nat) × ControlFlow β α)
  | 0, _, _, _ => none
  | fuel + 1, cur, i, accum => do
      let next ← CID.isNext cur
      if !next then return ([], .cont accum)
      match ← op accum (fat cur) i with
      | .stop b => return ([(fat cur, i)], .stop b)
      | .cont a =>
          let (seen, r) ← travelLoop fat op fuel (fat cur) (i + 1) a
          return ((fat cur, i) :: seen, r)

/-- `FatList::travel` from cluster `cid` at offset `startOff`; one pass per cluster
id is enough fuel for a chain without a cycle. -/
def travel {α β : Type} (fat : Nat → Nat) (cid startOff : Nat) (init : α)
    (op : α → Nat → Nat → Option (ControlFlow β α)) :
    Option (List (Nat × Nat) × ControlFlow β α) :=
  travelLoop fat op (0x0FFFFFF0 + 1) cid (startOff + 1) init

end FatList

namespace InodeCacheInner

/-- `update_list` for each entry a walk saw, in order. -/
def updateAll (c : InodeCacheInner) : List (Nat × Nat) → Option InodeCacheInner
  | [] => some c
  | (cid, cur) :: rest => (c.updateList cid cur).bind (·.updateAll rest)

end InodeCacheInner

/-- The state of a `RawInode` that its cluster lookups use: the list cache, and
`last_cache`, the block looked up last with its offset. -/
structure RawInode where
  cache : InodeCacheInner
  lastCache : Option (Nat × Nat)
  deriving DecidableEq, Repr

namespace RawInode

/-- The closure `get_nth_block_cid` walks with: stop at the previous cluster at
the end of the chain, or at the cluster of offset `n`. -/
def nthStep (n : Nat) (prev : Nat × Nat) (cid cur : Nat) :
    Option (ControlFlow (Nat × Nat) (Nat × Nat)) :=
  (CID.isNext cid).map fun next =>
    if !next then .stop prev
    else if cur = n then .stop (cur, cid)
    else .cont (cur, cid)

/-- The closure `get_list_last` walks with: stop at the previous cluster at the end
of the chain. -/
def lastStep (prev : Nat × Nat) (cid cur : Nat) : Option (ControlFlow (Nat × Nat) (Nat × Nat)) :=
  (CID.isNext cid).map fun next => if !next then .stop prev else .cont (cur, cid)

/-- `get_nth_block_cid`: `ok` the `n`-th cluster, or `error` the chain's length;
the cache learns what the walk saw.  `list_last_save().unwrap()` panics on an
empty chain, which the cache answers before. -/
def getNthBlockCid (ino : RawInode) (fat : Nat → Nat) (n : Nat) :
    Option (Except Nat Nat × RawInode) := do
  match ← ino.cache.tryGetNthBlockCid n with
  | some r => return (r, ino)
  | none =>
      let saved ← ino.cache.listLastSave
      let (cur, cid) ← saved
      let (seen, r) ← FatList.travel fat cid cur (cur, cid) (nthStep n)
      let cache ← ino.cache.updateAll seen
      let (off, cid) := r.value
      return (if off < n then .error (off + 1) else .ok cid, { ino with cache })

/-- `get_list_last`: the offset and id of the last cluster, `none` for an empty
chain; the cache learns what the walk saw. -/
def getListLast (ino : RawInode) (fat : Nat → Nat) : Option (Option (Nat × Nat) × RawInode) := do
  match ← ino.cache.listLastSave with
  | none => return (none, ino)
  | some (cur, cid) =>
      let (seen, r) ← FatList.travel fat cid cur (cur, cid) lastStep
      let cache ← ino.cache.updateAll seen
      return (some r.value, { ino with cache })

/-- `get_nth_block` past its `last_cache` check. -/
def findNthBlock (ino : RawInode) (fat : Nat → Nat) (n : Nat) : Option (Except Nat Nat × RawInode) := do
  let (x, ino) ← match ← ino.cache.tryGetNthBlockCid n with
    | some x => some (x, ino)
    | none => ino.getNthBlockCid fat n
  return match x with
    | .ok cid => (.ok cid, { ino with lastCache := some (n, cid) })
    | .error len => (.error len, ino)

/-- `get_nth_block`: `ok` the `n`-th cluster, or `error` the chain's length. -/
def getNthBlock (ino : RawInode) (fat : Nat → Nat) (n : Nat) : Option (Except Nat Nat × RawInode) :=
  match ino.lastCache with
  | some (ln, cid) => if ln = n then some (.ok cid, ino) else ino.findNthBlock fat n
  | none => ino.findNthBlock fat n

/-- The loop of `get_nth_block_alloc`: `k` more clusters linked one after another
from `cid`, the chain having `curLen` clusters.  Returns the offsets the source
records them at with the clusters, the last cluster, the volume, and the error that
stopped the loop. -/
def allocMore (init : List UInt8 → List UInt8) :
    Nat → Nat → Nat → Volume → List (Nat × Nat) × Nat × Volume × Option SysError
  | 0, cid, _, v => ([], cid, v, none)
  | k + 1, cid, curLen, v =>
      match v.allocBlockAfter cid with
      | .error e => ([], cid, v, some e)
      | .ok (cid, v) =>
          let v := v.getBlockInit cid init
          -- `cur_len += 1; update.push((cur_len, cid))`
          let (update, last, v, e) := allocMore init k cid (curLen + 1) v
          ((curLen + 1, cid) :: update, last, v, e)

/-- `append_last` for each cluster the loop recorded, in order. -/
def appendAll (c : InodeCacheInner) : List (Nat × Nat) → Option InodeCacheInner
  | [] => some c
  | (n, cid) :: rest => (c.appendLast n cid).bind (appendAll · rest)

/-- Where `get_nth_block_alloc` starts its loop when block `n` is past the chain's
`curLen` clusters, `cid` the last: an empty chain first gets a cluster by
`alloc_block`.  Also says whether a block is in hand. -/
def allocStart (ino : RawInode) (v : Volume) (n curLen cid : Nat)
    (init : List UInt8 → List UInt8) : SysR (Nat × Nat × Bool × Volume × RawInode) :=
  if curLen = 0 then
    match v.allocBlock with
    | .error e => .error e
    | .ok (cid, v) =>
        .ok (1, cid, true, v.getBlockInit cid init, { ino with cache := ino.cache.appendFirst cid })
  else .ok (curLen, cid, curLen = n, v, ino)

/-- `get_nth_block_alloc`: the `n`-th cluster, allocating clusters when the chain
is shorter. -/
def getNthBlockAlloc (ino : RawInode) (v : Volume) (n : Nat) (init : List UInt8 → List UInt8) :
    Option (SysR Nat × Volume × RawInode) := do
  let (r, ino) ← ino.getNthBlock v.fat n
  match r with
  | .ok cid => return (.ok cid, v, ino)
  | .error curLen =>
      let (cid, ino) ← if curLen = 0 then pure (CID.free, ino) else do
        let (last, ino) ← ino.getNthBlockCid v.fat (curLen - 1)
        -- `.unwrap()`
        let cid ← last.toOption
        pure (cid, ino)
      match ino.allocStart v n curLen cid init with
      | .error e => return (.error e, v, ino)
      | .ok (curLen, cid, fetched, v, ino) =>
          let (update, cid, v, e) := allocMore init (n - curLen) cid curLen v
          match e with
          | some e => return (.error e, v, ino)
          | none =>
              let cache ← appendAll ino.cache update
              -- `cache.unwrap()`: a block is in hand unless the chain was already longer
              if fetched || decide (curLen < n) then
                return (.ok cid, v, { ino with cache, lastCache := some (n, cid) })
              else none

/-- `append_block`: link a new cluster after the last one; returns the offset it
is recorded at and the cluster. -/
def appendBlock (ino : RawInode) (v : Volume) (init : List UInt8 → List UInt8) :
    Option (SysR (Nat × Nat) × Volume × RawInode) := do
  let (last, ino) ← ino.getListLast v.fat
  let (n, allocated) := match last with
    | none => (0, v.allocBlock)
    | some (off, cid) => (off, v.allocBlockAfter cid)
  match allocated with
  | .error e => return (.error e, v, ino)
  | .ok (cid, v) =>
      let v := v.getBlockInit cid init
      let cache ← ino.cache.appendLast n cid
      return (.ok (n, cid), v, { ino with cache })

/-- A volume whose FAT holds the one-cluster chain `[5]`, with clusters 6, 7 and 8
free. -/
def oneCluster : Volume :=
  ⟨Function.update (fun _ => CID.free) 5 CID.last, [6, 7, 8], fun _ => List.replicate 512 0,
    fun _ => List.replicate 512 0, 9⟩

/-- A file whose short entry names cluster 5, as it is opened. -/
def oneClusterInode : RawInode := ⟨⟨[5], 5, (0, 5), none, 0⟩, none⟩

/-- On the one-cluster file, `append_block` links cluster 6 but records it at
offset 0, so the cache no longer agrees with the chain `[5, 6]` and then reports
block 1 missing; `get_nth_block_alloc` of block 1 allocates nothing and returns
block 0; and `get_nth_block_alloc` of block 2 links one cluster and records it at
offset 2. -/
theorem inode_cache_incoherent_after_growth :
    InodeCacheInner.new 5 0 = some oneClusterInode.cache ∧
    (∃ v ino, oneClusterInode.appendBlock oneCluster id = some (.ok (0, 6), v, ino) ∧
      v.fat 5 = 6 ∧ v.fat 6 = CID.last ∧ ¬ino.cache.Coherent [5, 6] ∧
      (ino.getNthBlock v.fat 1).map Prod.fst = some (.error 1) ∧ nthBlock [5, 6] 1 = .ok 6) ∧
    (oneClusterInode.getNthBlockAlloc oneCluster 1 id).map (fun r => (r.1, r.2.1.fat 5)) =
      some (.ok 5, CID.last) ∧
    (∃ v ino, oneClusterInode.getNthBlockAlloc oneCluster 2 id = some (.ok 6, v, ino) ∧
      v.fat 5 = 6 ∧ v.fat 6 = CID.last ∧ ¬ino.cache.Coherent [5, 6]) := by
  refine ⟨rfl, ⟨_, _, rfl, rfl, rfl, ?_, by decide +kernel, rfl⟩, by decide +kernel,
    ⟨_, _, rfl, rfl, rfl, ?_⟩⟩
  -- both runs walk `[5]` to its end, which sets `len`, and then append cluster 6 at an
  -- offset other than 1
  · exact InodeCacheInner.appendLast_not_coherent (c := ⟨[5], 5, (0, 5), some 1, 0⟩)
      (by decide : (6 : Nat) ∉ [5]) (n := 0) (by decide) rfl
  · exact InodeCacheInner.appendLast_not_coherent (c := ⟨[5], 5, (0, 5), some 1, 0⟩)
      (by decide : (6 : Nat) ∉ [5]) (n := 2) (by decide) rfl

end RawInode

end FtlOs
