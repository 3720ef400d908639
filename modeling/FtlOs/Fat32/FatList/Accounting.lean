import FtlOs.Fat32.FatList.Manager

/-!
# Free-cluster accounting

FSInfo's `cluster_free` is meant to count the free data clusters of the FAT,
clusters `2` to `data_cluster_num + 1`.  `alloc_cluster` decrements it once per
cluster it takes, so the count stays right only if the search can reach every
cluster the count includes, and only if what it takes is a FAT entry.

Neither holds.  `max_cid` is `data_cluster_num`, and the inner loop stops at the
first entry whose cluster id reaches it: the last two data clusters are counted
but never allocated, and a FAT whose only free clusters are those two makes
`alloc_cluster` pass unit 0 a third time and panic.  And FSInfo's next-free hint
is used as it is read: the value `0xFFFFFFFF`, which says there is no hint, names
unit `0x1FFFFFF`; the unit after it shifts to cluster 0 in `u32`, so the loop
takes it for the first unit of the FAT and allocates from a sector that is not
part of the FAT at all.
-/

namespace FtlOs

namespace ListManager

/-- The entry of cluster `cid` as the manager sees it: in its unit's cached
buffer, or else on the device. -/
def fatEntry (w : World (List Nat)) (s : ListManager) (cid : Nat) : Option Nat :=
  let (uid, off) := s.getUnitOfCid cid
  match s.units.search.get? uid with
  | some (_, arc) => ListUnit.rawGet s.units arc off
  | none =>
      match w.read uid with
      | .ok data => data[off]?
      | .error _ => none

/-- `free(F)`: the data clusters `2 ≤ c < max_cid + 2` whose entry is free. -/
def freeCount (w : World (List Nat)) (s : ListManager) : Nat :=
  (List.range s.maxCid).countP fun i => s.fatEntry w (i + 2) == some CID.free

/-! ## What the search can reach -/

/-- The inner loop only finds entries whose cluster id is below `max_cid`. -/
theorem findFree_lt {base maxCid off found : Nat} {l : List Nat}
    (scanned : findFree base maxCid off l = some (some found)) :
    U32.add base found < maxCid := by
  induction l generalizing off with
  | nil => simp [findFree] at scanned
  | cons x rest ih =>
    unfold findFree at scanned
    split_ifs at scanned with past
    · simp at scanned
    · split at scanned
      · cases scanned
      · cases scanned
        omega
      · exact ih scanned

variable {w : World (List Nat)} {s s' : ListManager}

/-- `get_unit` changes only the cached units. -/
theorem getUnit_config {uid : Nat} {r : SysR Nat} (got : s.getUnit w uid = some (r, s')) :
    s'.maxCid = s.maxCid ∧ s'.u32PerSectorLog2 = s.u32PerSectorLog2 := by
  obtain ⟨_, -, fetched⟩ := Option.map_eq_some_iff.mp got
  cases fetched
  exact ⟨rfl, rfl⟩

/-- `unit_into_dirty` changes only the cached units. -/
theorem unitIntoDirty_config {uid sems sems' : Nat}
    (dirtied : s.unitIntoDirty uid sems = some (s', sems')) :
    s'.maxCid = s.maxCid ∧ s'.u32PerSectorLog2 = s.u32PerSectorLog2 := by
  unfold unitIntoDirty at dirtied
  simp only [Option.pure_def, Option.bind_eq_bind] at dirtied
  split_ifs at dirtied
  case pos =>
    -- a dirty unit is only asked to be written again
    cases dirtied
    exact ⟨rfl, rfl⟩
  case pos => simp at dirtied
  case neg =>
    simp only [Option.bind_eq_some_iff, Option.some.injEq] at dirtied
    obtain ⟨_, -, _, -, _, -, moved⟩ := dirtied
    cases moved
    exact ⟨rfl, rfl⟩

/-- The outer loop returns an entry whose cluster id is below `max_cid`, and
changes neither `max_cid` nor the unit size. -/
theorem allocLoop_lt {fuel uid arc cnt : Nat} {r : Nat × Nat × Nat}
    (found : allocLoop w fuel uid arc cnt s = some (.ok r, s')) :
    s'.maxCid = s.maxCid ∧ s'.u32PerSectorLog2 = s.u32PerSectorLog2 ∧
      U32.add (U32.shl r.1 s.u32PerSectorLog2) r.2.2 < s.maxCid := by
  induction fuel generalizing uid arc cnt s with
  | zero => simp [allocLoop] at found
  | succ fuel ih =>
    unfold allocLoop at found
    by_cases third : uid = 0 ∧ cnt = 2
    · simp [third] at found
    rw [if_neg third] at found
    dsimp only at found
    split at found
    case h_1 => cases found
    case h_2 off scanned =>
      cases found
      obtain ⟨_, -, inUnit⟩ := Option.bind_eq_some_iff.mp scanned
      exact ⟨rfl, rfl, findFree_lt inUnit⟩
    case h_3 =>
      -- the loop goes on at the next unit, with the configuration it had
      split at found
      case h_1 => cases found
      case h_2 => cases found
      case h_3 arc' s₁ got =>
        obtain ⟨sameMax, sameLog⟩ := getUnit_config got
        obtain ⟨nextMax, nextLog, below⟩ := ih found
        refine ⟨nextMax.trans sameMax, nextLog.trans sameLog, ?_⟩
        rwa [sameMax, sameLog] at below

/-- `alloc_cluster` only returns clusters below `max_cid`, the number of data
clusters: data clusters `max_cid` and `max_cid + 1` are never allocated. -/
theorem allocCluster_lt_maxCid {cid : Nat} (allocated : s.allocCluster w = some (.ok cid, s')) :
    cid < s.maxCid := by
  unfold allocCluster at allocated
  split_ifs at allocated
  · simp at allocated
  split at allocated
  case h_1 => cases allocated
  case h_2 => cases allocated
  case h_3 arc s₁ got =>
    split at allocated
    case h_1 => cases allocated
    case h_2 => cases allocated
    case h_3 uid arc' off s₂ found =>
      obtain ⟨-, loopLog, below⟩ := allocLoop_lt found
      obtain ⟨unitMax, -⟩ := getUnit_config got
      split at allocated
      case h_1 => cases allocated
      case h_2 => cases allocated
      case h_3 units written =>
        obtain ⟨_, dirtied, returned⟩ := Option.map_eq_some_iff.mp allocated
        cases returned
        obtain ⟨-, dirtyLog⟩ := unitIntoDirty_config dirtied
        -- the cluster id is formed with the unit size the loop searched with
        have sameLog := dirtyLog.trans loopLog
        rw [sameLog, ← unitMax]
        exact below

/-- A FAT whose only free data clusters are `max_cid` and `max_cid + 1`. -/
def lastTwoFree : World (List Nat) :=
  World.quiet fun _ => List.replicate 126 CID.last ++ [CID.free, CID.free]

/-- A FAT of two sectors whose clusters from 2 on are free. -/
def mostlyFree : World (List Nat) :=
  World.quiet fun uid =>
    if uid = 0 then [CID.last, CID.last] ++ List.replicate 126 CID.free
    else List.replicate 128 CID.free

set_option maxRecDepth 10000 in
/-- On a FAT of 126 data clusters whose only free clusters are 126 and 127,
FSInfo's count of 2 is right and `alloc_cluster` panics on its third pass over
unit 0.  On a FAT of 128 data clusters, all free, whose FSInfo has the next-free
value `0xFFFFFFFF`, `alloc_cluster` returns cluster 0 and lowers the count to 127,
while the FAT still has 128 free clusters. -/
theorem allocCluster_free_count_diverges :
    ((init 1 126 7 2 0).freeCount lastTwoFree = 2 ∧
      (init 1 126 7 2 0).allocCluster lastTwoFree = none) ∧
    ((init 2 128 7 128 0xFFFFFFFF).freeCount mostlyFree = 128 ∧
      ∃ s₁, (init 2 128 7 128 0xFFFFFFFF).allocCluster mostlyFree = some (.ok 0, s₁) ∧
        s₁.clusterFree = 127 ∧ s₁.freeCount mostlyFree = 128) :=
  ⟨⟨by decide +kernel, rfl⟩, by decide +kernel, _, rfl, rfl, by decide +kernel⟩

/-- A FAT of two 4-entry sectors whose only free data clusters are 6 and 7, the last two. -/
def lastTwoOfSix : World (List Nat) :=
  World.quiet fun uid =>
    if uid = 0 then [0x0FFFFFF8, CID.last, CID.last, CID.last] else [CID.last, CID.last, CID.free, CID.free]

/-- A FAT of two 4-entry sectors with the live chain `2 -> 3` and clusters 4 to 7 free;
the sectors past the FAT read as entries of which the third is free. -/
def liveTwoThree : World (List Nat) :=
  World.quiet fun uid =>
    if uid = 0 then [0x0FFFFFF8, CID.last, 3, CID.last]
    else if uid = 1 then List.replicate 4 CID.free
    else [CID.last, CID.last, CID.free, CID.last]

/-- The same chain `2 -> 3` on a FAT of one 512-byte sector, clusters 4 to 127 free; the
sectors past the FAT read as entries of which the third is free. -/
def liveTwoThreeWide : World (List Nat) :=
  World.quiet fun uid =>
    if uid = 0 then [0x0FFFFFF8, CID.last, 3, CID.last] ++ List.replicate 124 CID.free
    else [CID.last, CID.last, CID.free] ++ List.replicate 125 CID.last

set_option maxRecDepth 10000 in
/-- With six data clusters, two of them free and FSInfo counting them, `alloc_cluster`
panics.  With FSInfo's next-free value `0xFFFFFFFF` it reads unit `0x40000000`, past
the two sectors of the FAT, returns cluster 2, the head of a live chain, and leaves
the FAT entry of cluster 2 as it was.  Both happen at 512-byte sectors as well, with
126 data clusters, where the unit read past the FAT is `0x2000000`. -/
theorem allocCluster_unsound_on_small_fat :
    ((init 2 6 2 2 2).freeCount lastTwoOfSix = 2 ∧ (init 2 6 2 2 2).allocCluster lastTwoOfSix = none) ∧
    (∃ s₁, (init 2 6 2 4 0xFFFFFFFF).allocCluster liveTwoThree = some (.ok 2, s₁) ∧
      (s₁.units.search.get? 0x40000000).isSome ∧
      (init 2 6 2 4 0xFFFFFFFF).fatEntry liveTwoThree 2 = some 3 ∧
      s₁.fatEntry liveTwoThree 2 = some 3) ∧
    ((init 2 126 7 2 2).freeCount lastTwoFree = 2 ∧
      (init 2 126 7 2 2).allocCluster lastTwoFree = none) ∧
    ∃ s₁, (init 2 126 7 124 0xFFFFFFFF).allocCluster liveTwoThreeWide = some (.ok 2, s₁) ∧
      (s₁.units.search.get? 0x2000000).isSome ∧
      (init 2 126 7 124 0xFFFFFFFF).fatEntry liveTwoThreeWide 2 = some 3 ∧
      s₁.fatEntry liveTwoThreeWide 2 = some 3 :=
  ⟨⟨by decide, rfl⟩, ⟨_, rfl, rfl, rfl, rfl⟩, ⟨by decide +kernel, rfl⟩, _, rfl, rfl, rfl, rfl⟩

end ListManager

end FtlOs
