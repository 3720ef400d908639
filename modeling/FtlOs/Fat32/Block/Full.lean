import FtlOs.Fat32.Block.Manager

/-!
# A cache full of dirty clusters

The comment on `CacheManager`'s dirty semaphore asks for fewer units than the clusters
the cache holds, but `Fat32Type::new` mounts with 100 of each.  With as many units as
clusters, a task that reads and writes that many distinct clusters before the sync task
runs leaves every cached cluster dirty, and `get_block` of one more cluster then fails
the assertion of `get_new_uninit_block` that a full cache has a clean cluster, while
`try_release_free` unwraps an empty clean map.  With the clusters only read and every
buffer held by its reader, `get_block` of one more returns `ENOBUFS` and drops the clean
entry it popped, so the cache is no longer coherent.
-/

namespace FtlOs

/-- The block cache's part of `Fat32Type`, which `new_fs` passes to `CacheManager::new`. -/
structure Fat32Type where
  blockMaxDirty : Nat
  blockMaxCache : Nat

/-- `Fat32Type::new`. -/
def Fat32Type.new : Fat32Type := ⟨100, 100⟩

/-- The block cache of a file system `new_fs` mounts. -/
def Fat32Type.blockCache {τ : Type} (f : Fat32Type) : CacheManager τ :=
  CacheManager.new f.blockMaxDirty f.blockMaxCache

namespace CacheManager

open Lru OrdMap CacheManagerInner

section Inner

variable {s s' : CacheManagerInner} {w : World Unit} {cid : Nat}

/-- On a full cache with no clean cluster, `get_block` of a cluster not cached fails
`assert!(!self.clean.is_empty())`. -/
theorem getBlock_eq_none_of_full (full : s.maxNum ≤ s.search.size) (noClean : s.clean.size = 0)
    (absent : s.search.get? cid = none) : s.getBlock w cid = none := by
  simp [CacheManagerInner.getBlock, Lru.get, absent, Lru.getNewUninit, Nat.not_lt.mpr full, noClean]

/-- `get_block` of a cluster not cached returns the error of `get_new_uninit_block`. -/
theorem getBlock_of_getNewUninit_error {e : SysError} (absent : s.search.get? cid = none)
    (failed : s.getNewUninit w = some (.error e, s')) : s.getBlock w cid = some (.error e, s') := by
  simp [CacheManagerInner.getBlock, Lru.get, absent, failed]

/-- `get_block` of a cluster not cached, with room and nothing failing, reads it into a
fresh buffer and inserts it. -/
theorem getBlock_of_room (reliable : w.Reliable) (room : s.search.size < s.maxNum)
    (absent : s.search.get? cid = none) :
    ∃ d, (s.getBlock w cid).map Prod.snd = (s.forceInsert cid d).map Prod.snd := by
  obtain ⟨d, read⟩ := reliable.read cid
  refine ⟨d, ?_⟩
  cases inserted : s.forceInsert cid d with
  | none => simp [CacheManagerInner.getBlock, Lru.get, absent, Lru.getNewUninit, room, reliable.bufferOk,
      read, inserted]
  | some r => simp [CacheManagerInner.getBlock, Lru.get, absent, Lru.getNewUninit, room, reliable.bufferOk,
      read, inserted]

end Inner

variable {τ : Type} [DecidableEq τ] {maxDirty maxCacheNum k : Nat} {done : List Nat}
  {m : CacheManager τ} {w : World Unit} {t : τ} {cid : Nat}

/-- A cache after one task read the distinct clusters `done` and wrote `k` of them, with
every task idle and no sync round run. -/
structure Loaded (maxDirty maxCacheNum : Nat) (done : List Nat) (k : Nat)
    (m : CacheManager τ) : Prop where
  sound : Sound m.inner
  capacity : m.inner.maxNum = maxCacheNum
  cached : m.inner.search.size = done.length
  cachedOnly : ∀ x, (m.inner.search.get? x).isSome → x ∈ done
  dirty : m.inner.dirty.size = k
  clean : m.inner.clean.size + k = done.length
  free : m.dirtySemaphore + k = maxDirty
  idle : ∀ t, m.tasks t = .idle

omit [DecidableEq τ] in
theorem loaded_new : Loaded maxDirty maxCacheNum [] 0 (new maxDirty maxCacheNum : CacheManager τ) where
  sound := sound_new maxCacheNum
  capacity := rfl
  cached := rfl
  cachedOnly x cached := by simp [new, CacheManagerInner.new, Lru.new] at cached
  dirty := rfl
  clean := rfl
  free := rfl
  idle _ := rfl

omit [DecidableEq τ] in
theorem Loaded.absent (loaded : Loaded maxDirty maxCacheNum done k m) (fresh : cid ∉ done) :
    m.inner.search.get? cid = none :=
  Option.not_isSome_iff_eq_none.mp fun cached => fresh (loaded.cachedOnly cid cached)

/-- `get_block` of a cluster not yet cached, with room, caches it clean. -/
theorem Loaded.read (loaded : Loaded maxDirty maxCacheNum done k m) (reliable : w.Reliable)
    (room : done.length < maxCacheNum) (fresh : cid ∉ done) :
    ∃ m', m.step (.getBlock t w cid) = some m' ∧
      Loaded maxDirty maxCacheNum (done ++ [cid]) k m' ∧
      (m'.inner.search.get? cid).isSome ∧ m'.inner.dirty.get? cid = none := by
  have absent := loaded.absent fresh
  have room' : m.inner.search.size < m.inner.maxNum := by
    rw [loaded.cached, loaded.capacity]
    exact room
  obtain ⟨d, got⟩ := getBlock_of_room reliable room' absent
  have inserts : (m.inner.forceInsert cid d).isSome := loaded.sound.forceInsert_isSome absent
  obtain ⟨⟨arc, inner⟩, inserted⟩ := Option.isSome_iff_exists.mp inserts
  rw [inserted] at got
  obtain ⟨⟨r, inner'⟩, got, same⟩ := Option.map_eq_some_iff.mp got
  cases same
  have sound' := loaded.sound.forceInsert room' inserted
  obtain ⟨-, cleanFresh, -, shape⟩ := forceInsert_eq_some inserted
  refine ⟨m.unlock inner, step_getBlock (loaded.idle t) got,
    ⟨sound', ?_, ?_, ?_, ?_, ?_, ?_, loaded.idle⟩, by simp [shape, get?_insert], ?_⟩
  all_goals subst shape
  · exact loaded.capacity
  · simp [size_insert_of_get?_eq_none absent, loaded.cached]
  · intro x cached
    by_cases same : x = cid
    · simp [same]
    · simp only [unlock_inner, get?_insert, if_neg same] at cached
      simp [loaded.cachedOnly x cached]
  · exact loaded.dirty
  · simp only [unlock_inner, size_insert_of_get?_eq_none cleanFresh, List.length_append,
      List.length_singleton]
    have := loaded.clean
    omega
  · simp [loaded.free]
  · exact loaded.sound.dirty_of_not_cached absent

/-- `write_block` of a cached clean cluster, with a unit free, moves it to dirty with
that unit. -/
theorem Loaded.write (loaded : Loaded maxDirty maxCacheNum done k m) (reliable : w.Reliable)
    (cached : (m.inner.search.get? cid).isSome) (notDirty : m.inner.dirty.get? cid = none)
    (unit : k < maxDirty) :
    ∃ m', Run.run step m [.writeTake t cid, .writeLock t w] = some m' ∧
      Loaded maxDirty maxCacheNum done (k + 1) m' := by
  have free := loaded.free
  obtain ⟨⟨inner, left⟩, became⟩ :=
    Option.isSome_iff_exists.mp (loaded.sound.becomeDirty_isSome cached Nat.one_pos)
  have sound' := (loaded.sound.becomeDirty became).1
  obtain ⟨a, arc, -, ⟨entry, -, leftZero, -, shape⟩ | ⟨dirtyAlready, -⟩⟩ :=
    becomeDirty_eq_some loaded.sound became
  swap
  · simp [notDirty] at dirtyAlready
  -- the task takes a unit, then hands it to the cluster's dirty entry
  have taken : m.step (.writeTake t cid) = _ := step_writeTake (loaded.idle t) (by omega)
  have written : writeBlock w cid m.inner = some (.ok (), inner, left) := by
    simp [writeBlock, reliable.copyOk, became]
  have locked := step_writeLock (m := { m with dirtySemaphore := m.dirtySemaphore - 1 }.setTask t
    (.writeHold cid)) (t := t) (by simp) written
  refine ⟨_, by rw [Run.run_cons, taken, Option.bind_some, Run.run_cons, locked]; rfl,
    ⟨sound', ?_, ?_, ?_, ?_, ?_, ?_, ?_⟩⟩
  all_goals subst shape leftZero
  · exact loaded.capacity
  · exact loaded.cached
  · exact loaded.cachedOnly
  · simp [size_insert_of_get?_eq_none notDirty, loaded.dirty]
  · have erased := size_erase_of_get?_isSome (k := a) (m := m.inner.clean) (by simp [entry])
    simp only [setTask_inner]
    have := loaded.clean
    omega
  · simp only [setTask_dirtySemaphore]
    omega
  · intro x
    by_cases same : x = t
    · simp [same]
    · simp [Function.update_of_ne same, loaded.idle x]

/-- Reading the clusters `rest`, each not yet cached, caches them all clean. -/
theorem Loaded.readAll (reliable : w.Reliable) :
    ∀ (rest done : List Nat) (m : CacheManager τ), Loaded maxDirty maxCacheNum done k m →
      (done ++ rest).Nodup → (done ++ rest).length ≤ maxCacheNum →
      ∃ m', Run.run step m (rest.map fun cid => .getBlock t w cid) = some m' ∧
        Loaded maxDirty maxCacheNum (done ++ rest) k m'
  | [], done, m, loaded, _, _ => ⟨m, rfl, by simpa using loaded⟩
  | cid :: rest, done, m, loaded, distinct, room => by
    have fresh : cid ∉ done := fun member =>
      (List.nodup_append.mp distinct).2.2 cid member cid List.mem_cons_self rfl
    have roomHere : done.length < maxCacheNum := by
      simp only [List.length_append, List.length_cons] at room
      omega
    obtain ⟨m₁, stepped, loaded₁, -, -⟩ := loaded.read (t := t) reliable roomHere fresh
    have moved : done ++ cid :: rest = (done ++ [cid]) ++ rest := by simp
    rw [moved] at distinct room ⊢
    obtain ⟨m', ran, loaded'⟩ := Loaded.readAll reliable rest _ m₁ loaded₁ distinct room
    exact ⟨m', by simp [stepped, ran], loaded'⟩

/-- Reading and writing the clusters `rest`, each not yet cached, with a unit free for
each, leaves them all cached and dirty. -/
theorem Loaded.writeAll (reliable : w.Reliable) :
    ∀ (rest done : List Nat) (m : CacheManager τ),
      Loaded maxDirty maxCacheNum done done.length m →
      (done ++ rest).Nodup → (done ++ rest).length ≤ maxCacheNum →
      (done ++ rest).length ≤ maxDirty →
      ∃ m', Run.run step m
          (rest.flatMap fun cid => [.getBlock t w cid, .writeTake t cid, .writeLock t w]) = some m' ∧
        Loaded maxDirty maxCacheNum (done ++ rest) (done ++ rest).length m'
  | [], done, m, loaded, _, _, _ => ⟨m, rfl, by simpa using loaded⟩
  | cid :: rest, done, m, loaded, distinct, room, units => by
    have fresh : cid ∉ done := fun member =>
      (List.nodup_append.mp distinct).2.2 cid member cid List.mem_cons_self rfl
    simp only [List.length_append, List.length_cons] at room units
    obtain ⟨m₁, read, loaded₁, cached, notDirty⟩ := loaded.read (t := t) reliable (by omega) fresh
    obtain ⟨m₂, written, loaded₂⟩ :=
      loaded₁.write (t := t) reliable cached notDirty (by omega)
    have moved : done ++ cid :: rest = (done ++ [cid]) ++ rest := by simp
    have counted : done.length + 1 = (done ++ [cid]).length := by simp
    rw [counted] at loaded₂
    rw [moved] at distinct ⊢
    obtain ⟨m', ran, loaded'⟩ := Loaded.writeAll reliable rest _ m₂ loaded₂ distinct
      (by simp; omega) (by simp; omega)
    refine ⟨m', ?_, loaded'⟩
    -- the events of the first cluster, then those of the rest
    rw [List.flatMap_cons, ← List.singleton_append, List.append_assoc, Run.run_append, Run.run_cons,
      read, Option.bind_some, Run.run_nil, Option.bind_some, Run.run_append, written,
      Option.bind_some, ran]

/-- With as many semaphore units as clusters, a task that reads and writes that many
distinct clusters before the sync task runs leaves a coherent cache in which `get_block`
of any other cluster panics, and so does `try_release_free`.  With the clusters only
read, `get_block` of another one while every buffer is held leaves the cache
incoherent. -/
theorem getBlock_panics_when_maxDirty_eq_maxCacheNum (n : Nat) (cids : List Nat) (c : Nat)
    (t : τ) (w : World Unit) (reliable : w.Reliable) (distinct : cids.Nodup)
    (count : cids.length = n) (other : c ∉ cids) (pos : 0 < n) :
    (∃ m, Run.run step (new n n : CacheManager τ)
          (cids.flatMap fun cid => [.getBlock t w cid, .writeTake t cid, .writeLock t w]) = some m ∧
        Coherent m.inner ∧ (∀ w', m.step (.getBlock t w' c) = none) ∧
        ∀ held j, 0 < j → m.inner.tryReleaseFree held j = none) ∧
      ∃ m, Run.run step (new n n : CacheManager τ) (cids.map fun cid => .getBlock t w cid) = some m ∧
        Coherent m.inner ∧ ∀ w', (∀ arc, w'.held arc = true) →
          ∃ m', m.step (.getBlock t w' c) = some m' ∧ ¬Coherent m'.inner := by
  have start : Loaded n n [] 0 (new n n : CacheManager τ) := loaded_new
  constructor
  · -- every cluster read is written, with the unit it keeps
    obtain ⟨m, ran, loaded⟩ := Loaded.writeAll (t := t) reliable cids [] _ start
      (by simpa using distinct) (by simp [count]) (by simp [count])
    simp only [List.nil_append] at loaded
    have noClean : m.inner.clean.size = 0 := by
      have := loaded.clean
      omega
    have full : m.inner.maxNum ≤ m.inner.search.size := by rw [loaded.capacity, loaded.cached, count]
    refine ⟨m, ran, loaded.sound.toCoherent, fun w' => ?_, fun held j pos =>
      tryReleaseFree_eq_none_of_no_clean noClean pos⟩
    simp [CacheManager.step, loaded.idle t, getBlock_eq_none_of_full full noClean (loaded.absent other)]
  · -- every cluster read stays clean, and all of them are held
    obtain ⟨m, ran, loaded⟩ := Loaded.readAll (t := t) reliable cids [] _ start
      (by simpa using distinct) (by simp [count])
    simp only [List.nil_append] at loaded
    refine ⟨m, ran, loaded.sound.toCoherent, fun w' allHeld => ?_⟩
    have full : ¬m.inner.search.size < m.inner.maxNum := by
      rw [loaded.capacity, loaded.cached, count]
      exact lt_irrefl n
    have nonempty : 0 < m.inner.clean.size := by
      have := loaded.clean
      omega
    obtain ⟨inner, key, failed, lost⟩ :=
      loaded.sound.getNewUninit_enobufs_of_held full nonempty allHeld
    refine ⟨m.unlock inner, ?_, not_coherent_of_lost lost⟩
    simp [CacheManager.step, loaded.idle t, getBlock_of_getNewUninit_error (loaded.absent other) failed]

/-- `Fat32Type::new`'s block cache: reading and writing clusters 2 to 101 makes `get_block`
of cluster 102 panic. -/
theorem getBlock_panics_at_default_mount :
    (∃ m, Run.run step (Fat32Type.new.blockCache : CacheManager Nat)
          ((List.range' 2 100).flatMap fun cid =>
            [.getBlock 0 (World.quiet fun _ => ()) cid, .writeTake 0 cid,
              .writeLock 0 (World.quiet fun _ => ())]) = some m ∧
        Coherent m.inner ∧ (∀ w', m.step (.getBlock 0 w' 102) = none) ∧
        ∀ held j, 0 < j → m.inner.tryReleaseFree held j = none) ∧
      ∃ m, Run.run step (Fat32Type.new.blockCache : CacheManager Nat)
          ((List.range' 2 100).map fun cid => .getBlock 0 (World.quiet fun _ => ()) cid) = some m ∧
        Coherent m.inner ∧ ∀ w', (∀ arc, w'.held arc = true) →
          ∃ m', m.step (.getBlock 0 w' 102) = some m' ∧ ¬Coherent m'.inner :=
  getBlock_panics_when_maxDirty_eq_maxCacheNum 100 (List.range' 2 100) 102 0 _
    (World.reliable_quiet _) List.nodup_range' List.length_range' (by simp) (by decide)

end CacheManager

end FtlOs
