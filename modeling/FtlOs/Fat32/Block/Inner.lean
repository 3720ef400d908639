import FtlOs.Fat32.LruCalls

/-!
# The block cache's bookkeeping

`CacheManagerInner` caches data clusters by CID with the LRU bookkeeping of
`FtlOs.Fat32.Lru`; the buffers' contents are not modelled, so its objects carry
no data.  `get_block`, `get_new_uninit_block`, `force_insert_block` and
`dirty_suspend_iter` are the shared calls at this type.  `release_block`,
`become_dirty` and `try_release_free` are the block cache's own.

`become_dirty` is the one call that moves a cluster from clean to dirty: it
takes a unit of the caller's dirty semaphore and keeps it in the dirty map, so
the dirty map never holds more clusters than the semaphore has units.
-/

namespace FtlOs

/-- `CacheManagerInner`: the LRU bookkeeping of cached clusters, keyed by CID. -/
abbrev CacheManagerInner := Lru Unit

namespace CacheManagerInner

open Lru OrdMap

variable {s s' : CacheManagerInner}

/-- `CacheManagerInner::new` followed by `init`: nothing cached. -/
def new (maxCacheNum : Nat) : CacheManagerInner := Lru.new maxCacheNum

/-- `get_block`: the cached Arc, or the cluster read into a fresh or evicted
buffer; also the CID of the evicted cluster. -/
def getBlock (w : World Unit) (cid : Nat) (s : CacheManagerInner) :
    Option (SysR (Nat × Option Nat) × CacheManagerInner) :=
  s.get w cid

/-- `get_new_uninit_block`. -/
def getNewUninitBlock (w : World Unit) (s : CacheManagerInner) :
    Option (SysR (Option (Nat × Nat)) × CacheManagerInner) :=
  s.getNewUninit w

/-- `force_insert_block`. -/
def forceInsertBlock (cid : Nat) (s : CacheManagerInner) : Option (Nat × CacheManagerInner) :=
  s.forceInsert cid ()

/-- `release_block`: drop a cached cluster from every map; a dirty cluster's
semaphore unit goes back with its entry. -/
def releaseBlock (cid : Nat) (s : CacheManagerInner) : Option CacheManagerInner := do
  let ((a, _), search) ← s.search.remove cid
  return { s with
    search
    syncPending := s.syncPending.erase cid
    clean := s.clean.erase a
    dirty := s.dirty.erase cid }

/-- `become_dirty`, with `sems` the units of the caller's `MultiplySemaphore`;
returns the units left to the caller. -/
def becomeDirty (cid sems : Nat) (s : CacheManagerInner) :
    Option (CacheManagerInner × Nat) := do
  let (aid, _) ← s.search.get? cid
  match s.clean.remove aid with
  | some ((_, c), clean) =>
      -- `sems.try_take().unwrap()`
      if sems = 0 then none
      else
        let dirty ← s.dirty.tryInsert cid c
        -- `sync_pending.insert(cid)` returning false is a `panic!()`
        if (s.syncPending.get? cid).isSome then none
        else return ({ s with clean, dirty, syncPending := s.syncPending.insert cid () }, sems - 1)
  | none =>
      -- already dirty: ask the sync task to write it again
      return ({ s with syncPending := s.syncPending.insert cid () }, sems)

/-- `dirty_suspend_iter`. -/
def dirtySuspendIter (cids : List Nat) (s : CacheManagerInner) : Option CacheManagerInner :=
  Lru.dirtySuspendIter s cids

/-- The loop of `try_release_free`, with `cnt` the clusters released so far.  It is
the eviction scan with two changes: a requeued entry whose aid moved on keeps its
old aid in `search`, and a released cluster does not end the loop. -/
def tryReleaseFreeLoop (held : Nat → Bool) (searchMax n : Nat) :
    Nat → Nat → CacheManagerInner → Option (Nat × CacheManagerInner)
  | 0, _, _ => none
  | fuel + 1, cnt, s =>
    if cnt < n then do
      let ((xaid, cid, arc), clean) ← s.clean.popFirst
      -- the whole clean table was scanned; the popped entry is not put back
      if searchMax < xaid then return (cnt, { s with clean })
      let o ← s.heap.get? arc
      if o.aid ≠ xaid then
        let clean ← clean.tryInsert o.aid (cid, arc)
        tryReleaseFreeLoop held searchMax n fuel cnt { s with clean }
      else
        let ((_, ps), search) ← s.search.remove cid
        if held arc then
          let aid := s.aidNext
          let search ← search.tryInsert cid (aid, ps)
          let clean ← clean.tryInsert aid (cid, arc)
          tryReleaseFreeLoop held searchMax n fuel cnt
            ({ s with search, clean, aidNext := aid + 1 }.updateAid arc aid)
        else tryReleaseFreeLoop held searchMax n fuel (cnt + 1) { s with search, clean }
    else some (cnt, s)

/-- `try_release_free`: release up to `n` of the least recently used clean
clusters.  Each pass either returns, releases an entry, or lowers the scan's
measure, so `2 * |clean| + n + 1` passes are enough fuel. -/
def tryReleaseFree (held : Nat → Bool) (n : Nat) (s : CacheManagerInner) :
    Option (Nat × CacheManagerInner) :=
  tryReleaseFreeLoop held s.aidNext n (2 * s.clean.size + n + 1) 0
    { s with aidNext := s.aidNext + 1 }

/-! ## `release_block` -/

/-- What `release_block` does to a cached cluster. -/
theorem releaseBlock_eq {cid a arc : Nat} (cached : s.search.get? cid = some (a, arc)) :
    s.releaseBlock cid = some { s with
      search := s.search.erase cid
      syncPending := s.syncPending.erase cid
      clean := s.clean.erase a
      dirty := s.dirty.erase cid } := by
  have removed : s.search.remove cid = some ((a, arc), s.search.erase cid) :=
    remove_eq_some_iff.mpr ⟨get?_eq_some_iff.mp cached, rfl⟩
  simp [releaseBlock, removed]

theorem releaseBlock_eq_some {cid : Nat} (released : s.releaseBlock cid = some s') :
    ∃ a arc, s.search.get? cid = some (a, arc) ∧ s' = { s with
      search := s.search.erase cid
      syncPending := s.syncPending.erase cid
      clean := s.clean.erase a
      dirty := s.dirty.erase cid } := by
  cases cached : s.search.get? cid with
  | none => simp [releaseBlock, remove, cached] at released
  | some e =>
    obtain ⟨a, arc⟩ := e
    rw [releaseBlock_eq cached, Option.some.injEq] at released
    exact ⟨a, arc, rfl, released.symm⟩

/-! ## `become_dirty` -/

/-- What `become_dirty` does: a clean cluster moves to dirty with one of the
caller's units, and a dirty one is only marked pending again. -/
theorem becomeDirty_eq_some {cid sems sems' : Nat} (sound : Sound s)
    (became : s.becomeDirty cid sems = some (s', sems')) :
    ∃ a arc, s.search.get? cid = some (a, arc) ∧
      ((s.clean.get? a = some (cid, arc) ∧ 0 < sems ∧ sems' = sems - 1 ∧
          s.dirty.get? cid = none ∧ s' = { s with
            clean := s.clean.erase a
            dirty := s.dirty.insert cid arc
            syncPending := s.syncPending.insert cid () }) ∨
        ((s.dirty.get? cid).isSome ∧ sems' = sems ∧
          s' = { s with syncPending := s.syncPending.insert cid () })) := by
  unfold becomeDirty at became
  cases cached : s.search.get? cid with
  | none => simp [cached] at became
  | some e =>
    obtain ⟨a, arc⟩ := e
    refine ⟨a, arc, rfl, ?_⟩
    simp only [cached, Option.bind_eq_bind, Option.bind_some] at became
    cases removed : s.clean.remove a with
    | some r =>
      obtain ⟨⟨k, c⟩, clean⟩ := r
      obtain ⟨member, rfl⟩ := remove_eq_some_iff.mp removed
      have entry := get?_eq_some_iff.mpr member
      have same : k = cid := sound.clean_at_aid cached entry
      subst k
      have keyed := sound.keyed _ _ _ entry
      rw [cached, Option.some.injEq, Prod.mk.injEq] at keyed
      obtain ⟨-, rfl⟩ := keyed
      have notDirty := sound.cleanNotDirty _ _ _ entry
      simp only [removed] at became
      by_cases noUnit : sems = 0
      · simp [noUnit] at became
      rw [if_neg noUnit, tryInsert_of_get?_eq_none notDirty, Option.bind_some] at became
      by_cases pending : (s.syncPending.get? cid).isSome
      · simp [pending] at became
      rw [if_neg pending, Option.pure_def, Option.some.injEq, Prod.mk.injEq] at became
      obtain ⟨rfl, rfl⟩ := became
      exact .inl ⟨entry, Nat.pos_of_ne_zero noUnit, rfl, notDirty, rfl⟩
    | none =>
      simp only [removed, Option.pure_def, Option.some.injEq, Prod.mk.injEq] at became
      obtain ⟨rfl, rfl⟩ := became
      refine .inr ⟨?_, rfl, rfl⟩
      -- no clean entry at the cluster's aid: it is dirty
      rcases (sound.cached cid).mp (by simp [cached]) with dirty | ⟨a', arc', entry⟩
      · exact dirty
      · have keyed := sound.keyed _ _ _ entry
        rw [cached, Option.some.injEq, Prod.mk.injEq] at keyed
        obtain ⟨rfl, -⟩ := keyed
        simp [remove, entry] at removed

/-- `become_dirty` keeps in the dirty map the units it takes: the dirty clusters and the
units left to the caller add up as before. -/
theorem becomeDirty_units {cid sems sems' : Nat} (became : s.becomeDirty cid sems = some (s', sems')) :
    s'.dirty.size + sems' = s.dirty.size + sems := by
  unfold becomeDirty at became
  cases cached : s.search.get? cid with
  | none => simp [cached] at became
  | some e =>
    obtain ⟨a, arc⟩ := e
    simp only [cached, Option.bind_eq_bind, Option.bind_some] at became
    cases removed : s.clean.remove a with
    | none =>
      simp only [removed, Option.pure_def, Option.some.injEq, Prod.mk.injEq] at became
      obtain ⟨rfl, rfl⟩ := became
      rfl
    | some r =>
      obtain ⟨⟨k, c⟩, clean⟩ := r
      simp only [removed] at became
      by_cases noUnit : sems = 0
      · simp [noUnit] at became
      cases inserted : s.dirty.tryInsert cid c with
      | none => simp [noUnit, inserted] at became
      | some dirty =>
        obtain ⟨absent, rfl⟩ := tryInsert_eq_some_iff.mp inserted
        by_cases pending : (s.syncPending.get? cid).isSome
        · simp [noUnit, inserted, pending] at became
        simp only [if_neg noUnit, inserted, Option.bind_some, if_neg pending, Option.pure_def,
          Option.some.injEq, Prod.mk.injEq] at became
        obtain ⟨rfl, rfl⟩ := became
        rw [size_insert_of_get?_eq_none (get?_eq_none_iff.mpr absent)]
        omega

/-! ## `try_release_free` -/

/-- `try_release_free` pops from `clean` before it checks that anything is left, so
on a cache with no clean cluster a request for any positive number panics instead
of returning the number released. -/
theorem tryReleaseFree_eq_none_of_no_clean {held : Nat → Bool} {n : Nat}
    (noClean : s.clean.size = 0) (pos : 0 < n) : s.tryReleaseFree held n = none := by
  have popped : s.clean.popFirst = none := popFirst_eq_none_iff.mpr noClean
  obtain ⟨fuel, enough⟩ : ∃ fuel, 2 * s.clean.size + n + 1 = fuel + 1 := ⟨_, rfl⟩
  unfold tryReleaseFree
  rw [enough, tryReleaseFreeLoop, if_pos pos]
  simp [popped]

end CacheManagerInner

namespace Lru

open OrdMap CacheManagerInner

variable {s s' : CacheManagerInner}

/-! ## The block cache's own calls keep a state sound -/

/-- Releasing a cached cluster keeps a sound state sound and dirties nothing. -/
theorem Sound.releaseBlock {cid : Nat} (sound : Sound s)
    (released : s.releaseBlock cid = some s') :
    Sound s' ∧ s'.maxNum = s.maxNum ∧ s'.dirty.size ≤ s.dirty.size := by
  obtain ⟨a, arc, cached, rfl⟩ := releaseBlock_eq_some released
  -- the clean entry at the released aid, if any, is the released cluster's
  have otherEntry : ∀ {a' k arc'}, s.clean.get? a' = some (k, arc') → k ≠ cid → a' ≠ a := by
    intro a' k arc' entry other same
    subst same
    exact other (sound.clean_at_aid cached entry)
  have cleanOther : ∀ {a' k arc'}, s.clean.get? a' = some (k, arc') → a' ≠ a → k ≠ cid := by
    intro a' k arc' entry notReleased same
    subst same
    have keyed := sound.keyed _ _ _ entry
    rw [cached, Option.some.injEq, Prod.mk.injEq] at keyed
    exact notReleased keyed.1.symm
  refine ⟨⟨⟨?cached, ?cleanNotDirty, ?keyed, ?bounded⟩, ?dirtyArc, ?pendingDirty, ?live, ?apart⟩,
    rfl, size_erase_le⟩
  case cached =>
    intro k
    simp only [get?_erase]
    by_cases same : k = cid
    · subst same
      simp only [if_true, Option.isSome_none, Bool.false_eq_true, false_iff, not_or, not_exists]
      refine ⟨not_false, fun a' arc' entry => ?_⟩
      split_ifs at entry with atReleased
      exact cleanOther entry atReleased rfl
    · rw [if_neg same, if_neg same, sound.cached k]
      refine or_congr_right (exists_congr fun a' => exists_congr fun arc' => ?_)
      split_ifs with atReleased
      · subst atReleased
        exact iff_false_intro fun entry => otherEntry entry same rfl
      · rfl
  case cleanNotDirty =>
    intro a' k arc' entry
    simp only [get?_erase] at entry ⊢
    split_ifs at entry with atReleased
    rw [if_neg (cleanOther entry atReleased)]
    exact sound.cleanNotDirty _ _ _ entry
  case keyed =>
    intro a' k arc' entry
    simp only [get?_erase] at entry ⊢
    split_ifs at entry with atReleased
    rw [if_neg (cleanOther entry atReleased)]
    exact sound.keyed _ _ _ entry
  case bounded => exact size_erase_le.trans sound.bounded
  case dirtyArc =>
    intro k arc' dirty
    simp only [get?_erase] at dirty ⊢
    split_ifs at dirty with same
    rw [if_neg same]
    exact sound.dirtyArc k arc' dirty
  case pendingDirty =>
    intro k pending
    by_cases same : k = cid
    · simp [same, get?_erase] at pending
    · rw [get?_erase, if_neg same] at pending ⊢
      exact sound.pendingDirty k pending
  case live =>
    intro k a' arc' found
    simp only [get?_erase] at found
    split_ifs at found
    exact sound.live k a' arc' found
  case apart =>
    intro k k' a₁ a₂ arc₁ arc₂ o₁ o₂ distinct found object₁ found' object₂
    simp only [get?_erase] at found found'
    split_ifs at found found'
    exact sound.apart k k' a₁ a₂ arc₁ arc₂ o₁ o₂ distinct found object₁ found' object₂

/-- `become_dirty` keeps a sound state sound, and the dirty map grows by the units it
takes from the caller. -/
theorem Sound.becomeDirty {cid sems sems' : Nat} (sound : Sound s)
    (became : s.becomeDirty cid sems = some (s', sems')) :
    Sound s' ∧ s'.maxNum = s.maxNum ∧ s'.dirty.size + sems' = s.dirty.size + sems := by
  have units := becomeDirty_units became
  obtain ⟨a, arc, cached, ⟨entry, -, -, -, rfl⟩ | ⟨dirty, -, rfl⟩⟩ :=
    becomeDirty_eq_some sound became
  · exact ⟨sound.intoDirty cached entry, rfl, units⟩
  · exact ⟨sound.repend dirty, rfl, units⟩

/-- `become_dirty` does not panic on a cached cluster when the caller brings a unit. -/
theorem Sound.becomeDirty_isSome {cid sems : Nat} (sound : Sound s)
    (cached : (s.search.get? cid).isSome) (unit : 0 < sems) :
    (s.becomeDirty cid sems).isSome := by
  obtain ⟨⟨a, arc⟩, found⟩ := Option.isSome_iff_exists.mp cached
  unfold CacheManagerInner.becomeDirty
  simp only [found, Option.bind_eq_bind, Option.bind_some]
  cases removed : s.clean.remove a with
  | none => rfl
  | some r =>
    obtain ⟨⟨k, c⟩, clean⟩ := r
    obtain ⟨member, rfl⟩ := remove_eq_some_iff.mp removed
    have entry := get?_eq_some_iff.mpr member
    have same : k = cid := sound.clean_at_aid found entry
    subst k
    have notDirty := sound.cleanNotDirty _ _ _ entry
    -- a pending cluster is dirty, so this one is not pending
    have notPending : s.syncPending.get? cid = none := by
      cases pending : s.syncPending.get? cid with
      | none => rfl
      | some u => simpa [notDirty] using sound.pendingDirty cid (by simp [pending])
    simp [Nat.pos_iff_ne_zero.mp unit, tryInsert_of_get?_eq_none notDirty, notPending]

end Lru

end FtlOs
