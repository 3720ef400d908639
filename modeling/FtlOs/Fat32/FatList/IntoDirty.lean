import FtlOs.Fat32.FatList.Manager

/-!
# `unit_into_dirty` and the units `get_unit` loses

`unit_into_dirty` is the FAT cache's `become_dirty` written the other way round:
it asks first whether the unit is dirty, and a unit that is not must still have
its clean entry, which it takes out with `unwrap`.  The block cache's
`become_dirty` instead marks a cluster without a clean entry pending.  On a sound
cache the clean entry is always there.  The `ENOBUFS` exit of the eviction scan
drops the entry it popped, though, and leaves that unit lost: cached, not dirty,
and without a clean entry.  The next `unit_into_dirty` of that unit panics.
`alloc_cluster` reaches that exit by itself on a cache of one unit.  It holds the
unit it has scanned while it fetches the next one, so the scan finds nothing it
may evict.
-/

namespace FtlOs

namespace ListManager

open Lru OrdMap

variable {s s' : ListManager} {w : World (List Nat)} {uid sems sems' : Nat}

/-- What `unit_into_dirty` does on a sound cache: a dirty unit is asked to be
written again, and a clean one moves to dirty with one of the caller's units.
Only the bookkeeping changes. -/
theorem unitIntoDirty_eq_some (sound : Sound s.units)
    (dirtied : s.unitIntoDirty uid sems = some (s', sems')) :
    0 < sems ∧
      (((s.units.dirty.get? uid).isSome ∧ sems' = sems ∧ s' = { s with units :=
          { s.units with syncPending := s.units.syncPending.insert uid () } }) ∨
        ∃ a arc, s.units.search.get? uid = some (a, arc) ∧
          s.units.clean.get? a = some (uid, arc) ∧ s.units.dirty.get? uid = none ∧
          sems' = sems - 1 ∧ s' = { s with units := { s.units with
            clean := s.units.clean.erase a
            dirty := s.units.dirty.insert uid arc
            syncPending := s.units.syncPending.insert uid () } }) := by
  unfold unitIntoDirty at dirtied
  by_cases noUnit : sems = 0
  · simp [noUnit] at dirtied
  rw [if_neg noUnit] at dirtied
  refine ⟨Nat.pos_of_ne_zero noUnit, ?_⟩
  by_cases dirty : (s.units.dirty.get? uid).isSome
  · rw [if_pos dirty, Option.some.injEq, Prod.mk.injEq] at dirtied
    obtain ⟨rfl, rfl⟩ := dirtied
    exact .inl ⟨dirty, rfl, rfl⟩
  rw [if_neg dirty] at dirtied
  have notDirty := Option.not_isSome_iff_eq_none.mp dirty
  obtain ⟨⟨a, arc⟩, cached⟩ : ∃ e, s.units.search.get? uid = some e := by
    cases found : s.units.search.get? uid with
    | none => simp [found] at dirtied
    | some e => exact ⟨e, rfl⟩
  simp only [cached, Option.bind_eq_bind, Option.bind_some] at dirtied
  -- the clean entry at the recorded aid is this unit's, so it holds the cached Arc
  have entry := sound.clean_of_not_dirty cached notDirty
  have removed : s.units.clean.remove a = some ((uid, arc), s.units.clean.erase a) :=
    remove_eq_some_iff.mpr ⟨get?_eq_some_iff.mp entry, rfl⟩
  simp only [removed, Option.bind_some, tryInsert_of_get?_eq_none notDirty] at dirtied
  by_cases pending : (s.units.syncPending.get? uid).isSome
  · simp [pending] at dirtied
  rw [if_neg pending, Option.pure_def, Option.some.injEq, Prod.mk.injEq] at dirtied
  obtain ⟨rfl, rfl⟩ := dirtied
  exact .inr ⟨a, arc, cached, entry, notDirty, rfl, rfl⟩

set_option maxRecDepth 10000 in
/-- A FAT of 512-byte sectors whose first sector has no free entry, with a cache of
one unit: `alloc_cluster` holds unit 0 while it fetches unit 1, gets `ENOBUFS`, and
the next `free_cluster` of cluster 5 panics in `unit_into_dirty`. -/
theorem freeCluster_panics_after_allocCluster_enobufs :
    ∃ s₁, (init 1 256 7 128 0).allocCluster (World.quiet fun uid =>
        if uid = 0 then List.replicate 128 CID.last else List.replicate 128 CID.free) =
          some (.error .ENOBUFS, s₁) ∧
      s₁.freeCluster (World.quiet fun uid =>
        if uid = 0 then List.replicate 128 CID.last else List.replicate 128 CID.free) 5 = none :=
  ⟨_, rfl, rfl⟩

end ListManager

namespace Lru

open OrdMap ListManager

variable {s s' : ListManager} {uid sems sems' : Nat}

/-- `unit_into_dirty` keeps the unit cache sound and changes nothing else; the dirty
units grow by the semaphore units it takes from the caller. -/
theorem Sound.unitIntoDirty (sound : Sound s.units)
    (dirtied : s.unitIntoDirty uid sems = some (s', sems')) :
    Sound s'.units ∧ s' = { s with units := s'.units } ∧ s'.units.heap = s.units.heap ∧
      s'.units.search = s.units.search ∧ s'.units.maxNum = s.units.maxNum ∧
      s'.units.dirty.size + sems' = s.units.dirty.size + sems := by
  obtain ⟨-, ⟨dirty, rfl, rfl⟩ | ⟨a, arc, cached, entry, notDirty, rfl, rfl⟩⟩ :=
    unitIntoDirty_eq_some sound dirtied
  · exact ⟨sound.repend dirty, rfl, rfl, rfl, rfl, rfl⟩
  · refine ⟨sound.intoDirty cached entry, rfl, rfl, rfl, rfl, ?_⟩
    have unit : 0 < sems := (unitIntoDirty_eq_some sound dirtied).1
    dsimp only
    rw [size_insert_of_get?_eq_none notDirty]
    omega

end Lru

end FtlOs
