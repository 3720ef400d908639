import FtlOs.Fat32.LruSpec

/-!
# The calls of the LRU bookkeeping keep it sound

The eviction scan ends: every pass that continues leaves less for the scan to
look at, so the fuel `getNewUninit` gives it is enough, and on a sound state no
pass panics.  Its exits are an evicted key, from a state that stays sound, or
`ENOBUFS`, which loses the popped entry.  From there `get`, `dirtySuspendIter`,
`touch` and `takePending` keep a state sound, and none of them panics under the
conditions the managers' callers keep: the cache is full only while some key is
clean, and the sync task hands back dirty keys.
-/

namespace FtlOs

namespace Lru

open OrdMap

variable {D : Type} {s s' : Lru D}

/-! ## The scan ends -/

/-- The weight of a clean entry in the scan's measure: an entry queued before the
scan counts once, or twice if its object's aid has moved on, since that entry is
requeued once more before it can be evicted or kept. -/
def weight (heap : OrdMap Nat (Obj D)) (searchMax : Nat) (e : Nat × Nat × Nat) : Nat :=
  if e.1 ≤ searchMax then (if (heap.get? e.2.2).map Obj.aid = some e.1 then 1 else 2) else 0

/-- What is left for the scan to look at. -/
def pending (s : Lru D) (searchMax : Nat) : Nat :=
  (s.clean.entries.map (weight s.heap searchMax)).sum

theorem pending_le (searchMax : Nat) : s.pending searchMax ≤ 2 * s.clean.size := by
  unfold pending size
  have bound : ∀ x ∈ s.clean.entries.map (weight s.heap searchMax), x ≤ 2 := by
    simp only [List.mem_map]
    rintro x ⟨e, -, rfl⟩
    unfold weight
    split_ifs <;> omega
  have := List.sum_le_card_nsmul _ 2 bound
  simp only [List.length_map, smul_eq_mul] at this
  omega

section Measure

variable {held : Nat → Bool} {searchMax : Nat}

/-- A pass that continues leaves less to look at, and keeps the sizes of search and clean. -/
theorem Sound.visit_next_pending (sound : Sound s) (drawn : searchMax < s.aidNext)
    (visited : s.visit held searchMax = some (.next s')) :
    s'.pending searchMax + 1 ≤ s.pending searchMax ∧ s'.clean.size = s.clean.size ∧
      s'.search.size = s.search.size ∧ searchMax < s'.aidNext := by
  cases visit_eq_some visited with
  | @requeue xaid key arc o popped _ early object stale _ free =>
    have before := sum_map_erase_of_get?_eq_some (weight s.heap searchMax) popped
    have after := sum_map_insert_of_get?_eq_none (weight s.heap searchMax) (v := (key, arc)) free
    have popWeight : weight s.heap searchMax (xaid, key, arc) = 2 := by
      simp [weight, early, object, stale]
    have newWeight : weight s.heap searchMax (o.aid, key, arc) ≤ 1 := by
      unfold weight
      simp only [object, Option.map_some, if_true]
      split_ifs <;> omega
    have cleanSize := size_erase_of_get?_isSome (m := s.clean) (k := xaid) (by simp [popped])
    refine ⟨?_, ?_, size_modify, drawn⟩
    · unfold pending
      simp only at after ⊢
      omega
    · simp only
      rw [size_insert_of_get?_eq_none free]
      omega
  | @keep xaid key arc a ps o popped _ early object current cached _ free =>
    have keyed := sound.keyed _ _ _ popped
    rw [cached, Option.some.injEq, Prod.mk.injEq] at keyed
    obtain ⟨rfl, rfl⟩ := keyed
    -- every other clean entry lives under another Arc, so the fresh aid leaves its weight
    have others : ∀ e ∈ (s.clean.erase a).entries,
        weight (s.heap.modify ps fun o => { o with aid := s.aidNext }) searchMax e =
          weight s.heap searchMax e := by
      rintro ⟨a', k', arc'⟩ member
      have entry := get?_eq_some_iff.mpr member
      rw [get?_erase] at entry
      split_ifs at entry with same
      have cached' := sound.keyed _ _ _ entry
      have otherArc : arc' ≠ ps := by
        by_cases sameKey : k' = key
        · subst sameKey
          rw [cached, Option.some.injEq, Prod.mk.injEq] at cached'
          exact absurd cached'.1 (Ne.symm same)
        · obtain ⟨-, -, o', object', -⟩ := sound.live _ _ _ cached'
          exact (sound.apart key k' a a' ps arc' o o' (Ne.symm sameKey) cached object cached'
            object').1.symm
      simp only [weight, get?_modify, if_neg otherArc]
    have before := sum_map_erase_of_get?_eq_some (weight s.heap searchMax) popped
    have after := sum_map_insert_of_get?_eq_none
      (weight (s.heap.modify ps fun o => { o with aid := s.aidNext }) searchMax) (v := (key, ps)) free
    rw [List.map_congr_left others] at after
    have popWeight : weight s.heap searchMax (a, key, ps) = 1 := by
      simp [weight, early, object, current]
    have newWeight :
        weight (s.heap.modify ps fun o => { o with aid := s.aidNext }) searchMax (s.aidNext, key, ps) = 0 := by
      simp [weight, Nat.not_le.mpr drawn]
    have cleanSize := size_erase_of_get?_isSome (m := s.clean) (k := a) (by simp [popped])
    have searchSize := size_erase_of_get?_isSome (m := s.search) (k := key) (by simp [cached])
    refine ⟨?_, ?_, ?_, by simp only [updateAid_aidNext]; omega⟩
    · unfold pending
      simp only [updateAid_clean, updateAid_heap] at after ⊢
      omega
    · simp only [updateAid_clean]
      rw [size_insert_of_get?_eq_none free]
      omega
    · simp only [updateAid_search]
      rw [size_insert_of_get?_eq_none (by simp [get?_erase])]
      omega

end Measure

/-- A pass that continues keeps the capacity and the set of cached keys. -/
theorem visit_next_frame {held : Nat → Bool} {searchMax : Nat}
    (visited : s.visit held searchMax = some (.next s')) :
    s'.maxNum = s.maxNum ∧ ∀ k, (s'.search.get? k).isSome ↔ (s.search.get? k).isSome := by
  cases visit_eq_some visited with
  | requeue =>
    refine ⟨rfl, fun k => ?_⟩
    simp only [get?_modify]
    split_ifs with same
    · subst same
      simp
    · rfl
  | @keep xaid key arc a ps o popped _ _ _ _ cached =>
    refine ⟨rfl, fun k => ?_⟩
    simp only [updateAid_search, get?_insert, get?_erase]
    split_ifs with same
    · subst same
      simp [cached]
    · rfl

section Scan

variable {held : Nat → Bool} {searchMax : Nat}

/-- Where the scan ends: at `ENOBUFS`, with a lost key, or with one
key evicted from a sound state that stays sound. -/
theorem Sound.scan_result : ∀ (fuel : Nat) {s s' : Lru D} {result : SysR (Nat × Nat)},
    Sound s → searchMax < s.aidNext → s.scan held searchMax fuel = some (result, s') →
      (result = .error .ENOBUFS ∧ ∃ key, s'.Lost key) ∨
      (∃ key arc, result = .ok (key, arc) ∧ held arc = false ∧ Sound s' ∧ s'.maxNum = s.maxNum ∧
          s'.search.size + 1 = s.search.size ∧
          ∀ k, (s'.search.get? k).isSome → (s.search.get? k).isSome)
  | 0, _, _, _, _, _, scanned => by simp [scan] at scanned
  | fuel + 1, s, s', result, sound, drawn, scanned => by
    unfold scan at scanned
    cases visited : s.visit held searchMax with
    | none => simp [visited] at scanned
    | some v =>
      cases v with
      | done r s'' =>
        simp only [visited, Option.some.injEq, Prod.mk.injEq] at scanned
        obtain ⟨rfl, rfl⟩ := scanned
        cases visit_eq_some visited with
        | enobufs => exact .inl ⟨rfl, sound.visit_enobufs visited⟩
        | @evict xaid key arc a ps o popped _ _ _ _ cached notHeld =>
          refine .inr ⟨key, arc, rfl, notHeld, sound.evict popped, rfl, ?_, fun k present => ?_⟩
          · exact size_erase_of_get?_isSome (by simp [cached])
          · simp only [get?_erase] at present
            split_ifs at present
            · simp at present
            · exact present
      | next s'' =>
        simp only [visited] at scanned
        obtain ⟨-, -, searchSize, drawn'⟩ := sound.visit_next_pending drawn visited
        obtain ⟨sameMax, sameKeys⟩ := visit_next_frame visited
        rcases Sound.scan_result fuel (sound.visit_next visited) drawn' scanned with
          lost | ⟨key, arc, ok, notHeld, sound', max', size', keys'⟩
        · exact .inl lost
        · exact .inr ⟨key, arc, ok, notHeld, sound', max'.trans sameMax, by omega,
            fun k present => (sameKeys k).mp (keys' k present)⟩

/-- On a sound state with a clean entry, fuel above what is left to look at is enough:
the scan returns. -/
theorem Sound.scan_isSome : ∀ (fuel : Nat) {s : Lru D}, Sound s → 0 < s.clean.size →
    searchMax < s.aidNext → s.pending searchMax < fuel → (s.scan held searchMax fuel).isSome
  | 0, _, _, _, _, short => absurd short (Nat.not_lt_zero _)
  | fuel + 1, s, sound, nonempty, drawn, enough => by
    unfold scan
    have passes : (s.visit held searchMax).isSome := sound.visit_isSome nonempty
    obtain ⟨v, visited⟩ := Option.isSome_iff_exists.mp passes
    rw [visited]
    cases v with
    | done r s'' => rfl
    | next s'' =>
      obtain ⟨less, cleanSize, -, drawn'⟩ := sound.visit_next_pending drawn visited
      exact Sound.scan_isSome fuel (sound.visit_next visited) (cleanSize ▸ nonempty) drawn'
        (by omega)

/-- The scan changes neither the capacity nor the dirty and pending maps. -/
theorem scan_keepsDirty : ∀ (fuel : Nat) {s s' : Lru D} {result : SysR (Nat × Nat)},
    s.scan held searchMax fuel = some (result, s') → KeepsDirty s s'
  | 0, _, _, _, scanned => by simp [scan] at scanned
  | fuel + 1, s, s', result, scanned => by
    unfold scan at scanned
    cases visited : s.visit held searchMax with
    | none => simp [visited] at scanned
    | some v =>
      cases v with
      | done r s'' =>
        simp only [visited, Option.some.injEq, Prod.mk.injEq] at scanned
        obtain ⟨-, rfl⟩ := scanned
        exact visit_keepsDirty visited
      | next s'' =>
        simp only [visited] at scanned
        exact (visit_keepsDirty visited).trans (scan_keepsDirty fuel scanned)

end Scan

/-! ## Loading an object -/

/-- Drawing an access id keeps a state sound. -/
theorem Sound.drawAid (sound : Sound s) : Sound { s with aidNext := s.aidNext + 1 } where
  toCoherent := ⟨sound.cached, sound.cleanNotDirty, sound.keyed, sound.bounded⟩
  dirtyArc := sound.dirtyArc
  pendingDirty := sound.pendingDirty
  live k a arc found := by
    obtain ⟨aidBelow, arcBelow, o, object, objBelow⟩ := sound.live k a arc found
    exact ⟨by dsimp only; omega, arcBelow, o, object, by dsimp only; omega⟩
  apart := sound.apart

section Load

variable {w : World D}

/-- `getNewUninit` changes neither the capacity nor the dirty and pending maps. -/
theorem getNewUninit_keepsDirty {result : SysR (Option (Nat × Nat))}
    (got : s.getNewUninit w = some (result, s')) : KeepsDirty s s' := by
  unfold getNewUninit at got
  by_cases room : s.search.size < s.maxNum
  · rw [if_pos room, Option.some.injEq, Prod.mk.injEq] at got
    obtain ⟨-, rfl⟩ := got
    exact .refl s
  · rw [if_neg room] at got
    split_ifs at got with empty
    obtain ⟨⟨result, s₂⟩, scanned, mapped⟩ := Option.map_eq_some_iff.mp got
    simp only [Prod.mk.injEq] at mapped
    obtain ⟨-, rfl⟩ := mapped
    have drawn : KeepsDirty s { s with aidNext := s.aidNext + 1 } := ⟨rfl, rfl, rfl⟩
    exact drawn.trans (scan_keepsDirty _ scanned)

/-- When other tasks hold every object, a full cache cannot evict: `getNewUninit`
returns `ENOBUFS` and loses a key, so the state it leaves is not coherent. -/
theorem Sound.getNewUninit_enobufs_of_held (sound : Sound s) (full : ¬s.search.size < s.maxNum)
    (nonempty : 0 < s.clean.size) (allHeld : ∀ arc, w.held arc = true) :
    ∃ s' key, s.getNewUninit w = some (.error .ENOBUFS, s') ∧ s'.Lost key := by
  have enough : ({ s with aidNext := s.aidNext + 1 } : Lru D).pending s.aidNext <
      2 * s.clean.size + 1 := by
    have := pending_le (s := { s with aidNext := s.aidNext + 1 }) s.aidNext
    dsimp only at this
    omega
  have scans : (({ s with aidNext := s.aidNext + 1 } : Lru D).scan w.held s.aidNext
      (2 * s.clean.size + 1)).isSome :=
    sound.drawAid.scan_isSome _ nonempty (Nat.lt_succ_self _) enough
  obtain ⟨⟨result, s'⟩, scanned⟩ := Option.isSome_iff_exists.mp scans
  rcases sound.drawAid.scan_result _ (Nat.lt_succ_self _) scanned with
    ⟨rfl, key, lost⟩ | ⟨key, arc, -, notHeld, -⟩
  · refine ⟨s', key, ?_, lost⟩
    unfold getNewUninit
    rw [if_neg full, if_neg (Nat.pos_iff_ne_zero.mp nonempty), scanned]
    rfl
  · simp [allHeld] at notHeld

/-- Inserting a key that is not cached does not panic. -/
theorem Sound.forceInsert_isSome {key : Nat} {data : D} (sound : Sound s)
    (absent : s.search.get? key = none) : (s.forceInsert key data).isSome := by
  have fresh : s.clean.get? s.aidNext = none := by
    cases entry : s.clean.get? s.aidNext with
    | none => rfl
    | some e => exact absurd (sound.clean_below entry) (lt_irrefl _)
  unfold Lru.forceInsert
  simp only [tryInsert_of_get?_eq_none absent, tryInsert_of_get?_eq_none fresh,
    Option.bind_eq_bind, Option.bind_some]
  rfl

theorem forceInsert_keepsDirty {key arc : Nat} {data : D}
    (inserted : s.forceInsert key data = some (arc, s')) : KeepsDirty s s' := by
  obtain ⟨-, -, -, rfl⟩ := forceInsert_eq_some inserted
  exact ⟨rfl, rfl, rfl⟩

/-- `get` changes neither the capacity nor the dirty and pending maps. -/
theorem get_keepsDirty {key : Nat} {result : SysR (Nat × Option Nat)}
    (got : s.get w key = some (result, s')) : KeepsDirty s s' := by
  unfold get at got
  cases cached : s.search.get? key with
  | some e =>
    simp only [cached, Option.some.injEq, Prod.mk.injEq] at got
    obtain ⟨-, rfl⟩ := got
    exact .refl s
  | none =>
    simp only [cached] at got
    cases fresh : s.getNewUninit w with
    | none => simp [fresh] at got
    | some p =>
      obtain ⟨uninit, s₂⟩ := p
      have uninitKeeps := getNewUninit_keepsDirty fresh
      cases uninit with
      | error e =>
        simp only [fresh, Option.some.injEq, Prod.mk.injEq] at got
        obtain ⟨-, rfl⟩ := got
        exact uninitKeeps
      | ok replaced =>
        simp only [fresh] at got
        cases read : w.read key with
        | error e =>
          simp only [read, Option.some.injEq, Prod.mk.injEq] at got
          obtain ⟨-, rfl⟩ := got
          exact uninitKeeps
        | ok data =>
          simp only [read] at got
          obtain ⟨⟨arc, s₃⟩, inserted, mapped⟩ := Option.map_eq_some_iff.mp got
          simp only [Prod.mk.injEq] at mapped
          obtain ⟨-, rfl⟩ := mapped
          exact uninitKeeps.trans (forceInsert_keepsDirty inserted)

end Load

/-! ## The sync task and the readers -/

/-- A cached object whose key moves to a fresh aid stays apart from the others. -/
theorem Apart.refresh {a arc a' arc' n : Nat} {o o' : Obj D} (apart : Apart a arc o a' arc' o')
    (aidFresh : n ≠ a') (objFresh : n ≠ o'.aid) : Apart n arc o a' arc' o' := by
  obtain ⟨arcs, -, -, objAid, objs⟩ := apart
  exact ⟨arcs, aidFresh, objFresh, objAid, objs⟩

/-- A cached object that takes a fresh aid stays apart from the others. -/
theorem Apart.touch {a arc a' arc' n : Nat} {o o' : Obj D} (apart : Apart a arc o a' arc' o')
    (aidFresh : n ≠ a') (objFresh : n ≠ o'.aid) : Apart a arc { o with aid := n } a' arc' o' := by
  obtain ⟨arcs, aids, aidObj, -, -⟩ := apart
  exact ⟨arcs, aids, aidObj, aidFresh, objFresh⟩

/-- Moving a written dirty key back to clean under a fresh aid keeps a state sound. -/
theorem Sound.suspend {key arc : Nat} (sound : Sound s) (dirty : s.dirty.get? key = some arc)
    (notPending : s.syncPending.get? key = none) :
    Sound { s with
      dirty := s.dirty.erase key
      clean := s.clean.insert s.aidNext (key, arc)
      search := s.search.modify key fun e => (s.aidNext, e.2)
      aidNext := s.aidNext + 1 } := by
  obtain ⟨a, cached⟩ := sound.dirtyArc key arc dirty
  have fresh : s.clean.get? s.aidNext = none := by
    cases entry : s.clean.get? s.aidNext with
    | none => rfl
    | some e => exact absurd (sound.clean_below entry) (lt_irrefl _)
  -- the clean entries belong to keys that are not dirty, so never to `key`
  have cleanOther : ∀ {a' k arc'}, s.clean.get? a' = some (k, arc') → k ≠ key := by
    intro a' k arc' entry same
    subst same
    simp [sound.cleanNotDirty _ _ _ entry] at dirty
  refine ⟨⟨?cached, ?cleanNotDirty, ?keyed, ?bounded⟩, ?dirtyArc, ?pendingDirty, ?live, ?apart⟩
  case cached =>
    intro k
    simp only [get?_modify, get?_insert, get?_erase]
    by_cases same : k = key
    · subst same
      simp only [if_true, cached, Option.map_some, Option.isSome_some, true_iff]
      exact .inr ⟨s.aidNext, arc, by simp⟩
    · rw [if_neg same, if_neg same, sound.cached k]
      refine or_congr_right (exists_congr fun a' => exists_congr fun arc' => ?_)
      split_ifs with atFresh
      · subst atFresh
        simp only [fresh, reduceCtorEq, false_iff, Option.some.injEq, Prod.mk.injEq, not_and]
        exact fun equal => absurd equal.symm same
      · rfl
  case cleanNotDirty =>
    intro a' k arc' entry
    simp only [get?_insert, get?_erase] at entry ⊢
    split_ifs at entry with atFresh
    · cases entry
      simp
    · rw [if_neg (cleanOther entry)]
      exact sound.cleanNotDirty _ _ _ entry
  case keyed =>
    intro a' k arc' entry
    simp only [get?_insert, get?_modify] at entry ⊢
    split_ifs at entry with atFresh
    · cases entry
      simp [cached, atFresh]
    · rw [if_neg (cleanOther entry)]
      exact sound.keyed _ _ _ entry
  case bounded => simpa [size_modify] using sound.bounded
  case dirtyArc =>
    intro k arc' dirty'
    simp only [get?_erase, get?_modify] at dirty' ⊢
    split_ifs at dirty' with same
    rw [if_neg same]
    exact sound.dirtyArc k arc' dirty'
  case pendingDirty =>
    intro k pending
    have other : k ≠ key := by
      rintro rfl
      simp [notPending] at pending
    simpa [get?_erase, other] using sound.pendingDirty k pending
  case live =>
    intro k a' arc' found
    simp only [get?_modify, cached, Option.map_some] at found
    split_ifs at found with same
    · cases found
      obtain ⟨-, arcBelow, o, object, objBelow⟩ := sound.live key a arc cached
      exact ⟨by dsimp only; omega, arcBelow, o, object, by dsimp only; omega⟩
    · obtain ⟨aidBelow, arcBelow, o, object, objBelow⟩ := sound.live k a' arc' found
      exact ⟨by dsimp only; omega, arcBelow, o, object, by dsimp only; omega⟩
  case apart =>
    intro k k' a₁ a₂ arc₁ arc₂ o₁ o₂ distinct found object₁ found' object₂
    simp only [get?_modify, cached, Option.map_some] at found found'
    -- the suspended key keeps its Arc and object and takes a fresh aid
    have moved : ∀ {k' a' arc' o'}, k' ≠ key → s.search.get? k' = some (a', arc') →
        s.heap.get? arc' = some o' → ∀ {o}, s.heap.get? arc = some o →
        Apart s.aidNext arc o a' arc' o' := by
      intro k' a' arc' o' other found' object' o object
      obtain ⟨aidBelow, -, o'', object'', objBelow⟩ := sound.live k' a' arc' found'
      rw [object', Option.some.injEq] at object''
      subst object''
      exact (sound.apart key k' a a' arc arc' o o' (Ne.symm other) cached object found'
        object').refresh (by omega) (by omega)
    split_ifs at found found' with same same'
    · exact absurd (same.trans same'.symm) distinct
    · cases found
      exact moved same' found' object₂ object₁
    · cases found'
      exact (moved same found object₁ object₂).symm
    · exact sound.apart k k' a₁ a₂ arc₁ arc₂ o₁ o₂ distinct found object₁ found' object₂

/-- `dirty_suspend_iter` keeps a sound state sound. -/
theorem Sound.dirtySuspendIter : ∀ (keys : List Nat) {s s' : Lru D}, Sound s →
    s.dirtySuspendIter keys = some s' → Sound s'
  | [], s, s', sound, done => by
    cases done
    exact sound
  | key :: rest, s, s', sound, done => by
    unfold Lru.dirtySuspendIter at done
    split_ifs at done with pending
    · exact Sound.dirtySuspendIter rest sound done
    · have notPending : s.syncPending.get? key = none := Option.not_isSome_iff_eq_none.mp pending
      cases removed : s.dirty.remove key with
      | none => simp [removed] at done
      | some r =>
        obtain ⟨arc, dirty⟩ := r
        obtain ⟨found, rfl⟩ := remove_eq_some_iff.mp removed
        have dirtyKey := get?_eq_some_iff.mpr found
        obtain ⟨a, cached⟩ := sound.dirtyArc key arc dirtyKey
        have fresh : s.clean.get? s.aidNext = none := by
          cases entry : s.clean.get? s.aidNext with
          | none => rfl
          | some e => exact absurd (sound.clean_below entry) (lt_irrefl _)
        have updated : s.search.update key (fun e => (s.aidNext, e.2)) =
            some (s.search.modify key fun e => (s.aidNext, e.2)) :=
          update_eq_some_iff.mpr ⟨⟨_, get?_eq_some_iff.mp cached⟩, rfl⟩
        simp only [removed, tryInsert_of_get?_eq_none fresh, updated, Option.bind_eq_bind,
          Option.bind_some] at done
        exact Sound.dirtySuspendIter rest (sound.suspend dirtyKey notPending) done

/-- `dirty_suspend_iter` keeps the capacity and only takes keys out of dirty. -/
theorem dirtySuspendIter_shrinks : ∀ (keys : List Nat) {s s' : Lru D},
    s.dirtySuspendIter keys = some s' → s'.maxNum = s.maxNum ∧ s'.dirty.size ≤ s.dirty.size
  | [], s, s', done => by
    cases done
    exact ⟨rfl, le_rfl⟩
  | key :: rest, s, s', done => by
    unfold Lru.dirtySuspendIter at done
    split_ifs at done with pending
    · exact dirtySuspendIter_shrinks rest done
    · cases removed : s.dirty.remove key with
      | none => simp [removed] at done
      | some r =>
        obtain ⟨arc, dirty⟩ := r
        obtain ⟨-, rfl⟩ := remove_eq_some_iff.mp removed
        cases cleaned : s.clean.tryInsert s.aidNext (key, arc) with
        | none => simp [removed, cleaned] at done
        | some clean =>
        cases updated : s.search.update key (fun e => (s.aidNext, e.2)) with
        | none => simp [removed, updated] at done
        | some search =>
        simp only [removed, cleaned, updated, Option.bind_eq_bind, Option.bind_some] at done
        obtain ⟨sameMax, smaller⟩ := dirtySuspendIter_shrinks rest done
        exact ⟨sameMax, smaller.trans size_erase_le⟩

/-- `dirty_suspend_iter` does not panic when it is handed distinct dirty keys. -/
theorem Sound.dirtySuspendIter_isSome : ∀ (keys : List Nat) {s : Lru D}, Sound s →
    keys.Nodup → (∀ k ∈ keys, (s.dirty.get? k).isSome) → (s.dirtySuspendIter keys).isSome
  | [], s, _, _, _ => rfl
  | key :: rest, s, sound, distinct, allDirty => by
    have restDirty : ∀ k ∈ rest, (s.dirty.get? k).isSome :=
      fun k member => allDirty k (List.mem_cons_of_mem key member)
    unfold Lru.dirtySuspendIter
    split_ifs with pending
    · exact Sound.dirtySuspendIter_isSome rest sound (List.nodup_cons.mp distinct).2 restDirty
    · have notPending : s.syncPending.get? key = none := Option.not_isSome_iff_eq_none.mp pending
      obtain ⟨arc, dirtyKey⟩ := Option.isSome_iff_exists.mp (allDirty key List.mem_cons_self)
      obtain ⟨a, cached⟩ := sound.dirtyArc key arc dirtyKey
      have removed : s.dirty.remove key = some (arc, s.dirty.erase key) :=
        remove_eq_some_iff.mpr ⟨get?_eq_some_iff.mp dirtyKey, rfl⟩
      have fresh : s.clean.get? s.aidNext = none := by
        cases entry : s.clean.get? s.aidNext with
        | none => rfl
        | some e => exact absurd (sound.clean_below entry) (lt_irrefl _)
      have updated : s.search.update key (fun e => (s.aidNext, e.2)) =
          some (s.search.modify key fun e => (s.aidNext, e.2)) :=
        update_eq_some_iff.mpr ⟨⟨_, get?_eq_some_iff.mp cached⟩, rfl⟩
      simp only [removed, tryInsert_of_get?_eq_none fresh, updated, Option.bind_eq_bind,
        Option.bind_some]
      apply Sound.dirtySuspendIter_isSome rest (sound.suspend dirtyKey notPending)
        (List.nodup_cons.mp distinct).2
      intro k member
      have other : k ≠ key := fun same => (List.nodup_cons.mp distinct).1 (same ▸ member)
      simpa [get?_erase, other] using restDirty k member

/-- Moving a clean key to dirty, with a write pending, keeps a state sound. -/
theorem Sound.intoDirty {key a arc : Nat} (sound : Sound s)
    (cached : s.search.get? key = some (a, arc)) (entry : s.clean.get? a = some (key, arc)) :
    Sound { s with
      clean := s.clean.erase a
      dirty := s.dirty.insert key arc
      syncPending := s.syncPending.insert key () } := by
  -- the key's clean entry is the one at its aid; every other entry is kept
  have cleanOther : ∀ {a' k arc'}, (s.clean.erase a).get? a' = some (k, arc') →
      k ≠ key ∧ s.clean.get? a' = some (k, arc') := by
    intro a' k arc' found
    rw [get?_erase] at found
    split_ifs at found with atKey
    refine ⟨fun same => ?_, found⟩
    subst same
    have keyed := sound.keyed _ _ _ found
    rw [cached, Option.some.injEq, Prod.mk.injEq] at keyed
    exact atKey keyed.1.symm
  refine ⟨⟨?cached, ?cleanNotDirty, ?keyed, sound.bounded⟩, ?dirtyArc, ?pendingDirty,
    sound.live, sound.apart⟩
  case cached =>
    intro k
    simp only [get?_insert]
    by_cases same : k = key
    · subst same
      simp [cached]
    · rw [if_neg same, sound.cached k]
      refine or_congr_right ⟨fun ⟨a', arc', found⟩ => ⟨a', arc', ?_⟩,
        fun ⟨a', arc', found⟩ => ⟨a', arc', (cleanOther found).2⟩⟩
      rw [get?_erase, if_neg]
      · exact found
      · rintro rfl
        rw [entry, Option.some.injEq, Prod.mk.injEq] at found
        exact same found.1.symm
  case cleanNotDirty =>
    intro a' k arc' found
    obtain ⟨other, found⟩ := cleanOther found
    rw [get?_insert, if_neg other]
    exact sound.cleanNotDirty _ _ _ found
  case keyed =>
    intro a' k arc' found
    exact sound.keyed _ _ _ (cleanOther found).2
  case dirtyArc =>
    intro k arc' dirty
    rw [get?_insert] at dirty
    split_ifs at dirty with same
    · cases dirty
      exact ⟨a, same ▸ cached⟩
    · exact sound.dirtyArc k arc' dirty
  case pendingDirty =>
    intro k pending
    rw [get?_insert]
    rw [get?_insert] at pending
    split_ifs at pending ⊢ with same
    · rfl
    · exact sound.pendingDirty k pending

/-- Asking the sync task to write a dirty key again keeps a state sound. -/
theorem Sound.repend {key : Nat} (sound : Sound s) (dirty : (s.dirty.get? key).isSome) :
    Sound { s with syncPending := s.syncPending.insert key () } where
  toCoherent := ⟨sound.cached, sound.cleanNotDirty, sound.keyed, sound.bounded⟩
  dirtyArc := sound.dirtyArc
  pendingDirty k pending := by
    rw [get?_insert] at pending
    split_ifs at pending with same
    · exact same ▸ dirty
    · exact sound.pendingDirty k pending
  live := sound.live
  apart := sound.apart

/-- A reader refreshing an object's aid keeps a state sound. -/
theorem Sound.touch (sound : Sound s) (arc : Nat) : Sound (s.touch arc) where
  toCoherent := ⟨sound.cached, sound.cleanNotDirty, sound.keyed, sound.bounded⟩
  dirtyArc := sound.dirtyArc
  pendingDirty := sound.pendingDirty
  live k a arc' found := by
    obtain ⟨aidBelow, arcBelow, o, object, objBelow⟩ := sound.live k a arc' found
    simp only [Lru.touch, updateAid_aidNext, updateAid_arcNext, heap_updateAid]
    refine ⟨by omega, arcBelow, ?_⟩
    split_ifs with same
    · subst same
      simp [object]
    · exact ⟨o, object, by omega⟩
  apart k k' a a' arc₁ arc₂ o₁ o₂ distinct found object₁ found' object₂ := by
    simp only [Lru.touch, heap_updateAid] at found found' object₁ object₂
    have oldApart := fun {o o'} (object : s.heap.get? arc₁ = some o)
      (object' : s.heap.get? arc₂ = some o') =>
      sound.apart k k' a a' arc₁ arc₂ o o' distinct found object found' object'
    obtain ⟨aidBelow₁, -, p₁, old₁, objBelow₁⟩ := sound.live k a arc₁ found
    obtain ⟨aidBelow₂, -, p₂, old₂, objBelow₂⟩ := sound.live k' a' arc₂ found'
    have arcs := (oldApart old₁ old₂).1
    by_cases same₁ : arc₁ = arc
    · have other₂ : arc₂ ≠ arc := fun same₂ => arcs (same₁.trans same₂.symm)
      rw [if_pos same₁, ← same₁, old₁, Option.map_some, Option.some.injEq] at object₁
      rw [if_neg other₂, old₂, Option.some.injEq] at object₂
      subst object₁ object₂
      exact (oldApart old₁ old₂).touch (by omega) (by omega)
    · rw [if_neg same₁] at object₁
      by_cases same₂ : arc₂ = arc
      · rw [if_pos same₂, ← same₂, old₂, Option.map_some, Option.some.injEq] at object₂
        rw [old₁, Option.some.injEq] at object₁
        subst object₁ object₂
        exact ((oldApart old₁ old₂).symm.touch (by omega) (by omega)).symm
      · rw [if_neg same₂] at object₂
        exact oldApart object₁ object₂

/-- The sync task taking the pending keys keeps a state sound. -/
theorem Sound.takePending (sound : Sound s) : Sound s.takePending.2 where
  toCoherent := ⟨sound.cached, sound.cleanNotDirty, sound.keyed, sound.bounded⟩
  dirtyArc := sound.dirtyArc
  pendingDirty := by simp [Lru.takePending]
  live := sound.live
  apart := sound.apart

end Lru

end FtlOs
