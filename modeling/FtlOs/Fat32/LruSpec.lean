import FtlOs.Fat32.Lru

/-!
# Coherence of the LRU bookkeeping

`Coherent` is the agreement of the three maps that both managers rely on: every
cached key is either dirty or has exactly one clean entry, keyed by the aid
`search` records for it and holding the same Arc, and no more keys are cached
than the capacity.  Coherence alone is not preserved by the calls: the eviction
scan requeues an object under the object's own aid, which must not collide with
another clean entry.  `Sound` adds what makes it inductive: dirty entries hold
the search Arc, pending keys are dirty, every id in use is below the allocators,
and two cached keys share no Arc and no access id.

Each call gets one lemma saying what it does to the maps, and one saying it
keeps `Sound`; the eviction scan is handled one pass at a time.
-/

namespace FtlOs

namespace Lru

open OrdMap

variable {D : Type} {s s' : Lru D}

/-- The maps agree: `search`'s keys are the dirty keys and the keys held in
`clean`, disjointly; a clean entry is keyed by the aid `search` records for its key
and holds the same Arc (so there is one per key); at most `maxNum` keys are cached. -/
structure Coherent (s : Lru D) : Prop where
  cached : ∀ k, (s.search.get? k).isSome ↔
    (s.dirty.get? k).isSome ∨ ∃ a arc, s.clean.get? a = some (k, arc)
  cleanNotDirty : ∀ a k arc, s.clean.get? a = some (k, arc) → s.dirty.get? k = none
  keyed : ∀ a k arc, s.clean.get? a = some (k, arc) → s.search.get? k = some (a, arc)
  bounded : s.search.size ≤ s.maxNum

/-- Two cached objects share neither their Arc nor any access id. -/
def Apart (a arc : Nat) (o : Obj D) (a' arc' : Nat) (o' : Obj D) : Prop :=
  arc ≠ arc' ∧ a ≠ a' ∧ a ≠ o'.aid ∧ o.aid ≠ a' ∧ o.aid ≠ o'.aid

/-- Coherence together with the facts that keep it inductive. -/
structure Sound (s : Lru D) : Prop extends Coherent s where
  dirtyArc : ∀ k arc, s.dirty.get? k = some arc → ∃ a, s.search.get? k = some (a, arc)
  pendingDirty : ∀ k, (s.syncPending.get? k).isSome → (s.dirty.get? k).isSome
  live : ∀ k a arc, s.search.get? k = some (a, arc) →
    a < s.aidNext ∧ arc < s.arcNext ∧ ∃ o, s.heap.get? arc = some o ∧ o.aid < s.aidNext
  apart : ∀ k k' a a' arc arc' o o', k ≠ k' →
    s.search.get? k = some (a, arc) → s.heap.get? arc = some o →
    s.search.get? k' = some (a', arc') → s.heap.get? arc' = some o' →
    Apart a arc o a' arc' o'

theorem Apart.symm {a arc a' arc' : Nat} {o o' : Obj D} (apart : Apart a arc o a' arc' o') :
    Apart a' arc' o' a arc o := by
  obtain ⟨arcs, aids, aidObj, objAid, objs⟩ := apart
  exact ⟨Ne.symm arcs, Ne.symm aids, Ne.symm objAid, Ne.symm aidObj, Ne.symm objs⟩

/-- An object made with fresh ids is apart from every object made before. -/
theorem apart_fresh {n m a' arc' : Nat} {d : D} {o' : Obj D}
    (aidBelow : a' < n) (objBelow : o'.aid < n) (arcBelow : arc' < m) :
    Apart n m ⟨n, d⟩ a' arc' o' :=
  ⟨by omega, by omega, by omega, by dsimp only; omega, by dsimp only; omega⟩

theorem sound_new (maxNum : Nat) : Sound (new maxNum : Lru D) where
  cached k := by simp [new]
  cleanNotDirty := by simp [new]
  keyed := by simp [new]
  bounded := by simp [new, size]
  dirtyArc := by simp [new]
  pendingDirty := by simp [new]
  live := by simp [new]
  apart := by simp [new]

/-! ## Facts of a sound state -/

section Facts

variable (sound : Sound s)
include sound

/-- A key that is not cached is neither dirty nor in clean. -/
theorem Sound.dirty_of_not_cached {k : Nat} (absent : s.search.get? k = none) :
    s.dirty.get? k = none := by
  cases found : s.dirty.get? k with
  | none => rfl
  | some arc =>
      obtain ⟨a, cached⟩ := sound.dirtyArc k arc found
      simp [cached] at absent

/-- Every clean key is below the aid allocator. -/
theorem Sound.clean_below {a k arc : Nat} (entry : s.clean.get? a = some (k, arc)) :
    a < s.aidNext :=
  (sound.live k a arc (sound.keyed a k arc entry)).1

/-- A cached key that is not dirty has its clean entry at the aid search records. -/
theorem Sound.clean_of_not_dirty {k a arc : Nat} (cached : s.search.get? k = some (a, arc))
    (notDirty : s.dirty.get? k = none) : s.clean.get? a = some (k, arc) := by
  have present : (s.search.get? k).isSome := by simp [cached]
  rcases (sound.cached k).mp present with dirty | ⟨a', arc', entry⟩
  · simp [notDirty] at dirty
  · have same := sound.keyed a' k arc' entry
    rw [cached, Option.some.injEq, Prod.mk.injEq] at same
    obtain ⟨rfl, rfl⟩ := same
    exact entry

/-- The only clean entry at a cached key's aid is that key's. -/
theorem Sound.clean_at_aid {k a arc k' arc' : Nat} (cached : s.search.get? k = some (a, arc))
    (entry : s.clean.get? a = some (k', arc')) : k' = k := by
  by_contra other
  have cached' := sound.keyed a k' arc' entry
  obtain ⟨-, -, o, object, -⟩ := sound.live k a arc cached
  obtain ⟨-, -, o', object', -⟩ := sound.live k' a arc' cached'
  exact (sound.apart k' k a a arc' arc o' o other cached' object' cached object).2.1 rfl

end Facts

/-! ## Insertion of a loaded object -/

/-- What `forceInsert` does: the key, absent before, enters search and clean
under the next aid and the next Arc. -/
theorem forceInsert_eq_some {key arc : Nat} {data : D}
    (inserted : s.forceInsert key data = some (arc, s')) :
    s.search.get? key = none ∧ s.clean.get? s.aidNext = none ∧ arc = s.arcNext ∧
      s' = { s with
        search := s.search.insert key (s.aidNext, s.arcNext)
        clean := s.clean.insert s.aidNext (key, s.arcNext)
        heap := s.heap.insert s.arcNext ⟨s.aidNext, data⟩
        aidNext := s.aidNext + 1
        arcNext := s.arcNext + 1 } := by
  unfold forceInsert at inserted
  cases searched : s.search.tryInsert key (s.aidNext, s.arcNext) with
  | none => simp [searched] at inserted
  | some search =>
    cases cleaned : s.clean.tryInsert s.aidNext (key, s.arcNext) with
    | none => simp [searched, cleaned] at inserted
    | some clean =>
      simp only [searched, cleaned, Option.bind_eq_bind, Option.bind_some, Option.pure_def,
        Option.some.injEq, Prod.mk.injEq] at inserted
      obtain ⟨rfl, rfl⟩ := inserted
      obtain ⟨searchAbsent, rfl⟩ := tryInsert_eq_some_iff.mp searched
      obtain ⟨cleanAbsent, rfl⟩ := tryInsert_eq_some_iff.mp cleaned
      exact ⟨get?_eq_none_iff.mpr searchAbsent, get?_eq_none_iff.mpr cleanAbsent, rfl, rfl⟩

/-- Inserting a loaded object keeps a sound state sound when there is room. -/
theorem Sound.forceInsert {key arc : Nat} {data : D} (sound : Sound s)
    (room : s.search.size < s.maxNum) (inserted : s.forceInsert key data = some (arc, s')) :
    Sound s' := by
  obtain ⟨absent, -, -, rfl⟩ := forceInsert_eq_some inserted
  have notDirty := sound.dirty_of_not_cached absent
  -- every id already in use is below the fresh ones
  have oldArc : ∀ {k a arc}, s.search.get? k = some (a, arc) → arc ≠ s.arcNext :=
    fun cached => (sound.live _ _ _ cached).2.1.ne
  refine ⟨⟨?cached, ?cleanNotDirty, ?keyed, ?bounded⟩, ?dirtyArc, ?pendingDirty, ?live, ?apart⟩
  case cached =>
    intro k
    simp only [get?_insert]
    by_cases same : k = key
    · subst same
      simp only [if_true, Option.isSome_some, true_iff]
      exact .inr ⟨s.aidNext, s.arcNext, by simp⟩
    · rw [if_neg same, sound.cached k]
      refine or_congr_right (exists_congr fun a => exists_congr fun arc' => ?_)
      split_ifs with fresh
      · subst fresh
        simp only [Option.some.injEq, Prod.mk.injEq]
        constructor
        · intro entry
          exact absurd (sound.clean_below entry) (lt_irrefl _)
        · rintro ⟨rfl, -⟩
          exact absurd rfl same
      · rfl
  case cleanNotDirty =>
    intro a k arc' entry
    simp only [get?_insert] at entry
    split_ifs at entry with fresh
    · cases entry
      exact notDirty
    · exact sound.cleanNotDirty a k arc' entry
  case keyed =>
    intro a k arc' entry
    simp only [get?_insert] at entry ⊢
    split_ifs at entry with fresh
    · cases entry
      simp [fresh]
    · have cached := sound.keyed a k arc' entry
      have other : k ≠ key := by
        rintro rfl
        simp [cached] at absent
      simpa [other] using cached
  case bounded =>
    rw [size_insert_of_get?_eq_none absent]
    exact room
  case dirtyArc =>
    intro k arc' dirty
    obtain ⟨a, cached⟩ := sound.dirtyArc k arc' dirty
    have other : k ≠ key := by
      rintro rfl
      simp [cached] at absent
    exact ⟨a, by simpa [get?_insert, other] using cached⟩
  case pendingDirty => exact sound.pendingDirty
  case live =>
    intro k a arc' cached
    simp only [get?_insert] at cached ⊢
    split_ifs at cached with same
    · cases cached
      simp
    · obtain ⟨aidBelow, arcBelow, o, object, objBelow⟩ := sound.live k a arc' cached
      refine ⟨by omega, by omega, o, ?_, by omega⟩
      simpa [arcBelow.ne] using object
  case apart =>
    intro k k' a a' arc₁ arc₂ o o' distinct cached object cached' object'
    simp only [get?_insert] at cached cached' object object'
    -- the new key is apart from every old one by freshness
    have freshApart : ∀ {k a arc o}, s.search.get? k = some (a, arc) →
        (if arc = s.arcNext then some ⟨s.aidNext, data⟩ else s.heap.get? arc) = some o →
        Apart s.aidNext s.arcNext ⟨s.aidNext, data⟩ a arc o := by
      intro k a arc o cached object
      obtain ⟨aidBelow, arcBelow, o₀, object₀, objBelow⟩ := sound.live k a arc cached
      rw [if_neg arcBelow.ne, object₀, Option.some.injEq] at object
      subst object
      exact apart_fresh aidBelow objBelow arcBelow
    split_ifs at cached cached' with same same'
    · exact absurd (same.trans same'.symm) distinct
    · cases cached
      simp only [if_true, Option.some.injEq] at object
      subst object
      exact freshApart cached' object'
    · cases cached'
      simp only [if_true, Option.some.injEq] at object'
      subst object'
      exact (freshApart cached object).symm
    · rw [if_neg (oldArc cached)] at object
      rw [if_neg (oldArc cached')] at object'
      exact sound.apart k k' a a' arc₁ arc₂ o o' distinct cached object cached' object'

/-! ## One pass of the eviction scan -/

/-- What one pass of the scan can do, case by case.  Each pass pops the least
clean entry `(xaid, key, arc)`. -/
inductive Visited (held : Nat → Bool) (searchMax : Nat) (s : Lru D) : Visit D → Prop
  /-- The popped entry is younger than the scan: `ENOBUFS`, and the entry is lost. -/
  | enobufs {xaid key arc : Nat} (popped : s.clean.get? xaid = some (key, arc))
      (least : ∀ e ∈ s.clean.entries, xaid ≤ e.1) (late : searchMax < xaid) :
      Visited held searchMax s (.done (.error .ENOBUFS) { s with clean := s.clean.erase xaid })
  /-- The object's aid moved on: requeue it under that aid. -/
  | requeue {xaid key arc : Nat} {o : Obj D} (popped : s.clean.get? xaid = some (key, arc))
      (least : ∀ e ∈ s.clean.entries, xaid ≤ e.1) (early : xaid ≤ searchMax)
      (object : s.heap.get? arc = some o) (stale : o.aid ≠ xaid)
      (cached : (s.search.get? key).isSome) (free : (s.clean.erase xaid).get? o.aid = none) :
      Visited held searchMax s (.next { s with
        search := s.search.modify key fun e => (o.aid, e.2)
        clean := (s.clean.erase xaid).insert o.aid (key, arc) })
  /-- Another task holds the object: requeue it under a fresh aid. -/
  | keep {xaid key arc a ps : Nat} {o : Obj D} (popped : s.clean.get? xaid = some (key, arc))
      (least : ∀ e ∈ s.clean.entries, xaid ≤ e.1) (early : xaid ≤ searchMax)
      (object : s.heap.get? arc = some o) (current : o.aid = xaid)
      (cached : s.search.get? key = some (a, ps)) (isHeld : held arc = true)
      (free : (s.clean.erase xaid).get? s.aidNext = none) :
      Visited held searchMax s (.next ({ s with
        search := (s.search.erase key).insert key (s.aidNext, ps)
        clean := (s.clean.erase xaid).insert s.aidNext (key, arc)
        aidNext := s.aidNext + 1 }.updateAid arc s.aidNext))
  /-- Nobody else holds the object: evict it. -/
  | evict {xaid key arc a ps : Nat} {o : Obj D} (popped : s.clean.get? xaid = some (key, arc))
      (least : ∀ e ∈ s.clean.entries, xaid ≤ e.1) (early : xaid ≤ searchMax)
      (object : s.heap.get? arc = some o) (current : o.aid = xaid)
      (cached : s.search.get? key = some (a, ps)) (notHeld : held arc = false) :
      Visited held searchMax s (.done (.ok (key, arc)) { s with
        search := s.search.erase key
        clean := s.clean.erase xaid })

theorem visit_eq_some {held : Nat → Bool} {searchMax : Nat} {v : Visit D}
    (visited : s.visit held searchMax = some v) : Visited held searchMax s v := by
  unfold visit at visited
  cases popped : s.clean.popFirst with
  | none => simp [popped] at visited
  | some p =>
    obtain ⟨⟨xaid, key, arc⟩, rest⟩ := p
    obtain ⟨member, least, rfl⟩ := popFirst_spec popped
    have entry := get?_eq_some_iff.mpr member
    simp only [popped, Option.bind_eq_bind, Option.bind_some] at visited
    by_cases late : searchMax < xaid
    · rw [if_pos late, Option.pure_def, Option.some.injEq] at visited
      subst visited
      exact .enobufs entry least late
    rw [if_neg late] at visited
    have early := not_lt.mp late
    cases object : s.heap.get? arc with
    | none => simp [object] at visited
    | some o =>
    simp only [object, Option.bind_some] at visited
    by_cases stale : o.aid ≠ xaid
    · rw [if_pos stale] at visited
      cases searched : s.search.update key (fun e => (o.aid, e.2)) with
      | none => simp [searched] at visited
      | some search =>
      cases cleaned : (s.clean.erase xaid).tryInsert o.aid (key, arc) with
      | none => simp [searched, cleaned] at visited
      | some clean =>
      simp only [searched, cleaned, Option.bind_some, Option.pure_def, Option.some.injEq] at visited
      subst visited
      obtain ⟨⟨w, present⟩, rfl⟩ := update_eq_some_iff.mp searched
      obtain ⟨absent, rfl⟩ := tryInsert_eq_some_iff.mp cleaned
      exact .requeue entry least early object stale (by simp [get?_eq_some_iff.mpr present])
        (get?_eq_none_iff.mpr absent)
    rw [if_neg stale] at visited
    have current := not_not.mp stale
    cases removed : s.search.remove key with
    | none => simp [removed] at visited
    | some r =>
    obtain ⟨⟨a, ps⟩, rest⟩ := r
    obtain ⟨found, rfl⟩ := remove_eq_some_iff.mp removed
    have cached := get?_eq_some_iff.mpr found
    simp only [removed, Option.bind_some] at visited
    cases isHeld : held arc with
    | false =>
      simp only [isHeld, Bool.false_eq_true, if_false, Option.pure_def, Option.some.injEq] at visited
      subst visited
      exact .evict entry least early object current cached isHeld
    | true =>
      cases searched : (s.search.erase key).tryInsert key (s.aidNext, ps) with
      | none => simp [isHeld, searched] at visited
      | some search =>
      cases cleaned : (s.clean.erase xaid).tryInsert s.aidNext (key, arc) with
      | none => simp [isHeld, searched, cleaned] at visited
      | some clean =>
      simp only [isHeld, searched, cleaned, if_true, Option.bind_some, Option.pure_def,
        Option.some.injEq] at visited
      subst visited
      obtain ⟨-, rfl⟩ := tryInsert_eq_some_iff.mp searched
      obtain ⟨absent, rfl⟩ := tryInsert_eq_some_iff.mp cleaned
      exact .keep entry least early object current cached isHeld (get?_eq_none_iff.mpr absent)

/-- What loading and evicting leave alone: the capacity and the maps the sync task
works on. -/
structure KeepsDirty (s s' : Lru D) : Prop where
  maxNum : s'.maxNum = s.maxNum
  dirty : s'.dirty = s.dirty
  syncPending : s'.syncPending = s.syncPending

theorem KeepsDirty.refl (s : Lru D) : KeepsDirty s s := ⟨rfl, rfl, rfl⟩

theorem KeepsDirty.trans {s₂ : Lru D} (first : KeepsDirty s s₂) (second : KeepsDirty s₂ s') :
    KeepsDirty s s' :=
  ⟨second.maxNum.trans first.maxNum, second.dirty.trans first.dirty,
    second.syncPending.trans first.syncPending⟩

theorem visit_keepsDirty {held : Nat → Bool} {searchMax : Nat} {v : Visit D}
    (visited : s.visit held searchMax = some v) : KeepsDirty s v.state := by
  cases visit_eq_some visited <;> exact ⟨rfl, rfl, rfl⟩

/-- An object requeued under its own aid stays apart from the others. -/
theorem Apart.retag {a arc a' arc' : Nat} {o o' : Obj D} (apart : Apart a arc o a' arc' o') :
    Apart o.aid arc o a' arc' o' := by
  obtain ⟨arcs, -, -, objAid, objs⟩ := apart
  exact ⟨arcs, objAid, objs, objAid, objs⟩

section Passes

variable {xaid key arc : Nat} {o : Obj D}

/-- Requeueing a popped entry under its object's own aid keeps a sound state sound. -/
theorem Sound.requeue (sound : Sound s) (popped : s.clean.get? xaid = some (key, arc))
    (object : s.heap.get? arc = some o) (stale : o.aid ≠ xaid)
    (free : (s.clean.erase xaid).get? o.aid = none) :
    Sound { s with
      search := s.search.modify key fun e => (o.aid, e.2)
      clean := (s.clean.erase xaid).insert o.aid (key, arc) } := by
  have cached := sound.keyed _ _ _ popped
  have notDirty := sound.cleanNotDirty _ _ _ popped
  have freeAt : s.clean.get? o.aid = none := by
    rw [get?_erase, if_neg stale] at free
    exact free
  refine ⟨⟨?cached, ?cleanNotDirty, ?keyed, ?bounded⟩, ?dirtyArc, ?pendingDirty, ?live, ?apart⟩
  case cached =>
    intro k
    have old := sound.cached k
    simp only [get?_modify, get?_insert, get?_erase, cached] at old ⊢
    grind
  case cleanNotDirty =>
    intro a k arc' entry
    simp only [get?_insert, get?_erase] at entry
    grind [sound.cleanNotDirty]
  case keyed =>
    intro a k arc' entry
    simp only [get?_modify, get?_insert, get?_erase] at entry ⊢
    grind [sound.keyed]
  case bounded => simpa [size_modify] using sound.bounded
  case dirtyArc =>
    intro k arc' dirty
    simp only [get?_modify]
    grind [sound.dirtyArc]
  case pendingDirty => exact sound.pendingDirty
  case live =>
    intro k a arc' found
    simp only [get?_modify, cached, Option.map_some] at found
    split_ifs at found with same
    · cases found
      obtain ⟨-, arcBelow, o', object', objBelow⟩ := sound.live key xaid arc cached
      rw [object, Option.some.injEq] at object'
      subst object'
      exact ⟨objBelow, arcBelow, o, object, objBelow⟩
    · exact sound.live k a arc' found
  case apart =>
    intro k k' a a' arc₁ arc₂ o₁ o₂ distinct found object₁ found' object₂
    simp only [get?_modify, cached, Option.map_some] at found found'
    -- the requeued key keeps its Arc and object; its new aid is the object's own
    have moved : ∀ {k' a' arc' o'}, k' ≠ key → s.search.get? k' = some (a', arc') →
        s.heap.get? arc' = some o' → Apart o.aid arc o a' arc' o' := fun other found' object' =>
      (sound.apart key _ xaid _ arc _ o _ (Ne.symm other) cached object found' object').retag
    split_ifs at found found' with same same'
    · exact absurd (same.trans same'.symm) distinct
    · cases found
      rw [object, Option.some.injEq] at object₁
      subst object₁
      exact moved same' found' object₂
    · cases found'
      rw [object, Option.some.injEq] at object₂
      subst object₂
      exact (moved same found object₁).symm
    · exact sound.apart k k' a a' arc₁ arc₂ o₁ o₂ distinct found object₁ found' object₂

/-- In a sound state the objects of the other keys live under other Arcs than `key`'s. -/
theorem Sound.arc_ne_of_key_ne {k a' arc' : Nat} (sound : Sound s)
    (cached : s.search.get? key = some (xaid, arc)) (object : s.heap.get? arc = some o)
    (other : k ≠ key) (found : s.search.get? k = some (a', arc')) : arc' ≠ arc :=
  (sound.apart key _ _ _ _ _ o _ (Ne.symm other) cached object found
    (sound.live _ _ _ found).2.2.choose_spec.1).1.symm

/-- Under the fresh aid, the object of `key` is apart from the object of every other key. -/
theorem Sound.apart_requeued {k a' arc' : Nat} {o' : Obj D} (sound : Sound s)
    (cached : s.search.get? key = some (xaid, arc)) (object : s.heap.get? arc = some o)
    (other : k ≠ key) (found : s.search.get? k = some (a', arc'))
    (object' : s.heap.get? arc' = some o') :
    Apart s.aidNext arc { o with aid := s.aidNext } a' arc' o' := by
  obtain ⟨aidBelow, -, o'', object'', objBelow⟩ := sound.live k a' arc' found
  rw [object', Option.some.injEq] at object''
  subst object''
  exact ⟨(sound.arc_ne_of_key_ne cached object other found).symm, by omega, by omega,
    by dsimp only; omega, by dsimp only; omega⟩

/-- Requeueing a popped entry under a fresh aid keeps a sound state sound. -/
theorem Sound.keep {a ps : Nat} (sound : Sound s) (popped : s.clean.get? xaid = some (key, arc))
    (object : s.heap.get? arc = some o) (cached : s.search.get? key = some (a, ps)) :
    Sound ({ s with
      search := (s.search.erase key).insert key (s.aidNext, ps)
      clean := (s.clean.erase xaid).insert s.aidNext (key, arc)
      aidNext := s.aidNext + 1 }.updateAid arc s.aidNext) := by
  obtain ⟨sameAid, sameArc⟩ : xaid = a ∧ arc = ps := by
    have keyed := sound.keyed _ _ _ popped
    rw [cached, Option.some.injEq, Prod.mk.injEq] at keyed
    exact ⟨keyed.1.symm, keyed.2.symm⟩
  subst sameAid sameArc
  have notDirty := sound.cleanNotDirty _ _ _ popped
  have freeAt : s.clean.get? s.aidNext = none := by
    cases entry : s.clean.get? s.aidNext with
    | none => rfl
    | some e => exact absurd (sound.clean_below entry) (lt_irrefl _)
  -- the other cached objects live under other Arcs, so the new aid touches none of them
  have otherArc : ∀ {k a' arc'}, k ≠ key → s.search.get? k = some (a', arc') → arc' ≠ arc :=
    sound.arc_ne_of_key_ne cached object
  refine ⟨⟨?cached, ?cleanNotDirty, ?keyed, ?bounded⟩, ?dirtyArc, ?pendingDirty, ?live, ?apart⟩
  case cached =>
    intro k
    have old := sound.cached k
    simp only [updateAid_search, updateAid_dirty, updateAid_clean, get?_insert, get?_erase] at old ⊢
    grind [sound.clean_below]
  case cleanNotDirty =>
    intro a k arc' entry
    simp only [updateAid_clean, updateAid_dirty, get?_insert, get?_erase] at entry ⊢
    grind [sound.cleanNotDirty]
  case keyed =>
    intro a k arc' entry
    simp only [updateAid_clean, updateAid_search, get?_insert, get?_erase] at entry ⊢
    grind [sound.keyed]
  case bounded =>
    simp only [updateAid_search, updateAid_maxNum]
    have present : ((s.search.erase xaid).get? xaid).isSome = false := by simp [get?_erase]
    have sizes := size_erase_of_get?_isSome (m := s.search) (k := key) (by simp [cached])
    rw [size_insert_of_get?_eq_none (by simp [get?_erase])]
    have := sound.bounded
    omega
  case dirtyArc =>
    intro k arc' dirty
    simp only [updateAid_dirty, updateAid_search, get?_insert, get?_erase] at dirty ⊢
    grind [sound.dirtyArc]
  case pendingDirty => exact sound.pendingDirty
  case live =>
    intro k a' arc' found
    simp only [updateAid_search, updateAid_aidNext, updateAid_arcNext, get?_insert, get?_erase]
      at found ⊢
    rw [heap_updateAid]
    split_ifs at found with same
    · cases found
      obtain ⟨-, arcBelow, -⟩ := sound.live key xaid arc cached
      simp [object, arcBelow]
    · obtain ⟨aidBelow, arcBelow, o', object', objBelow⟩ := sound.live k a' arc' found
      rw [if_neg (otherArc same found)]
      exact ⟨by omega, arcBelow, o', object', by omega⟩
  case apart =>
    intro k k' a₁ a₂ arc₁ arc₂ o₁ o₂ distinct found object₁ found' object₂
    simp only [updateAid_search, get?_insert, get?_erase] at found found'
    rw [heap_updateAid] at object₁ object₂
    -- the requeued key keeps its Arc under the fresh aid; every other key keeps its entry
    split_ifs at found found' with same same' same''
    · exact absurd (same.trans same'.symm) distinct
    · cases found
      simp only [if_true, object, Option.map_some, Option.some.injEq] at object₁
      rw [if_neg (otherArc same' found')] at object₂
      subst object₁
      exact sound.apart_requeued cached object same' found' object₂
    · cases found'
      simp only [if_true, object, Option.map_some, Option.some.injEq] at object₂
      rw [if_neg (otherArc same found)] at object₁
      subst object₂
      exact (sound.apart_requeued cached object same found object₁).symm
    · rw [if_neg (otherArc same found)] at object₁
      rw [if_neg (otherArc same'' found')] at object₂
      exact sound.apart k k' a₁ a₂ arc₁ arc₂ o₁ o₂ distinct found object₁ found' object₂

/-- Evicting the popped entry keeps a sound state sound. -/
theorem Sound.evict (sound : Sound s) (popped : s.clean.get? xaid = some (key, arc)) :
    Sound { s with search := s.search.erase key, clean := s.clean.erase xaid } := by
  have cached := sound.keyed _ _ _ popped
  have notDirty := sound.cleanNotDirty _ _ _ popped
  refine ⟨⟨?cached, ?cleanNotDirty, ?keyed, ?bounded⟩, ?dirtyArc, ?pendingDirty, ?live, ?apart⟩
  case cached =>
    intro k
    simp only [get?_erase]
    by_cases same : k = key
    · subst same
      simp only [if_true, Option.isSome_none, Bool.false_eq_true, false_iff, not_or, notDirty,
        Option.isSome_none, not_false_eq_true, true_and, not_exists]
      intro a arc' entry
      split_ifs at entry with popAid
      have keyed := sound.keyed _ _ _ entry
      rw [cached, Option.some.injEq, Prod.mk.injEq] at keyed
      exact popAid keyed.1.symm
    · rw [if_neg same, sound.cached k]
      refine or_congr_right (exists_congr fun a => exists_congr fun arc' => ?_)
      split_ifs with popAid
      · subst popAid
        simp only [popped, Option.some.injEq, Prod.mk.injEq]
        exact iff_false_intro fun equal => same equal.1.symm
      · rfl
  case cleanNotDirty =>
    intro a k arc' entry
    simp only [get?_erase] at entry
    grind [sound.cleanNotDirty]
  case keyed =>
    intro a k arc' entry
    simp only [get?_erase] at entry ⊢
    grind [sound.keyed]
  case bounded => exact size_erase_le.trans sound.bounded
  case dirtyArc =>
    intro k arc' dirty
    simp only [get?_erase]
    grind [sound.dirtyArc]
  case pendingDirty => exact sound.pendingDirty
  case live =>
    intro k a arc' found
    simp only [get?_erase] at found
    split_ifs at found
    exact sound.live k a arc' found
  case apart =>
    intro k k' a a' arc₁ arc₂ o₁ o₂ distinct found object₁ found' object₂
    simp only [get?_erase] at found found'
    split_ifs at found found'
    exact sound.apart k k' a a' arc₁ arc₂ o₁ o₂ distinct found object₁ found' object₂

/-- Every pass that continues keeps a sound state sound. -/
theorem Sound.visit_next {held : Nat → Bool} {searchMax : Nat} (sound : Sound s)
    (visited : s.visit held searchMax = some (.next s')) : Sound s' := by
  cases visit_eq_some visited with
  | requeue popped _ _ object stale _ free => exact sound.requeue popped object stale free
  | keep popped _ _ object _ cached => exact sound.keep popped object cached

/-- A key is lost when it is cached and not dirty but has no clean entry at the aid
`search` records for it: the state the `ENOBUFS` exit leaves. -/
def Lost (s : Lru D) (key : Nat) : Prop :=
  ∃ a arc, s.search.get? key = some (a, arc) ∧ s.dirty.get? key = none ∧ s.clean.get? a = none

/-- The `ENOBUFS` exit drops the popped entry, and its key is lost. -/
theorem Sound.visit_enobufs {held : Nat → Bool} {searchMax : Nat} (sound : Sound s)
    (visited : s.visit held searchMax = some (.done (.error .ENOBUFS) s')) :
    ∃ key, s'.Lost key := by
  cases visit_eq_some visited with
  | @enobufs xaid key arc popped _ _ =>
    exact ⟨key, xaid, arc, sound.keyed _ _ _ popped, sound.cleanNotDirty _ _ _ popped,
      by simp [get?_erase]⟩

/-- A state with a lost key is not coherent. -/
theorem not_coherent_of_lost {key : Nat} (lost : s.Lost key) : ¬Coherent s := by
  obtain ⟨a, arc, cached, notDirty, noEntry⟩ := lost
  intro coherent
  rcases (coherent.cached key).mp (by simp [cached]) with dirty | ⟨a', arc', entry⟩
  · simp [notDirty] at dirty
  · have keyed := coherent.keyed _ _ _ entry
    rw [cached, Option.some.injEq, Prod.mk.injEq] at keyed
    obtain ⟨rfl, -⟩ := keyed
    simp [noEntry] at entry

/-- A sound state with a clean entry always gets through one pass. -/
theorem Sound.visit_isSome {held : Nat → Bool} {searchMax : Nat} (sound : Sound s)
    (nonempty : 0 < s.clean.size) : (s.visit held searchMax).isSome := by
  cases popped : s.clean.popFirst with
  | none => simp [popFirst_eq_none_iff.mp popped] at nonempty
  | some p =>
    obtain ⟨⟨xaid, key, arc⟩, rest⟩ := p
    obtain ⟨member, -, rfl⟩ := popFirst_spec popped
    have entry := get?_eq_some_iff.mpr member
    have cached := sound.keyed _ _ _ entry
    obtain ⟨-, -, o, object, -⟩ := sound.live _ _ _ cached
    unfold visit
    simp only [popped, object, Option.bind_eq_bind, Option.bind_some]
    split_ifs with late stale isHeld
    · rfl
    · -- the object's own aid is no clean key: another key holding it would share an id
      have free : (s.clean.erase xaid).tryInsert o.aid (key, arc) =
          some ((s.clean.erase xaid).insert o.aid (key, arc)) := by
        apply tryInsert_eq_some_iff.mpr
        refine ⟨fun w member' => ?_, rfl⟩
        obtain ⟨k', arc'⟩ := w
        have taken := get?_eq_some_iff.mpr member'
        rw [get?_erase, if_neg stale] at taken
        have cached' := sound.keyed _ _ _ taken
        by_cases same : k' = key
        · subst same
          rw [cached, Option.some.injEq, Prod.mk.injEq] at cached'
          exact stale cached'.1.symm
        · obtain ⟨-, -, o', object', -⟩ := sound.live _ _ _ cached'
          exact (sound.apart key k' xaid o.aid arc arc' o o' (Ne.symm same) cached object cached'
            object').2.2.2.1 rfl
      have present : (s.search.update key fun e => (o.aid, e.2)).isSome := by
        simp [update, contains_iff, ← get?_eq_some_iff, cached]
      obtain ⟨search, searched⟩ := Option.isSome_iff_exists.mp present
      simp [searched, free]
    · have freshAid : ((s.clean.erase xaid).get? s.aidNext) = none := by
        rw [get?_erase]
        split_ifs
        · rfl
        · cases other : s.clean.get? s.aidNext with
          | none => rfl
          | some e => exact absurd (sound.clean_below other) (lt_irrefl _)
      have removed : s.search.remove key = some ((xaid, arc), s.search.erase key) :=
        remove_eq_some_iff.mpr ⟨get?_eq_some_iff.mp cached, rfl⟩
      have searchFree : ((s.search.erase key).get? key) = none := by simp [get?_erase]
      simp [removed, tryInsert_of_get?_eq_none searchFree, tryInsert_of_get?_eq_none freshAid]
    · have removed : s.search.remove key = some ((xaid, arc), s.search.erase key) :=
        remove_eq_some_iff.mpr ⟨get?_eq_some_iff.mp cached, rfl⟩
      simp [removed]

end Passes

end Lru

end FtlOs
