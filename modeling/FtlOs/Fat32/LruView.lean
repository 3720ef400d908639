import FtlOs.Fat32.LruCalls

/-!
# What a key reads through the cache

`view read s key` is what a manager reads for a key: the data of the cached
object, or else what the device returns.  `Backed` says the cache is a faithful
window on the device: every cached key that is not dirty holds what the device
holds, and the maps agree as far as the window needs.  Under it, loading a key
and evicting a clean one never change what any key reads, so a caller can reason
about the device contents and its own writes and forget the cache.

Unlike `Sound`, `Backed` survives the `ENOBUFS` exit of the eviction scan, which
drops a clean entry but changes neither what is cached nor what it holds.
-/

namespace FtlOs

namespace Lru

open OrdMap

variable {D : Type} {read : Nat → SysR D} {s s' : Lru D}

/-- What the manager reads for a key: the cached object's data, or the device's. -/
def view (read : Nat → SysR D) (s : Lru D) (key : Nat) : Option D :=
  match s.search.get? key with
  | some (_, arc) => (s.heap.get? arc).map Obj.data
  | none => (read key).toOption

/-- The cache is a window on the device `read`. -/
structure Backed (read : Nat → SysR D) (s : Lru D) : Prop where
  synced : ∀ k a arc, s.search.get? k = some (a, arc) → s.dirty.get? k = none →
    ∃ o, s.heap.get? arc = some o ∧ read k = .ok o.data
  live : ∀ k a arc, s.search.get? k = some (a, arc) → arc < s.arcNext
  present : ∀ k a arc, s.search.get? k = some (a, arc) → (s.heap.get? arc).isSome
  apartArcs : ∀ k k' a a' arc, s.search.get? k = some (a, arc) →
    s.search.get? k' = some (a', arc) → k = k'
  cleanNotDirty : ∀ a k arc, s.clean.get? a = some (k, arc) → s.dirty.get? k = none
  keyed : ∀ a k arc, s.clean.get? a = some (k, arc) → s.search.get? k = some (a, arc)
  dirtyCached : ∀ k arc, s.dirty.get? k = some arc → ∃ a, s.search.get? k = some (a, arc)

/-- A sound cache whose clean objects hold what the device holds is a window on it. -/
theorem Sound.backed (sound : Sound s)
    (synced : ∀ k a arc, s.search.get? k = some (a, arc) → s.dirty.get? k = none →
      ∃ o, s.heap.get? arc = some o ∧ read k = .ok o.data) : Backed read s where
  synced := synced
  live k a arc cached := (sound.live k a arc cached).2.1
  present k a arc cached := by
    obtain ⟨-, -, o, object, -⟩ := sound.live k a arc cached
    simp [object]
  apartArcs k k' a a' arc cached cached' := by
    by_contra distinct
    obtain ⟨-, -, o, object, -⟩ := sound.live k a arc cached
    obtain ⟨-, -, o', object', -⟩ := sound.live k' a' arc cached'
    exact (sound.apart k k' a a' arc arc o o' distinct cached object cached' object').1 rfl
  cleanNotDirty := sound.cleanNotDirty
  keyed := sound.keyed
  dirtyCached := sound.dirtyArc

/-- Two caches that agree on the Arc of every key and the data behind every Arc
read the same. -/
theorem view_eq_of (arcs : ∀ k, (s'.search.get? k).map Prod.snd = (s.search.get? k).map Prod.snd)
    (data : ∀ arc, (s'.heap.get? arc).map Obj.data = (s.heap.get? arc).map Obj.data) :
    view read s' = view read s := by
  funext key
  have sameArc := arcs key
  unfold view
  cases found' : s'.search.get? key with
  | none =>
    cases found : s.search.get? key with
    | none => rfl
    | some p => simp [found, found'] at sameArc
  | some p' =>
    cases found : s.search.get? key with
    | none => simp [found, found'] at sameArc
    | some p =>
      obtain ⟨a', arc'⟩ := p'
      obtain ⟨a, arc⟩ := p
      simp only [found, found', Option.map_some, Option.some.injEq] at sameArc
      subst sameArc
      exact data arc'

/-- A cache whose cached keys keep their Arcs from a window, with the same data and
dirty keys and agreeing clean entries, is a window too. -/
theorem Backed.of_moved (backed : Backed read s)
    (arcs : ∀ k p, s'.search.get? k = some p → ∃ a, s.search.get? k = some (a, p.2))
    (data : ∀ arc, (s'.heap.get? arc).map Obj.data = (s.heap.get? arc).map Obj.data)
    (sameDirty : s'.dirty = s.dirty) (arcNext : s.arcNext ≤ s'.arcNext)
    (clean : ∀ a k arc, s'.clean.get? a = some (k, arc) →
      s.dirty.get? k = none ∧ s'.search.get? k = some (a, arc))
    (dirty : ∀ k arc, s.dirty.get? k = some arc → ∃ a, s'.search.get? k = some (a, arc)) :
    Backed read s' where
  synced k a arc cached notDirty := by
    obtain ⟨a₀, cached₀⟩ := arcs k (a, arc) cached
    obtain ⟨o, object, device⟩ := backed.synced k a₀ arc cached₀ (sameDirty ▸ notDirty)
    have sameData := data arc
    rw [object] at sameData
    obtain ⟨o', object', same⟩ := Option.map_eq_some_iff.mp sameData
    exact ⟨o', object', same ▸ device⟩
  live k a arc cached := by
    obtain ⟨a₀, cached₀⟩ := arcs k (a, arc) cached
    exact lt_of_lt_of_le (backed.live k a₀ arc cached₀) arcNext
  present k a arc cached := by
    obtain ⟨a₀, cached₀⟩ := arcs k (a, arc) cached
    have sameData := congrArg Option.isSome (data arc)
    simp only [Option.isSome_map] at sameData
    exact sameData ▸ backed.present k a₀ arc cached₀
  apartArcs k k' a a' arc cached cached' := by
    obtain ⟨a₀, cached₀⟩ := arcs k (a, arc) cached
    obtain ⟨a₀', cached₀'⟩ := arcs k' (a', arc) cached'
    exact backed.apartArcs k k' a₀ a₀' arc cached₀ cached₀'
  cleanNotDirty a k arc entry := sameDirty ▸ (clean a k arc entry).1
  keyed a k arc entry := (clean a k arc entry).2
  dirtyCached k arc isDirty := dirty k arc (sameDirty ▸ isDirty)

/-! ## The eviction scan -/

section Scan

variable {held : Nat → Bool} {searchMax : Nat}

/-- Dropping a clean entry (the `ENOBUFS` exit) changes neither what is cached
nor what it holds. -/
theorem Backed.erase_clean (backed : Backed read s) (xaid : Nat) :
    Backed read { s with clean := s.clean.erase xaid } := by
  refine backed.of_moved (fun k p cached => ⟨p.1, cached⟩) (fun _ => rfl) rfl le_rfl
    (fun a k arc entry => ?_) backed.dirtyCached
  simp only [get?_erase] at entry
  split_ifs at entry
  exact ⟨backed.cleanNotDirty a k arc entry, backed.keyed a k arc entry⟩

/-- The clean entries other than a popped one belong to other keys. -/
theorem Backed.key_ne_of_popped (backed : Backed read s) {xaid key arc b k arc' : Nat}
    (popped : s.clean.get? xaid = some (key, arc)) (entry : s.clean.get? b = some (k, arc'))
    (other : b ≠ xaid) : k ≠ key := by
  rintro rfl
  have cached := backed.keyed b k arc' entry
  rw [backed.keyed xaid k arc popped, Option.some.injEq, Prod.mk.injEq] at cached
  exact other cached.1.symm

/-- Requeueing a popped clean entry under another aid moves its key to that aid
and changes no reading. -/
theorem Backed.requeue (backed : Backed read s) {xaid key arc : Nat}
    (popped : s.clean.get? xaid = some (key, arc)) (aid : Nat) :
    Backed read { s with
        search := s.search.modify key fun e => (aid, e.2)
        clean := (s.clean.erase xaid).insert aid (key, arc) } ∧
      view read { s with
        search := s.search.modify key fun e => (aid, e.2)
        clean := (s.clean.erase xaid).insert aid (key, arc) } = view read s := by
  have cachedKey := backed.keyed xaid key arc popped
  have sameArcs : ∀ k, ((s.search.modify key fun e => (aid, e.2)).get? k).map Prod.snd =
      (s.search.get? k).map Prod.snd := by
    intro k
    rw [get?_modify]
    split_ifs with atKey
    · subst atKey
      cases s.search.get? k <;> rfl
    · rfl
  refine ⟨backed.of_moved (fun k p cached => ?_) (fun _ => rfl) rfl le_rfl
    (fun b k arc' entry => ?_) (fun k arc' isDirty => ?_), view_eq_of sameArcs (fun _ => rfl)⟩
  · have arcOf := sameArcs k
    rw [cached] at arcOf
    obtain ⟨e, found, same⟩ := Option.map_eq_some_iff.mp arcOf.symm
    exact ⟨e.1, by rw [found, ← same]⟩
  · simp only [get?_insert] at entry
    split_ifs at entry with atNew
    · obtain ⟨rfl, rfl⟩ := Prod.mk.inj (Option.some.inj entry).symm
      refine ⟨backed.cleanNotDirty xaid k arc' popped, ?_⟩
      simp [get?_modify, cachedKey, atNew]
    · rw [get?_erase] at entry
      split_ifs at entry with atPopped
      have other := backed.key_ne_of_popped popped entry atPopped
      refine ⟨backed.cleanNotDirty b k arc' entry, ?_⟩
      rw [get?_modify, if_neg other]
      exact backed.keyed b k arc' entry
  · obtain ⟨a, cached⟩ := backed.dirtyCached k arc' isDirty
    rw [get?_modify]
    split_ifs with atKey
    · subst atKey
      simp [cached]
    · exact ⟨a, cached⟩

/-- Requeueing a popped clean entry under a fresh aid, the object taking that aid,
changes no reading either. -/
theorem Backed.keep (backed : Backed read s) {xaid key arc : Nat}
    (popped : s.clean.get? xaid = some (key, arc)) :
    Backed read ({ s with
        search := (s.search.erase key).insert key (s.aidNext, arc)
        clean := (s.clean.erase xaid).insert s.aidNext (key, arc)
        aidNext := s.aidNext + 1 }.updateAid arc s.aidNext) ∧
      view read ({ s with
        search := (s.search.erase key).insert key (s.aidNext, arc)
        clean := (s.clean.erase xaid).insert s.aidNext (key, arc)
        aidNext := s.aidNext + 1 }.updateAid arc s.aidNext) = view read s := by
  have cachedKey := backed.keyed xaid key arc popped
  have sameData : ∀ x, ((s.heap.modify arc fun o => { o with aid := s.aidNext }).get? x).map
      Obj.data = (s.heap.get? x).map Obj.data := by
    intro x
    rw [get?_modify]
    split_ifs with atArc
    · subst atArc
      cases s.heap.get? x <;> rfl
    · rfl
  have sameArcs : ∀ k, (((s.search.erase key).insert key (s.aidNext, arc)).get? k).map Prod.snd =
      (s.search.get? k).map Prod.snd := by
    intro k
    rw [get?_insert, get?_erase]
    split_ifs with atKey
    · subst atKey
      simp [cachedKey]
    · rfl
  refine ⟨backed.of_moved (fun k p cached => ?_) sameData rfl (Nat.le_refl _)
    (fun b k arc' entry => ?_) (fun k arc' isDirty => ?_), view_eq_of sameArcs sameData⟩
  · have arcOf := sameArcs k
    simp only [updateAid_search] at cached
    rw [cached] at arcOf
    obtain ⟨e, found, same⟩ := Option.map_eq_some_iff.mp arcOf.symm
    exact ⟨e.1, by rw [found, ← same]⟩
  · simp only [updateAid_clean, updateAid_search, get?_insert] at entry ⊢
    split_ifs at entry with atNew
    · obtain ⟨rfl, rfl⟩ := Prod.mk.inj (Option.some.inj entry).symm
      refine ⟨backed.cleanNotDirty xaid k arc' popped, ?_⟩
      simp [atNew]
    · rw [get?_erase] at entry
      split_ifs at entry with atPopped
      have other := backed.key_ne_of_popped popped entry atPopped
      refine ⟨backed.cleanNotDirty b k arc' entry, ?_⟩
      rw [if_neg other, get?_erase, if_neg other]
      exact backed.keyed b k arc' entry
  · obtain ⟨b, cached⟩ := backed.dirtyCached k arc' isDirty
    simp only [updateAid_search, get?_insert, get?_erase]
    split_ifs with atKey
    · subst atKey
      rw [cachedKey, Option.some.injEq, Prod.mk.injEq] at cached
      exact ⟨_, by rw [← cached.2]⟩
    · exact ⟨b, cached⟩

/-- Evicting a popped clean entry changes no reading: its key was clean, so the
device holds what its object held. -/
theorem Backed.evict (backed : Backed read s) {xaid key arc : Nat}
    (popped : s.clean.get? xaid = some (key, arc)) :
    Backed read { s with search := s.search.erase key, clean := s.clean.erase xaid } ∧
      view read { s with search := s.search.erase key, clean := s.clean.erase xaid } =
        view read s := by
  have cachedKey := backed.keyed xaid key arc popped
  have clean := backed.cleanNotDirty xaid key arc popped
  refine ⟨backed.of_moved (fun k p found => ?_) (fun _ => rfl) rfl le_rfl
    (fun b k arc' entry => ?_) (fun k arc' isDirty => ?_), ?_⟩
  · rw [get?_erase] at found
    split_ifs at found
    exact ⟨p.1, found⟩
  · rw [get?_erase] at entry
    split_ifs at entry with atPopped
    have other := backed.key_ne_of_popped popped entry atPopped
    refine ⟨backed.cleanNotDirty b k arc' entry, ?_⟩
    rw [get?_erase, if_neg other]
    exact backed.keyed b k arc' entry
  · obtain ⟨b, cached⟩ := backed.dirtyCached k arc' isDirty
    have other : k ≠ key := by
      rintro rfl
      simp [clean] at isDirty
    rw [get?_erase, if_neg other]
    exact ⟨b, cached⟩
  · funext k
    by_cases atKey : k = key
    · subst atKey
      obtain ⟨o, object, device⟩ := backed.synced k xaid arc cachedKey clean
      simp [view, get?_erase, cachedKey, object, device, Except.toOption]
    · simp [view, get?_erase, atKey]

/-- A pass of the eviction scan keeps the window and changes no key's reading. -/
theorem Backed.visit {v : Visit D} (backed : Backed read s)
    (visited : s.visit held searchMax = some v) :
    Backed read v.state ∧ view read v.state = view read s := by
  cases visit_eq_some visited with
  | @enobufs xaid key arc popped _ _ => exact ⟨backed.erase_clean xaid, rfl⟩
  | @requeue xaid key arc o popped => exact backed.requeue popped o.aid
  | @keep xaid key arc a ps o popped _ _ _ _ cached =>
    -- the search entry of the popped key holds the popped Arc
    obtain rfl : ps = arc := by
      rw [backed.keyed xaid key arc popped, Option.some.injEq, Prod.mk.injEq] at cached
      exact cached.2.symm
    exact backed.keep popped
  | @evict xaid key arc a ps o popped => exact backed.evict popped

theorem Backed.scan : ∀ (fuel : Nat) {s s' : Lru D} {result : SysR (Nat × Nat)},
    Backed read s → s.scan held searchMax fuel = some (result, s') →
      Backed read s' ∧ view read s' = view read s
  | 0, _, _, _, _, scanned => by simp [Lru.scan] at scanned
  | fuel + 1, s, s', result, backed, scanned => by
    unfold Lru.scan at scanned
    cases visited : s.visit held searchMax with
    | none => simp [visited] at scanned
    | some v =>
      obtain ⟨backed', same'⟩ := backed.visit visited
      cases v with
      | done r s'' =>
        simp only [visited, Option.some.injEq, Prod.mk.injEq] at scanned
        obtain ⟨-, rfl⟩ := scanned
        exact ⟨backed', same'⟩
      | next s'' =>
        simp only [visited] at scanned
        obtain ⟨backed'', same''⟩ := Backed.scan fuel backed' scanned
        exact ⟨backed'', same''.trans same'⟩

end Scan

/-! ## Loading -/

section Load

variable {w : World D}

theorem Backed.getNewUninit {result : SysR (Option (Nat × Nat))} (backed : Backed read s)
    (fresh : s.getNewUninit w = some (result, s')) :
    Backed read s' ∧ view read s' = view read s := by
  unfold Lru.getNewUninit at fresh
  by_cases room : s.search.size < s.maxNum
  · rw [if_pos room] at fresh
    cases fresh
    exact ⟨backed, rfl⟩
  rw [if_neg room] at fresh
  split_ifs at fresh with empty
  obtain ⟨⟨r, s₂⟩, scanned, mapped⟩ := Option.map_eq_some_iff.mp fresh
  obtain ⟨-, rfl⟩ := Prod.mk.inj mapped
  -- drawing the scan's aid touches nothing the window reads
  have drawn : Backed read { s with aidNext := s.aidNext + 1 } :=
    ⟨backed.synced, backed.live, backed.present, backed.apartArcs, backed.cleanNotDirty,
      backed.keyed, backed.dirtyCached⟩
  obtain ⟨backed₂, same⟩ := Backed.scan _ drawn scanned
  exact ⟨backed₂, same⟩

/-- Loading a key the device reads as `data`: the key now reads its new object,
which is `data`, and every other key reads as before. -/
theorem Backed.forceInsert {key arc : Nat} {data : D} (backed : Backed read s)
    (device : read key = .ok data) (inserted : s.forceInsert key data = some (arc, s')) :
    Backed read s' ∧ view read s' = view read s ∧ s'.search.get? key = some (s.aidNext, arc) := by
  obtain ⟨absent, cleanFree, rfl, rfl⟩ := forceInsert_eq_some inserted
  have notDirty : s.dirty.get? key = none := by
    cases isDirty : s.dirty.get? key with
    | none => rfl
    | some arc =>
      obtain ⟨a, cached⟩ := backed.dirtyCached key arc isDirty
      simp [cached] at absent
  have otherKey : ∀ k p, s.search.get? k = some p → k ≠ key := by
    rintro k p cached rfl
    simp [cached] at absent
  have otherArc : ∀ k a arc, s.search.get? k = some (a, arc) → arc ≠ s.arcNext := fun k a arc cached =>
    Nat.ne_of_lt (backed.live k a arc cached)
  refine ⟨⟨fun k a arc cached isDirty => ?_, fun k a arc cached => ?_, fun k a arc cached => ?_,
    fun k k' a a' arc cached cached' => ?_, fun a k arc entry => ?_, fun a k arc entry => ?_,
    fun k arc isDirty => ?_⟩, ?_, by simp [get?_insert]⟩
  · simp only [get?_insert] at cached ⊢
    split_ifs at cached with atKey
    · obtain ⟨rfl, rfl⟩ := Prod.mk.inj (Option.some.inj cached).symm
      exact ⟨⟨s.aidNext, data⟩, by simp, atKey ▸ device⟩
    · rw [if_neg (otherArc k a arc cached)]
      exact backed.synced k a arc cached isDirty
  · simp only [get?_insert] at cached
    split_ifs at cached
    · obtain ⟨rfl, rfl⟩ := Prod.mk.inj (Option.some.inj cached).symm
      exact Nat.lt_succ_self _
    · exact Nat.lt_succ_of_lt (backed.live k a arc cached)
  · simp only [get?_insert] at cached ⊢
    split_ifs at cached with atKey
    · obtain ⟨rfl, rfl⟩ := Prod.mk.inj (Option.some.inj cached).symm
      simp
    · rw [if_neg (otherArc k a arc cached)]
      exact backed.present k a arc cached
  · simp only [get?_insert] at cached cached'
    split_ifs at cached cached' with atKey atKey'
    · exact atKey.trans atKey'.symm
    · obtain ⟨-, rfl⟩ := Prod.mk.inj (Option.some.inj cached)
      exact absurd rfl (otherArc k' a' _ cached')
    · obtain ⟨-, rfl⟩ := Prod.mk.inj (Option.some.inj cached')
      exact absurd rfl (otherArc k a _ cached)
    · exact backed.apartArcs k k' a a' arc cached cached'
  · simp only [get?_insert] at entry
    split_ifs at entry
    · obtain ⟨rfl, -⟩ := Prod.mk.inj (Option.some.inj entry).symm
      exact notDirty
    · exact backed.cleanNotDirty a k arc entry
  · simp only [get?_insert] at entry ⊢
    split_ifs at entry with atNew
    · obtain ⟨rfl, rfl⟩ := Prod.mk.inj (Option.some.inj entry).symm
      simp [atNew]
    · have cached := backed.keyed a k arc entry
      rw [if_neg (otherKey k _ cached)]
      exact cached
  · obtain ⟨a, cached⟩ := backed.dirtyCached k arc isDirty
    simp only [get?_insert]
    rw [if_neg (otherKey k _ cached)]
    exact ⟨a, cached⟩
  · funext k
    by_cases atKey : k = key
    · subst atKey
      simp [view, get?_insert, absent, device, Except.toOption]
    · unfold view
      simp only [get?_insert, if_neg atKey]
      cases cached : s.search.get? k with
      | none => rfl
      | some p =>
        obtain ⟨a, arc⟩ := p
        simp only [if_neg (otherArc k a arc cached)]

/-- `get` keeps the window and changes no key's reading; the Arc it returns is
the one search now records for the key. -/
theorem Backed.get {key : Nat} {result : SysR (Nat × Option Nat)} (backed : Backed w.read s)
    (got : s.get w key = some (result, s')) :
    Backed w.read s' ∧ view w.read s' = view w.read s ∧
      ∀ arc evicted, result = .ok (arc, evicted) → ∃ a, s'.search.get? key = some (a, arc) := by
  unfold Lru.get at got
  cases cached : s.search.get? key with
  | some e =>
    simp only [cached, Option.some.injEq, Prod.mk.injEq] at got
    obtain ⟨rfl, rfl⟩ := got
    refine ⟨backed, rfl, fun arc evicted returned => ⟨e.1, ?_⟩⟩
    cases returned
    exact cached
  | none =>
    simp only [cached] at got
    cases fresh : s.getNewUninit w with
    | none => simp [fresh] at got
    | some p =>
      obtain ⟨uninit, s₂⟩ := p
      obtain ⟨backed₂, same₂⟩ := backed.getNewUninit fresh
      cases uninit with
      | error e =>
        simp only [fresh, Option.some.injEq, Prod.mk.injEq] at got
        obtain ⟨rfl, rfl⟩ := got
        exact ⟨backed₂, same₂, fun _ _ returned => by cases returned⟩
      | ok replaced =>
        simp only [fresh] at got
        cases device : w.read key with
        | error e =>
          simp only [device, Option.some.injEq, Prod.mk.injEq] at got
          obtain ⟨rfl, rfl⟩ := got
          exact ⟨backed₂, same₂, fun _ _ returned => by cases returned⟩
        | ok data =>
          simp only [device] at got
          obtain ⟨⟨arc, s₃⟩, inserted, mapped⟩ := Option.map_eq_some_iff.mp got
          obtain ⟨rfl, rfl⟩ := Prod.mk.inj mapped
          obtain ⟨backed₃, same₃, loaded⟩ := backed₂.forceInsert device inserted
          refine ⟨backed₃, same₃.trans same₂, fun arc' evicted returned => ⟨s₂.aidNext, ?_⟩⟩
          cases returned
          exact loaded

end Load

/-! ## Held objects stay cached -/

section Held

variable {held : Nat → Bool} {searchMax : Nat}

end Held

section HeldLoad

variable {w : World D}

end HeldLoad

/-! ## Readers and writers -/

/-- A reader refreshing an object's aid changes no reading. -/
theorem Backed.touch (backed : Backed read s) (arc : Nat) :
    Backed read (s.touch arc) ∧ view read (s.touch arc) = view read s := by
  have sameData : ∀ x, ((s.touch arc).heap.get? x).map Obj.data = (s.heap.get? x).map Obj.data := by
    intro x
    simp only [Lru.touch, heap_updateAid]
    split_ifs with atArc
    · subst atArc
      cases s.heap.get? x <;> rfl
    · rfl
  refine ⟨backed.of_moved (fun k p cached => ⟨p.1, cached⟩) sameData rfl (Nat.le_refl _)
    (fun a k arc' entry => ⟨backed.cleanNotDirty a k arc' entry, backed.keyed a k arc' entry⟩)
    backed.dirtyCached, view_eq_of (fun _ => rfl) sameData⟩

end Lru

end FtlOs
