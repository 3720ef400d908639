import FtlOs.Kernel.RangeMap.Removal

/-!
# Cutting nodes in place

`split_at_maybe` cuts the node straddling a point in two, and `range_mut` hands
out the nodes starting in a range to be changed in place.  When the split
function gives both halves the node's value, as a handler's `split_r` does with
the fields that decide its permission, a cut changes no lookup: only where
nodes end.  After cuts at both ends of a range the nodes starting inside it are
exactly the nodes holding its points, so changing them in place changes the
lookups inside the range and nowhere else.
-/

namespace FtlOs
namespace RangeMap

universe u v

variable {U : Type u} {V : Type v} [LinearOrder U] {m : RangeMap U V}

/-- A split function both of whose halves keep the node's value. -/
def cloneSplit : Split U V := fun v _ _ => (v, v)

/-- No node holds `p` strictly inside its range: `p` is a boundary or lies
outside every node. -/
def CutAt (m : RangeMap U V) (p : U) : Prop :=
  ∀ e ∈ m.nodes.entries, ¬ (e.1 < p ∧ p < e.2.stop)

/-- Some node holding `x` has the value `w`. -/
def HoldsAt (m : RangeMap U V) (x : U) (w : V) : Prop :=
  ∃ e ∈ m.nodes.entries, (e.1 ≤ x ∧ x < e.2.stop) ∧ e.2.value = w

/-! ## Lookups by the nodes holding a point -/

section Lookup

variable {x : U} {w : V}

theorem get_eq_some_iff (wf : m.WellFormed) : m.get x = some w ↔ m.HoldsAt x w := by
  by_cases held : ∃ e ∈ m.nodes.entries, e.1 ≤ x ∧ x < e.2.stop
  · obtain ⟨e, member, inside⟩ := held
    rw [(lookups_of_contains wf member inside).1, Option.some_inj]
    constructor
    · rintro rfl
      exact ⟨e, member, inside, rfl⟩
    · rintro ⟨e', member', inside', rfl⟩
      rw [contains_unique wf member member' inside inside']
  · have outside : ∀ e ∈ m.nodes.entries, ¬ (e.1 ≤ x ∧ x < e.2.stop) :=
      fun e member inside => held ⟨e, member, inside⟩
    rw [(lookups_of_not_contains outside).1]
    simp only [reduceCtorEq, false_iff]
    rintro ⟨e, member, inside, -⟩
    exact outside e member inside

/-- Two well-formed maps whose nodes hold the same values at a point look up
the same value there. -/
theorem get_eq_of_holdsAt_iff {m' : RangeMap U V} (wf : m.WellFormed) (wf' : m'.WellFormed)
    (same : ∀ w, m'.HoldsAt x w ↔ m.HoldsAt x w) : m'.get x = m.get x := by
  apply Option.ext
  intro w
  rw [get_eq_some_iff wf', get_eq_some_iff wf, same]

/-- A point held by no node is looked up as nothing. -/
theorem get_eq_none_iff (wf : m.WellFormed) : m.get x = none ↔ ¬ m.Covers x := by
  constructor
  · rintro absent ⟨e, member, inside⟩
    rw [(lookups_of_contains wf member inside).1] at absent
    cases absent
  · intro uncovered
    exact (lookups_of_not_contains fun e member inside => uncovered ⟨e, member, inside⟩).1

/-- Maps with the same lookups cover the same points. -/
theorem covers_iff_of_get {m' : RangeMap U V} (wf : m.WellFormed) (wf' : m'.WellFormed)
    (same : ∀ x, m'.get x = m.get x) (x : U) : m'.Covers x ↔ m.Covers x := by
  rw [← not_iff_not, ← get_eq_none_iff wf', ← get_eq_none_iff wf, same]

end Lookup

/-! ## `split_at_maybe` with a cloning split -/

section Split

/-- A map with no node straddling `p` is cut at `p`. -/
theorem cutAt_of_lastLT {p : U} (wf : m.WellFormed)
    (last : ∀ s n, m.nodes.lastLT p = some (s, n) → n.stop ≤ p) : m.CutAt p := by
  rintro ⟨s, n⟩ member ⟨afterStart, beforeStop⟩
  have found := lastLT_eq_of_interior wf member afterStart beforeStop
  exact absurd (last s n found) (not_le.mpr beforeStop)

/-- The nodes after the cut of `(s, n)` at `p`, `s < p < n.stop`, hold at each
point the values the nodes before it held. -/
theorem holdsAt_cut_iff {s p x : U} {n : Node U V} {w : V} (wf : m.WellFormed)
    (member : (s, n) ∈ m.nodes.entries) (afterStart : s < p) (beforeStop : p < n.stop) :
    (⟨(m.nodes.modify s fun _ => ⟨p, n.value⟩).insert p ⟨n.stop, n.value⟩⟩ :
      RangeMap U V).HoldsAt x w ↔ m.HoldsAt x w := by
  constructor
  · rintro ⟨e, inCut, inside, valued⟩
    simp only [OrdMap.mem_entries_insert, OrdMap.mem_entries_modify] at inCut
    rcases inCut with rfl | ⟨⟨v, -, rfl⟩ | ⟨old, -⟩, -⟩
    -- the part from `p` on and the part before `p` lie inside `(s, n)`
    · exact ⟨(s, n), member, ⟨afterStart.le.trans inside.1, inside.2⟩, valued⟩
    · exact ⟨(s, n), member, ⟨inside.1, inside.2.trans beforeStop⟩, valued⟩
    · exact ⟨e, old, inside, valued⟩
  · rintro ⟨e, old, inside, rfl⟩
    by_cases cut : e.1 = s
    · -- the point falls in one of the two parts of `(s, n)`
      obtain rfl : e = (s, n) := OrdMap.eq_of_key_eq old member cut
      by_cases before : x < p
      · refine ⟨(s, ⟨p, n.value⟩), ?_, ⟨inside.1, before⟩, rfl⟩
        simp only [OrdMap.mem_entries_insert, OrdMap.mem_entries_modify]
        exact .inr ⟨.inl ⟨n, member, by simp⟩, ne_of_lt afterStart⟩
      · exact ⟨(p, ⟨n.stop, n.value⟩), by simp, ⟨not_lt.mp before, inside.2⟩, rfl⟩
    · have notAtP : e.1 ≠ p := key_ne_of_interior wf member ⟨afterStart, beforeStop⟩ old
      refine ⟨e, ?_, inside, rfl⟩
      simp only [OrdMap.mem_entries_insert, OrdMap.mem_entries_modify]
      exact .inr ⟨.inr ⟨old, cut⟩, notAtP⟩

/-- The cut of `(s, n)` at `p` straddles a point only where `(s, n)` did, and
never `p`. -/
theorem cutAt_cut {s p q : U} {n : Node U V} (wf : m.WellFormed)
    (member : (s, n) ∈ m.nodes.entries) (afterStart : s < p) (beforeStop : p < n.stop)
    (cutQ : m.CutAt q ∨ q = p) :
    (⟨(m.nodes.modify s fun _ => ⟨p, n.value⟩).insert p ⟨n.stop, n.value⟩⟩ :
      RangeMap U V).CutAt q := by
  intro e inCut straddles
  simp only [OrdMap.mem_entries_insert, OrdMap.mem_entries_modify] at inCut
  rcases inCut with rfl | ⟨⟨v, -, rfl⟩ | ⟨old, otherKey⟩, -⟩
  · rcases cutQ with cutQ | rfl
    · exact cutQ (s, n) member ⟨afterStart.trans straddles.1, straddles.2⟩
    · exact lt_irrefl _ straddles.1
  · rcases cutQ with cutQ | rfl
    · exact cutQ (s, n) member ⟨straddles.1, straddles.2.trans beforeStop⟩
    · exact lt_irrefl _ straddles.2
  · rcases cutQ with cutQ | rfl
    · exact cutQ e old straddles
    · exact otherKey (congrArg Prod.fst (eq_of_straddles wf old member straddles
        ⟨afterStart, beforeStop⟩))

/-- `split_at_maybe` with a cloning split never panics on a well-formed map,
changes no lookup, leaves no node straddling `p`, and straddles nothing new. -/
theorem splitAtMaybe_cloneSplit (wf : m.WellFormed) (p : U) :
    ∃ m', m.splitAtMaybe p cloneSplit = some m' ∧ m'.WellFormed ∧ (∀ x, m'.get x = m.get x) ∧
      m'.CutAt p ∧ ∀ q, m.CutAt q → m'.CutAt q := by
  unfold splitAtMaybe
  split
  · next none =>
      refine ⟨m, rfl, wf, fun _ => rfl, cutAt_of_lastLT wf ?_, fun _ cut => cut⟩
      intro s n found
      rw [none] at found
      cases found
  · next s n last =>
      obtain ⟨member, keyBelow, _⟩ := OrdMap.lastLT_eq_some_iff.mp last
      split_ifs with ends
      · refine ⟨m, rfl, wf, fun _ => rfl, cutAt_of_lastLT wf ?_, fun _ cut => cut⟩
        intro s' n' found
        rw [last] at found
        cases found
        exact ends
      · have beforeStop := lt_of_not_ge ends
        obtain ⟨inserted, wfCut⟩ :=
          cut_wellFormed n.value n.value wf member keyBelow le_rfl beforeStop
        refine ⟨_, ?_, wfCut, fun x => ?_, cutAt_cut wf member keyBelow beforeStop (.inr rfl),
          fun q cutQ => cutAt_cut wf member keyBelow beforeStop (.inl cutQ)⟩
        · simp only [cloneSplit]
          rw [inserted]
          rfl
        · exact get_eq_of_holdsAt_iff wf wfCut fun w =>
            holdsAt_cut_iff wf member keyBelow beforeStop

end Split

/-! ## Changing the nodes of a range in place -/

section InPlace

variable {a b : U}

/-- Between cuts at `a` and `b`, a node holding a point starts in `[a, b)`
exactly when the point lies in `[a, b)`. -/
theorem starts_in_iff (cutA : m.CutAt a) (cutB : m.CutAt b) {e : U × Node U V} {x : U}
    (member : e ∈ m.nodes.entries) (inside : e.1 ≤ x ∧ x < e.2.stop) :
    (a ≤ e.1 ∧ e.1 < b) ↔ (a ≤ x ∧ x < b) := by
  constructor
  · rintro ⟨atA, belowB⟩
    refine ⟨atA.trans inside.1, lt_of_not_ge fun pastB => ?_⟩
    exact cutB e member ⟨belowB, lt_of_le_of_lt pastB inside.2⟩
  · rintro ⟨atA, belowB⟩
    refine ⟨le_of_not_gt fun beforeA => ?_, lt_of_le_of_lt inside.1 belowB⟩
    exact cutA e member ⟨beforeA, lt_of_le_of_lt atA inside.2⟩

/-- The map whose nodes starting in `[a, b)` have their values changed by `f`. -/
def mapIn (m : RangeMap U V) (a b : U) (f : V → V) : RangeMap U V :=
  ⟨⟨m.nodes.entries.map fun e =>
      if a ≤ e.1 ∧ e.1 < b then (e.1, ⟨e.2.stop, f e.2.value⟩) else e,
    List.pairwise_map.mpr (m.nodes.sorted.imp fun {_ _} below => by
      split_ifs <;> exact below)⟩⟩

theorem mem_mapIn {f : V → V} {e : U × Node U V} :
    e ∈ (m.mapIn a b f).nodes.entries ↔ ∃ d ∈ m.nodes.entries, e =
      if a ≤ d.1 ∧ d.1 < b then (d.1, ⟨d.2.stop, f d.2.value⟩) else d := by
  simp only [mapIn, List.mem_map]
  exact exists_congr fun d => and_congr_right fun _ => eq_comm

/-- Changing values keeps every node where it was. -/
theorem mapIn_wellFormed (f : V → V) (wf : m.WellFormed) : (m.mapIn a b f).WellFormed := by
  obtain ⟨nonempty, separated⟩ := wellFormed_iff.mp wf
  refine wellFormed_iff.mpr ⟨fun e member => ?_, fun e member e' member' keyLt => ?_⟩
  · obtain ⟨d, old, rfl⟩ := mem_mapIn.mp member
    split_ifs <;> exact nonempty d old
  · obtain ⟨d, old, rfl⟩ := mem_mapIn.mp member
    obtain ⟨d', old', rfl⟩ := mem_mapIn.mp member'
    split_ifs at keyLt ⊢ <;> exact separated d old d' old' keyLt

/-- `mapIn` keeps every node's key and end. -/
theorem mem_mapIn_of_mem {f : V → V} {d : U × Node U V} (member : d ∈ m.nodes.entries) :
    ∃ n, (d.1, n) ∈ (m.mapIn a b f).nodes.entries ∧ n.stop = d.2.stop := by
  by_cases within : a ≤ d.1 ∧ d.1 < b
  · exact ⟨⟨d.2.stop, f d.2.value⟩, mem_mapIn.mpr ⟨d, member, by rw [if_pos within]⟩, rfl⟩
  · exact ⟨d.2, mem_mapIn.mpr ⟨d, member, by rw [if_neg within]⟩, rfl⟩

theorem CutAt.mapIn {f : V → V} {p : U} (cut : m.CutAt p) : (m.mapIn a b f).CutAt p := by
  intro e member straddles
  obtain ⟨d, old, rfl⟩ := mem_mapIn.mp member
  split_ifs at straddles
  · exact cut d old straddles
  · exact cut d old straddles

/-- Between cuts at `a` and `b`, changing the nodes starting in `[a, b)` changes
the lookups inside `[a, b)` and no other. -/
theorem get_mapIn (f : V → V) (wf : m.WellFormed) (cutA : m.CutAt a) (cutB : m.CutAt b)
    (x : U) : (m.mapIn a b f).get x = if a ≤ x ∧ x < b then (m.get x).map f else m.get x := by
  have wf' := mapIn_wellFormed (a := a) (b := b) f wf
  by_cases covered : m.Covers x
  · obtain ⟨e, member, inside⟩ := covered
    have mapped : (if a ≤ e.1 ∧ e.1 < b then (e.1, (⟨e.2.stop, f e.2.value⟩ : Node U V)) else e) ∈
        (m.mapIn a b f).nodes.entries := mem_mapIn.mpr ⟨e, member, rfl⟩
    rw [(lookups_of_contains wf member inside).1]
    by_cases within : a ≤ x ∧ x < b
    · rw [if_pos ((starts_in_iff cutA cutB member inside).mpr within)] at mapped
      rw [if_pos within, (lookups_of_contains wf' mapped inside).1]
      rfl
    · rw [if_neg (mt (starts_in_iff cutA cutB member inside).mp within)] at mapped
      rw [if_neg within, (lookups_of_contains wf' mapped inside).1]
  · have absent := (get_eq_none_iff wf).mpr covered
    have absent' : (m.mapIn a b f).get x = none := by
      refine (get_eq_none_iff wf').mpr ?_
      rintro ⟨e, member, inside⟩
      obtain ⟨d, old, rfl⟩ := mem_mapIn.mp member
      split_ifs at inside
      · exact covered ⟨d, old, inside⟩
      · exact covered ⟨d, old, inside⟩
    rw [absent, absent']
    split_ifs <;> rfl

/-- Modifying, one by one, the nodes at the keys of a list of entries with
distinct keys changes exactly the nodes at those keys. -/
theorem entries_foldl_modify (g : Node U V → Node U V) :
    ∀ (l : List (U × Node U V)) (nodes : OrdMap U (Node U V)), (l.map Prod.fst).Nodup →
      (l.foldl (fun acc e => acc.modify e.1 g) nodes).entries =
        nodes.entries.map fun e => if e.1 ∈ l.map Prod.fst then (e.1, g e.2) else e
  | [], nodes, _ => by simp
  | d :: rest, nodes, distinct => by
    obtain ⟨fresh, distinctRest⟩ := List.nodup_cons.mp distinct
    rw [List.foldl_cons, entries_foldl_modify g rest _ distinctRest]
    simp only [OrdMap.modify, List.map_map]
    congr 1
    funext e
    simp only [Function.comp_apply]
    -- the key of `d` is modified by its own step and by no later one
    by_cases atD : e.1 = d.1
    · have notLater : e.1 ∉ rest.map Prod.fst := atD ▸ fresh
      have listed : e.1 ∈ (d :: rest).map Prod.fst := by simp [atD]
      rw [if_pos atD, if_pos listed]
      exact if_neg notLater
    · have sameListed : e.1 ∈ (d :: rest).map Prod.fst ↔ e.1 ∈ rest.map Prod.fst := by
        simp [atD]
      simp only [if_neg atD, sameListed]

/-- `range_mut(a..b)` visits the nodes starting in `[a, b)`: modifying each of
them in turn is `mapIn`. -/
theorem foldl_modify_rangeIn (f : V → V) :
    (⟨(m.nodes.rangeIn a b).foldl (fun acc e => acc.modify e.1 fun n => ⟨n.stop, f n.value⟩)
      m.nodes⟩ : RangeMap U V) = m.mapIn a b f := by
  have distinct : ((m.nodes.rangeIn a b).map Prod.fst).Nodup :=
    (List.Sublist.map Prod.fst List.filter_sublist).nodup OrdMap.nodup_keys
  have keyIn : ∀ e ∈ m.nodes.entries, e.1 ∈ (m.nodes.rangeIn a b).map Prod.fst ↔
      a ≤ e.1 ∧ e.1 < b := by
    intro e member
    simp only [List.mem_map, OrdMap.mem_rangeIn]
    constructor
    · rintro ⟨d, ⟨-, within⟩, sameKey⟩
      exact sameKey ▸ within
    · intro within
      exact ⟨e, ⟨member, within⟩, rfl⟩
  congr 1
  apply OrdMap.ext_entries
  rw [entries_foldl_modify _ _ _ distinct]
  apply List.map_congr_left
  intro e member
  simp only [keyIn e member]

end InPlace

end RangeMap
end FtlOs
