import FtlOs.Kernel.RangeMap.Search

/-!
# What `RangeMap::remove` takes out

`remove` cuts `[start, end)` out of the map in three phases: it cuts the node
straddling `start`, then the node straddling `end`, then drains the nodes that
start inside the range.  This module follows the bounds of the nodes through
the phases.  Afterwards the map holds exactly the parts of the old nodes outside
the range: a node that misses the range stays as it was, and a node that meets
it keeps its part before `start` and its part after `end`.  The pieces handed to
`release` are the parts of the old nodes inside the range, one for each node
that meets it.  So they are pairwise apart and cover exactly the old covered
points of the range.

The values of the cut nodes come from the split functions and are left open:
only bounds are followed, and a node that survives whole keeps its value.
-/

namespace FtlOs
namespace RangeMap

universe u v

variable {U : Type u} {V : Type v} [LinearOrder U]

/-! ## Bounds, cover and the parts of a node -/

/-- The map has a node with range `[a, b)`, whatever its value. -/
def Bounds (m : RangeMap U V) (a b : U) : Prop :=
  ∃ v, (a, (⟨b, v⟩ : Node U V)) ∈ m.nodes.entries

/-- Some node's range holds the point. -/
def Covers (m : RangeMap U V) (x : U) : Prop :=
  ∃ e ∈ m.nodes.entries, e.1 ≤ x ∧ x < e.2.stop

/-- The node's range shares a point with `r`. -/
def Meets (r : Range U) (e : U × Node U V) : Prop := e.1 < r.stop ∧ r.start < e.2.stop

/-- The node starts below `r` and reaches into it. -/
def LeftStraddles (r : Range U) (e : U × Node U V) : Prop :=
  e.1 < r.start ∧ r.start < e.2.stop

/-- The node starts below the end of `r` and reaches past it. -/
def RightStraddles (r : Range U) (e : U × Node U V) : Prop :=
  e.1 < r.stop ∧ r.stop < e.2.stop

/-- The part of the node's range inside `r`. -/
def clip (r : Range U) (e : U × Node U V) : Range U :=
  ⟨max e.1 r.start, min e.2.stop r.stop⟩

/-- `[a, b)` is what is left of the node's range outside `r`: all of it when it
misses `r`, else its part before `r` or its part after `r`. -/
def Remains (r : Range U) (e : U × Node U V) (a b : U) : Prop :=
  (¬ Meets r e ∧ a = e.1 ∧ b = e.2.stop) ∨
  (LeftStraddles r e ∧ a = e.1 ∧ b = r.start) ∨
  (RightStraddles r e ∧ a = r.stop ∧ b = e.2.stop)

/-- Two ranges share no point. -/
def Apart (p q : Range U) : Prop := p.stop ≤ q.start ∨ q.stop ≤ p.start

section Bounds

variable {nodes : OrdMap U (Node U V)} {a b k : U}

theorem bounds_of_mem {m : RangeMap U V} {e : U × Node U V} (member : e ∈ m.nodes.entries) :
    m.Bounds e.1 e.2.stop :=
  ⟨e.2.value, member⟩

theorem bounds_insert {n : Node U V} :
    (⟨nodes.insert k n⟩ : RangeMap U V).Bounds a b ↔
      (a = k ∧ b = n.stop) ∨ ((⟨nodes⟩ : RangeMap U V).Bounds a b ∧ a ≠ k) := by
  simp only [Bounds, OrdMap.mem_entries_insert, Prod.mk.injEq]
  constructor
  · rintro ⟨w, ⟨rfl, rfl⟩ | ⟨old, other⟩⟩
    · exact .inl ⟨rfl, rfl⟩
    · exact .inr ⟨⟨w, old⟩, other⟩
  · rintro (⟨rfl, rfl⟩ | ⟨⟨w, old⟩, other⟩)
    · exact ⟨n.value, .inl ⟨rfl, rfl⟩⟩
    · exact ⟨w, .inr ⟨old, other⟩⟩

theorem bounds_modify {f : Node U V → Node U V} :
    (⟨nodes.modify k f⟩ : RangeMap U V).Bounds a b ↔
      (∃ n, (k, n) ∈ nodes.entries ∧ a = k ∧ b = (f n).stop) ∨
        ((⟨nodes⟩ : RangeMap U V).Bounds a b ∧ a ≠ k) := by
  simp only [Bounds, OrdMap.mem_entries_modify, Prod.mk.injEq]
  constructor
  · rintro ⟨w, ⟨n, member, rfl, changed⟩ | ⟨old, other⟩⟩
    · exact .inl ⟨n, member, rfl, by rw [← changed]⟩
    · exact .inr ⟨⟨w, old⟩, other⟩
  · rintro (⟨n, member, rfl, rfl⟩ | ⟨⟨w, old⟩, other⟩)
    · exact ⟨(f n).value, .inl ⟨n, member, rfl, rfl⟩⟩
    · exact ⟨w, .inr ⟨old, other⟩⟩

theorem bounds_erase :
    (⟨nodes.erase k⟩ : RangeMap U V).Bounds a b ↔
      (⟨nodes⟩ : RangeMap U V).Bounds a b ∧ a ≠ k := by
  simp only [Bounds, OrdMap.mem_entries_erase, exists_and_right]

end Bounds

section Parts

variable {m : RangeMap U V} {r : Range U}

/-- A point is covered exactly when some node's bounds hold it. -/
theorem covers_iff_bounds {x : U} : m.Covers x ↔ ∃ a b, m.Bounds a b ∧ a ≤ x ∧ x < b := by
  constructor
  · rintro ⟨e, member, inside⟩
    exact ⟨e.1, e.2.stop, bounds_of_mem member, inside⟩
  · rintro ⟨a, b, ⟨w, member⟩, inside⟩
    exact ⟨_, member, inside⟩

/-- The parts left of a node outside `r` hold exactly its points outside `r`. -/
theorem remains_holds_iff (e : U × Node U V) {x : U} :
    (∃ a b, Remains r e a b ∧ a ≤ x ∧ x < b) ↔
      (e.1 ≤ x ∧ x < e.2.stop) ∧ ¬ (r.start ≤ x ∧ x < r.stop) := by
  simp only [Remains, Meets, LeftStraddles, RightStraddles]
  constructor
  · rintro ⟨a, b, ⟨missed, rfl, rfl⟩ | ⟨_, rfl, rfl⟩ | ⟨_, rfl, rfl⟩, atLeast, below⟩
    · refine ⟨⟨atLeast, below⟩, fun inside => missed ⟨?_, ?_⟩⟩ <;> order
    · exact ⟨⟨atLeast, by order⟩, fun inside => by order⟩
    · exact ⟨⟨by order, below⟩, fun inside => by order⟩
  · rintro ⟨⟨atLeast, below⟩, outside⟩
    by_cases meets : e.1 < r.stop ∧ r.start < e.2.stop
    · by_cases before : x < r.start
      · exact ⟨e.1, r.start, .inr (.inl ⟨⟨by order, meets.2⟩, rfl, rfl⟩), atLeast, before⟩
      · have after : r.stop ≤ x := not_lt.mp fun inside => outside ⟨not_lt.mp before, inside⟩
        exact ⟨r.stop, e.2.stop, .inr (.inr ⟨⟨meets.1, by order⟩, rfl, rfl⟩), after, below⟩
    · exact ⟨e.1, e.2.stop, .inl ⟨meets, rfl, rfl⟩, atLeast, below⟩

/-- Pieces clipped from distinct nodes of a well-formed map are apart. -/
theorem apart_clip (wf : m.WellFormed) {e e' : U × Node U V} (member : e ∈ m.nodes.entries)
    (member' : e' ∈ m.nodes.entries) (distinct : e ≠ e') : Apart (clip r e) (clip r e') := by
  have separated := (wellFormed_iff.mp wf).2
  simp only [Apart, clip]
  rcases lt_trichotomy e.1 e'.1 with before | same | after
  · have gap := separated e member e' member' before
    exact .inl ((min_le_left _ _).trans (gap.trans (le_max_left _ _)))
  · exact absurd (OrdMap.eq_of_key_eq member member' same) distinct
  · have gap := separated e' member' e member after
    exact .inr ((min_le_left _ _).trans (gap.trans (le_max_left _ _)))

/-- The piece clipped from a node holds exactly its points inside `r`. -/
theorem clip_holds_iff (e : U × Node U V) {x : U} :
    ((clip r e).start ≤ x ∧ x < (clip r e).stop) ↔
      (e.1 ≤ x ∧ x < e.2.stop) ∧ r.start ≤ x ∧ x < r.stop := by
  simp only [clip, max_le_iff, lt_min_iff]
  tauto

/-- Two nodes straddling the same point are the same node. -/
theorem eq_of_straddles {p : U} {e e' : U × Node U V} (wf : m.WellFormed)
    (member : e ∈ m.nodes.entries) (member' : e' ∈ m.nodes.entries)
    (straddles : e.1 < p ∧ p < e.2.stop) (straddles' : e'.1 < p ∧ p < e'.2.stop) : e = e' :=
  contains_unique wf member member' ⟨straddles.1.le, straddles.2⟩ ⟨straddles'.1.le, straddles'.2⟩

/-- No node starts strictly inside another. -/
theorem key_ne_of_interior {p : U} {e e' : U × Node U V} (wf : m.WellFormed)
    (member : e ∈ m.nodes.entries) (straddles : e.1 < p ∧ p < e.2.stop)
    (member' : e' ∈ m.nodes.entries) : e'.1 ≠ p := by
  intro starts
  have nonempty := (wellFormed_iff.mp wf).1 e' member'
  have same := contains_unique wf member' member ⟨starts.le, starts ▸ nonempty⟩
    ⟨straddles.1.le, straddles.2⟩
  rw [same] at starts
  exact absurd starts (ne_of_lt straddles.1)

end Parts

/-! ## The cut at `start` -/

/-- `[a, b)` is a part the cut at `start` leaves of a node: the node itself
unless it straddles `start`, else its part before `start` and, when it reaches
past `end`, its part after `end`. -/
def LeftPart (r : Range U) (e : U × Node U V) (a b : U) : Prop :=
  (¬ LeftStraddles r e ∧ a = e.1 ∧ b = e.2.stop) ∨
  (LeftStraddles r e ∧ a = e.1 ∧ b = r.start) ∨
  (LeftStraddles r e ∧ r.stop < e.2.stop ∧ a = r.stop ∧ b = e.2.stop)

/-- What the cut at `start` leaves of `m` as `m1`, and what it releases. -/
structure LeftCut (r : Range U) (m m1 : RangeMap U V) (released : Released U V) : Prop where
  /-- The nodes left are the parts of the old nodes. -/
  bounds : ∀ a b, m1.Bounds a b ↔ ∃ e ∈ m.nodes.entries, LeftPart r e a b
  /-- A node not straddling `start` stays as it was. -/
  keeps : ∀ e ∈ m.nodes.entries, ¬ LeftStraddles r e → e ∈ m1.nodes.entries
  /-- The piece released is the straddling node's part inside the range. -/
  released : ∃ cut : List (U × Node U V), cut.Nodup ∧
    (∀ e, e ∈ cut ↔ e ∈ m.nodes.entries ∧ LeftStraddles r e) ∧
    released.map Prod.snd = cut.map (clip r)

section LeftCut

variable {m : RangeMap U V} {r : Range U}

/-- With no node straddling `start`, the cut leaves the map and releases nothing. -/
theorem LeftCut.of_none (none : ∀ e ∈ m.nodes.entries, ¬ LeftStraddles r e) :
    LeftCut r m m [] where
  bounds a b := by
    constructor
    · rintro ⟨w, member⟩
      exact ⟨_, member, .inl ⟨none _ member, rfl, rfl⟩⟩
    · rintro ⟨e, member, ⟨_, rfl, rfl⟩ | ⟨straddles, -⟩ | ⟨straddles, -⟩⟩
      · exact bounds_of_mem member
      · exact absurd straddles (none e member)
      · exact absurd straddles (none e member)
  keeps _ member _ := member
  released := ⟨[], .nil, fun e => ⟨fun absent => (nomatch absent),
    fun ⟨member, straddles⟩ => (none e member straddles).elim⟩, rfl⟩

/-- The cut at `start` does not panic; it leaves the parts of the old nodes and
releases the straddling node's part inside the range. -/
theorem removeLeft_cut (splitR : Split U V) (wf : m.WellFormed) (nonempty : r.start < r.stop) :
    ∃ m1 released, m.removeLeft r splitR = some (m1, released) ∧ LeftCut r m m1 released := by
  by_cases straddled : ∃ e ∈ m.nodes.entries, LeftStraddles r e
  swap
  · have none : ∀ e ∈ m.nodes.entries, ¬ LeftStraddles r e :=
      fun e member straddles => straddled ⟨e, member, straddles⟩
    refine ⟨m, [], ?_, LeftCut.of_none none⟩
    unfold removeLeft
    cases last : m.nodes.lastLT r.start with
    | none => rfl
    | some e =>
        obtain ⟨nStart, node⟩ := e
        obtain ⟨member, keyBelow, _⟩ := OrdMap.lastLT_eq_some_iff.mp last
        have short : ¬ r.start < node.stop := fun reaches => none _ member ⟨keyBelow, reaches⟩
        simp only [if_neg short]
  obtain ⟨⟨nStart, node⟩, member, keyBelow, reaches⟩ := straddled
  have straddler : ∀ e ∈ m.nodes.entries, LeftStraddles r e → e = (nStart, node) :=
    fun e old straddles => eq_of_straddles wf old member straddles ⟨keyBelow, reaches⟩
  have otherKey : ∀ e ∈ m.nodes.entries, ¬ LeftStraddles r e → e.1 ≠ nStart :=
    fun e old notStraddles same => notStraddles (by
      rw [OrdMap.eq_of_key_eq old member same]
      exact ⟨keyBelow, reaches⟩)
  have cutMember : ∀ e, e ∈ [(nStart, node)] ↔ e ∈ m.nodes.entries ∧ LeftStraddles r e :=
    fun e => by
      rw [List.mem_singleton]
      exact ⟨fun same => same ▸ ⟨member, keyBelow, reaches⟩,
        fun ⟨old, straddles⟩ => straddler e old straddles⟩
  unfold removeLeft
  rw [lastLT_eq_of_interior wf member keyBelow reaches]
  dsimp only
  rw [if_pos reaches]
  generalize splitR node.value r.start ⟨nStart, node.stop⟩ = firstCut
  obtain ⟨left, vM⟩ := firstCut
  dsimp only
  by_cases beyond : r.stop < node.stop
  · -- the node reaches past `end`: its part after `end` becomes a node at `end`
    rw [if_pos beyond]
    generalize splitR vM r.stop ⟨r.start, node.stop⟩ = secondCut
    obtain ⟨vM', vR⟩ := secondCut
    obtain ⟨inserted, -⟩ := cut_wellFormed left vR wf member keyBelow nonempty.le beyond
    dsimp only
    rw [inserted]
    have freshEnd : ∀ e ∈ m.nodes.entries, e.1 ≠ r.stop :=
      fun e old => key_ne_of_interior wf member ⟨keyBelow.trans nonempty, beyond⟩ old
    refine ⟨_, _, rfl, ⟨fun a b => ?_, fun e old notStraddles => ?_,
      [(nStart, node)], List.nodup_singleton _, cutMember, ?_⟩⟩
    · rw [bounds_insert, bounds_modify]
      constructor
      · rintro (⟨rfl, rfl⟩ | ⟨⟨n, -, rfl, rfl⟩ | ⟨⟨w, old⟩, other⟩, -⟩)
        · exact ⟨_, member, .inr (.inr ⟨⟨keyBelow, reaches⟩, beyond, rfl, rfl⟩)⟩
        · exact ⟨_, member, .inr (.inl ⟨⟨keyBelow, reaches⟩, rfl, rfl⟩)⟩
        · refine ⟨_, old, .inl ⟨fun straddles => other ?_, rfl, rfl⟩⟩
          exact congrArg Prod.fst (straddler _ old straddles)
      · rintro ⟨e, old, ⟨notStraddles, rfl, rfl⟩ | ⟨straddles, rfl, rfl⟩ | ⟨straddles, -, rfl, rfl⟩⟩
        · exact .inr ⟨.inr ⟨bounds_of_mem old, otherKey e old notStraddles⟩, freshEnd e old⟩
        · obtain rfl := straddler e old straddles
          exact .inr ⟨.inl ⟨node, member, rfl, rfl⟩, ne_of_lt (keyBelow.trans nonempty)⟩
        · obtain rfl := straddler e old straddles
          exact .inl ⟨rfl, rfl⟩
    · exact OrdMap.mem_entries_insert.mpr (.inr ⟨OrdMap.mem_entries_modify.mpr
        (.inr ⟨old, otherKey e old notStraddles⟩), freshEnd e old⟩)
    · simp [clip, max_eq_right keyBelow.le, min_eq_right beyond.le]
  · -- the node ends inside the range: it keeps only its part before `start`
    rw [if_neg beyond]
    refine ⟨_, _, rfl, ⟨fun a b => ?_, fun e old notStraddles => ?_,
      [(nStart, node)], List.nodup_singleton _, cutMember, ?_⟩⟩
    · rw [bounds_modify]
      constructor
      · rintro (⟨n, -, rfl, rfl⟩ | ⟨⟨w, old⟩, other⟩)
        · exact ⟨_, member, .inr (.inl ⟨⟨keyBelow, reaches⟩, rfl, rfl⟩)⟩
        · refine ⟨_, old, .inl ⟨fun straddles => other ?_, rfl, rfl⟩⟩
          exact congrArg Prod.fst (straddler _ old straddles)
      · rintro ⟨e, old, ⟨notStraddles, rfl, rfl⟩ | ⟨straddles, rfl, rfl⟩ | ⟨straddles, past, -⟩⟩
        · exact .inr ⟨bounds_of_mem old, otherKey e old notStraddles⟩
        · obtain rfl := straddler e old straddles
          exact .inl ⟨node, member, rfl, rfl⟩
        · obtain rfl := straddler e old straddles
          exact absurd past beyond
    · exact OrdMap.mem_entries_modify.mpr (.inr ⟨old, otherKey e old notStraddles⟩)
    · simp [clip, max_eq_right keyBelow.le, min_eq_left (not_lt.mp beyond)]

end LeftCut

/-! ## The cut at `end` -/

/-- `[a, b)` is a part the cut at `end` leaves of a node: the node itself unless
it straddles `end`, else its part after `end`. -/
def RightPart (r : Range U) (e : U × Node U V) (a b : U) : Prop :=
  (¬ RightStraddles r e ∧ a = e.1 ∧ b = e.2.stop) ∨
  (RightStraddles r e ∧ a = r.stop ∧ b = e.2.stop)

/-- What the cut at `end` leaves of `m1` as `m2`, and what it releases. -/
structure RightCut (r : Range U) (m1 m2 : RangeMap U V) (released : Released U V) : Prop where
  /-- The nodes left are the parts of the nodes before the cut. -/
  bounds : ∀ a b, m2.Bounds a b ↔ ∃ e ∈ m1.nodes.entries, RightPart r e a b
  /-- A node not straddling `end` stays as it was. -/
  keeps : ∀ e ∈ m1.nodes.entries, ¬ RightStraddles r e → e ∈ m2.nodes.entries
  /-- The piece released is the straddling node's part inside the range. -/
  released : ∃ cut : List (U × Node U V), cut.Nodup ∧
    (∀ e, e ∈ cut ↔ e ∈ m1.nodes.entries ∧ RightStraddles r e) ∧
    released.map Prod.snd = cut.map (clip r)

section RightCut

variable {m : RangeMap U V} {r : Range U}

/-- With no node straddling `end`, the cut leaves the map and releases nothing. -/
theorem RightCut.of_none (none : ∀ e ∈ m.nodes.entries, ¬ RightStraddles r e) :
    RightCut r m m [] where
  bounds a b := by
    constructor
    · rintro ⟨w, member⟩
      exact ⟨_, member, .inl ⟨none _ member, rfl, rfl⟩⟩
    · rintro ⟨e, member, ⟨_, rfl, rfl⟩ | ⟨straddles, -⟩⟩
      · exact bounds_of_mem member
      · exact absurd straddles (none e member)
  keeps _ member _ := member
  released := ⟨[], .nil, fun e => ⟨fun absent => (nomatch absent),
    fun ⟨member, straddles⟩ => (none e member straddles).elim⟩, rfl⟩

/-- The cut at `end`, after the cut at `start`, does not panic; it leaves the
parts of the nodes and releases the straddling node's part inside the range. -/
theorem removeRight_cut (splitL : Split U V) (wf : m.WellFormed) (nonempty : r.start < r.stop)
    (clear : m.ClearBelow r.start) :
    ∃ m2 released, m.removeRight r splitL = some (m2, released) ∧ RightCut r m m2 released := by
  by_cases straddled : ∃ e ∈ m.nodes.entries, RightStraddles r e
  swap
  · have none : ∀ e ∈ m.nodes.entries, ¬ RightStraddles r e :=
      fun e member straddles => straddled ⟨e, member, straddles⟩
    exact ⟨m, [], removeRight_eq_of_none splitL none, RightCut.of_none none⟩
  obtain ⟨⟨nStart, node⟩, member, keyBelow, beyond⟩ := straddled
  have straddler : ∀ e ∈ m.nodes.entries, RightStraddles r e → e = (nStart, node) :=
    fun e old straddles => eq_of_straddles wf old member straddles ⟨keyBelow, beyond⟩
  have otherKey : ∀ e ∈ m.nodes.entries, ¬ RightStraddles r e → e.1 ≠ nStart :=
    fun e old notStraddles same => notStraddles (by
      rw [OrdMap.eq_of_key_eq old member same]
      exact ⟨keyBelow, beyond⟩)
  have freshEnd : ∀ e ∈ m.nodes.entries, e.1 ≠ r.stop :=
    fun e old => key_ne_of_interior wf member ⟨keyBelow, beyond⟩ old
  -- nothing below `start` reaches into the range, so the straddling node starts in it
  have startLe : r.start ≤ nStart := not_lt.mp fun below =>
    absurd ((clear _ member below).trans_lt (nonempty.trans beyond)) (lt_irrefl _)
  refine ⟨_, _, (removeRight_eq_of_straddles splitL wf member keyBelow beyond).1,
    ⟨fun a b => ?_, fun e old notStraddles => ?_, [(nStart, node)], List.nodup_singleton _,
      fun e => ?_, ?_⟩⟩
  · rw [bounds_insert, bounds_erase]
    constructor
    · rintro (⟨rfl, rfl⟩ | ⟨⟨⟨w, old⟩, other⟩, -⟩)
      · exact ⟨_, member, .inr ⟨⟨keyBelow, beyond⟩, rfl, rfl⟩⟩
      · refine ⟨_, old, .inl ⟨fun straddles => other ?_, rfl, rfl⟩⟩
        exact congrArg Prod.fst (straddler _ old straddles)
    · rintro ⟨e, old, ⟨notStraddles, rfl, rfl⟩ | ⟨straddles, rfl, rfl⟩⟩
      · exact .inr ⟨⟨bounds_of_mem old, otherKey e old notStraddles⟩, freshEnd e old⟩
      · obtain rfl := straddler e old straddles
        exact .inl ⟨rfl, rfl⟩
  · exact OrdMap.mem_entries_insert.mpr (.inr ⟨OrdMap.mem_entries_erase.mpr
      ⟨old, otherKey e old notStraddles⟩, freshEnd e old⟩)
  · rw [List.mem_singleton]
    exact ⟨fun same => same ▸ ⟨member, keyBelow, beyond⟩,
      fun ⟨old, straddles⟩ => straddler e old straddles⟩
  · simp [clip, max_eq_left startLe, min_eq_right beyond.le]

end RightCut

/-! ## Draining the range -/

/-- What the draining loop leaves of `nodes` as `drained`, and what it releases. -/
structure InnerCut (r : Range U) (nodes drained : OrdMap U (Node U V))
    (released : Released U V) : Prop where
  /-- The nodes starting inside the range go, the others stay. -/
  keeps : ∀ e, e ∈ drained.entries ↔ e ∈ nodes.entries ∧ ¬ (r.start ≤ e.1 ∧ e.1 < r.stop)
  /-- Each node starting inside the range is released whole, once. -/
  released : ∃ cut : List (U × Node U V), cut.Nodup ∧
    (∀ e, e ∈ cut ↔ e ∈ nodes.entries ∧ r.start ≤ e.1 ∧ e.1 < r.stop) ∧
    released.map Prod.snd = cut.map fun e => ⟨e.1, e.2.stop⟩

/-- The draining loop of `remove` does not panic; it removes and releases
exactly the nodes starting inside the range. -/
theorem removeInner_cut (r : Range U) (nodes : OrdMap U (Node U V)) :
    ∃ drained released, removeInner r nodes = some (drained, released) ∧
      InnerCut r nodes drained released := by
  fun_induction removeInner r nodes with
  | case1 nodes noneInside =>
      have outside : ∀ e ∈ nodes.entries, ¬ (r.start ≤ e.1 ∧ e.1 < r.stop) := by
        intro e member inside
        have found : e ∈ nodes.rangeIn r.start r.stop := OrdMap.mem_rangeIn.mpr ⟨member, inside⟩
        rw [List.head?_eq_none_iff.mp noneInside] at found
        cases found
      refine ⟨nodes, [], rfl, ⟨fun e => ?_, [], .nil, fun e => ?_, rfl⟩⟩
      · exact ⟨fun member => ⟨member, outside e member⟩, And.left⟩
      · exact ⟨fun absent => absurd absent List.not_mem_nil,
          fun both => (outside e both.1 both.2).elim⟩
  | case2 nodes nStart x first absent =>
      have member := OrdMap.mem_rangeIn.mp (List.mem_of_head? first)
      rw [OrdMap.remove, Option.map_eq_none_iff, OrdMap.get?_eq_none_iff] at absent
      exact absurd member.1 (absent x)
  | case3 nodes nStart x first node rest found ih =>
      obtain ⟨drained, released, loop, ⟨keeps, cut, nodup, cutMember, cutMap⟩⟩ := ih
      obtain ⟨member, rfl⟩ := OrdMap.remove_eq_some_iff.mp found
      -- the first node starting inside the range is the one removed
      have inside : r.start ≤ nStart ∧ nStart < r.stop :=
        (OrdMap.mem_rangeIn.mp (List.mem_of_head? first)).2
      refine ⟨drained, _, by rw [loop]; rfl, ⟨fun e => ?_, (nStart, node) :: cut, ?_,
        fun e => ?_, by simp [cutMap]⟩⟩
      · rw [keeps, OrdMap.mem_entries_erase]
        constructor
        · rintro ⟨⟨old, _⟩, outside⟩
          exact ⟨old, outside⟩
        · rintro ⟨old, outside⟩
          exact ⟨⟨old, fun same => outside (same ▸ inside)⟩, outside⟩
      · refine List.nodup_cons.mpr ⟨fun again => ?_, nodup⟩
        exact (OrdMap.mem_entries_erase.mp ((cutMember _).mp again).1).2 rfl
      · rw [List.mem_cons, cutMember, OrdMap.mem_entries_erase]
        constructor
        · rintro (rfl | ⟨⟨old, _⟩, insideE⟩)
          · exact ⟨member, inside⟩
          · exact ⟨old, insideE⟩
        · rintro ⟨old, insideE⟩
          by_cases same : e.1 = nStart
          · exact .inl (OrdMap.eq_of_key_eq old member same)
          · exact .inr ⟨⟨old, same⟩, insideE⟩

/-! ## The three phases together -/

section Compose

variable {m m1 m2 : RangeMap U V} {r : Range U} {released1 released2 : Released U V}

/-- The node straddling `end` after the cut at `start` is an old node that did
not straddle `start`. -/
theorem LeftCut.rightStraddles_iff (nonempty : r.start < r.stop)
    (cut1 : LeftCut r m m1 released1) {e : U × Node U V} :
    e ∈ m1.nodes.entries ∧ RightStraddles r e ↔
      e ∈ m.nodes.entries ∧ ¬ LeftStraddles r e ∧ RightStraddles r e := by
  constructor
  · rintro ⟨member1, straddles⟩
    obtain ⟨e0, member0, part⟩ := (cut1.bounds _ _).mp (bounds_of_mem member1)
    rcases part with ⟨notStraddles, sameKey, -⟩ | ⟨_, -, cutStop⟩ | ⟨_, _, atEnd, -⟩
    · -- the node was kept, so it is the old node with its key
      have kept := cut1.keeps e0 member0 notStraddles
      rw [OrdMap.eq_of_key_eq member1 kept sameKey]
      exact ⟨member0, notStraddles, OrdMap.eq_of_key_eq member1 kept sameKey ▸ straddles⟩
    · exact absurd straddles.2 (by rw [cutStop]; exact not_lt.mpr nonempty.le)
    · exact absurd straddles.1 (by rw [atEnd]; exact lt_irrefl _)
  · rintro ⟨member, notStraddles, straddles⟩
    exact ⟨cut1.keeps e member notStraddles, straddles⟩

/-- After both cuts the nodes starting inside the range are the old nodes that
start inside it and do not reach past `end`. -/
theorem RightCut.inside_iff (cut1 : LeftCut r m m1 released1)
    (cut2 : RightCut r m1 m2 released2) {e : U × Node U V} :
    e ∈ m2.nodes.entries ∧ r.start ≤ e.1 ∧ e.1 < r.stop ↔
      e ∈ m.nodes.entries ∧ r.start ≤ e.1 ∧ e.1 < r.stop ∧ ¬ RightStraddles r e := by
  constructor
  · rintro ⟨member2, atLeast, below⟩
    obtain ⟨e1, member1, part1⟩ := (cut2.bounds _ _).mp (bounds_of_mem member2)
    rcases part1 with ⟨notStraddles1, sameKey1, sameStop1⟩ | ⟨_, atEnd, -⟩
    swap
    · exact absurd below (by rw [atEnd]; exact lt_irrefl _)
    -- the node was kept by the cut at `end`, so it is that node
    have kept1 := cut2.keeps e1 member1 notStraddles1
    have same1 : e = e1 := OrdMap.eq_of_key_eq member2 kept1 sameKey1
    subst same1
    obtain ⟨e0, member0, part0⟩ := (cut1.bounds _ _).mp (bounds_of_mem member1)
    rcases part0 with ⟨notStraddles0, sameKey0, -⟩ | ⟨straddles0, beforeStart, -⟩ |
      ⟨_, _, atEnd, -⟩
    · have same0 : e = e0 :=
        OrdMap.eq_of_key_eq member1 (cut1.keeps e0 member0 notStraddles0) sameKey0
      subst same0
      exact ⟨member0, atLeast, below, notStraddles1⟩
    · exact absurd atLeast (by rw [beforeStart]; exact not_le.mpr straddles0.1)
    · exact absurd below (by rw [atEnd]; exact lt_irrefl _)
  · rintro ⟨member, atLeast, below, notStraddles⟩
    have kept1 := cut1.keeps e member fun straddles => absurd atLeast (not_le.mpr straddles.1)
    exact ⟨cut2.keeps e kept1 notStraddles, atLeast, below⟩

/-- After both cuts, the nodes not starting inside the range are exactly the
parts of the old nodes outside it. -/
theorem RightCut.remains_iff (wf : m.WellFormed) (nonempty : r.start < r.stop)
    (cut1 : LeftCut r m m1 released1) (cut2 : RightCut r m1 m2 released2) {a b : U} :
    (m2.Bounds a b ∧ ¬ (r.start ≤ a ∧ a < r.stop)) ↔ ∃ e ∈ m.nodes.entries, Remains r e a b := by
  constructor
  · rintro ⟨bounds2, outside⟩
    obtain ⟨e1, member1, part1⟩ := (cut2.bounds a b).mp bounds2
    obtain ⟨e0, member0, part0⟩ := (cut1.bounds _ _).mp (bounds_of_mem member1)
    refine ⟨e0, member0, ?_⟩
    simp only [Remains, Meets, LeftStraddles, RightStraddles, LeftPart, RightPart] at part0 part1 ⊢
    rcases part1 with ⟨notStraddles1, rfl, rfl⟩ | ⟨straddles1, rfl, rfl⟩ <;>
      rcases part0 with ⟨notStraddles0, sameKey, sameStop⟩ | ⟨straddles0, sameKey, sameStop⟩ |
        ⟨straddles0, past, sameKey, sameStop⟩
    · -- the old node survived whole: it misses the range
      refine .inl ⟨fun meets => ?_, sameKey, sameStop⟩
      by_cases before : e0.1 < r.start
      · exact notStraddles0 ⟨before, meets.2⟩
      · exact outside ⟨by order, by order⟩
    · exact .inr (.inl ⟨straddles0, sameKey, sameStop⟩)
    · exact .inr (.inr ⟨⟨by order, past⟩, sameKey, sameStop⟩)
    · exact .inr (.inr ⟨⟨by order, by order⟩, rfl, sameStop⟩)
    · exact absurd straddles1.2 (by order)
    · exact absurd straddles1.1 (by order)
  · rintro ⟨e, member, ⟨notMeets, rfl, rfl⟩ | ⟨straddles, rfl, rfl⟩ | ⟨straddles, rfl, rfl⟩⟩
    · -- a node missing the range survives both cuts
      have nonemptyE := (wellFormed_iff.mp wf).1 e member
      have kept1 := cut1.keeps e member fun straddles =>
        notMeets ⟨straddles.1.trans nonempty, straddles.2⟩
      have kept2 := cut2.keeps e kept1 fun straddles =>
        notMeets ⟨straddles.1, nonempty.trans straddles.2⟩
      exact ⟨bounds_of_mem kept2, fun inside => notMeets ⟨inside.2, inside.1.trans_lt nonemptyE⟩⟩
    · -- the part before `start` is not touched by the cut at `end`
      obtain ⟨w, member1⟩ := (cut1.bounds _ _).mpr ⟨e, member, .inr (.inl ⟨straddles, rfl, rfl⟩)⟩
      have kept2 := cut2.keeps _ member1 fun straddles2 => absurd straddles2.2 (by
        exact not_lt.mpr nonempty.le)
      exact ⟨bounds_of_mem kept2, fun inside => absurd inside.1 (not_le.mpr straddles.1)⟩
    · have outside : ¬ (r.start ≤ r.stop ∧ r.stop < r.stop) := fun inside => lt_irrefl _ inside.2
      by_cases straddlesStart : LeftStraddles r e
      · -- the cut at `start` already made the part after `end` a node
        obtain ⟨w, member1⟩ := (cut1.bounds _ _).mpr
          ⟨e, member, .inr (.inr ⟨straddlesStart, straddles.2, rfl, rfl⟩)⟩
        have kept2 := cut2.keeps _ member1 fun straddles2 => lt_irrefl _ straddles2.1
        exact ⟨bounds_of_mem kept2, outside⟩
      · have kept1 := cut1.keeps e member straddlesStart
        exact ⟨(cut2.bounds _ _).mpr ⟨e, kept1, .inr ⟨straddles, rfl, rfl⟩⟩, outside⟩

end Compose

/-! ## The contract of `remove` -/

section Contract

variable {m m' : RangeMap U V} {r : Range U}

/-- A node meets the range exactly when it straddles `start`, or straddles
`end` without straddling `start`, or lies in the range from its start. -/
theorem meets_iff_cases {e : U × Node U V} (nonemptyE : e.1 < e.2.stop)
    (nonempty : r.start < r.stop) :
    Meets r e ↔ LeftStraddles r e ∨ (¬ LeftStraddles r e ∧ RightStraddles r e) ∨
      (r.start ≤ e.1 ∧ e.1 < r.stop ∧ ¬ RightStraddles r e) := by
  simp only [Meets, LeftStraddles, RightStraddles]
  constructor
  · rintro ⟨belowEnd, afterStart⟩
    by_cases before : e.1 < r.start
    · exact .inl ⟨before, afterStart⟩
    · by_cases past : r.stop < e.2.stop
      · exact .inr (.inl ⟨fun straddles => before straddles.1, belowEnd, past⟩)
      · exact .inr (.inr ⟨not_lt.mp before, belowEnd, fun straddles => past straddles.2⟩)
  · rintro (⟨before, afterStart⟩ | ⟨-, belowEnd, past⟩ | ⟨atLeast, belowEnd, -⟩)
    · exact ⟨before.trans nonempty, afterStart⟩
    · exact ⟨belowEnd, nonempty.trans past⟩
    · exact ⟨belowEnd, atLeast.trans_lt nonemptyE⟩

/-- When the nodes left are the parts outside `r`, the cover is the old cover
minus `r`. -/
theorem covers_of_remains
    (remains : ∀ a b, m'.Bounds a b ↔ ∃ e ∈ m.nodes.entries, Remains r e a b) (x : U) :
    m'.Covers x ↔ m.Covers x ∧ ¬ (r.start ≤ x ∧ x < r.stop) := by
  rw [covers_iff_bounds]
  constructor
  · rintro ⟨a, b, bounds, holds⟩
    obtain ⟨e, member, remainsE⟩ := (remains a b).mp bounds
    obtain ⟨inside, outside⟩ := (remains_holds_iff e).mp ⟨a, b, remainsE, holds⟩
    exact ⟨⟨e, member, inside⟩, outside⟩
  · rintro ⟨⟨e, member, inside⟩, outside⟩
    obtain ⟨a, b, remainsE, holds⟩ := (remains_holds_iff e).mpr ⟨inside, outside⟩
    exact ⟨a, b, (remains a b).mpr ⟨e, member, remainsE⟩, holds⟩

/-- Pieces clipped once from each node meeting `r` are pairwise apart and cover
exactly the old cover inside `r`. -/
theorem clips_apart_and_cover (wf : m.WellFormed) {olds : List (U × Node U V)}
    (nodup : olds.Nodup) (members : ∀ e, e ∈ olds ↔ e ∈ m.nodes.entries ∧ Meets r e) :
    (olds.map (clip r)).Pairwise Apart ∧
      ∀ x, (∃ p ∈ olds.map (clip r), p.start ≤ x ∧ x < p.stop) ↔
        m.Covers x ∧ r.start ≤ x ∧ x < r.stop := by
  refine ⟨List.pairwise_map.mpr (List.Pairwise.imp_of_mem (fun memberA memberB distinct =>
    apart_clip wf ((members _).mp memberA).1 ((members _).mp memberB).1 distinct) nodup),
    fun x => ?_⟩
  simp only [List.mem_map, exists_exists_and_eq_and]
  constructor
  · rintro ⟨e, old, holds⟩
    obtain ⟨inside, inRange⟩ := (clip_holds_iff e).mp holds
    exact ⟨⟨e, ((members e).mp old).1, inside⟩, inRange⟩
  · rintro ⟨⟨e, member, inside⟩, inRange⟩
    have meets : Meets r e := ⟨inside.1.trans_lt inRange.2, inRange.1.trans_lt inside.2⟩
    exact ⟨e, (members e).mpr ⟨member, meets⟩, (clip_holds_iff e).mpr ⟨inside, inRange⟩⟩

/-- `remove` of a nonempty range from a well-formed map does not panic.  The
nodes it leaves are exactly the parts of the old nodes outside the range, and a
node missing the range stays as it was.  It releases the part inside the range
of each old node meeting the range, once each. -/
theorem remove_parts (splitL splitR : Split U V) (wf : m.WellFormed)
    (nonempty : r.start < r.stop) :
    ∃ m' released, m.remove r splitL splitR = some (m', released) ∧
      (∀ a b, m'.Bounds a b ↔ ∃ e ∈ m.nodes.entries, Remains r e a b) ∧
      (∀ e ∈ m.nodes.entries, ¬ Meets r e → e ∈ m'.nodes.entries) ∧
      ∃ olds : List (U × Node U V), olds.Nodup ∧
        (∀ e, e ∈ olds ↔ e ∈ m.nodes.entries ∧ Meets r e) ∧
        released.map Prod.snd = olds.map (clip r) := by
  obtain ⟨m1, released1, left, cut1⟩ := removeLeft_cut splitR wf nonempty
  obtain ⟨m1', released1', left', wf1, clear1⟩ := removeLeft_spec splitR wf nonempty
  rw [left, Option.some.injEq, Prod.mk.injEq] at left'
  obtain ⟨rfl, rfl⟩ := left'
  obtain ⟨m2, released2, right, cut2⟩ := removeRight_cut splitL wf1 nonempty clear1
  obtain ⟨drained, released3, loop, cut3⟩ := removeInner_cut r m2.nodes
  refine ⟨⟨drained⟩, released1 ++ released2 ++ released3, ?_, fun a b => ?_,
    fun e member notMeets => ?_, ?_⟩
  · unfold remove
    rw [if_neg (not_le.mpr nonempty)]
    simp only [left, right, loop, Option.bind_eq_bind, Option.bind_some]
    rfl
  · -- the drained map keeps the nodes of `m2` not starting inside the range
    have drainedBounds : (⟨drained⟩ : RangeMap U V).Bounds a b ↔
        m2.Bounds a b ∧ ¬ (r.start ≤ a ∧ a < r.stop) := by
      simp only [Bounds, cut3.keeps]
      exact ⟨fun ⟨w, member, outside⟩ => ⟨⟨w, member⟩, outside⟩,
        fun ⟨⟨w, member⟩, outside⟩ => ⟨w, member, outside⟩⟩
    rw [drainedBounds]
    exact RightCut.remains_iff wf nonempty cut1 cut2
  · have nonemptyE := (wellFormed_iff.mp wf).1 e member
    have kept1 := cut1.keeps e member fun straddles =>
      notMeets ⟨straddles.1.trans nonempty, straddles.2⟩
    have kept2 := cut2.keeps e kept1 fun straddles =>
      notMeets ⟨straddles.1, nonempty.trans straddles.2⟩
    exact (cut3.keeps e).mpr ⟨kept2, fun inside => notMeets ⟨inside.2, inside.1.trans_lt nonemptyE⟩⟩
  · obtain ⟨cutL, nodupL, memberL, mapL⟩ := cut1.released
    obtain ⟨cutR, nodupR, memberR, mapR⟩ := cut2.released
    obtain ⟨cutI, nodupI, memberI, mapI⟩ := cut3.released
    -- the pieces of each phase, told by the old node they come from
    have memberR' : ∀ e, e ∈ cutR ↔
        e ∈ m.nodes.entries ∧ ¬ LeftStraddles r e ∧ RightStraddles r e := fun e =>
      (memberR e).trans (LeftCut.rightStraddles_iff nonempty cut1)
    have memberI' : ∀ e, e ∈ cutI ↔ e ∈ m.nodes.entries ∧ r.start ≤ e.1 ∧ e.1 < r.stop ∧
        ¬ RightStraddles r e := fun e =>
      (memberI e).trans (RightCut.inside_iff cut1 cut2)
    refine ⟨cutL ++ cutR ++ cutI, ?_, fun e => ?_, ?_⟩
    · refine (nodupL.append nodupR fun e inL inR => ((memberR' e).mp inR).2.1
        ((memberL e).mp inL).2).append nodupI fun e inLR inI => ?_
      obtain ⟨-, atLeast, -, notStraddles⟩ := (memberI' e).mp inI
      rcases List.mem_append.mp inLR with inL | inR
      · exact absurd atLeast (not_le.mpr ((memberL e).mp inL).2.1)
      · exact notStraddles ((memberR' e).mp inR).2.2
    · simp only [List.mem_append, memberL, memberR', memberI']
      constructor
      · rintro ((⟨member, cases⟩ | ⟨member, cases⟩) | ⟨member, cases⟩) <;>
          exact ⟨member, (meets_iff_cases ((wellFormed_iff.mp wf).1 e member) nonempty).mpr
            (by tauto)⟩
      · rintro ⟨member, meets⟩
        rcases (meets_iff_cases ((wellFormed_iff.mp wf).1 e member) nonempty).mp meets with
          cases | cases | cases
        · exact .inl (.inl ⟨member, cases⟩)
        · exact .inl (.inr ⟨member, cases⟩)
        · exact .inr ⟨member, cases⟩
    · rw [List.map_append, List.map_append, mapL, mapR, mapI, List.map_append, List.map_append]
      congr 1
      -- a node drained whole lies in the range, so its clip is its own range
      refine List.map_congr_left fun e inI => ?_
      obtain ⟨-, atLeast, below, notStraddles⟩ := (memberI' e).mp inI
      have ends : e.2.stop ≤ r.stop := not_lt.mp fun past => notStraddles ⟨below, past⟩
      simp [clip, max_eq_left atLeast, min_eq_left ends]

/-- `RangeMap::remove` of a nonempty range from a well-formed map does not
panic.  Afterwards the map covers exactly its old cover minus the range.  A
node that misses the range is still there with its bounds and value.  The nodes
left are exactly the parts of the old nodes outside the range, both parts when
a node strictly contains it.  The released pieces are pairwise apart and cover
exactly the old cover inside the range.  They are the parts inside the range of
the old nodes meeting it, one piece for each such node. -/
theorem remove_cuts_out_range (m : RangeMap U V) (wf : m.WellFormed) (r : Range U)
    (nonempty : r.start < r.stop) (splitL splitR : Split U V) :
    ∃ m' released, m.remove r splitL splitR = some (m', released) ∧
      (∀ x, m'.Covers x ↔ m.Covers x ∧ ¬ (r.start ≤ x ∧ x < r.stop)) ∧
      (∀ e ∈ m.nodes.entries, ¬ Meets r e → e ∈ m'.nodes.entries) ∧
      (∀ a b, m'.Bounds a b ↔ ∃ e ∈ m.nodes.entries, Remains r e a b) ∧
      (released.map Prod.snd).Pairwise Apart ∧
      (∀ x, (∃ p ∈ released.map Prod.snd, p.start ≤ x ∧ x < p.stop) ↔
        m.Covers x ∧ r.start ≤ x ∧ x < r.stop) ∧
      ∃ olds : List (U × Node U V), olds.Nodup ∧
        (∀ e, e ∈ olds ↔ e ∈ m.nodes.entries ∧ Meets r e) ∧
        released.map Prod.snd = olds.map (clip r) := by
  obtain ⟨m', released, removed, remains, keeps, olds, nodup, members, pieces⟩ :=
    remove_parts splitL splitR wf nonempty
  obtain ⟨apart, cover⟩ := clips_apart_and_cover wf nodup members
  rw [← pieces] at apart cover
  exact ⟨m', released, removed, covers_of_remains remains, keeps, remains, apart, cover,
    olds, nodup, members, pieces⟩

/-- Removing `[1, 4)` from `[0, 2) -> 7, [3, 5) -> 8`, with splits that copy the
value, leaves the cover `[0, 1) ∪ [4, 5)`. -/
theorem remove_cuts_out_range_sample :
    ∃ m' released, sampleMap.remove ⟨1, 4⟩ (fun v _ _ => (v, v)) (fun v _ _ => (v, v)) =
      some (m', released) ∧ ∀ x, m'.Covers x ↔ sampleMap.Covers x ∧ ¬ (1 ≤ x ∧ x < 4) := by
  obtain ⟨m', released, removed, covers, -⟩ :=
    remove_cuts_out_range sampleMap (by decide) ⟨1, 4⟩ (by decide)
      (fun v _ _ => (v, v)) (fun v _ _ => (v, v))
  exact ⟨m', released, removed, covers⟩

end Contract

end RangeMap
end FtlOs
