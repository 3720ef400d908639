import FtlOs.Kernel.RangeMap.Preservation

/-!
# Free ranges of a `RangeMap`

`try_insert` and `range_is_free` ask one question of a map in two ways.
`try_insert` looks at the last node starting below the range's end;
`range_is_free` looks at the last node starting below its start and at the
nodes starting inside it.  On a well-formed map both answer whether the range
is vacant, so they agree.

`find_free_range` looks for room for `n` pages in a window.  Its loop is meant
to stop at the first gap that is wide enough.  The test it makes, though, is
whether the shifted end of the next node lies before that node's start.  For an
offset that grows this is never true, so the loop never stops early and returns
the end of the last node in the window.  The node straddling the window's start
is checked only by a `debug_assert!`, which the release build compiles out, so
the range returned can reach past the window.
-/

namespace FtlOs

/-- The offset `HandlerManager::find_free_range` passes to the map,
`a.add_page(PageCount(n))`, on user addresses counted in pages. -/
def addPage (a n : Nat) : Nat := a + n

namespace RangeMap

universe u v

variable {U : Type u} {V : Type v} [LinearOrder U] {m : RangeMap U V} {r : Range U}

/-! ## Vacant ranges -/

/-- After the last node starting below `p`, nothing starting below `max p end`
reaches past it. -/
theorem clearBelow_max_of_lastLT {p k : U} {node : Node U V} (wf : m.WellFormed)
    (last : m.nodes.lastLT p = some (k, node)) : m.ClearBelow (max p node.stop) := by
  obtain ⟨member, keyBelow, _⟩ := OrdMap.lastLT_eq_some_iff.mp last
  intro e memberE below
  by_cases sameKey : e.1 = k
  · rw [OrdMap.eq_of_key_eq memberE member sameKey]
    exact le_max_right _ _
  by_cases beforeP : e.1 < p
  · have gap := stop_le_of_lastLT wf last memberE beforeP sameKey
    have nonempty := (wellFormed_iff.mp wf).1 _ member
    exact gap.trans (nonempty.le.trans (le_max_right _ _))
  · -- a node starting in `[p, end)` would start inside the last node's range
    have inside : e.1 < node.stop := by
      rcases lt_max_iff.mp below with belowP | belowStop
      · exact absurd belowP beforeP
      · exact belowStop
    have gap := (wellFormed_iff.mp wf).2 _ member e memberE
      (keyBelow.trans_le (not_lt.mp beforeP))
    exact absurd inside (not_lt.mpr gap)

/-- With no node starting below `p`, nothing below `p` reaches past it. -/
theorem clearBelow_of_lastLT_eq_none {p : U} (last : m.nodes.lastLT p = none) :
    m.ClearBelow p := fun e member below =>
  absurd below (not_lt.mpr (OrdMap.lastLT_eq_none_iff.mp last e member))

/-- When nothing below the start of a range reaches into it, the range is
vacant exactly when no node starts inside it. -/
theorem vacant_iff_of_clearBelow (wf : m.WellFormed) (clear : m.ClearBelow r.start) :
    m.Vacant r ↔ ∀ e ∈ m.nodes.entries, ¬ (r.start ≤ e.1 ∧ e.1 < r.stop) := by
  constructor
  · rintro vacant e member ⟨atLeast, below⟩
    have nonempty := (wellFormed_iff.mp wf).1 e member
    rcases vacant e member with gap | beyond
    · exact absurd (atLeast.trans_lt nonempty) (not_lt.mpr gap)
    · exact absurd below (not_lt.mpr beyond)
  · intro outside e member
    by_cases below : e.1 < r.start
    · exact .inl (clear e member below)
    · exact .inr (not_lt.mp fun inside => outside e member ⟨not_lt.mp below, inside⟩)

/-- `range_is_free` of a nonempty range answers whether the range is vacant. -/
theorem rangeIsFree_eq_ok_iff (wf : m.WellFormed) (nonempty : r.start < r.stop) :
    m.rangeIsFree r = .ok () ↔ m.Vacant r := by
  have inside : ((m.nodes.rangeIn r.start r.stop).isEmpty = true) ↔
      ∀ e ∈ m.nodes.entries, ¬ (r.start ≤ e.1 ∧ e.1 < r.stop) := by
    simp [List.isEmpty_iff, List.eq_nil_iff_forall_not_mem]
  have noneInside : ∀ b : Bool,
      ((if b = true then .ok () else .error ()) : Except Unit Unit) = .ok () ↔ b = true := by
    intro b
    cases b <;> simp
  unfold rangeIsFree
  rw [if_neg (not_le.mpr nonempty)]
  dsimp only
  cases last : m.nodes.lastLT r.start with
  | none =>
      rw [vacant_iff_of_clearBelow wf (clearBelow_of_lastLT_eq_none last), noneInside, inside]
  | some e =>
      obtain ⟨k, node⟩ := e
      dsimp only
      by_cases reaches : r.start < node.stop
      · rw [if_pos reaches]
        obtain ⟨member, keyBelow, _⟩ := OrdMap.lastLT_eq_some_iff.mp last
        refine ⟨fun refused => (nomatch refused), fun vacant => ?_⟩
        rcases vacant _ member with gap | beyond
        · exact absurd reaches (not_lt.mpr gap)
        · exact absurd (keyBelow.trans nonempty) (not_lt.mpr beyond)
      · rw [if_neg reaches]
        have clear := clearBelow_max_of_lastLT wf last
        rw [max_eq_left (not_lt.mp reaches)] at clear
        rw [vacant_iff_of_clearBelow wf clear, noneInside, inside]

/-- The two overlap tests agree: on a well-formed map `try_insert` of a nonempty
range succeeds exactly when `range_is_free` says the range is free, and then
adds exactly the node of the range; otherwise it hands the value back and
leaves the map as it was.  It never panics. -/
theorem tryInsert_agrees_with_rangeIsFree (wf : m.WellFormed) (nonempty : r.start < r.stop)
    (value : V) :
    (m.rangeIsFree r = .ok () → ∃ m', m.tryInsert r value = some (.ok m') ∧
      ∀ e, e ∈ m'.nodes.entries ↔ e ∈ m.nodes.entries ∨ e = (r.start, ⟨r.stop, value⟩)) ∧
    (m.rangeIsFree r ≠ .ok () → m.tryInsert r value = some (.error value)) := by
  have free := rangeIsFree_eq_ok_iff wf nonempty
  refine ⟨fun isFree => ?_, fun notFree => tryInsert_eq_error_of_not_vacant wf (mt free.mpr notFree)⟩
  have vacant := free.mp isFree
  refine ⟨_, tryInsert_eq_ok_of_vacant wf nonempty vacant, fun e => ?_⟩
  -- the range is vacant, so no node starts at its start and the insertion adds one entry
  rw [OrdMap.mem_entries_insert]
  constructor
  · rintro (rfl | ⟨old, _⟩)
    · exact .inr rfl
    · exact .inl old
  · rintro (old | rfl)
    · exact .inr ⟨old, key_ne_of_disjoint wf old nonempty (vacant e old)⟩
    · exact .inl rfl

/-- The agreement at the map `[0, 2) -> 7, [3, 5) -> 8` and the gap `[2, 3)`. -/
theorem tryInsert_agrees_with_rangeIsFree_at_gap :
    sampleMap.WellFormed ∧ (⟨2, 3⟩ : Range Nat).start < (⟨2, 3⟩ : Range Nat).stop ∧
    (sampleMap.rangeIsFree ⟨2, 3⟩ = .ok () → ∃ m', sampleMap.tryInsert ⟨2, 3⟩ 9 = some (.ok m') ∧
      ∀ e, e ∈ m'.nodes.entries ↔ e ∈ sampleMap.nodes.entries ∨ e = (2, ⟨3, 9⟩)) ∧
    (sampleMap.rangeIsFree ⟨2, 3⟩ ≠ .ok () →
      sampleMap.tryInsert ⟨2, 3⟩ 9 = some (.error 9)) :=
  have wf : sampleMap.WellFormed := by decide
  have nonempty : (⟨2, 3⟩ : Range Nat).start < (⟨2, 3⟩ : Range Nat).stop := by decide
  ⟨wf, nonempty, tryInsert_agrees_with_rangeIsFree wf nonempty 9⟩

/-! ## The search loop -/

section Search

variable {offset : U → Nat → U} {n : Nat}

/-- For an offset that grows, the loop of `find_free_range` never stops early:
it fails when some node's shifted end passes the window, and otherwise returns
the end of the last node it visits. -/
theorem findFreeLoop_eq_of_grows (grows : ∀ a, a ≤ offset a n) (stop start : U)
    (l : List (U × Node U V)) (nonempty : ∀ e ∈ l, e.1 < e.2.stop) :
    findFreeLoop offset n stop start l =
      if l.any fun e => decide (stop < offset e.2.stop n) then none
      else some ((l.getLast?.map fun e => e.2.stop).getD start) := by
  induction l generalizing start with
  | nil => rfl
  | cons e rest ih =>
      obtain ⟨nStart, node⟩ := e
      have restNonempty := fun e member => nonempty e (List.mem_cons_of_mem _ member)
      -- the shifted end of a node lies past its start
      have noBreak : ¬ offset node.stop n ≤ nStart := fun le =>
        absurd ((nonempty _ List.mem_cons_self).trans_le (grows _)) (not_lt.mpr le)
      by_cases passes : stop < offset node.stop n
      · simp [findFreeLoop, passes]
      · have passesFalse : decide (stop < offset node.stop n) = false := decide_eq_false passes
        simp only [findFreeLoop, if_neg passes, if_neg noBreak, ih node.stop restNonempty,
          List.any_cons, passesFalse, Bool.false_or, List.getLast?_cons]
        cases rest.getLast? <;> rfl

/-- What the search does guarantee for a growing offset: the range it returns
starts at or after the window's start and meets no node, provided it ends
inside the window. -/
theorem vacant_of_findFreeLoop (wf : m.WellFormed) (grows : ∀ a, a ≤ offset a n)
    {stop start s : U} (clear : m.ClearBelow start)
    (loop : findFreeLoop offset n stop start (m.nodes.rangeIn start stop) = some s)
    (within : offset s n ≤ stop) :
    start ≤ s ∧ m.Vacant ⟨s, offset s n⟩ := by
  have nonempty := (wellFormed_iff.mp wf).1
  have windowNonempty : ∀ e ∈ m.nodes.rangeIn start stop, e.1 < e.2.stop :=
    fun e member => nonempty e (OrdMap.mem_rangeIn.mp member).1
  rw [findFreeLoop_eq_of_grows grows stop start _ windowNonempty] at loop
  split_ifs at loop
  rw [Option.some.injEq] at loop
  subst loop
  cases last : (m.nodes.rangeIn start stop).getLast? with
  | none =>
      -- no node starts in the window, so nothing starts in `[start, offset start n)`
      simp only [last, Option.map_none, Option.getD_none] at within ⊢
      refine ⟨le_rfl, (vacant_iff_of_clearBelow wf clear).mpr ?_⟩
      rintro e member ⟨atLeast, below⟩
      have inWindow : e ∈ m.nodes.rangeIn start stop :=
        OrdMap.mem_rangeIn.mpr ⟨member, atLeast, below.trans_le within⟩
      rw [List.getLast?_eq_none_iff.mp last] at inWindow
      cases inWindow
  | some l =>
      simp only [last, Option.map_some, Option.getD_some] at within ⊢
      obtain ⟨lastMember, greatest⟩ :=
        (OrdMap.getLast?_eq_some_iff_of_pairwise (m.nodes.sorted.filter _)).mp last
      obtain ⟨member, atLeast, _⟩ := OrdMap.mem_rangeIn.mp lastMember
      have lastNonempty := nonempty l member
      have stopWithin : l.2.stop < stop ∨ l.2.stop = stop :=
        lt_or_eq_of_le ((grows _).trans within)
      -- every node starting in the window starts at or before the last one
      have inWindow : ∀ e ∈ m.nodes.entries, start ≤ e.1 → e.1 < offset l.2.stop n →
          e.1 ≤ l.1 := fun e memberE atLeastE below =>
        greatest e (OrdMap.mem_rangeIn.mpr ⟨memberE, atLeastE, below.trans_le within⟩)
      refine ⟨atLeast.trans lastNonempty.le, (vacant_iff_of_clearBelow wf ?_).mpr ?_⟩
      · intro e memberE below
        by_cases beforeStart : e.1 < start
        · exact (clear e memberE beforeStart).trans (atLeast.trans lastNonempty.le)
        have atMost := inWindow e memberE (not_lt.mp beforeStart)
          (below.trans_le (grows _))
        rcases lt_or_eq_of_le atMost with earlier | same
        · exact ((wellFormed_iff.mp wf).2 e memberE l member earlier).trans lastNonempty.le
        · rw [OrdMap.eq_of_key_eq memberE member same]
      · rintro e memberE ⟨atLeastE, below⟩
        have atMost := inWindow e memberE (atLeast.trans (lastNonempty.le.trans atLeastE)) below
        exact absurd (lastNonempty.trans_le atLeastE) (not_lt.mpr atMost)

/-- `find_free_range` with a growing offset: when the range it returns ends
inside the window, the range is vacant and starts in the window. -/
theorem findFreeRange_vacant_of_within (wf : m.WellFormed) (grows : ∀ a, a ≤ offset a n)
    {q : Range U} (found : m.findFreeRange r n offset = some (some q))
    (within : q.stop ≤ r.stop) :
    r.start ≤ q.start ∧ q.stop = offset q.start n ∧ m.Vacant q := by
  unfold findFreeRange at found
  by_cases tooLong : r.stop < offset r.start n
  · simp [tooLong] at found
  rw [if_neg tooLong] at found
  dsimp only at found
  -- past the move of the start, which only depends on the start being clear below
  have searched : ∀ start, r.start ≤ start → m.ClearBelow start →
      (if r.stop < start then none else some ((findFreeLoop offset n r.stop start
        (m.nodes.rangeIn start r.stop)).map fun s => ⟨s, offset s n⟩)) = some (some q) →
      r.start ≤ q.start ∧ q.stop = offset q.start n ∧ m.Vacant q := by
    intro start atLeast clear result
    by_cases beyond : r.stop < start
    · simp [beyond] at result
    rw [if_neg beyond] at result
    obtain ⟨s, loop, rfl⟩ := Option.map_eq_some_iff.mp (Option.some.inj result)
    obtain ⟨startLe, vacant⟩ := vacant_of_findFreeLoop wf grows clear loop within
    exact ⟨atLeast.trans startLe, rfl, vacant⟩
  -- the start is moved past the node straddling the window's start, if any
  cases last : m.nodes.lastLT r.start with
  | none =>
      simp only [last] at found
      exact searched _ le_rfl (clearBelow_of_lastLT_eq_none last) found
  | some e =>
      obtain ⟨k, node⟩ := e
      simp only [last] at found
      exact searched _ (le_max_left _ _) (clearBelow_max_of_lastLT wf last) found

end Search

end RangeMap

/-- The handlers of an address space, keyed by page (`HandlerManager`, whose
`map` holds a `Box<dyn UserAreaHandler>` for each mapped range). -/
structure HandlerManager (H : Type) where
  /-- The source's `map`. -/
  map : RangeMap Nat H

namespace HandlerManager

variable {H : Type}

/-- `HandlerManager::find_free_range`, which `MapSegment::find_free_range` calls:
the map's search with the offset `a.add_page(n)`. -/
def findFreeRange (hm : HandlerManager H) (r : Range Nat) (n : Nat) :
    Option (Option (Range Nat)) :=
  hm.map.findFreeRange r n addPage

/-- A mapping `[0x2FF_FFFF, 0x37F_FFFE)` straddling the start of the mmap search
window, which is `[0x300_0000, 0x380_0000)` in pages, and the KRX page
`0x3FF_FFF4`. -/
def straddled : HandlerManager Unit :=
  ⟨⟨⟨[(0x2FF_FFFF, ⟨0x37F_FFFE, ()⟩), (0x3FF_FFF4, ⟨0x3FF_FFF5, ()⟩)], by decide⟩⟩⟩

/-- Past a mapping that straddles the window's start the search trusts the
`debug_assert!` and returns a range reaching past the window, here over the
KRX page. -/
theorem findFreeRange_leaves_search_window :
    straddled.map.WellFormed ∧
      straddled.findFreeRange ⟨0x300_0000, 0x380_0000⟩ 0x80_0000 =
        some (some ⟨0x37F_FFFE, 0x3FF_FFFE⟩) ∧
      ¬ straddled.map.Vacant ⟨0x37F_FFFE, 0x3FF_FFFE⟩ := by
  refine ⟨by decide, rfl, ?_⟩
  intro vacant
  have krx := vacant (0x3FF_FFF4, ⟨0x3FF_FFF5, ()⟩) (by decide)
  simp at krx

/-- Mappings `[0, 1)`, `[10, 11)` and `[18, 19)`. -/
def gapped : HandlerManager Unit :=
  ⟨⟨⟨[(0, ⟨1, ()⟩), (10, ⟨11, ()⟩), (18, ⟨19, ()⟩)], by decide⟩⟩⟩

/-- The search is not first fit: in the window `[0, 18)` it returns `[11, 13)`
although `[1, 3)` is free, and in the window `[0, 20)` it finds nothing
although `[1, 3)` is free. -/
theorem findFreeRange_misses_first_fit :
    gapped.map.WellFormed ∧ gapped.map.Vacant ⟨1, 3⟩ ∧
      gapped.findFreeRange ⟨0, 18⟩ 2 = some (some ⟨11, 13⟩) ∧
      gapped.findFreeRange ⟨0, 20⟩ 2 = some none := by
  refine ⟨by decide, ?_, rfl, rfl⟩
  intro e member
  simp only [gapped] at member
  rcases List.mem_cons.mp member with rfl | member
  · exact .inl le_rfl
  rcases List.mem_cons.mp member with rfl | member
  · exact .inr (by decide)
  rcases List.mem_singleton.mp member with rfl
  exact .inr (by decide)

end HandlerManager
end FtlOs
