import FtlOs.Kernel.RangeMap.Invariant

/-!
# Every `RangeMap` operation keeps the invariant

For each mutating method of `RangeMap` the kernel uses, this module proves
that on a well-formed map the method does not panic and leaves a well-formed
map.  Removal is proved phase by phase: the cut at `start`, the cut at `end`
and the loop draining the nodes that start inside the range; together they
leave the range vacant, which is what `replace` needs to insert into it.
-/

namespace FtlOs
namespace RangeMap

universe u v

variable {U : Type u} {V : Type v} [LinearOrder U] {m : RangeMap U V}

/-- The range `r` meets no node of the map. -/
def Vacant (m : RangeMap U V) (r : Range U) : Prop :=
  ∀ e ∈ m.nodes.entries, e.2.stop ≤ r.start ∨ r.stop ≤ e.1

/-- No node starting below `p` reaches past `p`. -/
def ClearBelow (m : RangeMap U V) (p : U) : Prop :=
  ∀ e ∈ m.nodes.entries, e.1 < p → e.2.stop ≤ p

/-! ## Insertion -/

/-- `try_insert` of a vacant nonempty range inserts exactly its node. -/
theorem tryInsert_eq_ok_of_vacant {r : Range U} {value : V} (wf : m.WellFormed)
    (nonempty : r.start < r.stop) (vacant : m.Vacant r) :
    m.tryInsert r value = some (.ok ⟨m.nodes.insert r.start ⟨r.stop, value⟩⟩) := by
  have inserted := tryInsert_isSome_of_disjoint value wf nonempty vacant
  unfold tryInsert
  split
  · next k node last =>
      obtain ⟨member, below, _⟩ := OrdMap.lastLT_eq_some_iff.mp last
      have gap : node.stop ≤ r.start := by
        rcases vacant (k, node) member with gap | beyond
        · exact gap
        · exact absurd below (not_lt.mpr beyond)
      rw [if_neg (not_lt.mpr gap), inserted]
      rfl
  · rw [inserted]
    rfl

/-- `try_insert` of a range that meets a node refuses it. -/
theorem tryInsert_eq_error_of_not_vacant {r : Range U} {value : V} (wf : m.WellFormed)
    (occupied : ¬ m.Vacant r) : m.tryInsert r value = some (.error value) := by
  simp only [Vacant, not_forall, not_or, not_le] at occupied
  obtain ⟨e, member, startBelow, stopAbove⟩ := occupied
  have below : e.1 < r.stop := stopAbove
  unfold tryInsert
  split
  · next k node last =>
      by_cases sameKey : e.1 = k
      · have : e = (k, node) :=
          OrdMap.eq_of_key_eq member (OrdMap.lastLT_eq_some_iff.mp last).1 sameKey
        subst this
        rw [if_pos startBelow]
      · have := stop_le_of_lastLT wf last member below sameKey
        have lastMember := (OrdMap.lastLT_eq_some_iff.mp last).1
        have nonempty := (wellFormed_iff.mp wf).1 (k, node) lastMember
        rw [if_pos (startBelow.trans_le (this.trans nonempty.le))]
  · next none =>
      have := OrdMap.lastLT_eq_none_iff.mp none e member
      exact absurd below (not_lt.mpr this)

theorem tryInsert_wellFormed {r : Range U} {value : V} (wf : m.WellFormed)
    (nonempty : r.start < r.stop) :
    ∃ result, m.tryInsert r value = some result ∧
      ∀ m', result = .ok m' → m'.WellFormed := by
  by_cases vacant : m.Vacant r
  · refine ⟨_, tryInsert_eq_ok_of_vacant wf nonempty vacant, ?_⟩
    rintro m' ⟨⟩
    exact wf.insert_of_disjoint nonempty vacant
  · exact ⟨_, tryInsert_eq_error_of_not_vacant wf vacant, by rintro m' ⟨⟩⟩

/-! ## Removal, phase by phase -/

section Remove

variable {r : Range U} (splitL splitR : Split U V)

/-- The cut at `start` does not panic, keeps the invariant and leaves no node
starting below `start` reaching past it. -/
theorem removeLeft_spec (wf : m.WellFormed) (nonempty : r.start < r.stop) :
    ∃ m1 released, m.removeLeft r splitR = some (m1, released) ∧
      m1.WellFormed ∧ m1.ClearBelow r.start := by
  have separated := (wellFormed_iff.mp wf).2
  unfold removeLeft
  split
  · next none =>
      refine ⟨m, [], rfl, wf, ?_⟩
      intro e member below
      exact absurd below (not_lt.mpr (OrdMap.lastLT_eq_none_iff.mp none e member))
  · next nStart node last =>
      obtain ⟨member, keyBelow, greatest⟩ := OrdMap.lastLT_eq_some_iff.mp last
      -- every other node starting below `start` ends before `nStart`
      have earlier : ∀ e ∈ m.nodes.entries, e.1 < r.start → e.1 ≠ nStart →
          e.2.stop ≤ r.start := fun e memberE below otherKey =>
        (stop_le_of_lastLT wf last memberE below otherKey).trans keyBelow.le
      split_ifs with reaches beyondStop
      · generalize splitR node.value r.start ⟨nStart, node.stop⟩ = firstCut
        obtain ⟨left, vM⟩ := firstCut
        dsimp only
        generalize splitR vM r.stop ⟨r.start, node.stop⟩ = secondCut
        obtain ⟨vM', vR⟩ := secondCut
        obtain ⟨inserted, wfCut⟩ := cut_wellFormed left vR
          wf member keyBelow nonempty.le beyondStop
        refine ⟨_, [(vM', r)], ?_, wfCut, ?_⟩
        · dsimp only
          rw [inserted]
          rfl
        intro e memberE below
        rcases OrdMap.mem_entries_insert.mp memberE with rfl | ⟨memberCut, _⟩
        · exact absurd below (not_lt.mpr nonempty.le)
        · rcases OrdMap.mem_entries_modify.mp memberCut with ⟨w, _, rfl⟩ | ⟨old, otherKey⟩
          · exact le_rfl
          · exact earlier e old below otherKey
      · have room : ∀ e ∈ m.nodes.entries, nStart < e.1 → r.start ≤ e.1 :=
          fun e memberE keyLt => not_lt.mp fun below =>
            absurd (greatest e memberE below) (not_le.mpr keyLt)
        generalize splitR node.value r.start ⟨nStart, node.stop⟩ = firstCut
        obtain ⟨left, vM⟩ := firstCut
        refine ⟨_, _, rfl, wf.modify_of_room member keyBelow room, ?_⟩
        intro e memberE below
        rcases OrdMap.mem_entries_modify.mp memberE with ⟨w, _, rfl⟩ | ⟨old, otherKey⟩
        · exact le_rfl
        · exact earlier e old below otherKey
      · refine ⟨m, [], rfl, wf, ?_⟩
        intro e memberE below
        by_cases sameKey : e.1 = nStart
        · rw [OrdMap.eq_of_key_eq memberE member sameKey]
          exact not_lt.mp reaches
        · exact earlier e memberE below sameKey

/-- The cut at `end` when no node straddles `end` changes nothing. -/
theorem removeRight_eq_of_none
    (none : ∀ e ∈ m.nodes.entries, ¬ (e.1 < r.stop ∧ r.stop < e.2.stop)) :
    m.removeRight r splitL = some (m, []) := by
  unfold removeRight
  cases last : m.nodes.lastLT r.stop with
  | none => rfl
  | some e =>
      obtain ⟨nStart, node⟩ := e
      obtain ⟨member, keyBelow, _⟩ := OrdMap.lastLT_eq_some_iff.mp last
      have short : ¬ r.stop < node.stop := fun beyond => none _ member ⟨keyBelow, beyond⟩
      simp only [if_neg short]

/-- The cut at `end` when a node straddles it: the node moves to key `end` with
the value the split leaves it, the map stays well-formed, and the node's part
before `end` is released. -/
theorem removeRight_eq_of_straddles {nStart : U} {node : Node U V} (wf : m.WellFormed)
    (member : (nStart, node) ∈ m.nodes.entries) (keyBelow : nStart < r.stop)
    (beyond : r.stop < node.stop) :
    m.removeRight r splitL = some (⟨(m.nodes.erase nStart).insert r.stop
        ⟨node.stop, (splitL node.value r.stop ⟨nStart, node.stop⟩).1⟩⟩,
        [((splitL node.value r.stop ⟨nStart, node.stop⟩).2, ⟨nStart, r.stop⟩)]) ∧
      (⟨(m.nodes.erase nStart).insert r.stop
        ⟨node.stop, (splitL node.value r.stop ⟨nStart, node.stop⟩).1⟩⟩ : RangeMap U V).WellFormed := by
  have separated := (wellFormed_iff.mp wf).2
  have erased : (⟨m.nodes.erase nStart⟩ : RangeMap U V).WellFormed :=
    wf.of_subset fun e memberE => (OrdMap.mem_entries_erase.mp memberE).1
  -- the other nodes end before the straddling node's start or start after its end
  have vacant : ∀ e ∈ (m.nodes.erase nStart).entries,
      e.2.stop ≤ r.stop ∨ node.stop ≤ e.1 := by
    intro e memberE
    obtain ⟨old, otherKey⟩ := OrdMap.mem_entries_erase.mp memberE
    rcases lt_or_gt_of_ne otherKey with below | above
    · exact .inl ((separated e old (nStart, node) member below).trans keyBelow.le)
    · exact .inr (separated (nStart, node) member e old above)
  refine ⟨?_, erased.insert_of_disjoint beyond vacant⟩
  unfold removeRight
  rw [lastLT_eq_of_interior wf member keyBelow beyond]
  dsimp only
  rw [if_pos beyond]
  generalize splitL node.value r.stop ⟨nStart, node.stop⟩ = cut
  obtain ⟨right, leftPart⟩ := cut
  dsimp only
  rw [OrdMap.remove_modify_self member]
  simp only [OrdMap.erase_modify_self, Option.bind_eq_bind, Option.bind_some]
  rw [tryInsert_isSome_of_disjoint right erased beyond vacant]
  rfl

/-- The cut at `end`, after the cut at `start`, does not panic, keeps the
invariant and keeps every node below `start` clear of `start`. -/
theorem removeRight_spec (wf : m.WellFormed) (nonempty : r.start < r.stop)
    (clear : m.ClearBelow r.start) :
    ∃ m2 released, m.removeRight r splitL = some (m2, released) ∧
      m2.WellFormed ∧ m2.ClearBelow r.start := by
  by_cases straddled : ∃ e ∈ m.nodes.entries, e.1 < r.stop ∧ r.stop < e.2.stop
  · obtain ⟨⟨nStart, node⟩, member, keyBelow, beyond⟩ := straddled
    obtain ⟨removed, wfMoved⟩ := removeRight_eq_of_straddles splitL wf member keyBelow beyond
    refine ⟨_, _, removed, wfMoved, ?_⟩
    -- the moved node starts at `end`, past `start`
    intro e memberE below
    rcases OrdMap.mem_entries_insert.mp memberE with rfl | ⟨old, _⟩
    · exact absurd below (not_lt.mpr nonempty.le)
    · exact clear e (OrdMap.mem_entries_erase.mp old).1 below
  · exact ⟨m, [], removeRight_eq_of_none splitL fun e member s => straddled ⟨e, member, s⟩,
      wf, clear⟩

/-- The draining loop of `remove` does not panic, keeps a subset of the nodes
and leaves no node starting inside `[start, end)`. -/
theorem removeInner_spec (r : Range U) (nodes : OrdMap U (Node U V)) :
    ∃ drained released, removeInner r nodes = some (drained, released) ∧
      (∀ e ∈ drained.entries, e ∈ nodes.entries) ∧
      ∀ e ∈ drained.entries, ¬ (r.start ≤ e.1 ∧ e.1 < r.stop) := by
  fun_induction removeInner r nodes with
  | case1 nodes noneInside =>
      refine ⟨nodes, [], rfl, fun e member => member, ?_⟩
      intro e member inside
      have : e ∈ nodes.rangeIn r.start r.stop := OrdMap.mem_rangeIn.mpr ⟨member, inside⟩
      rw [List.head?_eq_none_iff.mp noneInside] at this
      cases this
  | case2 nodes nStart x first absent =>
      have member := OrdMap.mem_rangeIn.mp (List.mem_of_head? first)
      rw [OrdMap.remove, Option.map_eq_none_iff, OrdMap.get?_eq_none_iff] at absent
      exact absurd member.1 (absent x)
  | case3 nodes nStart x first node rest found ih =>
      obtain ⟨drained, released, loop, subset, outside⟩ := ih
      obtain ⟨_, rfl⟩ := OrdMap.remove_eq_some_iff.mp found
      refine ⟨drained, _, by rw [loop]; rfl, ?_, outside⟩
      exact fun e member => (OrdMap.mem_entries_erase.mp (subset e member)).1

/-- `remove` of a nonempty range does not panic, keeps the invariant and leaves
the range vacant. -/
theorem remove_spec (wf : m.WellFormed) (nonempty : r.start < r.stop) :
    ∃ m' released, m.remove r splitL splitR = some (m', released) ∧
      m'.WellFormed ∧ m'.Vacant r := by
  obtain ⟨m1, released1, left, wf1, clear1⟩ := removeLeft_spec splitR wf nonempty
  obtain ⟨m2, released2, right, wf2, clear2⟩ :=
    removeRight_spec splitL wf1 nonempty clear1
  obtain ⟨drained, released3, loop, subset, outside⟩ := removeInner_spec r m2.nodes
  refine ⟨⟨drained⟩, released1 ++ released2 ++ released3, ?_, wf2.of_subset subset, ?_⟩
  · unfold remove
    rw [if_neg (not_le.mpr nonempty)]
    simp only [left, right, loop, Option.bind_eq_bind, Option.bind_some]
    rfl
  · intro e member
    by_cases below : e.1 < r.start
    · exact .inl (clear2 e (subset e member) below)
    · exact .inr (not_lt.mp fun inside => outside e member ⟨not_lt.mp below, inside⟩)

/-- `remove` of an empty or inverted range changes nothing. -/
theorem remove_of_stop_le (empty : r.stop ≤ r.start) :
    m.remove r splitL splitR = some (m, []) := by
  simp [remove, empty]

theorem remove_wellFormed (wf : m.WellFormed) :
    ∃ m' released, m.remove r splitL splitR = some (m', released) ∧ m'.WellFormed := by
  by_cases nonempty : r.start < r.stop
  · obtain ⟨m', released, removed, wf', _⟩ := remove_spec splitL splitR wf nonempty
    exact ⟨m', released, removed, wf'⟩
  · exact ⟨m, [], remove_of_stop_le splitL splitR (not_lt.mp nonempty), wf⟩

theorem replace_wellFormed {value : V} (wf : m.WellFormed) (nonempty : r.start < r.stop) :
    ∃ m' released, m.replace r value splitL splitR = some (m', released) ∧ m'.WellFormed := by
  obtain ⟨m', released, removed, wf', vacant⟩ := remove_spec splitL splitR wf nonempty
  refine ⟨⟨m'.nodes.insert r.start ⟨r.stop, value⟩⟩, released, ?_,
    wf'.insert_of_disjoint nonempty vacant⟩
  unfold replace
  simp only [removed, Option.bind_eq_bind, Option.bind_some]
  rw [tryInsert_isSome_of_disjoint value wf' nonempty vacant]
  rfl

end Remove

/-! ## Splitting, draining and forking -/

section Split

variable {p : U} (splitR : Split U V)

theorem splitAtMaybe_wellFormed (wf : m.WellFormed) :
    ∃ m', m.splitAtMaybe p splitR = some m' ∧ m'.WellFormed := by
  unfold splitAtMaybe
  split
  · exact ⟨m, rfl, wf⟩
  · next start node last =>
      obtain ⟨member, keyBelow, _⟩ := OrdMap.lastLT_eq_some_iff.mp last
      split_ifs with ends
      · exact ⟨m, rfl, wf⟩
      · generalize splitR node.value p ⟨start, node.stop⟩ = parts
        obtain ⟨left, right⟩ := parts
        obtain ⟨inserted, wfCut⟩ :=
          cut_wellFormed left right wf member keyBelow le_rfl (lt_of_not_ge ends)
        refine ⟨_, ?_, wfCut⟩
        dsimp only
        rw [inserted]
        rfl

theorem splitAt_wellFormed (wf : m.WellFormed)
    (inside : ∃ e ∈ m.nodes.entries, e.1 < p ∧ p < e.2.stop) :
    ∃ m', m.splitAt p splitR = some m' ∧ m'.WellFormed := by
  obtain ⟨⟨s, n⟩, member, afterStart, beforeStop⟩ := inside
  have last := lastLT_eq_of_interior wf member afterStart beforeStop
  unfold splitAt
  simp only [last, Option.bind_eq_bind, Option.bind_some]
  generalize splitR n.value p ⟨s, n.stop⟩ = parts
  obtain ⟨left, right⟩ := parts
  obtain ⟨inserted, wfCut⟩ := cut_wellFormed left right wf member afterStart le_rfl beforeStop
  refine ⟨_, ?_, wfCut⟩
  dsimp only
  rw [inserted]
  rfl

theorem splitAtRun_wellFormed (lRun rRun : V → Range U → V) (wf : m.WellFormed)
    (inside : ∃ e ∈ m.nodes.entries, e.1 < p ∧ p < e.2.stop) :
    ∃ m', m.splitAtRun p splitR lRun rRun = some m' ∧ m'.WellFormed := by
  obtain ⟨⟨s, n⟩, member, afterStart, beforeStop⟩ := inside
  have last := lastLT_eq_of_interior wf member afterStart beforeStop
  unfold splitAtRun
  simp only [last, Option.bind_eq_bind, Option.bind_some]
  generalize splitR n.value p ⟨s, n.stop⟩ = parts
  obtain ⟨left, right⟩ := parts
  obtain ⟨inserted, wfCut⟩ := cut_wellFormed (lRun left ⟨s, p⟩) (rRun right ⟨p, n.stop⟩)
    wf member afterStart le_rfl beforeStop
  refine ⟨_, ?_, wfCut⟩
  dsimp only
  rw [inserted]
  rfl

end Split

theorem clearIf_wellFormed (condition : V → Range U → Bool) (wf : m.WellFormed) :
    (m.clearIf condition).1.WellFormed :=
  wf.of_subset fun _ member => (OrdMap.mem_entries_filter.mp member).1

/-- Inserting entries in increasing key order into a map whose keys all lie
below them appends every entry. -/
theorem foldlM_tryInsert_eq (f : V → V) :
    ∀ (l : List (U × Node U V)) (acc : OrdMap U (Node U V)),
      (l.Pairwise fun a b => a.1 < b.1) → (∀ a ∈ acc.entries, ∀ e ∈ l, a.1 < e.1) →
      ∃ out, l.foldlM (fun (acc : OrdMap U (Node U V)) e =>
          acc.tryInsert e.1 ⟨e.2.stop, f e.2.value⟩) acc = some out ∧
        out.entries = acc.entries ++ l.map fun e => (e.1, ⟨e.2.stop, f e.2.value⟩)
  | [], acc, _, _ => ⟨acc, rfl, by simp⟩
  | e :: rest, acc, sorted, below => by
      have absent : ∀ w, (e.1, w) ∉ acc.entries := fun w member =>
        lt_irrefl _ (below _ member e List.mem_cons_self)
      have inserted := OrdMap.tryInsert_eq_some_iff.mpr
        ⟨absent, (rfl : acc.insert e.1 ⟨e.2.stop, f e.2.value⟩ = _)⟩
      have appended : (acc.insert e.1 ⟨e.2.stop, f e.2.value⟩).entries =
          acc.entries ++ [(e.1, ⟨e.2.stop, f e.2.value⟩)] :=
        OrdMap.insertEntries_of_forall_lt fun a member => below a member e List.mem_cons_self
      obtain ⟨out, folded, outEntries⟩ := foldlM_tryInsert_eq f rest _
        (List.pairwise_cons.mp sorted).2 (by
          intro a member e' member'
          rw [appended] at member
          rcases List.mem_append.mp member with old | new
          · exact below a old e' (List.mem_cons_of_mem e member')
          · rw [List.mem_singleton.mp new]
            exact (List.pairwise_cons.mp sorted).1 e' member')
      refine ⟨out, ?_, ?_⟩
      · rw [List.foldlM_cons, inserted]
        exact folded
      · rw [outEntries, appended]
        simp

theorem fork_wellFormed (f : V → V) (wf : m.WellFormed) :
    ∃ m', m.fork f = some m' ∧ m'.WellFormed := by
  obtain ⟨out, folded, outEntries⟩ :=
    foldlM_tryInsert_eq f m.nodes.entries OrdMap.empty m.nodes.sorted (by simp)
  refine ⟨⟨out⟩, by simp [fork, folded], ?_⟩
  obtain ⟨nonempty, chain⟩ := wf
  refine ⟨?_, ?_⟩
  · intro e member
    simp only [outEntries, OrdMap.entries_empty, List.nil_append, List.mem_map] at member
    obtain ⟨d, dMember, rfl⟩ := member
    exact nonempty d dMember
  · simp only [outEntries, OrdMap.entries_empty, List.nil_append]
    exact (List.isChain_map _).mpr chain

/-! ## Merging -/

section Merge

variable {r : Range U} (f : V → V → Bool)

/-- The first step of `merge` does not panic, keeps the invariant and leaves
the merged node at `start`. -/
theorem mergeNext_spec {cur : Node U V} (wf : m.WellFormed)
    (member : (r.start, cur) ∈ m.nodes.entries) (curStop : cur.stop = r.stop) :
    ∃ nodes cur', m.mergeNext r cur f = some (nodes, cur') ∧
      (⟨nodes⟩ : RangeMap U V).WellFormed ∧ (r.start, cur') ∈ nodes.entries := by
  obtain ⟨nonempty, separated⟩ := wellFormed_iff.mp wf
  have startBelow : r.start < r.stop := curStop ▸ nonempty _ member
  unfold mergeNext
  split
  · next nxt found =>
      have nxtMember := OrdMap.get?_eq_some_iff.mp found
      split_ifs with allowed
      · -- drop the right neighbour, then stretch the node over its range
        have erasedWf : (⟨m.nodes.erase r.stop⟩ : RangeMap U V).WellFormed :=
          wf.of_subset fun e memberE => (OrdMap.mem_entries_erase.mp memberE).1
        have erasedMember : (r.start, cur) ∈ (m.nodes.erase r.stop).entries :=
          OrdMap.mem_entries_erase.mpr ⟨member, ne_of_lt startBelow⟩
        have stretched : (⟨(m.nodes.erase r.stop).modify r.start
            fun node => { node with stop := nxt.stop }⟩ : RangeMap U V).WellFormed := by
          apply erasedWf.modify_of_room erasedMember
          · exact startBelow.trans (nonempty _ nxtMember)
          · intro e memberE after
            obtain ⟨old, otherKey⟩ := OrdMap.mem_entries_erase.mp memberE
            have reachesStop : r.stop ≤ e.1 := curStop ▸ separated _ member e old after
            exact separated _ nxtMember e old (lt_of_le_of_ne reachesStop (Ne.symm otherKey))
        have removed : m.nodes.remove r.stop = some (nxt, m.nodes.erase r.stop) :=
          OrdMap.remove_eq_some_iff.mpr ⟨nxtMember, rfl⟩
        have updated := OrdMap.update_eq_some_iff.mpr ⟨⟨cur, erasedMember⟩,
          (rfl : (m.nodes.erase r.stop).modify r.start
            (fun node => { node with stop := nxt.stop }) = _)⟩
        refine ⟨_, _, ?_, stretched, OrdMap.mem_modify_self erasedMember⟩
        simp only [removed, updated, Option.bind_eq_bind, Option.bind_some]
        rfl
      · exact ⟨m.nodes, cur, rfl, wf, member⟩
  · exact ⟨m.nodes, cur, rfl, wf, member⟩

/-- The second step of `merge` does not panic and keeps the invariant. -/
theorem mergePrev_spec {nodes : OrdMap U (Node U V)} {start : U} {cur : Node U V}
    (wf : (⟨nodes⟩ : RangeMap U V).WellFormed) (member : (start, cur) ∈ nodes.entries) :
    ∃ m', mergePrev nodes start cur f = some m' ∧ m'.WellFormed := by
  obtain ⟨nonempty, separated⟩ := wellFormed_iff.mp wf
  unfold mergePrev
  split
  · next s n last =>
      obtain ⟨prevMember, prevBelow, greatest⟩ := OrdMap.lastLT_eq_some_iff.mp last
      split_ifs with adjacent
      · -- the left neighbour takes over the node's end, then the node goes
        have prevKey : s ≠ start := ne_of_lt prevBelow
        have updated := OrdMap.update_eq_some_iff.mpr ⟨⟨n, prevMember⟩,
          (rfl : nodes.modify s (fun node => { node with stop := cur.stop }) = _)⟩
        have startMember : (start, cur) ∈
            (nodes.modify s fun node => { node with stop := cur.stop }).entries :=
          OrdMap.mem_entries_modify.mpr (.inr ⟨member, prevKey.symm⟩)
        have removed := OrdMap.remove_eq_some_iff.mpr ⟨startMember, rfl⟩
        have erasedWf : (⟨nodes.erase start⟩ : RangeMap U V).WellFormed :=
          wf.of_subset fun e memberE => (OrdMap.mem_entries_erase.mp memberE).1
        have merged : (⟨(nodes.erase start).modify s
            fun node => { node with stop := cur.stop }⟩ : RangeMap U V).WellFormed := by
          apply erasedWf.modify_of_room (OrdMap.mem_entries_erase.mpr ⟨prevMember, prevKey⟩)
          · exact prevBelow.trans (nonempty _ member)
          · intro e memberE after
            obtain ⟨old, otherKey⟩ := OrdMap.mem_entries_erase.mp memberE
            have atLeast : start ≤ e.1 := not_lt.mp fun below =>
              absurd (greatest e old below) (not_le.mpr after)
            exact separated _ member e old (lt_of_le_of_ne atLeast (Ne.symm otherKey))
        refine ⟨_, ?_, merged⟩
        simp only [updated, removed, Option.bind_eq_bind, Option.bind_some]
        rw [OrdMap.erase_modify_comm prevKey]
        rfl
      · exact ⟨_, rfl, wf⟩
  · exact ⟨_, rfl, wf⟩

theorem merge_wellFormed (wf : m.WellFormed)
    (existing : ∃ v, (r.start, (⟨r.stop, v⟩ : Node U V)) ∈ m.nodes.entries) :
    ∃ m', m.merge r f = some m' ∧ m'.WellFormed := by
  obtain ⟨v, member⟩ := existing
  obtain ⟨nodes, cur', next, wfNext, memberNext⟩ := mergeNext_spec f wf member rfl
  obtain ⟨m', prev, wf'⟩ := mergePrev_spec f wfNext memberNext
  refine ⟨m', ?_, wf'⟩
  unfold merge
  simp only [OrdMap.get?_eq_some_iff.mpr member, Option.bind_eq_bind, Option.bind_some, ne_eq,
    not_true_eq_false, if_false, next]
  exact prev

end Merge

/-! ## Lookups -/

section Lookup

variable {k : U}

/-- In a well-formed map the last node starting at or before a point inside a
node is that node. -/
theorem lastLE_eq_of_contains {e : U × Node U V} (wf : m.WellFormed)
    (member : e ∈ m.nodes.entries) (inside : e.1 ≤ k ∧ k < e.2.stop) :
    m.nodes.lastLE k = some e := by
  have separated := (wellFormed_iff.mp wf).2
  refine OrdMap.lastLE_eq_some_iff.mpr ⟨member, inside.1, ?_⟩
  intro e' member' atMost
  by_contra beyond
  have gap := separated e member e' member' (lt_of_not_ge beyond)
  exact absurd (inside.2.trans_le gap) (not_lt.mpr atMost)

/-- In a well-formed map at most one node contains a point. -/
theorem contains_unique {a b : U × Node U V} (wf : m.WellFormed)
    (memberA : a ∈ m.nodes.entries) (memberB : b ∈ m.nodes.entries)
    (insideA : a.1 ≤ k ∧ k < a.2.stop) (insideB : b.1 ≤ k ∧ k < b.2.stop) : a = b := by
  have separated := (wellFormed_iff.mp wf).2
  rcases lt_trichotomy a.1 b.1 with before | same | after
  · have gap := separated a memberA b memberB before
    exact absurd (insideA.2.trans_le (gap.trans insideB.1)) (lt_irrefl k)
  · exact OrdMap.eq_of_key_eq memberA memberB same
  · have gap := separated b memberB a memberA after
    exact absurd (insideB.2.trans_le (gap.trans insideA.1)) (lt_irrefl k)

/-- The lookups return the node containing the point. -/
theorem lookups_of_contains {e : U × Node U V} (wf : m.WellFormed)
    (member : e ∈ m.nodes.entries) (inside : e.1 ≤ k ∧ k < e.2.stop) :
    m.get k = some e.2.value ∧ m.getMut k = some (e.1, e.2.value) ∧
      m.getRv k = some (⟨e.1, e.2.stop⟩, e.2.value) := by
  have last := lastLE_eq_of_contains wf member inside
  obtain ⟨start, node⟩ := e
  simp [get, getMut, getRv, last, inside.2]

/-- The lookups find nothing at a point no node contains. -/
theorem lookups_of_not_contains (outside : ∀ e ∈ m.nodes.entries, ¬ (e.1 ≤ k ∧ k < e.2.stop)) :
    m.get k = none ∧ m.getMut k = none ∧ m.getRv k = none := by
  unfold get getMut getRv
  split
  · next start node last =>
      obtain ⟨member, atMost, _⟩ := OrdMap.lastLE_eq_some_iff.mp last
      have notBelow : ¬ k < node.stop := fun below => outside _ member ⟨atMost, below⟩
      simp [notBelow]
  · simp

end Lookup

/-! ## The contract -/

/-- Every operation of `RangeMap` the kernel uses keeps a well-formed map
well-formed without panicking, and on a well-formed map the lookups return the
unique node containing the point, or nothing when no node contains it. -/
theorem wellFormed_preserved_by_operations (m : RangeMap U V) (wf : m.WellFormed) :
    (∀ (r : Range U) (value : V), r.start < r.stop →
      ∃ result, m.tryInsert r value = some result ∧
        ∀ m', result = .ok m' → m'.WellFormed) ∧
    (∀ (r : Range U) (splitL splitR : Split U V),
      ∃ m' released, m.remove r splitL splitR = some (m', released) ∧ m'.WellFormed) ∧
    (∀ (r : Range U) (value : V) (splitL splitR : Split U V), r.start < r.stop →
      ∃ m' released, m.replace r value splitL splitR = some (m', released) ∧
        m'.WellFormed) ∧
    (∀ (p : U) (splitR : Split U V),
      ∃ m', m.splitAtMaybe p splitR = some m' ∧ m'.WellFormed) ∧
    (∀ p : U, (∃ e ∈ m.nodes.entries, e.1 < p ∧ p < e.2.stop) →
      (∀ splitR : Split U V, ∃ m', m.splitAt p splitR = some m' ∧ m'.WellFormed) ∧
      ∀ (splitR : Split U V) (lRun rRun : V → Range U → V),
        ∃ m', m.splitAtRun p splitR lRun rRun = some m' ∧ m'.WellFormed) ∧
    (∀ (r : Range U) (f : V → V → Bool),
      (∃ v, (r.start, (⟨r.stop, v⟩ : Node U V)) ∈ m.nodes.entries) →
      ∃ m', m.merge r f = some m' ∧ m'.WellFormed) ∧
    (∀ condition : V → Range U → Bool, (m.clearIf condition).1.WellFormed) ∧
    (∀ f : V → V, ∃ m', m.fork f = some m' ∧ m'.WellFormed) ∧
    (∀ k : U,
      (∀ e ∈ m.nodes.entries, e.1 ≤ k ∧ k < e.2.stop →
        (∀ e' ∈ m.nodes.entries, e'.1 ≤ k ∧ k < e'.2.stop → e' = e) ∧
        m.get k = some e.2.value ∧ m.getMut k = some (e.1, e.2.value) ∧
        m.getRv k = some (⟨e.1, e.2.stop⟩, e.2.value)) ∧
      ((∀ e ∈ m.nodes.entries, ¬ (e.1 ≤ k ∧ k < e.2.stop)) →
        m.get k = none ∧ m.getMut k = none ∧ m.getRv k = none)) := by
  refine ⟨fun r value nonempty => tryInsert_wellFormed wf nonempty,
    fun r splitL splitR => remove_wellFormed splitL splitR wf,
    fun r value splitL splitR nonempty => replace_wellFormed splitL splitR wf nonempty,
    fun p splitR => splitAtMaybe_wellFormed splitR wf,
    fun p inside => ⟨fun splitR => splitAt_wellFormed splitR wf inside,
      fun splitR lRun rRun => splitAtRun_wellFormed splitR lRun rRun wf inside⟩,
    fun r f existing => merge_wellFormed f wf existing,
    fun condition => clearIf_wellFormed condition wf,
    fun f => fork_wellFormed f wf,
    fun k => ⟨?_, lookups_of_not_contains⟩⟩
  intro e member inside
  exact ⟨fun e' member' inside' => contains_unique wf member' member inside' inside,
    lookups_of_contains wf member inside⟩

/-- The map `[0, 2) -> 7, [3, 5) -> 8`. -/
def sampleMap : RangeMap Nat Nat := ⟨⟨[(0, ⟨2, 7⟩), (3, ⟨5, 8⟩)], by decide⟩⟩

/-- The contract at `sampleMap`: it is well-formed, and removing any range
from it keeps it so. -/
theorem wellFormed_preserved_by_operations_sample :
    sampleMap.WellFormed ∧
      ∀ (r : Range Nat) (splitL splitR : Split Nat Nat),
        ∃ m' released, sampleMap.remove r splitL splitR = some (m', released) ∧
          m'.WellFormed :=
  have wf : sampleMap.WellFormed := by decide
  ⟨wf, (wellFormed_preserved_by_operations sampleMap wf).2.1⟩

end RangeMap
end FtlOs
