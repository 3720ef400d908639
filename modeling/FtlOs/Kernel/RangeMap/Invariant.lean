import FtlOs.Kernel.RangeMap.Defs

/-!
# The representation invariant of `RangeMap`

The source states its invariant in words: ranges never overlap and no range is
empty.  `WellFormed` states it node by node: every node's range is nonempty,
and each node ends at or before the start of the next one.  `Separated` reads
the second half pairwise, which is the form the preservation proofs use.

Every mutating operation of the map is a composition of four moves on its
nodes: keeping a subset of them, inserting a node that meets no other,
changing the end of one node within the room it has, and re-keying a node at a
later start.  This module proves that each move keeps the invariant.
-/

namespace FtlOs
namespace RangeMap

universe u v

variable {U : Type u} {V : Type v} [LinearOrder U]

/-- Every node holds a nonempty range. -/
def Nonempty (m : RangeMap U V) : Prop := ∀ e ∈ m.nodes.entries, e.1 < e.2.stop

/-- The invariant: nonempty nodes, and each node ends at or before the start of
the next one. -/
def WellFormed (m : RangeMap U V) : Prop :=
  m.Nonempty ∧ m.nodes.entries.IsChain fun a b => a.2.stop ≤ b.1

/-- Every node ends at or before the start of every later node. -/
def Separated (m : RangeMap U V) : Prop :=
  ∀ a ∈ m.nodes.entries, ∀ b ∈ m.nodes.entries, a.1 < b.1 → a.2.stop ≤ b.1

instance : DecidablePred (WellFormed : RangeMap U V → Prop) := fun m =>
  inferInstanceAs (Decidable ((∀ e ∈ m.nodes.entries, e.1 < e.2.stop) ∧
    m.nodes.entries.IsChain fun a b => a.2.stop ≤ b.1))

/-! ## The consecutive and the pairwise form -/

section Forms

variable {l : List (U × Node U V)}

/-- On nonempty nodes, consecutive separation is pairwise separation. -/
theorem pairwise_of_isChain (nonempty : ∀ e ∈ l, e.1 < e.2.stop)
    (chain : l.IsChain fun a b => a.2.stop ≤ b.1) :
    l.Pairwise fun a b => a.2.stop ≤ b.1 := by
  induction l with
  | nil => exact .nil
  | cons a rest ih =>
      have restPairwise := ih (fun e member => nonempty e (List.mem_cons_of_mem a member))
        chain.tail
      refine List.pairwise_cons.mpr ⟨?_, restPairwise⟩
      intro c member
      cases rest with
      | nil => cases member
      | cons b rest =>
          have headGap : a.2.stop ≤ b.1 := (List.isChain_cons_cons.mp chain).1
          rcases List.mem_cons.mp member with rfl | inRest
          · exact headGap
          · have laterGap := (List.pairwise_cons.mp restPairwise).1 c inRest
            have bNonempty := nonempty b (by simp)
            exact headGap.trans (bNonempty.le.trans laterGap)

/-- In a key-sorted list a pairwise relation holds from each entry to every
entry with a greater key. -/
theorem rel_of_pairwise_of_lt {R : U × Node U V → U × Node U V → Prop}
    (sorted : l.Pairwise fun a b => a.1 < b.1) (related : l.Pairwise R) :
    ∀ a ∈ l, ∀ b ∈ l, a.1 < b.1 → R a b := by
  induction l with
  | nil => intro a member; cases member
  | cons d rest ih =>
      have headBelow := (List.pairwise_cons.mp sorted).1
      have headRelated := (List.pairwise_cons.mp related).1
      intro a memberA b memberB keyLt
      rcases List.mem_cons.mp memberA with rfl | inRestA <;>
        rcases List.mem_cons.mp memberB with rfl | inRestB
      · exact absurd keyLt (lt_irrefl _)
      · exact headRelated b inRestB
      · exact absurd (headBelow a inRestA) (not_lt.mpr keyLt.le)
      · exact ih (List.pairwise_cons.mp sorted).2 (List.pairwise_cons.mp related).2
          a inRestA b inRestB keyLt

end Forms

theorem wellFormed_iff {m : RangeMap U V} : m.WellFormed ↔ m.Nonempty ∧ m.Separated := by
  constructor
  · rintro ⟨nonempty, chain⟩
    exact ⟨nonempty, rel_of_pairwise_of_lt m.nodes.sorted (pairwise_of_isChain nonempty chain)⟩
  · rintro ⟨nonempty, separated⟩
    refine ⟨nonempty, List.Pairwise.isChain ?_⟩
    exact m.nodes.sorted.imp_of_mem fun memberA memberB keyLt =>
      separated _ memberA _ memberB keyLt

/-! ## Moves that keep the invariant -/

section Moves

variable {m : RangeMap U V}

/-- Keeping a subset of the nodes keeps the invariant. -/
theorem WellFormed.of_subset {m' : RangeMap U V}
    (subset : ∀ e ∈ m'.nodes.entries, e ∈ m.nodes.entries) (wf : m.WellFormed) :
    m'.WellFormed := by
  obtain ⟨nonempty, separated⟩ := wellFormed_iff.mp wf
  refine wellFormed_iff.mpr ⟨?_, ?_⟩
  · exact fun e member => nonempty e (subset e member)
  · exact fun a memberA b memberB => separated a (subset a memberA) b (subset b memberB)

/-- A node that meets `[s, t)` with `s < t` cannot start at `s`. -/
theorem key_ne_of_disjoint {s t : U} {e : U × Node U V} (wf : m.WellFormed)
    (member : e ∈ m.nodes.entries) (nonemptyNew : s < t)
    (disjoint : e.2.stop ≤ s ∨ t ≤ e.1) : e.1 ≠ s := by
  have nonempty := (wellFormed_iff.mp wf).1 e member
  rintro rfl
  rcases disjoint with below | above
  · exact absurd nonempty (not_lt.mpr below)
  · exact absurd nonemptyNew (not_lt.mpr above)

/-- Inserting a nonempty node that meets no node keeps the invariant. -/
theorem WellFormed.insert_of_disjoint {s t : U} {w : V} (wf : m.WellFormed)
    (nonemptyNew : s < t)
    (disjoint : ∀ e ∈ m.nodes.entries, e.2.stop ≤ s ∨ t ≤ e.1) :
    (⟨m.nodes.insert s ⟨t, w⟩⟩ : RangeMap U V).WellFormed := by
  obtain ⟨nonempty, separated⟩ := wellFormed_iff.mp wf
  refine wellFormed_iff.mpr ⟨?_, ?_⟩
  · intro e member
    rcases OrdMap.mem_entries_insert.mp member with rfl | ⟨old, _⟩
    · exact nonemptyNew
    · exact nonempty e old
  · intro a memberA b memberB keyLt
    rcases OrdMap.mem_entries_insert.mp memberA with rfl | ⟨oldA, _⟩ <;>
      rcases OrdMap.mem_entries_insert.mp memberB with rfl | ⟨oldB, _⟩
    · exact absurd keyLt (lt_irrefl _)
    · rcases disjoint b oldB with below | above
      · exact absurd ((nonempty b oldB).trans_le below) (not_lt.mpr keyLt.le)
      · exact above
    · rcases disjoint a oldA with below | above
      · exact below
      · exact absurd (nonemptyNew.trans_le above) (not_lt.mpr keyLt.le)
    · exact separated a oldA b oldB keyLt

/-- Inserting a node that meets no node succeeds. -/
theorem tryInsert_isSome_of_disjoint {s t : U} (w : V) (wf : m.WellFormed)
    (nonemptyNew : s < t)
    (disjoint : ∀ e ∈ m.nodes.entries, e.2.stop ≤ s ∨ t ≤ e.1) :
    m.nodes.tryInsert s ⟨t, w⟩ = some (m.nodes.insert s ⟨t, w⟩) := by
  refine OrdMap.tryInsert_eq_some_iff.mpr ⟨?_, rfl⟩
  intro n member
  exact key_ne_of_disjoint wf member nonemptyNew (disjoint _ member) rfl

/-- Giving one node a new end keeps the invariant when the node stays nonempty
and ends before every later node starts. -/
theorem WellFormed.modify_of_room {k : U} {n : Node U V} {g : Node U V → Node U V}
    (wf : m.WellFormed) (member : (k, n) ∈ m.nodes.entries) (nonemptyNew : k < (g n).stop)
    (room : ∀ e ∈ m.nodes.entries, k < e.1 → (g n).stop ≤ e.1) :
    (⟨m.nodes.modify k g⟩ : RangeMap U V).WellFormed := by
  obtain ⟨nonempty, separated⟩ := wellFormed_iff.mp wf
  have nodeOf : ∀ w, (k, w) ∈ m.nodes.entries → w = n := fun w found =>
    congrArg Prod.snd (OrdMap.eq_of_key_eq found member rfl)
  refine wellFormed_iff.mpr ⟨?_, ?_⟩
  · intro e memberE
    rcases OrdMap.mem_entries_modify.mp memberE with ⟨w, found, rfl⟩ | ⟨old, _⟩
    · rw [nodeOf w found]
      exact nonemptyNew
    · exact nonempty e old
  · intro a memberA b memberB keyLt
    rcases OrdMap.mem_entries_modify.mp memberA with ⟨w, found, rfl⟩ | ⟨oldA, otherA⟩ <;>
      rcases OrdMap.mem_entries_modify.mp memberB with ⟨w', found', rfl⟩ | ⟨oldB, _⟩
    · exact absurd keyLt (lt_irrefl _)
    · rw [nodeOf w found]
      exact room b oldB keyLt
    · exact separated a oldA (k, n) member keyLt
    · exact separated a oldA b oldB keyLt

/-- Cutting a node `[s, t)` into `[s, p)` under its key and `[q, t)` under the
new key `q`, for `s < p ≤ q < t`, always inserts and keeps the invariant. -/
theorem cut_wellFormed {s p q : U} {n : Node U V} (left right : V)
    (wf : m.WellFormed) (member : (s, n) ∈ m.nodes.entries)
    (afterStart : s < p) (ordered : p ≤ q) (beforeStop : q < n.stop) :
    (m.nodes.modify s fun _ => ⟨p, left⟩).tryInsert q ⟨n.stop, right⟩ =
        some ((m.nodes.modify s fun _ => ⟨p, left⟩).insert q ⟨n.stop, right⟩) ∧
      (⟨(m.nodes.modify s fun _ => ⟨p, left⟩).insert q ⟨n.stop, right⟩⟩ :
        RangeMap U V).WellFormed := by
  have separated := (wellFormed_iff.mp wf).2
  -- every node after `s` starts at or after `t`, so `[p, t)` is all `s`'s room
  have after : ∀ e ∈ m.nodes.entries, s < e.1 → n.stop ≤ e.1 := fun e memberE keyLt =>
    separated (s, n) member e memberE keyLt
  have shrunk : (⟨m.nodes.modify s fun _ => ⟨p, left⟩⟩ : RangeMap U V).WellFormed :=
    wf.modify_of_room member afterStart fun e memberE keyLt =>
      ordered.trans (beforeStop.le.trans (after e memberE keyLt))
  have vacant : ∀ e ∈ (m.nodes.modify s fun _ => ⟨p, left⟩).entries,
      e.2.stop ≤ q ∨ n.stop ≤ e.1 := by
    intro e memberE
    rcases OrdMap.mem_entries_modify.mp memberE with ⟨w, _, rfl⟩ | ⟨old, otherKey⟩
    · exact .inl ordered
    · rcases lt_or_gt_of_ne otherKey with below | above
      · have := separated e old (s, n) member below
        exact .inl (this.trans (afterStart.le.trans ordered))
      · exact .inr (after e old above)
  exact ⟨tryInsert_isSome_of_disjoint right shrunk beforeStop vacant,
    shrunk.insert_of_disjoint beforeStop vacant⟩

end Moves

/-! ## Lookups below a point -/

section Lookups

variable {m : RangeMap U V}

/-- In a well-formed map the last node starting below a point inside a node is
that node. -/
theorem lastLT_eq_of_interior {s p : U} {n : Node U V} (wf : m.WellFormed)
    (member : (s, n) ∈ m.nodes.entries) (afterStart : s < p) (beforeStop : p < n.stop) :
    m.nodes.lastLT p = some (s, n) := by
  have separated := (wellFormed_iff.mp wf).2
  refine OrdMap.lastLT_eq_some_iff.mpr ⟨member, afterStart, ?_⟩
  intro e memberE below
  by_contra beyond
  have gap := separated (s, n) member e memberE (lt_of_not_ge beyond)
  exact absurd (beforeStop.trans_le gap) (not_lt.mpr below.le)

/-- Every node starting below `x` other than the last one ends at or before the
last one starts. -/
theorem stop_le_of_lastLT {x k : U} {n : Node U V} {e : U × Node U V}
    (wf : m.WellFormed) (last : m.nodes.lastLT x = some (k, n))
    (memberE : e ∈ m.nodes.entries) (below : e.1 < x) (otherKey : e.1 ≠ k) :
    e.2.stop ≤ k := by
  obtain ⟨member, _, greatest⟩ := OrdMap.lastLT_eq_some_iff.mp last
  exact (wellFormed_iff.mp wf).2 e memberE (k, n) member
    (lt_of_le_of_ne (greatest e memberE below) otherKey)

end Lookups

end RangeMap
end FtlOs
