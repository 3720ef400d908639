import FtlOs.Util.RbTree.Order
import FtlOs.Library.Run

/-!
# The tree as an ordered map

An `RBTree` stands for the `OrdMap` of its pairs (`Refines`): its pairs in order are the map's
entries, and its root is a red-black tree with a black root.  `new` stands for the empty map,
`insert` for the insertion of a key that is absent (a present key keeps its value: the source's
`Equal => s.dup()`), and `delete` for erasure, and none of them panics on a tree that stands for
a map; `search` and `contain` answer as the map's lookups.  So every sequence of calls from
`new` runs without a panic and ends in a tree that stands for the map the same calls build
(`run_refines`), whose depth is logarithmic in its size (`run_depth_le`).
-/

namespace FtlOs

namespace RbTree

open Color RB

variable {K V : Type} [LinearOrder K]

namespace RBTree

/-- `t` stands for `m`: its pairs in order are the entries of `m`, and it is a red-black tree
with a black root. -/
structure Refines (t : RBTree K V) (m : OrdMap K V) : Prop where
  entries : toList t.root = m.entries
  balanced : ∃ n, Balanced t.root B n

variable {t : RBTree K V} {m : OrdMap K V}

theorem Refines.ordered (h : Refines t m) : Ordered t.root := by
  rw [Ordered, h.entries]
  exact m.sorted

theorem new_refines : Refines (new : RBTree K V) OrdMap.empty := ⟨rfl, 0, .nil⟩

/-- `RBTree::search` finds what the map holds. -/
theorem search_eq_get? (h : Refines t m) (k : K) : t.search k = m.get? k := by
  apply Option.ext
  intro w
  rw [search, search_eq_some_iff h.ordered, h.entries, OrdMap.get?_eq_some_iff]

theorem contain_eq_contains (h : Refines t m) (k : K) : t.contain k = m.contains k := by
  rw [contain, contain_eq_isSome_search, ← search, search_eq_get? h, Bool.eq_iff_iff,
    Option.isSome_iff_exists, OrdMap.contains_iff]
  simp only [OrdMap.get?_eq_some_iff]

/-- The entries after `insert`: those of the map with the new pair, unless its key is
present. -/
theorem entries_insert {k : K} {v : V} {root : RB K V} (h : Refines t m)
    (inserted : RbTree.insert (k, v) t.root = some root) :
    toList root = ((m.tryInsert k v).getD m).entries := by
  rw [toList_insert inserted]
  apply OrdMap.eq_of_mem_iff_of_pairwise (ordered_ins h.ordered) ((m.tryInsert k v).getD m).sorted
  intro p
  rw [mem_toList_ins h.ordered, h.entries]
  by_cases present : ∃ w, (k, w) ∈ m.entries
  · -- a pair with the key is listed: `ins` adds nothing
    rw [OrdMap.tryInsert_eq_none_iff.mpr present, Option.getD_none]
    obtain ⟨w, member⟩ := present
    constructor
    · rintro (member' | ⟨_, absent⟩)
      · exact member'
      · exact (absent _ member rfl).elim
    · exact .inl
  · have absent : ∀ w, (k, w) ∉ m.entries := fun w member => present ⟨w, member⟩
    have otherKey : ∀ q ∈ m.entries, q.1 ≠ k := fun q member eq =>
      absent q.2 (by rw [← eq]; exact member)
    rw [OrdMap.tryInsert_eq_some_iff.mpr ⟨absent, rfl⟩, Option.getD_some,
      OrdMap.mem_entries_insert]
    constructor
    · rintro (member | ⟨rfl, _⟩)
      · exact .inr ⟨member, otherKey p member⟩
      · exact .inl rfl
    · rintro (rfl | ⟨member, _⟩)
      · exact .inr ⟨rfl, otherKey⟩
      · exact .inl member

/-- `RBTree::insert` on a tree that stands for a map does not panic, and stands for the map with
the key added if it was absent. -/
theorem insert_refines (h : Refines t m) (k : K) (v : V) :
    ∃ t', t.insert k v = some t' ∧ Refines t' ((m.tryInsert k v).getD m) := by
  obtain ⟨n, balanced⟩ := h.balanced
  obtain ⟨root, n', inserted, balanced'⟩ := insert_balanced (k, v) balanced
  refine ⟨⟨root⟩, ?_, entries_insert h inserted, n', balanced'⟩
  rw [insert, insertArc, inserted, Option.map_some]

/-- `RBTree::delete` on a tree that stands for a map does not panic, and stands for the map
without the key. -/
theorem delete_refines (h : Refines t m) (k : K) :
    ∃ t', t.delete k = some t' ∧ Refines t' (m.erase k) := by
  obtain ⟨n, balanced⟩ := h.balanced
  obtain ⟨root, n', deleted, balanced'⟩ := delete_balanced k balanced
  obtain ⟨root', del_eq, same⟩ := toList_delete deleted
  refine ⟨⟨root⟩, ?_, ?_, n', balanced'⟩
  · rw [delete, deleted, Option.map_some]
  · rw [same, toList_del h.ordered del_eq, h.entries]
    rfl

/-- After `RBTree::insert`, `search` finds the old value under a key that was present, the new
value under a key that was absent, and what it found before under every other key. -/
theorem insert_search (h : Refines t m) (k : K) (v : V) :
    ∃ t', t.insert k v = some t' ∧
      ∀ k', t'.search k' = if k' = k then (t.search k).or (some v) else t.search k' := by
  obtain ⟨t', inserted, h'⟩ := insert_refines h k v
  refine ⟨t', inserted, fun k' => ?_⟩
  rw [search_eq_get? h', OrdMap.get?_tryInsert_getD, search_eq_get? h, search_eq_get? h]

/-- The tree of three black nodes `1`, `2` and `3`, and the map it stands for. -/
theorem three_refines :
    Refines (⟨T B (T B E (1, 1) E) (2, 2) (T B E (3, 3) E)⟩ : RBTree Nat Nat)
      (((OrdMap.empty.insert 1 1).insert 2 2).insert 3 3) :=
  ⟨rfl, 2, .black (.black .nil .nil) (.black .nil .nil)⟩

/-- Inserting `4` below `3` makes a red leaf under a black node. -/
theorem insert_search_three :
    Refines (⟨T B (T B E (1, 1) E) (2, 2) (T B E (3, 3) E)⟩ : RBTree Nat Nat)
        (((OrdMap.empty.insert 1 1).insert 2 2).insert 3 3) ∧
      ∃ t', (⟨T B (T B E (1, 1) E) (2, 2) (T B E (3, 3) E)⟩ : RBTree Nat Nat).insert 4 4 =
          some t' ∧
        ∀ k', t'.search k' = if k' = 4 then
          ((⟨T B (T B E (1, 1) E) (2, 2) (T B E (3, 3) E)⟩ : RBTree Nat Nat).search 4).or
            (some 4)
          else (⟨T B (T B E (1, 1) E) (2, 2) (T B E (3, 3) E)⟩ : RBTree Nat Nat).search k' :=
  ⟨three_refines, insert_search three_refines 4 4⟩

/-- After `RBTree::delete`, `search` finds nothing under the key, and what it found before under
every other key. -/
theorem delete_search (h : Refines t m) (k : K) :
    ∃ t', t.delete k = some t' ∧
      ∀ k', t'.search k' = if k' = k then none else t.search k' := by
  obtain ⟨t', deleted, h'⟩ := delete_refines h k
  refine ⟨t', deleted, fun k' => ?_⟩
  rw [search_eq_get? h', OrdMap.get?_erase, search_eq_get? h]

/-- Deleting `1` leaves the left subtree one black node short, which `balleft` makes up by
reddening `3`. -/
theorem delete_search_three :
    Refines (⟨T B (T B E (1, 1) E) (2, 2) (T B E (3, 3) E)⟩ : RBTree Nat Nat)
        (((OrdMap.empty.insert 1 1).insert 2 2).insert 3 3) ∧
      ∃ t', (⟨T B (T B E (1, 1) E) (2, 2) (T B E (3, 3) E)⟩ : RBTree Nat Nat).delete 1 =
          some t' ∧
        ∀ k', t'.search k' = if k' = 1 then none
          else (⟨T B (T B E (1, 1) E) (2, 2) (T B E (3, 3) E)⟩ : RBTree Nat Nat).search k' :=
  ⟨three_refines, delete_search three_refines 1⟩

/-! ## Runs -/

/-- A call of the interface that builds a new tree. -/
inductive Call (K V : Type)
  | insert (key : K) (value : V)
  | delete (key : K)

/-- `RBTree::insert` and `RBTree::delete` as one step. -/
def call (t : RBTree K V) : Call K V → Option (RBTree K V)
  | .insert key value => t.insert key value
  | .delete key => t.delete key

/-- What a call does to the map: an insertion leaves a present key alone. -/
def Call.apply (m : OrdMap K V) : Call K V → OrdMap K V
  | .insert key value => (m.tryInsert key value).getD m
  | .delete key => m.erase key

theorem call_refines (h : Refines t m) (c : Call K V) :
    ∃ t', t.call c = some t' ∧ Refines t' (Call.apply m c) := by
  cases c with
  | insert key value => exact insert_refines h key value
  | delete key => exact delete_refines h key

/-- Every sequence of calls from `RBTree::new` runs without a panic, into a tree that stands
for the map the same calls build. -/
theorem run_refines (calls : List (Call K V)) :
    ∃ t, Run.run call new calls = some t ∧ Refines t (calls.foldl Call.apply OrdMap.empty) := by
  have simulate : ∀ (t : RBTree K V) (m : OrdMap K V) (c : Call K V), Refines t m →
      ∃ t', t.call c = some t' ∧ Refines t' (Call.apply m c) :=
    fun _ _ c h => call_refines h c
  exact Run.run_of_simulation simulate calls new OrdMap.empty new_refines

/-- No sequence of `insert` and `delete` calls from `RBTree::new` panics, and every tree it
reaches is a search tree and a red-black tree with a black root. -/
theorem run_invariant (calls : List (Call K V)) :
    ∃ t, Run.run call new calls = some t ∧ Ordered t.root ∧ ∃ n, Balanced t.root B n := by
  obtain ⟨t, ran, h⟩ := run_refines calls
  exact ⟨t, ran, h.ordered, h.balanced⟩

/-- After every sequence of calls from `RBTree::new`, `search` and `contain` answer as the map
the same calls build, in which an insertion leaves a present key alone. -/
theorem run_search (calls : List (Call K V)) (k : K) :
    ∃ t, Run.run call new calls = some t ∧
      t.search k = (calls.foldl Call.apply OrdMap.empty).get? k ∧
      t.contain k = (calls.foldl Call.apply OrdMap.empty).contains k := by
  obtain ⟨t, ran, h⟩ := run_refines calls
  exact ⟨t, ran, search_eq_get? h k, contain_eq_contains h k⟩

/-- Every tree a sequence of calls from `RBTree::new` reaches is at most `2 log₂ (n + 1)` deep
for its `n` pairs, so each call walks a path of that length. -/
theorem run_depth_le (calls : List (Call K V)) :
    ∃ t, Run.run call new calls = some t ∧
      depth t.root ≤ 2 * Nat.log 2 ((toList t.root).length + 1) := by
  obtain ⟨t, ran, h⟩ := run_refines calls
  obtain ⟨n, balanced⟩ := h.balanced
  exact ⟨t, ran, depth_le_log balanced⟩

end RBTree

end RbTree

end FtlOs
