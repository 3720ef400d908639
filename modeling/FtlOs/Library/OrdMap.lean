import Mathlib

/-!
# Ordered maps as sorted association lists

An `OrdMap κ ν` is a finite map whose entries are kept in strictly increasing
key order.  It is the executable model of an ordered search tree: the
operations are the ones such a map offers (lookup, insertion that overwrites,
insertion that refuses a present key, removal, the last entry below a bound,
the entries of a half-open key range, in-order filtering, popping the least
entry), each computed on the entry list.

Every operation is characterised by membership in the entry list, and the
lookups below a bound by membership plus maximality.  Later proofs reason with
these characterisations and never unfold the list functions.
-/

universe u v w

/-- A finite map with its entries sorted by strictly increasing key. -/
structure OrdMap (κ : Type u) (ν : Type v) [LinearOrder κ] where
  /-- The entries in increasing key order. -/
  entries : List (κ × ν)
  /-- Keys strictly increase along the entry list. -/
  sorted : entries.Pairwise fun a b => a.1 < b.1

namespace OrdMap

variable {κ : Type u} {ν : Type v} [LinearOrder κ]

/-! ## Operations -/

/-- Insert or overwrite one key in a sorted entry list. -/
def insertEntries (k : κ) (v : ν) : List (κ × ν) → List (κ × ν)
  | [] => [(k, v)]
  | e :: rest =>
      if k < e.1 then (k, v) :: e :: rest
      else if k = e.1 then (k, v) :: rest
      else e :: insertEntries k v rest

theorem mem_insertEntries_of_mem {k : κ} {v : ν} {p : κ × ν} :
    {l : List (κ × ν)} → p ∈ insertEntries k v l → p = (k, v) ∨ p ∈ l
  | [], member => by simpa [insertEntries] using member
  | e :: rest, member => by
      unfold insertEntries at member
      split_ifs at member with before same
      · simpa using member
      · simp only [List.mem_cons] at member
        rcases member with equal | inRest
        · exact .inl equal
        · exact .inr (List.mem_cons_of_mem e inRest)
      · simp only [List.mem_cons] at member
        rcases member with equal | inRest
        · exact .inr (equal ▸ List.mem_cons_self)
        · rcases mem_insertEntries_of_mem inRest with equal | inRest
          · exact .inl equal
          · exact .inr (List.mem_cons_of_mem e inRest)

theorem pairwise_insertEntries (k : κ) (v : ν) :
    {l : List (κ × ν)} → (l.Pairwise fun a b => a.1 < b.1) →
      (insertEntries k v l).Pairwise fun a b => a.1 < b.1
  | [], _ => by simp [insertEntries]
  | e :: rest, sorted => by
      have headBelow := (List.pairwise_cons.mp sorted).1
      have restSorted := (List.pairwise_cons.mp sorted).2
      unfold insertEntries
      split_ifs with before same
      · refine List.pairwise_cons.mpr ⟨?_, sorted⟩
        intro p member
        rcases List.mem_cons.mp member with rfl | inRest
        · exact before
        · exact before.trans (headBelow p inRest)
      · refine List.pairwise_cons.mpr ⟨?_, restSorted⟩
        intro p inRest
        exact same ▸ headBelow p inRest
      · refine List.pairwise_cons.mpr ⟨?_, pairwise_insertEntries k v restSorted⟩
        intro p member
        rcases mem_insertEntries_of_mem member with rfl | inRest
        · exact lt_of_le_of_ne (not_lt.mp before) (Ne.symm same)
        · exact headBelow p inRest

/-- The map with no entries. -/
def empty : OrdMap κ ν := ⟨[], List.Pairwise.nil⟩

/-- Number of entries. -/
def size (m : OrdMap κ ν) : Nat := m.entries.length

/-- The keys in increasing order. -/
def keys (m : OrdMap κ ν) : List κ := m.entries.map Prod.fst

/-- Whether a key is present. -/
def contains (m : OrdMap κ ν) (k : κ) : Bool := m.entries.any fun e => decide (e.1 = k)

/-- The value stored under a key. -/
def get? (m : OrdMap κ ν) (k : κ) : Option ν :=
  (m.entries.find? fun e => decide (e.1 = k)).map Prod.snd

/-- Insert a key, overwriting the value of a present key. -/
def insert (m : OrdMap κ ν) (k : κ) (v : ν) : OrdMap κ ν :=
  ⟨insertEntries k v m.entries, pairwise_insertEntries k v m.sorted⟩

/-- Insert a key that must be absent; `none` when the key is present. -/
def tryInsert (m : OrdMap κ ν) (k : κ) (v : ν) : Option (OrdMap κ ν) :=
  if m.contains k then none else some (m.insert k v)

/-- Drop the entry of a key, if any. -/
def erase (m : OrdMap κ ν) (k : κ) : OrdMap κ ν :=
  ⟨m.entries.filter fun e => decide (e.1 ≠ k), m.sorted.filter _⟩

/-- Remove a key and return its value; `none` when the key is absent. -/
def remove (m : OrdMap κ ν) (k : κ) : Option (ν × OrdMap κ ν) :=
  (m.get? k).map fun v => (v, m.erase k)

/-- Apply a function to the value of one key, leaving every other entry. -/
def modify (m : OrdMap κ ν) (k : κ) (f : ν → ν) : OrdMap κ ν :=
  ⟨m.entries.map fun e => if e.1 = k then (e.1, f e.2) else e,
    List.pairwise_map.mpr (m.sorted.imp fun {a b} below => by
      split_ifs <;> exact below)⟩

/-- Apply a function to the value of a key that must be present; `none` when
the key is absent. -/
def update (m : OrdMap κ ν) (k : κ) (f : ν → ν) : Option (OrdMap κ ν) :=
  if m.contains k then some (m.modify k f) else none

/-- Keep the entries satisfying a predicate, in order. -/
def filter (m : OrdMap κ ν) (p : κ → ν → Bool) : OrdMap κ ν :=
  ⟨m.entries.filter fun e => p e.1 e.2, m.sorted.filter _⟩

/-- Apply a function to every value. -/
def mapValues {ω : Type v} (m : OrdMap κ ν) (f : ν → ω) : OrdMap κ ω :=
  ⟨m.entries.map fun e => (e.1, f e.2), List.pairwise_map.mpr m.sorted⟩

/-- The entry with the greatest key strictly below `x`. -/
def lastLT (m : OrdMap κ ν) (x : κ) : Option (κ × ν) :=
  (m.entries.filter fun e => decide (e.1 < x)).getLast?

/-- The entry with the greatest key at most `x`. -/
def lastLE (m : OrdMap κ ν) (x : κ) : Option (κ × ν) :=
  (m.entries.filter fun e => decide (e.1 ≤ x)).getLast?

/-- The entries with keys in the half-open range `[a, b)`, in increasing order. -/
def rangeIn (m : OrdMap κ ν) (a b : κ) : List (κ × ν) :=
  m.entries.filter fun e => decide (a ≤ e.1) && decide (e.1 < b)

/-- The entries with keys at least `a`, in increasing order. -/
def rangeFrom (m : OrdMap κ ν) (a : κ) : List (κ × ν) :=
  m.entries.filter fun e => decide (a ≤ e.1)

/-- Keep the entries a stateful predicate accepts, visiting them in increasing key
order and threading the predicate's state from one visit to the next. -/
def retainEntries {σ : Type w} (f : σ → κ → ν → σ × Bool) :
    σ → List (κ × ν) → List (κ × ν) × σ
  | s, [] => ([], s)
  | s, e :: rest =>
      let visit := f s e.1 e.2
      let tail := retainEntries f visit.1 rest
      (if visit.2 then e :: tail.1 else tail.1, tail.2)

omit [LinearOrder κ] in
theorem retainEntries_sublist {σ : Type w} (f : σ → κ → ν → σ × Bool) :
    (s : σ) → (l : List (κ × ν)) → (retainEntries f s l).1.Sublist l
  | _, [] => List.Sublist.slnil
  | s, e :: rest => by
      have tail := retainEntries_sublist f (f s e.1 e.2).1 rest
      unfold retainEntries
      dsimp only
      split
      · exact tail.cons_cons e
      · exact tail.cons e

/-- In-order retain with a stateful predicate; returns the final state as well. -/
def retain {σ : Type w} (m : OrdMap κ ν) (f : σ → κ → ν → σ × Bool) (s : σ) :
    OrdMap κ ν × σ :=
  (⟨(retainEntries f s m.entries).1, m.sorted.sublist (retainEntries_sublist f s m.entries)⟩,
    (retainEntries f s m.entries).2)

/-- Remove and return the entry with the least key. -/
def popFirst (m : OrdMap κ ν) : Option ((κ × ν) × OrdMap κ ν) :=
  match m with
  | ⟨[], _⟩ => none
  | ⟨e :: rest, sorted⟩ => some (e, ⟨rest, (List.pairwise_cons.mp sorted).2⟩)

/-- Move every entry of `src` into `m`, in order; a key present in both takes the value
from `src`. -/
def append (m src : OrdMap κ ν) : OrdMap κ ν :=
  src.entries.foldl (fun acc e => acc.insert e.1 e.2) m

/-! ## Sorted entry lists -/

section SortedList

variable {l : List (κ × ν)}

/-- In a key-sorted list two entries with the same key are the same entry. -/
theorem eq_of_key_eq_of_pairwise {e e' : κ × ν} :
    {l : List (κ × ν)} → (l.Pairwise fun a b => a.1 < b.1) →
      e ∈ l → e' ∈ l → e.1 = e'.1 → e = e'
  | [], _, member, _, _ => absurd member List.not_mem_nil
  | _ :: _, sorted, member, member', sameKey => by
      have headBelow := (List.pairwise_cons.mp sorted).1
      rcases List.mem_cons.mp member with rfl | inRest <;>
        rcases List.mem_cons.mp member' with rfl | inRest'
      · rfl
      · exact absurd sameKey (ne_of_lt (headBelow _ inRest'))
      · exact absurd sameKey.symm (ne_of_lt (headBelow _ inRest))
      · exact eq_of_key_eq_of_pairwise (List.pairwise_cons.mp sorted).2
          inRest inRest' sameKey

/-- Membership in a list after `insertEntries`: the new entry, or an old entry
of another key. -/
theorem mem_insertEntries {k : κ} {v : ν} {p : κ × ν} :
    {l : List (κ × ν)} → (l.Pairwise fun a b => a.1 < b.1) →
      (p ∈ insertEntries k v l ↔ p = (k, v) ∨ (p ∈ l ∧ p.1 ≠ k))
  | [], _ => by simp [insertEntries]
  | e :: rest, sorted => by
      have headBelow := (List.pairwise_cons.mp sorted).1
      have restKeys : ∀ q ∈ rest, q.1 ≠ e.1 := fun q inRest =>
        ne_of_gt (headBelow q inRest)
      unfold insertEntries
      split_ifs with before same
      · have : ∀ q ∈ e :: rest, q.1 ≠ k := by
          intro q member
          rcases List.mem_cons.mp member with rfl | inRest
          · exact ne_of_gt before
          · exact ne_of_gt (before.trans (headBelow q inRest))
        grind
      · subst same
        grind
      · rw [List.mem_cons, mem_insertEntries (List.pairwise_cons.mp sorted).2]
        have : e.1 ≠ k := fun equal => same equal.symm
        grind

/-- The last entry of a key-sorted list is the one with the greatest key. -/
theorem getLast?_eq_some_iff_of_pairwise {e : κ × ν}
    (sorted : l.Pairwise fun a b => a.1 < b.1) :
    l.getLast? = some e ↔ e ∈ l ∧ ∀ e' ∈ l, e'.1 ≤ e.1 := by
  constructor
  · intro last
    obtain ⟨front, rfl⟩ := List.getLast?_eq_some_iff.mp last
    have frontBelow := (List.pairwise_append.mp sorted).2.2
    refine ⟨List.mem_append_right _ (List.mem_singleton_self e), ?_⟩
    intro e' member
    rcases List.mem_append.mp member with inFront | isLast
    · exact le_of_lt (frontBelow e' inFront e (List.mem_singleton_self e))
    · rw [List.mem_singleton.mp isLast]
  · rintro ⟨member, greatest⟩
    obtain ⟨a, last⟩ := Option.ne_none_iff_exists'.mp
      (mt List.getLast?_eq_none_iff.mp (List.ne_nil_of_mem member))
    obtain ⟨front, rfl⟩ := List.getLast?_eq_some_iff.mp last
    have frontBelow := (List.pairwise_append.mp sorted).2.2
    have lastMember : a ∈ front ++ [a] := List.mem_append_right _ (List.mem_singleton_self a)
    rcases List.mem_append.mp member with inFront | isLast
    · have below := frontBelow e inFront a (List.mem_singleton_self a)
      exact absurd (greatest a lastMember) (not_le.mpr below)
    · rw [last, List.mem_singleton.mp isLast]

/-- The last entry satisfying a predicate in a key-sorted list is the one with
the greatest key among those satisfying it. -/
theorem getLast?_filter_eq_some_iff {e : κ × ν} {p : κ × ν → Bool}
    (sorted : l.Pairwise fun a b => a.1 < b.1) :
    (l.filter p).getLast? = some e ↔
      e ∈ l ∧ p e ∧ ∀ e' ∈ l, p e' → e'.1 ≤ e.1 := by
  rw [getLast?_eq_some_iff_of_pairwise (sorted.filter p)]
  simp only [List.mem_filter]
  constructor
  · rintro ⟨⟨member, holds⟩, greatest⟩
    exact ⟨member, holds, fun e' member' holds' => greatest e' ⟨member', holds'⟩⟩
  · rintro ⟨member, holds, greatest⟩
    exact ⟨⟨member, holds⟩, fun e' ⟨member', holds'⟩ => greatest e' member' holds'⟩

/-- Two key-sorted lists with the same entries are the same list. -/
theorem eq_of_mem_iff_of_pairwise {l' : List (κ × ν)} (sorted : l.Pairwise fun a b => a.1 < b.1)
    (sorted' : l'.Pairwise fun a b => a.1 < b.1) (same : ∀ e, e ∈ l ↔ e ∈ l') : l = l' := by
  have nodup : ∀ {l : List (κ × ν)}, (l.Pairwise fun a b => a.1 < b.1) → l.Nodup :=
    fun sorted => sorted.imp fun below equal => ne_of_lt below (congrArg Prod.fst equal)
  apply List.Perm.eq_of_pairwise (fun _ _ _ _ ab ba => (lt_asymm ab ba).elim) sorted sorted'
  exact (List.perm_ext_iff_of_nodup (nodup sorted) (nodup sorted')).mpr same

end SortedList

/-! ## Characterisations of the operations -/

section Characterisations

variable {m : OrdMap κ ν} {k x : κ} {v : ν} {e : κ × ν}

/-- Two entries of a map with the same key are the same entry. -/
theorem eq_of_key_eq {e e' : κ × ν} (member : e ∈ m.entries)
    (member' : e' ∈ m.entries) (sameKey : e.1 = e'.1) : e = e' :=
  eq_of_key_eq_of_pairwise m.sorted member member' sameKey

@[simp] theorem entries_empty : (empty : OrdMap κ ν).entries = [] := rfl

@[simp] theorem mem_entries_insert :
    e ∈ (m.insert k v).entries ↔ e = (k, v) ∨ (e ∈ m.entries ∧ e.1 ≠ k) :=
  mem_insertEntries m.sorted

@[simp] theorem mem_entries_erase :
    e ∈ (m.erase k).entries ↔ e ∈ m.entries ∧ e.1 ≠ k := by
  simp [erase]

@[simp] theorem mem_entries_filter {p : κ → ν → Bool} :
    e ∈ (m.filter p).entries ↔ e ∈ m.entries ∧ p e.1 e.2 := by
  simp [filter]

@[simp] theorem mem_entries_mapValues {ω : Type v} {f : ν → ω} {e : κ × ω} :
    e ∈ (m.mapValues f).entries ↔ ∃ d ∈ m.entries, (d.1, f d.2) = e := by
  simp [mapValues]

@[simp] theorem mem_entries_modify {f : ν → ν} :
    e ∈ (m.modify k f).entries ↔
      (∃ w, (k, w) ∈ m.entries ∧ e = (k, f w)) ∨ (e ∈ m.entries ∧ e.1 ≠ k) := by
  simp only [modify, List.mem_map]
  constructor
  · rintro ⟨d, member, rfl⟩
    split_ifs with sameKey
    · exact .inl ⟨d.2, sameKey ▸ member, by rw [sameKey]⟩
    · exact .inr ⟨member, sameKey⟩
  · rintro (⟨w, member, rfl⟩ | ⟨member, otherKey⟩)
    · exact ⟨(k, w), member, by simp⟩
    · exact ⟨e, member, by simp [otherKey]⟩

@[simp] theorem contains_iff : m.contains k = true ↔ ∃ w, (k, w) ∈ m.entries := by
  simp only [contains, List.any_eq_true, decide_eq_true_eq]
  constructor
  · rintro ⟨⟨k', w⟩, member, rfl⟩
    exact ⟨w, member⟩
  · rintro ⟨w, member⟩
    exact ⟨(k, w), member, rfl⟩

theorem get?_eq_some_iff : m.get? k = some v ↔ (k, v) ∈ m.entries := by
  simp only [get?, Option.map_eq_some_iff]
  constructor
  · rintro ⟨d, found, rfl⟩
    have sameKey : d.1 = k := by simpa using List.find?_some found
    have member := List.mem_of_find?_eq_some found
    rw [← sameKey]
    exact member
  · intro member
    obtain ⟨d, found⟩ : ∃ d, m.entries.find? (fun e => decide (e.1 = k)) = some d := by
      apply Option.ne_none_iff_exists'.mp
      rw [Ne, List.find?_eq_none]
      exact fun h => h (k, v) member (by simp)
    have sameKey : d.1 = k := by simpa using List.find?_some found
    refine ⟨d, found, ?_⟩
    exact congrArg Prod.snd
      (eq_of_key_eq (List.mem_of_find?_eq_some found) member sameKey)

theorem get?_eq_none_iff : m.get? k = none ↔ ∀ w, (k, w) ∉ m.entries := by
  rw [← not_iff_not, ← Ne, Option.ne_none_iff_exists']
  simp [get?_eq_some_iff]

theorem tryInsert_eq_none_iff : m.tryInsert k v = none ↔ ∃ w, (k, w) ∈ m.entries := by
  simp [tryInsert]

theorem tryInsert_eq_some_iff {m' : OrdMap κ ν} :
    m.tryInsert k v = some m' ↔ (∀ w, (k, w) ∉ m.entries) ∧ m' = m.insert k v := by
  unfold tryInsert
  split_ifs with present
  · simp only [false_iff, not_and]
    obtain ⟨w, member⟩ := contains_iff.mp present
    exact fun absent => absurd member (absent w)
  · simp only [Option.some.injEq]
    have absent : ∀ w, (k, w) ∉ m.entries := by
      intro w member
      exact present (contains_iff.mpr ⟨w, member⟩)
    exact ⟨fun equal => ⟨absent, equal.symm⟩, fun ⟨_, equal⟩ => equal.symm⟩

theorem lastLT_eq_some_iff :
    m.lastLT x = some e ↔ e ∈ m.entries ∧ e.1 < x ∧ ∀ e' ∈ m.entries, e'.1 < x → e'.1 ≤ e.1 := by
  rw [lastLT, getLast?_filter_eq_some_iff m.sorted]
  simp

theorem lastLT_eq_none_iff : m.lastLT x = none ↔ ∀ e ∈ m.entries, x ≤ e.1 := by
  simp [lastLT]

theorem lastLE_eq_some_iff :
    m.lastLE x = some e ↔ e ∈ m.entries ∧ e.1 ≤ x ∧ ∀ e' ∈ m.entries, e'.1 ≤ x → e'.1 ≤ e.1 := by
  rw [lastLE, getLast?_filter_eq_some_iff m.sorted]
  simp

theorem remove_eq_some_iff {m' : OrdMap κ ν} :
    m.remove k = some (v, m') ↔ (k, v) ∈ m.entries ∧ m' = m.erase k := by
  simp only [remove, Option.map_eq_some_iff, Prod.mk.injEq, get?_eq_some_iff]
  constructor
  · rintro ⟨w, member, rfl, rfl⟩
    exact ⟨member, rfl⟩
  · rintro ⟨member, rfl⟩
    exact ⟨v, member, rfl, rfl⟩

theorem update_eq_some_iff {f : ν → ν} {m' : OrdMap κ ν} :
    m.update k f = some m' ↔ (∃ w, (k, w) ∈ m.entries) ∧ m' = m.modify k f := by
  unfold update
  split_ifs with present
  · simp only [Option.some.injEq]
    exact ⟨fun equal => ⟨contains_iff.mp present, equal.symm⟩, fun ⟨_, equal⟩ => equal.symm⟩
  · simp only [false_iff, not_and]
    exact fun found => absurd (contains_iff.mpr found) present

/-- The value a key holds after `modify` at that key. -/
theorem mem_modify_self {f : ν → ν} (member : (k, v) ∈ m.entries) :
    (k, f v) ∈ (m.modify k f).entries :=
  mem_entries_modify.mpr (.inl ⟨v, member, rfl⟩)

/-- Removing the key just modified returns its new value. -/
theorem remove_modify_self {f : ν → ν} (member : (k, v) ∈ m.entries) :
    (m.modify k f).remove k = some (f v, (m.modify k f).erase k) :=
  remove_eq_some_iff.mpr ⟨mem_modify_self member, rfl⟩

/-- Two maps with the same entries are equal. -/
theorem ext_entries {m m' : OrdMap κ ν} (same : m.entries = m'.entries) : m = m' := by
  cases m
  cases m'
  cases same
  rfl

/-- Erasing a key forgets any modification made at that key. -/
theorem erase_modify_self {f : ν → ν} : (m.modify k f).erase k = m.erase k := by
  apply ext_entries
  obtain ⟨l, sorted⟩ := m
  simp only [erase, modify]
  clear sorted
  induction l with
  | nil => rfl
  | cons d rest ih =>
      rw [List.map_cons, List.filter_cons, List.filter_cons, ih]
      by_cases sameKey : d.1 = k
      · simp [sameKey]
      · simp [sameKey]

/-- Erasing one key and modifying another commute. -/
theorem erase_modify_comm {k' : κ} {f : ν → ν} (distinct : k ≠ k') :
    (m.modify k f).erase k' = (m.erase k').modify k f := by
  apply ext_entries
  obtain ⟨l, sorted⟩ := m
  simp only [erase, modify]
  clear sorted
  induction l with
  | nil => rfl
  | cons d rest ih =>
      rw [List.map_cons, List.filter_cons, List.filter_cons, ih]
      by_cases sameKey : d.1 = k
      · simp [sameKey, distinct]
      · by_cases erased : d.1 = k' <;> simp [sameKey, erased, distinct.symm]

/-- Inserting a key above every present key appends its entry. -/
theorem insertEntries_of_forall_lt {k : κ} {v : ν} :
    {l : List (κ × ν)} → (∀ a ∈ l, a.1 < k) → insertEntries k v l = l ++ [(k, v)]
  | [], _ => rfl
  | d :: rest, below => by
      have headBelow := below d List.mem_cons_self
      rw [insertEntries, if_neg (not_lt.mpr headBelow.le), if_neg (ne_of_gt headBelow),
        insertEntries_of_forall_lt fun a member => below a (List.mem_cons_of_mem d member)]
      rfl

/-- Erasing a key forgets any modification made at that key. -/
@[simp] theorem mem_entries_erase_modify_self {f : ν → ν} :
    e ∈ ((m.modify k f).erase k).entries ↔ e ∈ (m.erase k).entries := by
  simp only [mem_entries_erase, mem_entries_modify]
  constructor
  · rintro ⟨⟨w, _, rfl⟩ | ⟨member, _⟩, otherKey⟩
    · exact absurd rfl otherKey
    · exact ⟨member, otherKey⟩
  · rintro ⟨member, otherKey⟩
    exact ⟨.inr ⟨member, otherKey⟩, otherKey⟩

/-- Erasing a present key shortens the map. -/
theorem size_erase_lt (member : (k, v) ∈ m.entries) : (m.erase k).size < m.size := by
  unfold size erase
  apply List.length_filter_lt_length_iff_exists.mpr
  exact ⟨(k, v), member, by simp⟩

omit [LinearOrder κ] in
/-- When the predicate's verdict does not depend on its state, a retain keeps exactly
the entries the verdict accepts. -/
theorem retainEntries_fst {σ : Type w} {f : σ → κ → ν → σ × Bool} {keep : κ → ν → Bool}
    (verdict : ∀ s k v, (f s k v).2 = keep k v) :
    (s : σ) → (l : List (κ × ν)) →
      (retainEntries f s l).1 = l.filter fun e => keep e.1 e.2
  | _, [] => rfl
  | s, e :: rest => by
      rw [retainEntries, List.filter_cons, verdict, retainEntries_fst verdict]

theorem mem_entries_retain {σ : Type w} {f : σ → κ → ν → σ × Bool} {keep : κ → ν → Bool}
    (verdict : ∀ s k v, (f s k v).2 = keep k v) {s : σ} :
    e ∈ (m.retain f s).1.entries ↔ e ∈ m.entries ∧ keep e.1 e.2 = true := by
  simp [retain, retainEntries_fst verdict]

@[simp] theorem mem_rangeIn {a b : κ} :
    e ∈ m.rangeIn a b ↔ e ∈ m.entries ∧ a ≤ e.1 ∧ e.1 < b := by
  simp [rangeIn]

@[simp] theorem mem_rangeFrom {a : κ} : e ∈ m.rangeFrom a ↔ e ∈ m.entries ∧ a ≤ e.1 := by
  simp [rangeFrom]

/-! ## Lookups after an update -/

@[simp] theorem get?_empty : (empty : OrdMap κ ν).get? x = none := rfl

theorem get?_insert : (m.insert k v).get? x = if x = k then some v else m.get? x := by
  apply Option.ext
  intro w
  rw [get?_eq_some_iff, mem_entries_insert]
  split_ifs with same
  · subst same
    simp [eq_comm]
  · simp [same, get?_eq_some_iff]

theorem get?_erase : (m.erase k).get? x = if x = k then none else m.get? x := by
  apply Option.ext
  intro w
  rw [get?_eq_some_iff, mem_entries_erase]
  split_ifs with same
  · simp [same]
  · simp [same, get?_eq_some_iff]

/-- Inserting the entries of a sorted list: a key of the list takes its value there. -/
theorem get?_foldl_insert {l : List (κ × ν)} (sorted : l.Pairwise fun a b => a.1 < b.1)
    (m : OrdMap κ ν) :
    (l.foldl (fun acc e => acc.insert e.1 e.2) m).get? x =
      ((l.find? fun e => decide (e.1 = x)).map Prod.snd).or (m.get? x) := by
  induction l generalizing m with
  | nil => simp
  | cons e rest ih =>
    rw [List.foldl_cons, ih (List.pairwise_cons.mp sorted).2, get?_insert, List.find?_cons]
    by_cases here : e.1 = x
    · -- the keys after `e` are above it, so none of them is `x`
      have later : rest.find? (fun d => decide (d.1 = x)) = none := by
        refine List.find?_eq_none.mpr fun d member same => ?_
        have above := (List.pairwise_cons.mp sorted).1 d member
        simp only [decide_eq_true_eq] at same
        rw [same, here] at above
        exact lt_irrefl x above
      simp [here, later]
    · simp [here, Ne.symm here]

theorem get?_append {src : OrdMap κ ν} : (m.append src).get? x = (src.get? x).or (m.get? x) :=
  get?_foldl_insert src.sorted m

theorem get?_modify {f : ν → ν} :
    (m.modify k f).get? x = if x = k then (m.get? k).map f else m.get? x := by
  apply Option.ext
  intro w
  rw [get?_eq_some_iff, mem_entries_modify]
  split_ifs with same
  · subst same
    rw [Option.map_eq_some_iff]
    simp only [get?_eq_some_iff]
    constructor
    · rintro (⟨w', member, equal⟩ | ⟨_, otherKey⟩)
      · exact ⟨w', member, (Prod.mk.inj equal).2.symm⟩
      · exact absurd rfl otherKey
    · rintro ⟨w', member, rfl⟩
      exact .inl ⟨w', member, rfl⟩
  · simp [same, get?_eq_some_iff]

theorem get?_retain {σ : Type w} {f : σ → κ → ν → σ × Bool} {keep : κ → ν → Bool}
    (verdict : ∀ s k v, (f s k v).2 = keep k v) {s : σ} :
    (m.retain f s).1.get? x = (m.get? x).filter (keep x) := by
  apply Option.ext
  intro w
  rw [get?_eq_some_iff, mem_entries_retain verdict, Option.filter_eq_some_iff, get?_eq_some_iff]

/-- The keys of a range from `a`, as a list: strictly increasing, and exactly the
present keys from `a` on. -/
theorem keys_rangeFrom_pairwise {a : κ} : ((m.rangeFrom a).map Prod.fst).Pairwise (· < ·) :=
  List.pairwise_map.mpr (m.sorted.filter _)

theorem mem_keys_rangeFrom {a : κ} :
    x ∈ (m.rangeFrom a).map Prod.fst ↔ a ≤ x ∧ (m.get? x).isSome := by
  simp only [List.mem_map, mem_rangeFrom, Option.isSome_iff_exists, get?_eq_some_iff]
  constructor
  · rintro ⟨⟨k', w⟩, ⟨member, above⟩, rfl⟩
    exact ⟨above, w, member⟩
  · rintro ⟨above, w, member⟩
    exact ⟨(x, w), ⟨member, above⟩, rfl⟩

/-- The least entry, as `popFirst` returns it: present, below every key, and the
rest is the map without it. -/
theorem popFirst_spec {m' : OrdMap κ ν} (popped : m.popFirst = some ((k, v), m')) :
    (k, v) ∈ m.entries ∧ (∀ e ∈ m.entries, k ≤ e.1) ∧ m' = m.erase k := by
  obtain ⟨l, sorted⟩ := m
  cases l with
  | nil => cases popped
  | cons d rest =>
      simp only [popFirst, Option.some.injEq, Prod.mk.injEq] at popped
      obtain ⟨rfl, rfl⟩ := popped
      have above := (List.pairwise_cons.mp sorted).1
      refine ⟨List.mem_cons_self, ?_, ext_entries ?_⟩
      · intro e member
        rcases List.mem_cons.mp member with rfl | inRest
        · exact le_rfl
        · exact (above e inRest).le
      · simp only [erase, List.filter_cons, ne_eq, not_true_eq_false, decide_false,
          Bool.false_eq_true, ↓reduceIte]
        symm
        apply List.filter_eq_self.mpr
        intro e inRest
        simpa using (ne_of_lt (above e inRest)).symm

theorem popFirst_eq_none_iff : m.popFirst = none ↔ m.size = 0 := by
  obtain ⟨l, sorted⟩ := m
  cases l <;> simp [popFirst, size]

theorem tryInsert_of_get?_eq_none (absent : m.get? k = none) :
    m.tryInsert k v = some (m.insert k v) :=
  tryInsert_eq_some_iff.mpr ⟨get?_eq_none_iff.mp absent, rfl⟩

theorem tryInsert_eq_none_iff_get? : m.tryInsert k v = none ↔ (m.get? k).isSome := by
  rw [tryInsert_eq_none_iff, Option.isSome_iff_exists]
  simp only [get?_eq_some_iff]

/-- An insertion that leaves a present key alone: the key keeps its old value, or else takes the
new one. -/
theorem get?_tryInsert_getD :
    ((m.tryInsert k v).getD m).get? x = if x = k then (m.get? k).or (some v) else m.get? x := by
  cases present : m.get? k with
  | none =>
    rw [tryInsert_of_get?_eq_none present, Option.getD_some, get?_insert, Option.none_or]
  | some w =>
    rw [tryInsert_eq_none_iff_get?.mpr (by simp [present]), Option.getD_none, Option.some_or]
    split_ifs with same
    · rw [same, present]
    · rfl

/-! ## Sizes -/

theorem length_insertEntries_of_absent {l : List (κ × ν)} (absent : ∀ w, (k, w) ∉ l) :
    (insertEntries k v l).length = l.length + 1 := by
  induction l with
  | nil => rfl
  | cons d rest ih =>
      unfold insertEntries
      split_ifs with before same
      · rfl
      · exact absurd (same ▸ List.mem_cons_self) (absent d.2)
      · simp only [List.length_cons]
        rw [ih fun w inRest => absent w (List.mem_cons_of_mem d inRest)]

theorem size_insert_of_get?_eq_none (absent : m.get? k = none) :
    (m.insert k v).size = m.size + 1 :=
  length_insertEntries_of_absent (get?_eq_none_iff.mp absent)

theorem size_erase_of_get?_isSome (present : (m.get? k).isSome) :
    (m.erase k).size + 1 = m.size := by
  obtain ⟨w, found⟩ := Option.isSome_iff_exists.mp present
  have member := get?_eq_some_iff.mp found
  obtain ⟨l, sorted⟩ := m
  simp only [size, erase] at member ⊢
  clear found present
  induction l with
  | nil => cases member
  | cons d rest ih =>
      have above := (List.pairwise_cons.mp sorted).1
      by_cases head : d.1 = k
      · have kept : rest.filter (fun e => decide (e.1 ≠ k)) = rest := by
          apply List.filter_eq_self.mpr
          intro e inRest
          simpa [← head] using (ne_of_lt (above e inRest)).symm
        rw [List.filter_cons, if_neg (by simp [head]), kept, List.length_cons]
      · have inRest : (k, w) ∈ rest := by
          rcases List.mem_cons.mp member with rfl | inRest
          · exact absurd rfl head
          · exact inRest
        simp only [List.filter_cons, ne_eq, head, not_false_eq_true, decide_true, ↓reduceIte,
          List.length_cons]
        rw [ih (List.pairwise_cons.mp sorted).2 inRest]

theorem size_modify {f : ν → ν} : (m.modify k f).size = m.size := by
  simp [modify, size]

theorem size_erase_le : (m.erase k).size ≤ m.size :=
  List.length_filter_le _ _

theorem get?_eq_none_of_size_eq_zero (empty : m.size = 0) : m.get? k = none :=
  get?_eq_none_iff.mpr fun w member => by
    have noEntries : m.entries = [] := List.eq_nil_of_length_eq_zero empty
    simp [noEntries] at member

theorem size_eq_zero_of_get?_eq_none (absent : ∀ k, m.get? k = none) : m.size = 0 := by
  obtain ⟨l, sorted⟩ := m
  cases l with
  | nil => rfl
  | cons e rest =>
    have found : (⟨e :: rest, sorted⟩ : OrdMap κ ν).get? e.1 = some e.2 :=
      get?_eq_some_iff.mpr List.mem_cons_self
    rw [absent e.1] at found
    cases found

/-- Popping the least entry shrinks the map. -/
theorem size_popFirst_lt {m' : OrdMap κ ν} (popped : m.popFirst = some ((k, v), m')) :
    m'.size < m.size := by
  obtain ⟨member, -, rfl⟩ := popFirst_spec popped
  exact size_erase_lt member

theorem nodup_keys : m.keys.Nodup := List.Pairwise.nodup (List.pairwise_map.mpr m.sorted)

/-! ## Sums over the entries -/

theorem perm_insertEntries_of_absent {l : List (κ × ν)} (absent : ∀ w, (k, w) ∉ l) :
    (insertEntries k v l).Perm ((k, v) :: l) := by
  induction l with
  | nil => exact List.Perm.refl _
  | cons d rest ih =>
      unfold insertEntries
      split_ifs with before same
      · exact List.Perm.refl _
      · exact absurd (same ▸ List.mem_cons_self) (absent d.2)
      · have tail := ih fun w inRest => absent w (List.mem_cons_of_mem d inRest)
        exact (tail.cons d).trans (List.Perm.swap (k, v) d rest)

/-- A sum over the entries gains the inserted entry's term. -/
theorem sum_map_insert_of_get?_eq_none (f : κ × ν → Nat) (absent : m.get? k = none) :
    ((m.insert k v).entries.map f).sum = f (k, v) + (m.entries.map f).sum := by
  have perm := perm_insertEntries_of_absent (v := v) (get?_eq_none_iff.mp absent)
  rw [show (m.insert k v).entries = insertEntries k v m.entries from rfl,
    (perm.map f).sum_eq, List.map_cons, List.sum_cons]

/-- A sum over the entries loses the erased entry's term. -/
theorem sum_map_erase_of_get?_eq_some (f : κ × ν → Nat) (found : m.get? k = some v) :
    ((m.erase k).entries.map f).sum + f (k, v) = (m.entries.map f).sum := by
  have member := get?_eq_some_iff.mp found
  obtain ⟨l, sorted⟩ := m
  simp only [erase] at member ⊢
  clear found
  induction l with
  | nil => cases member
  | cons d rest ih =>
      have above := (List.pairwise_cons.mp sorted).1
      by_cases head : d.1 = k
      · have kept : rest.filter (fun e => decide (e.1 ≠ k)) = rest := by
          apply List.filter_eq_self.mpr
          intro e inRest
          simpa [← head] using (ne_of_lt (above e inRest)).symm
        have isHead : d = (k, v) := by
          rcases List.mem_cons.mp member with same | inRest
          · exact same.symm
          · exact absurd (head ▸ above _ inRest) (lt_irrefl _)
        rw [List.filter_cons, if_neg (by simp [head]), kept, isHead, List.map_cons,
          List.sum_cons, Nat.add_comm]
      · have inRest : (k, v) ∈ rest := by
          rcases List.mem_cons.mp member with rfl | inRest
          · exact absurd rfl head
          · exact inRest
        rw [List.filter_cons, if_pos (by simp [head]), List.map_cons, List.sum_cons,
          List.map_cons, List.sum_cons, Nat.add_assoc, ih (List.pairwise_cons.mp sorted).2 inRest]

end Characterisations

end OrdMap
