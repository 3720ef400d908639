import FtlOs.Util.RbTree.Balance
import FtlOs.Library.OrdMap

/-!
# The entries of a tree in order

`toList t` lists the pairs of `t` from left to right, and `t` is a search tree when their keys
strictly increase (`Ordered`).  The rotations of `balance`, `balleft`, `balright` and `sub1`
and the join `app` keep the list (`toList_balance`, `toList_app`, ...), so what `ins` and `del`
do to it is decided by the key comparisons alone: `ins` adds its pair unless the key is present
(`mem_toList_ins`), and `del` drops the pair of its key (`toList_del`).  `search` and `contain`
find a key exactly when a pair with that key is listed (`search_eq_some_iff`).
-/

namespace FtlOs

namespace RbTree

open Color RB

variable {K V : Type}

/-- The pairs of a tree from left to right. -/
def toList : RB K V → List (K × V)
  | E => []
  | T _ a x b => toList a ++ x :: toList b

variable {t t' a b l r : RB K V} {x y v : K × V} {c : Color}

@[simp] theorem toList_E : toList (E : RB K V) = [] := rfl

@[simp] theorem toList_T : toList (T c a x b) = toList a ++ x :: toList b := rfl

/-! ## The rotations keep the entries -/

@[simp] theorem toList_balance : toList (balance l v r) = toList l ++ v :: toList r := by
  fun_cases balance l v r <;> simp

theorem toList_sub1 (h : sub1 t = some t') : toList t' = toList t := by
  revert h
  fun_cases sub1 t with
  | case1 a x b =>
    rintro ⟨⟩
    rfl
  | case2 _ _ => rintro ⟨⟩

theorem toList_balleft (h : balleft l v r = some t) : toList t = toList l ++ v :: toList r := by
  revert h
  fun_cases balleft l v r with
  | case1 a x b y c =>
    rintro ⟨⟩
    simp
  | case2 bl x a y b _ =>
    rintro ⟨⟩
    simp
  | case3 bl x a y b z c _ =>
    intro h
    obtain ⟨c', sub, rfl⟩ := Option.map_eq_some_iff.mp h
    simp [toList_sub1 sub]
  | case4 _ _ _ _ _ _ => rintro ⟨⟩

theorem toList_balright (h : balright l v r = some t) : toList t = toList l ++ v :: toList r := by
  revert h
  fun_cases balright l v r with
  | case1 a x b y c =>
    rintro ⟨⟩
    simp
  | case2 a x b y bl _ =>
    rintro ⟨⟩
    simp
  | case3 a x b y c z bl _ =>
    intro h
    obtain ⟨a', sub, rfl⟩ := Option.map_eq_some_iff.mp h
    simp [toList_sub1 sub]
  | case4 _ _ _ _ _ _ => rintro ⟨⟩

/-- `app` lists the entries of its first tree, then those of its second. -/
theorem toList_app (h : app l r = some t) : toList t = toList l ++ toList r := by
  induction l, r using app.induct generalizing t with
  | case1 r =>
    rw [app] at h
    cases h
    simp
  | case2 l notE =>
    rw [app.eq_2 _ notE] at h
    cases h
    simp
  | case3 a x b c y d ih =>
    rw [app] at h
    obtain ⟨bc, eq, rfl⟩ := Option.map_eq_some_iff.mp h
    have joined := ih eq
    split
    · next b' z c' =>
      simp only [toList_T, List.append_assoc, List.cons_append] at joined ⊢
      rw [← List.append_assoc (toList b), ← joined]
      simp
    · simp [joined]
  | case4 a x b c y d ih =>
    rw [app] at h
    obtain ⟨bc, eq, h⟩ := Option.bind_eq_some_iff.mp h
    have joined := ih eq
    split at h
    · next b' z c' =>
      cases h
      simp only [toList_T, List.append_assoc, List.cons_append] at joined ⊢
      rw [← List.append_assoc (toList b), ← joined]
      simp
    · rw [toList_balleft h]
      simp [joined]
  | case5 a b x c notE notRed ih =>
    rw [app.eq_5 _ _ _ _ notE notRed] at h
    obtain ⟨ab, eq, rfl⟩ := Option.map_eq_some_iff.mp h
    simp [ih eq]
  | case6 a x b c notE notRed ih =>
    rw [app.eq_6 _ _ _ _ notE notRed] at h
    obtain ⟨bc, eq, rfl⟩ := Option.map_eq_some_iff.mp h
    simp [ih eq]

theorem toList_delformLeft {a' : Option (RB K V)} (h : delformLeft a y b a' = some t) :
    ∃ a'', a' = some a'' ∧ toList t = toList a'' ++ y :: toList b := by
  unfold delformLeft at h
  split at h
  · obtain ⟨a'', eq, h⟩ := Option.bind_eq_some_iff.mp h
    exact ⟨a'', eq, toList_balleft h⟩
  · obtain ⟨a'', eq, rfl⟩ := Option.map_eq_some_iff.mp h
    exact ⟨a'', eq, rfl⟩

theorem toList_delformRight {b' : Option (RB K V)} (h : delformRight a y b b' = some t) :
    ∃ b'', b' = some b'' ∧ toList t = toList a ++ y :: toList b'' := by
  unfold delformRight at h
  split at h
  · obtain ⟨b'', eq, h⟩ := Option.bind_eq_some_iff.mp h
    exact ⟨b'', eq, toList_balright h⟩
  · obtain ⟨b'', eq, rfl⟩ := Option.map_eq_some_iff.mp h
    exact ⟨b'', eq, rfl⟩

/-- A red-black tree of black height `n` holds at least `2 ^ n - 1` pairs. -/
theorem Balanced.two_pow_le_length {n : Nat} (h : Balanced t c n) :
    2 ^ n ≤ (toList t).length + 1 := by
  induction h with
  | nil => simp
  | red _ _ iha ihb =>
    simp only [toList_T, List.length_append, List.length_cons]
    omega
  | black _ _ iha ihb =>
    simp only [toList_T, List.length_append, List.length_cons, pow_succ]
    omega

/-- A red-black tree with a black root is at most `2 log₂ (size + 1)` deep. -/
theorem depth_le_log {n : Nat} (h : Balanced t B n) :
    depth t ≤ 2 * Nat.log 2 ((toList t).length + 1) := by
  have deep := h.depth_le
  have log := Nat.le_log_of_pow_le one_lt_two h.two_pow_le_length
  simp only [reduceCtorEq, if_false] at deep
  omega

/-! ## Search trees -/

section Order

variable [LinearOrder K]

/-- The keys strictly increase from left to right. -/
def Ordered (t : RB K V) : Prop := (toList t).Pairwise fun a b => a.1 < b.1

theorem ordered_T :
    Ordered (T c a y b) ↔
      Ordered a ∧ Ordered b ∧ (∀ p ∈ toList a, p.1 < y.1) ∧
        ∀ p ∈ toList b, y.1 < p.1 := by
  simp only [Ordered, toList_T, List.pairwise_append, List.pairwise_cons, List.mem_cons]
  constructor
  · rintro ⟨ordA, ⟨above, ordB⟩, across⟩
    exact ⟨ordA, ordB, fun p member => across p member y (.inl rfl), above⟩
  · rintro ⟨ordA, ordB, below, above⟩
    refine ⟨ordA, ⟨above, ordB⟩, ?_⟩
    rintro p member q (rfl | inB)
    · exact below p member
    · exact (below p member).trans (above q inB)

/-! ### Lookup -/

variable {k : K} {w : V}

/-- `search` finds the value of a listed pair with the key. -/
theorem search_eq_some_iff (ordered : Ordered t) : search k t = some w ↔ (k, w) ∈ toList t := by
  induction t with
  | E => simp [search]
  | T c a y b iha ihb =>
    obtain ⟨ordA, ordB, below, above⟩ := ordered_T.mp ordered
    simp only [search, toList_T, List.mem_append, List.mem_cons]
    rcases lt_trichotomy k y.1 with lt | rfl | gt
    · rw [compare_lt_iff_lt.mpr lt, iha ordA]
      have notY : (k, w) ≠ y := fun eq => (ne_of_lt lt) (congrArg Prod.fst eq)
      have notB : (k, w) ∉ toList b := fun inB => lt_asymm lt (above _ inB)
      tauto
    · rw [compare_eq_iff_eq.mpr rfl]
      have notA : (y.1, w) ∉ toList a := fun inA => lt_irrefl _ (below (y.1, w) inA)
      have notB : (y.1, w) ∉ toList b := fun inB => lt_irrefl _ (above (y.1, w) inB)
      constructor
      · rintro ⟨⟩
        exact .inr (.inl rfl)
      · rintro (inA | eq | inB)
        · exact (notA inA).elim
        · exact congrArg some (congrArg Prod.snd eq).symm
        · exact (notB inB).elim
    · rw [compare_gt_iff_gt.mpr gt, ihb ordB]
      have notY : (k, w) ≠ y := fun eq => (ne_of_gt gt) (congrArg Prod.fst eq)
      have notA : (k, w) ∉ toList a := fun inA => lt_asymm gt (below _ inA)
      tauto

/-- `contain` and `search` take the same path. -/
theorem contain_eq_isSome_search (k : K) (t : RB K V) : contain k t = (search k t).isSome := by
  induction t with
  | E => rfl
  | T c a y b iha ihb =>
    simp only [contain, search]
    split <;> simp_all

/-! ### Insertion -/

theorem toList_ins_of_lt (lt : x.1 < y.1) :
    toList (ins (T c a y b) x) = toList (ins a x) ++ y :: toList b := by
  cases c <;> simp [ins, compare_lt_iff_lt.mpr lt]

theorem toList_ins_of_gt (gt : y.1 < x.1) :
    toList (ins (T c a y b) x) = toList a ++ y :: toList (ins b x) := by
  cases c <;> simp [ins, compare_gt_iff_gt.mpr gt]

theorem toList_ins_of_eq (eq : x.1 = y.1) : ins (T c a y b) x = T c a y b := by
  cases c <;> simp [ins, eq]

/-- `ins` adds at most its own pair. -/
theorem mem_toList_ins_of_mem {p : K × V} (member : p ∈ toList (ins t x)) :
    p ∈ toList t ∨ p = x := by
  induction t with
  | E => simpa [ins] using member
  | T c a y b iha ihb =>
    simp only [toList_T, List.mem_append, List.mem_cons]
    rcases lt_trichotomy x.1 y.1 with lt | eq | gt
    · rw [toList_ins_of_lt lt, List.mem_append, List.mem_cons] at member
      rcases member with inA | rest
      · rcases iha inA with inA | rfl
        · exact .inl (.inl inA)
        · exact .inr rfl
      · exact .inl (.inr rest)
    · rw [toList_ins_of_eq eq, toList_T] at member
      exact .inl (by simpa using member)
    · rw [toList_ins_of_gt gt, List.mem_append, List.mem_cons] at member
      rcases member with inA | rfl | inB
      · exact .inl (.inl inA)
      · exact .inl (.inr (.inl rfl))
      · rcases ihb inB with inB | rfl
        · exact .inl (.inr (.inr inB))
        · exact .inr rfl

theorem ordered_ins (ordered : Ordered t) : Ordered (ins t x) := by
  induction t with
  | E => simp [ins, Ordered]
  | T c a y b iha ihb =>
    obtain ⟨ordA, ordB, below, above⟩ := ordered_T.mp ordered
    rcases lt_trichotomy x.1 y.1 with lt | eq | gt
    · have ordered' : Ordered (T c (ins a x) y b) := by
        refine ordered_T.mpr ⟨iha ordA, ordB, fun p member => ?_, above⟩
        rcases mem_toList_ins_of_mem member with inA | rfl
        · exact below p inA
        · exact lt
      simpa only [Ordered, toList_ins_of_lt lt, toList_T] using ordered'
    · rwa [toList_ins_of_eq eq]
    · have ordered' : Ordered (T c a y (ins b x)) := by
        refine ordered_T.mpr ⟨ordA, ihb ordB, below, fun p member => ?_⟩
        rcases mem_toList_ins_of_mem member with inB | rfl
        · exact above p inB
        · exact gt
      simpa only [Ordered, toList_ins_of_gt gt, toList_T] using ordered'

/-- `ins` adds its pair exactly when no listed pair has its key. -/
theorem mem_toList_ins (ordered : Ordered t) {p : K × V} :
    p ∈ toList (ins t x) ↔ p ∈ toList t ∨ (p = x ∧ ∀ q ∈ toList t, q.1 ≠ x.1) := by
  induction t with
  | E => simp [ins]
  | T c a y b iha ihb =>
    obtain ⟨ordA, ordB, below, above⟩ := ordered_T.mp ordered
    rcases lt_trichotomy x.1 y.1 with lt | eq | gt
    · -- the pairs right of `a` have greater keys than `x`
      have keyY : y.1 ≠ x.1 := ne_of_gt lt
      have keysB : ∀ q ∈ toList b, q.1 ≠ x.1 := fun q inB => ne_of_gt (lt.trans (above q inB))
      rw [toList_ins_of_lt lt]
      simp only [toList_T, List.mem_append, List.mem_cons, iha ordA, or_imp, forall_and,
        forall_eq]
      tauto
    · -- the key is present: `y` has it
      rw [toList_ins_of_eq eq]
      constructor
      · exact .inl
      · rintro (member | ⟨_, absent⟩)
        · exact member
        · exact (absent y (by simp) eq.symm).elim
    · have keyY : y.1 ≠ x.1 := ne_of_lt gt
      have keysA : ∀ q ∈ toList a, q.1 ≠ x.1 := fun q inA => ne_of_lt ((below q inA).trans gt)
      rw [toList_ins_of_gt gt]
      simp only [toList_T, List.mem_append, List.mem_cons, ihb ordB, or_imp, forall_and,
        forall_eq]
      tauto

theorem toList_insert (h : insert x t = some t') : toList t' = toList (ins t x) := by
  unfold insert at h
  split at h
  · next a z b eq =>
    cases h
    rw [eq]
    rfl
  · cases h

/-! ### Deletion -/

/-- `del` drops the pair of its key and keeps every other pair in order. -/
theorem toList_del (ordered : Ordered t) (h : del t k = some t') :
    toList t' = (toList t).filter fun e => decide (e.1 ≠ k) := by
  induction t generalizing t' with
  | E =>
    rw [del] at h
    cases h
    rfl
  | T c a y b iha ihb =>
    obtain ⟨ordA, ordB, below, above⟩ := ordered_T.mp ordered
    rw [del] at h
    rcases lt_trichotomy k y.1 with lt | rfl | gt
    · rw [compare_lt_iff_lt.mpr lt] at h
      obtain ⟨a', delA, eq⟩ := toList_delformLeft h
      -- `y` and the pairs right of it have keys above `k`
      have kept : ((y :: toList b).filter fun e => decide (e.1 ≠ k)) = y :: toList b := by
        rw [List.filter_eq_self]
        rintro q (_ | ⟨_, inB⟩)
        · simpa using ne_of_gt lt
        · simpa using ne_of_gt (lt.trans (above q inB))
      rw [eq, iha ordA delA, toList_T, List.filter_append, kept]
    · rw [compare_eq_iff_eq.mpr rfl] at h
      have keptA : ((toList a).filter fun e => decide (e.1 ≠ y.1)) = toList a := by
        rw [List.filter_eq_self]
        intro q inA
        simpa using ne_of_lt (below q inA)
      have keptB : ((toList b).filter fun e => decide (e.1 ≠ y.1)) = toList b := by
        rw [List.filter_eq_self]
        intro q inB
        simpa using ne_of_gt (above q inB)
      rw [toList_app h, toList_T, List.filter_append, List.filter_cons, keptA, keptB]
      simp
    · rw [compare_gt_iff_gt.mpr gt] at h
      obtain ⟨b', delB, eq⟩ := toList_delformRight h
      -- `y` and the pairs left of it have keys below `k`
      have keptA : ((toList a).filter fun e => decide (e.1 ≠ k)) = toList a := by
        rw [List.filter_eq_self]
        intro q inA
        simpa using ne_of_lt ((below q inA).trans gt)
      rw [eq, ihb ordB delB, toList_T, List.filter_append, keptA,
        List.filter_cons_of_pos (by simpa using ne_of_lt gt)]

theorem toList_delete (h : delete k t = some t') :
    ∃ t'', del t k = some t'' ∧ toList t' = toList t'' := by
  obtain ⟨t'', eq, rfl⟩ := Option.map_eq_some_iff.mp h
  refine ⟨t'', eq, ?_⟩
  split <;> rfl

end Order

end RbTree

end FtlOs
