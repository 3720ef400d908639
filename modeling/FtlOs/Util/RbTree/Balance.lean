import FtlOs.Util.RbTree.Defs

/-!
# The red-black invariants

`Balanced t c n` says that `t` is a red-black tree: its root has colour `c` (an empty tree is
black), no red node has a red child, and every path from the root to an empty tree passes `n`
black nodes.  While `insert` and `delete` rebuild a path, the node they return may break the
colour rule at its root: `RedRed p t n` allows a red root with a red child when `p` holds.

`ins` keeps the black height and returns at most a red-red root (`Balanced.ins`), which
`balance` repairs one level up (`balance_balanced`).  `del` of a black node lowers the black
height by one (`DelProp`), which `balleft` and `balright` repair one level up
(`balleft_redRed`, `balright_redRed`); `app` joins two trees of one black height
(`app_redRed`).  Along the way each of the four `unreachable!()` of the source is shown out of
reach on a red-black tree: every lemma below says that the function returns `some`.
-/

namespace FtlOs

namespace RbTree

open Color RB

variable {K V : Type}

/-- `t` is a red-black tree with root colour `c` and black height `n`. -/
inductive Balanced : RB K V → Color → Nat → Prop
  | nil : Balanced E B 0
  | red {a b : RB K V} {x : K × V} {n : Nat} :
      Balanced a B n → Balanced b B n → Balanced (T R a x b) R n
  | black {a b : RB K V} {x : K × V} {ca cb : Color} {n : Nat} :
      Balanced a ca n → Balanced b cb n → Balanced (T B a x b) B (n + 1)

/-- `t` is a red-black tree of black height `n`, but for a red root with a red child, which is
allowed when `p` holds. -/
inductive RedRed (p : Prop) : RB K V → Nat → Prop
  | balanced {t : RB K V} {c : Color} {n : Nat} : Balanced t c n → RedRed p t n
  | redred {a b : RB K V} {x : K × V} {ca cb : Color} {n : Nat} :
      p → Balanced a ca n → Balanced b cb n → RedRed p (T R a x b) n

variable {t a b l r : RB K V} {x v : K × V} {c ca cb : Color} {n : Nat} {p q : Prop}

namespace Balanced

/-- A balanced tree whose root is not red is black. -/
theorem black_of_not_red (h : Balanced t c n) (notRed : ∀ a x b, t = T R a x b → False) :
    c = B := by
  cases h with
  | nil => rfl
  | red _ _ => exact (notRed _ _ _ rfl).elim
  | black _ _ => rfl

/-- A black tree of positive black height is a black node. -/
theorem black_node (h : Balanced t B (n + 1)) : ∃ a x b, t = T B a x b := by
  cases h with
  | black _ _ => exact ⟨_, _, _, rfl⟩

/-- A red node over balanced subtrees has at most a red-red violation at its root. -/
theorem redRed_node (ha : Balanced a ca n) (hb : Balanced b cb n) (hp : ca = R ∨ cb = R → p) :
    RedRed p (T R a x b) n := by
  by_cases red : ca = R ∨ cb = R
  · exact .redred (hp red) ha hb
  · obtain ⟨rfl, rfl⟩ : ca = B ∧ cb = B := by
      cases ca <;> cases cb <;> simp_all
    exact .balanced (.red ha hb)

end Balanced

namespace RedRed

theorem of_red (h : RedRed p (T R a x b) n) : ∃ ca cb, Balanced a ca n ∧ Balanced b cb n := by
  cases h with
  | balanced h =>
    cases h with
    | red ha hb => exact ⟨_, _, ha, hb⟩
  | redred _ ha hb => exact ⟨_, _, ha, hb⟩

/-- Where the violation is not allowed the tree is balanced. -/
theorem of_false (np : ¬p) (h : RedRed p t n) : ∃ c, Balanced t c n := by
  cases h with
  | balanced h => exact ⟨_, h⟩
  | redred hp _ _ => exact (np hp).elim

theorem imp (pq : p → q) (h : RedRed p t n) : RedRed q t n := by
  cases h with
  | balanced h => exact .balanced h
  | redred hp ha hb => exact .redred (pq hp) ha hb

/-- A tree whose root is not red has no red-red violation. -/
theorem of_not_red (h : RedRed p t n) (notRed : ∀ a x b, t = T R a x b → False) :
    Balanced t B n := by
  cases h with
  | balanced h =>
    obtain rfl := h.black_of_not_red notRed
    exact h
  | redred _ _ _ => exact (notRed _ _ _ rfl).elim

/-- A tree whose root has no red child is balanced. -/
theorem of_no_red_child (h : RedRed p t n)
    (left : ∀ a x b y c, t = T R (T R a x b) y c → False)
    (right : ∀ a x b y c, t = T R a x (T R b y c) → False) : ∃ c, Balanced t c n := by
  cases h with
  | balanced h => exact ⟨_, h⟩
  | redred _ ha hb =>
    obtain rfl := ha.black_of_not_red fun a x b eq => left a x b _ _ (by rw [eq])
    obtain rfl := hb.black_of_not_red fun a x b eq => right _ _ a x b (by rw [eq])
    exact ⟨R, .red ha hb⟩

/-- Made black, a tree with at most a red-red root is balanced. -/
theorem blacken (h : RedRed p (T c a x b) n) : ∃ n', Balanced (T B a x b) B n' := by
  cases h with
  | balanced h =>
    cases h with
    | red ha hb => exact ⟨_, .black ha hb⟩
    | black ha hb => exact ⟨_, .black ha hb⟩
  | redred _ ha hb => exact ⟨_, .black ha hb⟩

end RedRed

/-! ## Depth -/

/-- The number of nodes on a longest path from the root down. -/
def depth : RB K V → Nat
  | E => 0
  | T _ a _ b => max (depth a) (depth b) + 1

/-- A red-black tree is at most twice as deep as its black height, and one more under a red
root. -/
theorem Balanced.depth_le (h : Balanced t c n) : depth t ≤ 2 * n + if c = R then 1 else 0 := by
  induction h with
  | nil => simp [depth]
  | red _ _ iha ihb =>
    simp only [depth, reduceCtorEq, if_false, if_true] at iha ihb ⊢
    omega
  | @black a b x ca cb n _ _ iha ihb =>
    simp only [depth, reduceCtorEq, if_false]
    have left : depth a ≤ 2 * n + 1 := by split_ifs at iha <;> omega
    have right : depth b ≤ 2 * n + 1 := by split_ifs at ihb <;> omega
    omega

/-! ## Insertion -/

theorem balance_ne_E (l : RB K V) (v : K × V) (r : RB K V) : balance l v r ≠ E := by
  fun_cases balance l v r <;> simp

/-- `balance` repairs a red-red violation in either subtree. -/
theorem balance_balanced (hl : RedRed True l n) (hr : RedRed True r n) :
    ∃ c, Balanced (balance l v r) c (n + 1) := by
  fun_cases balance l v r with
  | case1 a x b y c z d =>
    obtain ⟨_, _, ha, hb⟩ := hl.of_red
    obtain ⟨_, _, hc, hd⟩ := hr.of_red
    exact ⟨R, .red (.black ha hb) (.black hc hd)⟩
  | case2 a x b y c z d notRed =>
    obtain ⟨_, _, hab, hc⟩ := hl.of_red
    cases hab with
    | red ha hb => exact ⟨R, .red (.black ha hb) (.black hc (hr.of_not_red notRed))⟩
  | case3 a x b y c z d notRed _ =>
    obtain ⟨_, _, ha, hbc⟩ := hl.of_red
    cases hbc with
    | red hb hc => exact ⟨R, .red (.black ha hb) (.black hc (hr.of_not_red notRed))⟩
  | case4 a x b y c z d notRed =>
    obtain ⟨_, _, hb, hcd⟩ := hr.of_red
    cases hcd with
    | red hc hd => exact ⟨R, .red (.black (hl.of_not_red notRed) hb) (.black hc hd)⟩
  | case5 a x b y c z d notRed _ =>
    obtain ⟨_, _, hbc, hd⟩ := hr.of_red
    cases hbc with
    | red hb hc => exact ⟨R, .red (.black (hl.of_not_red notRed) hb) (.black hc hd)⟩
  | case6 l v r _ leftLeft leftRight rightRight rightLeft =>
    obtain ⟨_, hl⟩ := hl.of_no_red_child leftLeft leftRight
    obtain ⟨_, hr⟩ := hr.of_no_red_child rightLeft rightRight
    exact ⟨B, .black hl hr⟩

theorem exists_T_of_ne_E (ne : t ≠ E) : ∃ c a x b, t = T c a x b := by
  cases t with
  | E => exact (ne rfl).elim
  | T c a x b => exact ⟨c, a, x, b, rfl⟩

/-! ## Deletion -/

theorem sub1_redRed (h : Balanced t B (n + 1)) : ∃ t', sub1 t = some t' ∧ RedRed True t' n := by
  cases h with
  | black ha hb => exact ⟨_, rfl, ha.redRed_node hb fun _ => trivial⟩

/-- `balleft` restores the black height of a node whose left subtree lost one black level: its
`unreachable!()` arm is out of reach. -/
theorem balleft_redRed (hl : RedRed True l n) (hr : Balanced r c (n + 1)) :
    ∃ t, balleft l v r = some t ∧ RedRed (c = R) t (n + 1) := by
  fun_cases balleft l v r with
  | case1 a x b y c' =>
    obtain ⟨_, _, ha, hb⟩ := hl.of_red
    exact ⟨_, rfl, (Balanced.black ha hb).redRed_node hr fun red => by simpa using red⟩
  | case2 bl x a y b _ =>
    cases hr with
    | black ha hb =>
      obtain ⟨_, h⟩ := balance_balanced hl (ha.redRed_node hb fun _ => trivial)
      exact ⟨_, rfl, .balanced h⟩
  | case3 bl x a y b z c' notRed =>
    cases hr with
    | red hab hc =>
      cases hab with
      | black ha hb =>
        obtain ⟨c'', sub, hc''⟩ := sub1_redRed hc
        obtain ⟨_, h⟩ := balance_balanced (v := z) (.balanced hb) hc''
        exact ⟨_, by rw [sub, Option.map_some],
          .redred rfl (.black (hl.of_not_red notRed) ha) h⟩
  | case4 l v r _ notBlack notRedBlack =>
    -- a right subtree of positive black height is a black node or a red one over a black node
    cases hr with
    | red hab _ =>
      obtain ⟨a, y, b, rfl⟩ := hab.black_node
      exact (notRedBlack _ _ _ _ _ rfl).elim
    | black _ _ => exact (notBlack _ _ _ rfl).elim

/-- `balright` restores the black height of a node whose right subtree lost one black level. -/
theorem balright_redRed (hl : Balanced l c (n + 1)) (hr : RedRed True r n) :
    ∃ t, balright l v r = some t ∧ RedRed (c = R) t (n + 1) := by
  fun_cases balright l v r with
  | case1 a x b y c' =>
    obtain ⟨_, _, hb, hc⟩ := hr.of_red
    exact ⟨_, rfl, hl.redRed_node (Balanced.black hb hc) fun red => by simpa using red⟩
  | case2 a x b y bl _ =>
    cases hl with
    | black ha hb =>
      obtain ⟨_, h⟩ := balance_balanced (ha.redRed_node hb fun _ => trivial) hr
      exact ⟨_, rfl, .balanced h⟩
  | case3 a x b y c' z bl notRed =>
    cases hl with
    | red ha hbc =>
      cases hbc with
      | black hb hc =>
        obtain ⟨a', sub, ha'⟩ := sub1_redRed ha
        obtain ⟨_, h⟩ := balance_balanced (v := x) ha' (.balanced hb)
        exact ⟨_, by rw [sub, Option.map_some],
          .redred rfl h (.black hc (hr.of_not_red notRed))⟩
  | case4 l v r _ notBlack notRedBlack =>
    cases hl with
    | red _ hbc =>
      obtain ⟨b, y, c, rfl⟩ := hbc.black_node
      exact (notRedBlack _ _ _ _ _ rfl).elim
    | black _ _ => exact (notBlack _ _ _ rfl).elim

/-- `app` joins two trees of one black height into one of that height, with a red-red root only
when both were red. -/
theorem app_redRed (hl : Balanced l ca n) (hr : Balanced r cb n) :
    ∃ t, app l r = some t ∧ RedRed (ca = B → cb ≠ B) t n := by
  induction l, r using app.induct generalizing ca cb n with
  | case1 r => exact ⟨r, by rw [app], .balanced hr⟩
  | case2 l notE => exact ⟨l, by rw [app.eq_2 _ notE], .balanced hl⟩
  | case3 a x b c y d ih =>
    cases hl with
    | red ha hb =>
      cases hr with
      | red hc hd =>
        obtain ⟨bc, eq, hbc⟩ := ih hb hc
        obtain ⟨_, hbc⟩ := hbc.of_false (by simp)
        rw [app, eq, Option.map_some]
        split
        · cases hbc with
          | red hb' hc' => exact ⟨_, rfl, .redred (by simp) (.red ha hb') (.red hc' hd)⟩
        · next notRed =>
          obtain rfl := hbc.black_of_not_red notRed
          exact ⟨_, rfl, .redred (by simp) ha (.red hbc hd)⟩
  | case4 a x b c y d ih =>
    cases hl with
    | black ha hb =>
      cases hr with
      | black hc hd =>
        obtain ⟨bc, eq, hbc⟩ := ih hb hc
        rw [app, eq, Option.bind_some]
        split
        · obtain ⟨_, _, hb', hc'⟩ := hbc.of_red
          exact ⟨_, rfl, .balanced (.red (.black ha hb') (.black hc' hd))⟩
        · next notRed =>
          obtain ⟨t, eq, ht⟩ := balleft_redRed (v := x) (.balanced ha)
            (Balanced.black (hbc.of_not_red notRed) hd)
          obtain ⟨_, ht⟩ := ht.of_false (by simp)
          exact ⟨t, eq, .balanced ht⟩
  | case5 a b x c notE notRed ih =>
    obtain rfl := hl.black_of_not_red notRed
    cases hr with
    | red hb hc =>
      obtain ⟨ab, eq, hab⟩ := ih hl hb
      obtain ⟨_, hab⟩ := hab.of_false (by simp)
      exact ⟨_, by rw [app.eq_5 _ _ _ _ notE notRed, eq, Option.map_some],
        .redred (by simp) hab hc⟩
  | case6 a x b c notE notRed ih =>
    obtain rfl := hr.black_of_not_red notRed
    cases hl with
    | red ha hb =>
      obtain ⟨bc, eq, hbc⟩ := ih hb hr
      obtain ⟨_, hbc⟩ := hbc.of_false (by simp)
      exact ⟨_, by rw [app.eq_6 _ _ _ _ notE notRed, eq, Option.map_some],
        .redred (by simp) ha hbc⟩

/-- What `del` keeps of the invariant: below a black node it loses one black level and may
leave a red root with a red child, below a red node or an empty tree it keeps both. -/
def DelProp (t t' : RB K V) (n : Nat) : Prop :=
  match t with
  | T B _ _ _ => ∃ m, n = m + 1 ∧ RedRed True t' m
  | _ => ∃ c, Balanced t' c n

theorem DelProp.redRed {t' : RB K V} (h : DelProp t t' n) : ∃ m, RedRed True t' m := by
  match t, h with
  | T B _ _ _, ⟨m, _, h⟩ => exact ⟨m, h⟩
  | E, ⟨_, h⟩ | T R _ _ _, ⟨_, h⟩ => exact ⟨n, .balanced h⟩

section Deletion

variable {a' b' : RB K V} {y : K × V}

/-- Deleting from the left subtree of a black node keeps the node's subtrees balanced, one
black level lower. -/
theorem delformLeft_black (delProp : DelProp a a' n) (hb : Balanced b cb n) :
    ∃ t, delformLeft a y b (some a') = some t ∧ RedRed True t n := by
  -- `delform_left` takes `balleft` exactly when `a` is a black node
  match a, delProp with
  | T B _ _ _, ⟨m, eq, ha'⟩ =>
    subst eq
    obtain ⟨t, eq, ht⟩ := balleft_redRed (v := y) ha' hb
    exact ⟨t, eq, ht.imp fun _ => trivial⟩
  | E, ⟨_, ha'⟩ | T R _ _ _, ⟨_, ha'⟩ =>
    exact ⟨_, rfl, ha'.redRed_node hb fun _ => trivial⟩

theorem delformRight_black (ha : Balanced a ca n) (delProp : DelProp b b' n) :
    ∃ t, delformRight a y b (some b') = some t ∧ RedRed True t n := by
  match b, delProp with
  | T B _ _ _, ⟨m, eq, hb'⟩ =>
    subst eq
    obtain ⟨t, eq, ht⟩ := balright_redRed (v := y) ha hb'
    exact ⟨t, eq, ht.imp fun _ => trivial⟩
  | E, ⟨_, hb'⟩ | T R _ _ _, ⟨_, hb'⟩ =>
    exact ⟨_, rfl, ha.redRed_node hb' fun _ => trivial⟩

end Deletion

/-! ## The operations -/

section Operations

variable [LinearOrder K]

theorem ins_ne_E (s : RB K V) (x : K × V) : ins s x ≠ E := by
  cases s with
  | E => simp [ins]
  | T c a y b =>
    cases c <;> simp only [ins] <;> split <;> simp [balance_ne_E]

/-- `ins` keeps the black height; below a black root it keeps the colour rule, below a red one
it may leave a red root with a red child. -/
theorem ins_redRed (x : K × V) (h : Balanced t c n) : RedRed (c = R) (ins t x) n := by
  induction h with
  | nil => exact .balanced (.red .nil .nil)
  | red ha hb iha ihb =>
    simp only [ins]
    split
    · obtain ⟨_, ha'⟩ := iha.of_false (by simp)
      exact ha'.redRed_node hb fun _ => trivial
    · obtain ⟨_, hb'⟩ := ihb.of_false (by simp)
      exact ha.redRed_node hb' fun _ => trivial
    · exact .balanced (.red ha hb)
  | black ha hb iha ihb =>
    simp only [ins]
    split
    · obtain ⟨_, h⟩ := balance_balanced (iha.imp fun _ => trivial) (.balanced hb)
      exact .balanced h
    · obtain ⟨_, h⟩ := balance_balanced (.balanced ha) (ihb.imp fun _ => trivial)
      exact .balanced h
    · exact .balanced (.black ha hb)

/-- `insert` into a red-black tree returns a red-black tree with a black root: its
`unreachable!()` is out of reach. -/
theorem insert_balanced (x : K × V) (h : Balanced t c n) :
    ∃ t' n', insert x t = some t' ∧ Balanced t' B n' := by
  obtain ⟨c', a, z, b, eq⟩ := exists_T_of_ne_E (ins_ne_E t x)
  obtain ⟨n', h'⟩ := (eq ▸ ins_redRed x h).blacken
  exact ⟨_, n', by rw [insert, eq], h'⟩

variable {a' b' : RB K V} {y : K × V} {k : K}

/-- Deleting from the left subtree of a red node keeps the node balanced. -/
theorem delformLeft_red (ha : Balanced a B n) (hb : Balanced b B n) (delA : del a k = some a')
    (delProp : DelProp a a' n) :
    ∃ t, delformLeft a y b (some a') = some t ∧ ∃ c, Balanced t c n := by
  cases ha with
  | nil =>
    obtain rfl : a' = E := by simpa [del] using delA.symm
    exact ⟨_, rfl, R, .red .nil hb⟩
  | black _ _ =>
    obtain ⟨m, eq, ha'⟩ := delProp
    obtain rfl : _ = m := Nat.succ_injective eq
    obtain ⟨t, eq, ht⟩ := balleft_redRed (v := y) ha' hb
    obtain ⟨c, ht⟩ := ht.of_false (by simp)
    exact ⟨t, eq, c, ht⟩

theorem delformRight_red (ha : Balanced a B n) (hb : Balanced b B n) (delB : del b k = some b')
    (delProp : DelProp b b' n) :
    ∃ t, delformRight a y b (some b') = some t ∧ ∃ c, Balanced t c n := by
  cases hb with
  | nil =>
    obtain rfl : b' = E := by simpa [del] using delB.symm
    exact ⟨_, rfl, R, .red ha .nil⟩
  | black _ _ =>
    obtain ⟨m, eq, hb'⟩ := delProp
    obtain rfl : _ = m := Nat.succ_injective eq
    obtain ⟨t, eq, ht⟩ := balright_redRed (v := y) ha hb'
    obtain ⟨c, ht⟩ := ht.of_false (by simp)
    exact ⟨t, eq, c, ht⟩

/-- `del` on a red-black tree returns a tree: none of the `unreachable!()` of `balleft`,
`balright` and `sub1` is reached. -/
theorem del_delProp (x : K) (h : Balanced t c n) :
    ∃ t', del t x = some t' ∧ DelProp t t' n := by
  induction h with
  | nil => exact ⟨E, rfl, B, .nil⟩
  | @red a b y n ha hb iha ihb =>
    obtain ⟨a', delA, propA⟩ := iha
    obtain ⟨b', delB, propB⟩ := ihb
    rw [del]
    split
    · rw [delA]
      exact delformLeft_red ha hb delA propA
    · rw [delB]
      exact delformRight_red ha hb delB propB
    · obtain ⟨t, eq, ht⟩ := app_redRed ha hb
      exact ⟨t, eq, ht.of_false (by simp)⟩
  | @black a b y ca cb n ha hb iha ihb =>
    obtain ⟨a', delA, propA⟩ := iha
    obtain ⟨b', delB, propB⟩ := ihb
    rw [del]
    split
    · rw [delA]
      obtain ⟨t, eq, ht⟩ := delformLeft_black (y := y) propA hb
      exact ⟨t, eq, n, rfl, ht⟩
    · rw [delB]
      obtain ⟨t, eq, ht⟩ := delformRight_black (y := y) ha propB
      exact ⟨t, eq, n, rfl, ht⟩
    · obtain ⟨t, eq, ht⟩ := app_redRed ha hb
      exact ⟨t, eq, n, rfl, ht.imp fun _ => trivial⟩

/-- `delete` from a red-black tree returns a red-black tree with a black root. -/
theorem delete_balanced (x : K) (h : Balanced t c n) :
    ∃ t' n', delete x t = some t' ∧ Balanced t' B n' := by
  obtain ⟨t', eq, delProp⟩ := del_delProp x h
  obtain ⟨m, redRed⟩ := delProp.redRed
  rw [delete, eq, Option.map_some]
  cases t' with
  | E => exact ⟨E, 0, rfl, .nil⟩
  | T c a y b =>
    obtain ⟨n', h'⟩ := redRed.blacken
    exact ⟨_, n', rfl, h'⟩

end Operations

end RbTree

end FtlOs
