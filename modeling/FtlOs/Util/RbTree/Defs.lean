import Mathlib

/-!
# The persistent red-black tree

`container/immutable/rb_tree.rs` of `ftl-util`: an immutable red-black tree of key-value pairs
after Kahrs' functional one.  Every operation builds a new tree and shares the untouched
subtrees with the old one (through `Arc`, which the model leaves out: a subtree is a value).
`insert` goes down to the place of the key, puts a red leaf there and rebalances on the way
back up with `balance`, the four red-red rotations; a present key keeps its pair.  `delete`
goes down with `del`, joins the two subtrees of the key's node with `app`, and repairs the
black height on the way back up with `balleft` and `balright`.

Four places of the source panic with `unreachable!()`: a tree `insert` gets empty back from
`ins`, and the last arms of `balleft`, `balright` and `sub1`.  The model returns `Option` from
these functions and from their callers; `none` is the panic.  `K: Ord` is a linear order on the
keys.
-/

namespace FtlOs

namespace RbTree

/-- `Color`. -/
inductive Color
  | R
  | B
  deriving DecidableEq, Repr

/-- `RB<K, V>`: the empty tree `E`, or a node `T` with its colour, its left subtree, its pair and
its right subtree. -/
inductive RB (K V : Type)
  | E
  | T (c : Color) (l : RB K V) (kv : K × V) (r : RB K V)
  deriving DecidableEq, Repr

open Color RB

variable {K V : Type}

/-- `balance`: a black node over `a`, `x`, `b`, with a red child that has a red child rotated
into a red node with two black children. -/
def balance : RB K V → K × V → RB K V → RB K V
  | T R a x b, y, T R c z d => T R (T B a x b) y (T B c z d)
  | T R (T R a x b) y c, z, d => T R (T B a x b) y (T B c z d)
  | T R a x (T R b y c), z, d => T R (T B a x b) y (T B c z d)
  | a, x, T R b y (T R c z d) => T R (T B a x b) y (T B c z d)
  | a, x, T R (T R b y c) z d => T R (T B a x b) y (T B c z d)
  | a, x, b => T B a x b

/-- `sub1`: a black node made red. -/
def sub1 : RB K V → Option (RB K V)
  | T B a x b => some (T R a x b)
  | _ => none

/-- `balleft`: a node whose left subtree `tl` is one black level lower than its right one. -/
def balleft : RB K V → K × V → RB K V → Option (RB K V)
  | T R a x b, y, c => some (T R (T B a x b) y c)
  | bl, x, T B a y b => some (balance bl x (T R a y b))
  | bl, x, T R (T B a y b) z c => (sub1 c).map fun c' => T R (T B bl x a) y (balance b z c')
  | _, _, _ => none

/-- `balright`: a node whose right subtree `tr` is one black level lower than its left one. -/
def balright : RB K V → K × V → RB K V → Option (RB K V)
  | a, x, T R b y c => some (T R a x (T B b y c))
  | T B a x b, y, bl => some (balance (T R a x b) y bl)
  | T R a x (T B b y c), z, bl => (sub1 a).map fun a' => T R (balance a' x b) y (T B c z bl)
  | _, _, _ => none

/-- `app`: the join of two trees, every key of the first below every key of the second. -/
def app : RB K V → RB K V → Option (RB K V)
  | E, x => some x
  | x, E => some x
  | T R a x b, T R c y d => (app b c).map fun bc =>
    match bc with
    | T R b z c => T R (T R a x b) z (T R c y d)
    | bc => T R a x (T R bc y d)
  | T B a x b, T B c y d => (app b c).bind fun bc =>
    match bc with
    | T R b z c => some (T R (T B a x b) z (T B c y d))
    | bc => balleft a x (T B bc y d)
  | a, T R b x c => (app a b).map fun ab => T R ab x c
  | T R a x b, c => (app b c).map fun bc => T R a x bc
termination_by l r => sizeOf l + sizeOf r

/-- `delform_left(a, y, b, x)`: the node over `a`, `y`, `b` after the key `x` is deleted from
its left subtree `a`.  Both arms of the source compute `del(a, x)`; it is the argument `a'`. -/
def delformLeft (a : RB K V) (y : K × V) (b : RB K V) (a' : Option (RB K V)) :
    Option (RB K V) :=
  match a with
  | T B _ _ _ => a'.bind fun a' => balleft a' y b
  | _ => a'.map fun a' => T R a' y b

/-- `delform_right(a, y, b, x)`, with `del(b, x)` as `b'`. -/
def delformRight (a : RB K V) (y : K × V) (b : RB K V) (b' : Option (RB K V)) :
    Option (RB K V) :=
  match b with
  | T B _ _ _ => b'.bind fun b' => balright a y b'
  | _ => b'.map fun b' => T R a y b'

section Order

variable [LinearOrder K]

/-- `ins` of `insert`: the pair `x` put into `s` below the node of its key, if the key is new. -/
def ins : RB K V → K × V → RB K V
  | E, x => T R E x E
  | T B a y b, x =>
    match compare x.1 y.1 with
    | .lt => balance (ins a x) y b
    | .gt => balance a y (ins b x)
    | .eq => T B a y b
  | T R a y b, x =>
    match compare x.1 y.1 with
    | .lt => T R (ins a x) y b
    | .gt => T R a y (ins b x)
    | .eq => T R a y b

/-- `insert`: `ins`, with the root made black. -/
def insert (x : K × V) (s : RB K V) : Option (RB K V) :=
  match ins s x with
  | T _ a z b => some (T B a z b)
  | E => none

/-- `contain`. -/
def contain (x : K) : RB K V → Bool
  | E => false
  | T _ a y b =>
    match compare x y.1 with
    | .eq => true
    | .lt => contain x a
    | .gt => contain x b

/-- `search`. -/
def search (x : K) : RB K V → Option V
  | E => none
  | T _ a y b =>
    match compare x y.1 with
    | .eq => some y.2
    | .lt => search x a
    | .gt => search x b

/-- `del` of `delete`. -/
def del : RB K V → K → Option (RB K V)
  | E, _ => some E
  | T _ a y b, x =>
    match compare x y.1 with
    | .lt => delformLeft a y b (del a x)
    | .gt => delformRight a y b (del b x)
    | .eq => app a b

/-- `delete`: `del`, with the root made black. -/
def delete (x : K) (t : RB K V) : Option (RB K V) :=
  (del t x).map fun t =>
    match t with
    | T _ a y b => T B a y b
    | E => E

/-- `RBTree<K, V>`. -/
structure RBTree (K V : Type) where
  root : RB K V

namespace RBTree

/-- `RBTree::new`. -/
def new : RBTree K V := ⟨E⟩

/-- `RBTree::insert_arc`. -/
def insertArc (t : RBTree K V) (kv : K × V) : Option (RBTree K V) :=
  (RbTree.insert kv t.root).map RBTree.mk

/-- `RBTree::insert`. -/
def insert (t : RBTree K V) (key : K) (value : V) : Option (RBTree K V) :=
  t.insertArc (key, value)

/-- `RBTree::contain`. -/
def contain (t : RBTree K V) (key : K) : Bool := RbTree.contain key t.root

/-- The first half of the source's `test`. -/
example : (((new.insert 1 1).bind fun t => t.insert 2 2).bind fun t => t.insert 3 3).map
    (fun t : RBTree Nat Nat => [t.contain 1, t.contain 2, t.contain 3, t.contain 4]) =
    some [true, true, true, false] := by decide

/-- `RBTree::search`. -/
def search (t : RBTree K V) (key : K) : Option V := RbTree.search key t.root

/-- `RBTree::delete`. -/
def delete (t : RBTree K V) (key : K) : Option (RBTree K V) :=
  (RbTree.delete key t.root).map RBTree.mk

end RBTree

end Order

end RbTree

end FtlOs
