import FtlOs.Library.OrdMap

/-!
# The kernel's interval map

`RangeMap U V` maps disjoint half-open ranges `[start, end)` to values.  It is
stored as an ordered map from the start of each range to a node holding the
range's end and its value (`tools/container/range_map.rs`).  Each definition
below follows the Rust method of the same name step by step.

A panic of the source (an `unwrap` of an absent entry, a `try_insert` of a
present key, a failed `assert!`) is the result `none`.  `debug_assert!` is
compiled out, as in the release build the kernel is shipped in.  The closures
the methods take are pure functions: a split function returns the new value of
the value it was lent mutably together with the value it returns, and the calls
of a `release` closure are recorded in order in a list.
-/

namespace FtlOs

universe u v

/-- A half-open range `[start, end)`; `stop` is the source's `end`. -/
structure Range (U : Type u) where
  /-- The first point of the range. -/
  start : U
  /-- The first point after the range. -/
  stop : U
  deriving DecidableEq, Repr

/-- A node of the map: the end of its range and the value stored for it. -/
structure Node (U : Type u) (V : Type v) where
  /-- The end of the range (the source's `end`). -/
  stop : U
  /-- The stored value. -/
  value : V
  deriving DecidableEq, Repr

/-- `[start, end) -> value`, keyed by `start`. -/
structure RangeMap (U : Type u) (V : Type v) [LinearOrder U] where
  /-- The underlying ordered map (the source's field `.0`). -/
  nodes : OrdMap U (Node U V)

namespace RangeMap

variable {U : Type u} {V : Type v} [LinearOrder U]

/-- A split function: given the value of a node, the cut point and the node's
range, the new value of the node together with the value split off. -/
abbrev Split (U : Type u) (V : Type v) := V → U → Range U → V × V

/-- The values handed to a `release` closure, with their ranges, in call order. -/
abbrev Released (U : Type u) (V : Type v) := List (V × Range U)

/-- `RangeMap::new`. -/
def new : RangeMap U V := ⟨OrdMap.empty⟩

/-! ## Insertion and lookup -/

/-- `RangeMap::try_insert`: refuse the range when the last node starting below
`end` reaches past `start`, else insert a node at `start`. -/
def tryInsert (m : RangeMap U V) (r : Range U) (value : V) :
    Option (Except V (RangeMap U V)) :=
  let insertNode :=
    (m.nodes.tryInsert r.start ⟨r.stop, value⟩).map fun nodes => .ok ⟨nodes⟩
  match m.nodes.lastLT r.stop with
  | some (_, node) => if r.start < node.stop then some (.error value) else insertNode
  | none => insertNode

/-- `RangeMap::get`: the value of the last node starting at or before `key`,
when that node reaches past `key`. -/
def get (m : RangeMap U V) (key : U) : Option V :=
  match m.nodes.lastLE key with
  | some (_, node) => if key < node.stop then some node.value else none
  | none => none

/-- `RangeMap::get_mut`: the node `get` reads, named by its start, with its
value (the mutable reference the source returns). -/
def getMut (m : RangeMap U V) (key : U) : Option (U × V) :=
  match m.nodes.lastLE key with
  | some (start, node) => if key < node.stop then some (start, node.value) else none
  | none => none

/-- `RangeMap::get_rv`: the range containing `key` and its value. -/
def getRv (m : RangeMap U V) (key : U) : Option (Range U × V) :=
  match m.nodes.lastLE key with
  | some (start, node) =>
      if key < node.stop then some (⟨start, node.stop⟩, node.value) else none
  | none => none

/-- `RangeMap::range_is_free`: `Ok` when `[start, end)` is nonempty and meets
no node. -/
def rangeIsFree (m : RangeMap U V) (r : Range U) : Except Unit Unit :=
  if r.stop ≤ r.start then .error ()
  else
    let noneInside : Except Unit Unit :=
      if (m.nodes.rangeIn r.start r.stop).isEmpty then .ok () else .error ()
    match m.nodes.lastLT r.start with
    | some (_, node) => if r.start < node.stop then .error () else noneInside
    | none => noneInside

/-- `RangeMap::range_contain`: the value of the node starting at or before
`range.start` when it reaches at least to `range.end`. -/
def rangeContain (m : RangeMap U V) (r : Range U) : Option V :=
  match m.nodes.lastLE r.start with
  | some (_, node) => if r.stop ≤ node.stop then some node.value else none
  | none => none

/-- `RangeMap::range_match`: the value of the node whose range is exactly `r`. -/
def rangeMatch (m : RangeMap U V) (r : Range U) : Option V :=
  match m.nodes.lastLE r.start with
  | some (start, node) =>
      if start = r.start ∧ node.stop = r.stop then some node.value else none
  | none => none

/-- `RangeMap::force_remove_one`: remove the node at `start`, which must end at
`end`. -/
def forceRemoveOne (m : RangeMap U V) (r : Range U) : Option (V × RangeMap U V) := do
  let (node, nodes) ← m.nodes.remove r.start
  if node.stop = r.stop then some (node.value, ⟨nodes⟩) else none

/-- `RangeMap::iter`: every range with its value, in increasing order. -/
def iter (m : RangeMap U V) : List (Range U × V) :=
  m.nodes.entries.map fun e => (⟨e.1, e.2.stop⟩, e.2.value)

/-! ## Removal -/

/-- The first step of `RangeMap::remove`: the last node starting below `start`
that reaches past it is cut at `start`; the part inside `[start, end)` is
released, and a part reaching past `end` becomes a node at `end`. -/
def removeLeft (m : RangeMap U V) (r : Range U) (splitR : Split U V) :
    Option (RangeMap U V × Released U V) :=
  match m.nodes.lastLT r.start with
  | none => some (m, [])
  | some (nStart, node) =>
      if r.start < node.stop then
        let (left, vM) := splitR node.value r.start ⟨nStart, node.stop⟩
        let nodes := m.nodes.modify nStart fun _ => ⟨r.start, left⟩
        if r.stop < node.stop then
          let (vM', vR) := splitR vM r.stop ⟨r.start, node.stop⟩
          (nodes.tryInsert r.stop ⟨node.stop, vR⟩).map fun nodes =>
            (⟨nodes⟩, [(vM', r)])
        else some (⟨nodes⟩, [(vM, ⟨r.start, node.stop⟩)])
      else some (m, [])

/-- The second step of `RangeMap::remove`: the last node starting below `end`
that reaches past it loses its part before `end` and is moved to key `end`. -/
def removeRight (m : RangeMap U V) (r : Range U) (splitL : Split U V) :
    Option (RangeMap U V × Released U V) :=
  match m.nodes.lastLT r.stop with
  | none => some (m, [])
  | some (nStart, node) =>
      if r.stop < node.stop then
        let (right, cut) := splitL node.value r.stop ⟨nStart, node.stop⟩
        do
          let (moved, nodes) ←
            (m.nodes.modify nStart fun _ => ⟨node.stop, right⟩).remove nStart
          let nodes ← nodes.tryInsert r.stop moved
          pure (⟨nodes⟩, [(cut, ⟨nStart, r.stop⟩)])
      else some (m, [])

/-- The loop closing `RangeMap::remove`: while some node starts in
`[start, end)`, remove the first one and release it. -/
def removeInner (r : Range U) (nodes : OrdMap U (Node U V)) :
    Option (OrdMap U (Node U V) × Released U V) :=
  match (nodes.rangeIn r.start r.stop).head? with
  | none => some (nodes, [])
  | some (nStart, _) =>
      match _found : nodes.remove nStart with
      | none => none
      | some (node, rest) =>
          (removeInner r rest).map fun (left, released) =>
            (left, (node.value, ⟨nStart, node.stop⟩) :: released)
termination_by nodes.size
decreasing_by
  obtain ⟨member, rfl⟩ := OrdMap.remove_eq_some_iff.mp _found
  exact OrdMap.size_erase_lt member

/-- `RangeMap::remove`: take `[start, end)` out of the map, splitting the
nodes that straddle its ends. -/
def remove (m : RangeMap U V) (r : Range U) (splitL splitR : Split U V) :
    Option (RangeMap U V × Released U V) :=
  if r.stop ≤ r.start then some (m, [])
  else do
    let (m1, released1) ← m.removeLeft r splitR
    let (m2, released2) ← m1.removeRight r splitL
    let (nodes3, released3) ← removeInner r m2.nodes
    pure (⟨nodes3⟩, released1 ++ released2 ++ released3)

/-- `RangeMap::replace`: remove `[start, end)`, then insert it with `value`. -/
def replace (m : RangeMap U V) (r : Range U) (value : V) (splitL splitR : Split U V) :
    Option (RangeMap U V × Released U V) := do
  let (m', released) ← m.remove r splitL splitR
  let nodes ← m'.nodes.tryInsert r.start ⟨r.stop, value⟩
  pure (⟨nodes⟩, released)

/-- `RangeMap::clear`: empty the map, releasing every node in order. -/
def clear (m : RangeMap U V) : RangeMap U V × Released U V :=
  (new, m.nodes.entries.map fun e => (e.2.value, ⟨e.1, e.2.stop⟩))

/-- `RangeMap::clear_if`: drain the nodes whose value and range satisfy the
condition, releasing them in order. -/
def clearIf (m : RangeMap U V) (condition : V → Range U → Bool) :
    RangeMap U V × Released U V :=
  (⟨m.nodes.filter fun start node => !condition node.value ⟨start, node.stop⟩⟩,
    (m.nodes.entries.filter fun e => condition e.2.value ⟨e.1, e.2.stop⟩).map
      fun e => (e.2.value, ⟨e.1, e.2.stop⟩))

/-! ## Splitting, forking and merging -/

/-- `RangeMap::split_at`: cut the node that starts below `p` at `p`. -/
def splitAt (m : RangeMap U V) (p : U) (splitR : Split U V) : Option (RangeMap U V) := do
  let (start, node) ← m.nodes.lastLT p
  let (left, right) := splitR node.value p ⟨start, node.stop⟩
  let nodes ← (m.nodes.modify start fun _ => ⟨p, left⟩).tryInsert p ⟨node.stop, right⟩
  pure ⟨nodes⟩

/-- `RangeMap::split_at_maybe`: `split_at` when a node starting below `p`
reaches past `p`, otherwise nothing. -/
def splitAtMaybe (m : RangeMap U V) (p : U) (splitR : Split U V) : Option (RangeMap U V) :=
  match m.nodes.lastLT p with
  | none => some m
  | some (start, node) =>
      if node.stop ≤ p then some m
      else
        let (left, right) := splitR node.value p ⟨start, node.stop⟩
        ((m.nodes.modify start fun _ => ⟨p, left⟩).tryInsert p ⟨node.stop, right⟩).map
          RangeMap.mk

/-- `RangeMap::split_at_run`: `split_at`, then run `l_run` on the left value
and `r_run` on the right value before the right node is inserted. -/
def splitAtRun (m : RangeMap U V) (p : U) (splitR : Split U V)
    (lRun rRun : V → Range U → V) : Option (RangeMap U V) := do
  let (start, node) ← m.nodes.lastLT p
  let (left, right) := splitR node.value p ⟨start, node.stop⟩
  let left := lRun left ⟨start, p⟩
  let right := rRun right ⟨p, node.stop⟩
  let nodes ← (m.nodes.modify start fun _ => ⟨p, left⟩).tryInsert p ⟨node.stop, right⟩
  pure ⟨nodes⟩

/-- `RangeMap::fork`: a new map with the same ranges and the values `f v`,
built by inserting the nodes in order into an empty map. -/
def fork (m : RangeMap U V) (f : V → V) : Option (RangeMap U V) :=
  (m.nodes.entries.foldlM
    (fun (acc : OrdMap U (Node U V)) e => acc.tryInsert e.1 ⟨e.2.stop, f e.2.value⟩)
    OrdMap.empty).map RangeMap.mk

/-- The first step of `RangeMap::merge`: the node of `range` absorbs the node
starting at its end when `f` allows it.  Returns the nodes and the merged
node, which the second step reads through the source's `cur` reference. -/
def mergeNext (m : RangeMap U V) (r : Range U) (cur : Node U V) (f : V → V → Bool) :
    Option (OrdMap U (Node U V) × Node U V) :=
  match m.nodes.get? r.stop with
  | some nxt =>
      if f cur.value nxt.value then do
        let (_, nodes) ← m.nodes.remove r.stop
        let nodes ← nodes.update r.start fun node => { node with stop := nxt.stop }
        pure (nodes, { cur with stop := nxt.stop })
      else some (m.nodes, cur)
  | none => some (m.nodes, cur)

/-- The second step of `RangeMap::merge`: the node ending at `start` absorbs
the node at `start` when `f` allows it. -/
def mergePrev (nodes : OrdMap U (Node U V)) (start : U) (cur : Node U V)
    (f : V → V → Bool) : Option (RangeMap U V) :=
  match nodes.lastLT start with
  | some (s, n) =>
      if n.stop = start ∧ f n.value cur.value = true then do
        let nodes ← nodes.update s fun node => { node with stop := cur.stop }
        let (_, nodes) ← nodes.remove start
        pure ⟨nodes⟩
      else some ⟨nodes⟩
  | none => some ⟨nodes⟩

/-- `RangeMap::merge`: the node of `range`, which must exist, absorbs its right
neighbour and is then absorbed by its left neighbour, each when adjacent and
allowed by `f`. -/
def merge (m : RangeMap U V) (r : Range U) (f : V → V → Bool) : Option (RangeMap U V) := do
  let cur ← m.nodes.get? r.start
  if cur.stop ≠ r.stop then none else
  let (nodes, cur) ← m.mergeNext r cur f
  mergePrev nodes r.start cur f

/-! ## Searching for free space -/

/-- The scan of `RangeMap::find_free_range` over the nodes starting in the
window: each node that leaves no room before it moves the candidate start to
its end; a node whose shifted end passes the window ends the search. -/
def findFreeLoop (offset : U → Nat → U) (n : Nat) (stop : U) :
    U → List (U × Node U V) → Option U
  | start, [] => some start
  | start, (nStart, node) :: rest =>
      let xend := offset node.stop n
      if stop < xend then none
      else if xend ≤ nStart then some start
      else findFreeLoop offset n stop node.stop rest

/-- `RangeMap::find_free_range`: a range `[s, offset s n)` inside the window
that meets no node.  The outer `none` is the panic of `BTreeMap::range` when
the moved start passes the window's end. -/
def findFreeRange (m : RangeMap U V) (r : Range U) (n : Nat) (offset : U → Nat → U) :
    Option (Option (Range U)) :=
  if r.stop < offset r.start n then some none
  else
    let start := match m.nodes.lastLT r.start with
      | some (_, node) => max r.start node.stop
      | none => r.start
    if r.stop < start then none
    else some ((findFreeLoop offset n r.stop start (m.nodes.rangeIn start r.stop)).map
      fun s => ⟨s, offset s n⟩)

end RangeMap

end FtlOs
