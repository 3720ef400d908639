import Mathlib
import FtlOs.Library.OrdMap

/-!
# Shared-page counters

`map_segment/shared.rs` counts the address spaces that map a shared page with
one atomic `SharedCounter`, of which every such address space holds a handle;
`map_segment/sc_manager.rs` keeps an address space's handles by page, in a
`BTreeMap`.  The model names the counters by numbers and keeps their counts in
one table, `Counters`; a manager maps page numbers to counter numbers.

The manager's operations assume the page is (or is not) there and `unwrap`; a
failed `unwrap` is a panic, `none` here.
-/

namespace FtlOs

namespace Memory

/-- The counts of the live `SharedCounter`s, and the number the next one gets. -/
structure Counters where
  count : Nat → Nat
  next : Nat

namespace Counters

/-- `SharedCounter::new_dup`: a new counter with two handles. -/
def newDup (c : Counters) : Nat × Counters :=
  (c.next, ⟨Function.update c.count c.next 2, c.next + 1⟩)

/-- `clone`: one handle more. -/
def increase (c : Counters) (id : Nat) : Counters :=
  { c with count := Function.update c.count id (c.count id + 1) }

/-- `consume`: one handle less; `true` when it was the last. -/
def consume (c : Counters) (id : Nat) : Bool × Counters :=
  (c.count id == 1, { c with count := Function.update c.count id (c.count id - 1) })

/-- `unique`: this is the only handle. -/
def unique (c : Counters) (id : Nat) : Bool := c.count id == 1

end Counters

/-- A `SCManager`: the counter of each shared page of one address space. -/
abbrev ScManager := OrdMap Nat Nat

namespace ScManager

/-- `insert_clone`: a new counter of two, one handle kept here and the other
returned; the page must not be there yet. -/
def insertClone (sm : ScManager) (c : Counters) (ua : Nat) : Option (Nat × ScManager × Counters) :=
  let (id, c) := c.newDup
  (sm.tryInsert ua id).map fun sm => (id, sm, c)

/-- `insert_by`: keep a handle; the page must not be there yet. -/
def insertBy (sm : ScManager) (ua id : Nat) : Option ScManager := sm.tryInsert ua id

/-- `clone_ua`: a new handle on the page's counter. -/
def cloneUa (sm : ScManager) (c : Counters) (ua : Nat) : Option (Nat × Counters) :=
  (sm.get? ua).map fun id => (id, c.increase id)

/-- `remove_ua`: give up the page's handle; `true` when it was the last. -/
def removeUa (sm : ScManager) (c : Counters) (ua : Nat) : Option (Bool × ScManager × Counters) :=
  (sm.remove ua).map fun (id, sm) =>
    let (last, c) := c.consume id
    (last, sm, c)

/-- `try_remove_unique`: give up the page's handle if it is the only one. -/
def tryRemoveUnique (sm : ScManager) (c : Counters) (ua : Nat) :
    Option (Bool × ScManager × Counters) :=
  match sm.get? ua with
  | none => none
  | some id => if c.unique id then some (true, sm.erase ua, (c.consume id).2) else some (false, sm, c)

/-- `check_remove_all`: give up every handle, none of them the last. -/
def checkRemoveAll (sm : ScManager) (c : Counters) : Counters :=
  sm.entries.foldl (fun c e => (c.consume e.2).2) c

end ScManager

end Memory

end FtlOs
