import FtlOs.Library.OrdMap
import FtlOs.Util.Error

/-!
# The file descriptor table

Model of `process/fd.rs`.  A `FastMap` keeps descriptors below `RESERVE` in a
fixed array of slots with a counter of the occupied ones, and the others in an
ordered map; an `FdTable` adds the cached `search_start`, below which every
descriptor is meant to be open, and the `RLIMIT_NOFILE` limit.

Descriptors are `usize` values, modelled as naturals; the one place where the
width shows is `Fd::next` (`self.0 + 1`), which wraps at `2 ^ 64` in the
release build.  A Rust panic (`unwrap`, `expect`, `todo!`) is `none`; a
returned `SysError` is `Except.error`, and every error leaves the table as it
was, so the error path returns no table.  The file behind a descriptor is a
value of an arbitrary type `F` (the `Arc<dyn File>`, which the table only
clones and moves).
-/

namespace FtlOs

/-- `RLIM_INFINITY`, `i32::MAX`. -/
def RLIM_INFINITY : Nat := 2 ^ 31 - 1

/-- A resource limit, soft and hard. -/
structure RLimit where
  rlimCur : Nat
  rlimMax : Nat
  deriving DecidableEq, Repr

namespace RLimit

/-- `RLimit::new_equal`. -/
def newEqual (n : Nat) : RLimit := ⟨n, n⟩

/-- `RLimit::check`: both limits at most `RLIM_INFINITY`. -/
def check (r : RLimit) : SysR Unit :=
  if r.rlimCur ≤ RLIM_INFINITY ∧ r.rlimMax ≤ RLIM_INFINITY then .ok () else .error .EINVAL

end RLimit

/-- `USER_FNO_DEFAULT`, the initial limit on open descriptors. -/
def USER_FNO_DEFAULT : RLimit := RLimit.newEqual 200

namespace OpenFlags

/-- `OpenFlags::CLOEXEC`. -/
def CLOEXEC : Nat := 0o2000000

/-- The union of every flag `OpenFlags` declares. -/
def all : Nat := 0o3777703

/-- `OpenFlags::from_bits_truncate`: drop the bits no flag declares. -/
def fromBitsTruncate (bits : Nat) : Nat := bits &&& all

/-- `flags.contains(other)`. -/
def contains (flags other : Nat) : Bool := flags &&& other == other

end OpenFlags

namespace Fd

/-- `Fd::next`, `Fd(self.0 + 1)`: the release build wraps a `usize` at `2 ^ 64`. -/
def next (fd : Nat) : Nat := (fd + 1) % 2 ^ 64

theorem next_of_lt {fd : Nat} (small : fd + 1 < 2 ^ 64) : next fd = fd + 1 :=
  Nat.mod_eq_of_lt small

theorem next_of_eq {fd : Nat} (top : fd + 1 = 2 ^ 64) : next fd = 0 := by
  rw [next, top, Nat.mod_self]

end Fd

/-- One open descriptor. -/
structure FdNode (F : Type) where
  file : F
  closeOnExec : Bool
  op : Nat

/-- Number of descriptors kept in the array of a `FastMap`. -/
def RESERVE : Nat := 20

/-- The descriptor store: an array of `RESERVE` slots with a count of the
occupied ones, and an ordered map for the descriptors from `RESERVE` on. -/
structure FastMap (F : Type) where
  reserve : Vector (Option (FdNode F)) RESERVE
  reserveLen : Nat
  map : OrdMap Nat (FdNode F)

namespace FastMap

variable {F : Type} {σ : Type}

/-- `FastMap::new`. -/
def new : FastMap F := ⟨Vector.replicate RESERVE none, 0, OrdMap.empty⟩

/-- `FastMap::len`: the counter plus the size of the map. -/
def len (m : FastMap F) : Nat := m.reserveLen + m.map.size

/-- `FastMap::get`. -/
def get (m : FastMap F) (k : Nat) : Option (FdNode F) :=
  if h : k < RESERVE then m.reserve[k] else m.map.get? k

/-- A write through `FastMap::get_mut`: apply `f` to the node at `k`, if any. -/
def modify (m : FastMap F) (k : Nat) (f : FdNode F → FdNode F) : FastMap F :=
  if h : k < RESERVE then { m with reserve := m.reserve.set k (m.reserve[k].map f) }
  else { m with map := m.map.modify k f }

/-- `FastMap::remove`: take the node at `k`; the counter drops when a slot empties. -/
def remove (m : FastMap F) (k : Nat) : FastMap F × Option (FdNode F) :=
  if h : k < RESERVE then
    ({ m with
        reserve := m.reserve.set k none
        reserveLen := if m.reserve[k].isSome then m.reserveLen - 1 else m.reserveLen },
      m.reserve[k])
  else match m.map.remove k with
    | some (v, map) => ({ m with map }, some v)
    | none => (m, none)

/-- `FastMap::insert`: put a node at `k` and return the one it replaces. -/
def insert (m : FastMap F) (k : Nat) (v : FdNode F) : FastMap F × Option (FdNode F) :=
  if h : k < RESERVE then
    ({ m with
        reserve := m.reserve.set k (some v)
        reserveLen := if m.reserve[k].isNone then m.reserveLen + 1 else m.reserveLen },
      m.reserve[k])
  else (⟨m.reserve, m.reserveLen, m.map.insert k v⟩, m.map.get? k)

/-- `FastMap::try_insert`: `none` (the `Err(())`) when `k` is taken. -/
def tryInsert (m : FastMap F) (k : Nat) (v : FdNode F) : Option (FastMap F) :=
  if h : k < RESERVE then
    if m.reserve[k].isNone then
      some { m with reserve := m.reserve.set k (some v), reserveLen := m.reserveLen + 1 }
    else none
  else (m.map.tryInsert k v).map fun map => { m with map }

/-- One slot of the array loop of `FastMap::retain`: a node the closure rejects
is cleared and the counter drops. -/
def retainSlot (f : σ → Nat → FdNode F → σ × Bool) (acc : FastMap F × σ) (fd : Fin RESERVE) :
    FastMap F × σ :=
  match acc.1.reserve[fd] with
  | none => acc
  | some v =>
      let visit := f acc.2 fd v
      if visit.2 then (acc.1, visit.1)
      else ({ acc.1 with
              reserve := acc.1.reserve.set fd none
              reserveLen := acc.1.reserveLen - 1 }, visit.1)

/-- `FastMap::retain` with an `FnMut` closure whose state is `σ`: the array
slots in order, then the map in key order. -/
def retain (m : FastMap F) (f : σ → Nat → FdNode F → σ × Bool) (s : σ) : FastMap F × σ :=
  let slots := (List.finRange RESERVE).foldl (retainSlot f) (m, s)
  let rest := slots.1.map.retain f slots.2
  ({ slots.1 with map := rest.1 }, rest.2)

/-- The loop over `self.map.range(min..)` in `find_space`: step past every key
equal to the candidate. -/
def findSpaceLoop : Nat → List Nat → Nat
  | min, [] => min
  | min, fd :: rest => if fd = min then findSpaceLoop (Fd.next min) rest else min

/-- `FastMap::find_space`: the first empty array slot from `min`, else the scan
of the map from `max min RESERVE`. -/
def findSpace (m : FastMap F) (min : Nat) : Nat :=
  if min < RESERVE then
    match (m.reserve.toList.drop min).findIdx? Option.isNone with
    | some i => min + i
    | none => findSpaceLoop RESERVE ((m.map.rangeFrom RESERVE).map Prod.fst)
  else findSpaceLoop min ((m.map.rangeFrom min).map Prod.fst)

end FastMap

/-- The descriptor table of a process. -/
structure FdTable (F : Type) where
  map : FastMap F
  searchStart : Nat
  limit : RLimit

namespace FdTable

variable {F : Type}

/-- `F_DUPFD`. -/
def F_DUPFD : Nat := 0
/-- `F_DUPFD_CLOEXEC`, `F_LINUX_SPECIFIC_BASE + 6`. -/
def F_DUPFD_CLOEXEC : Nat := 1024 + 6
/-- `F_GETFD`. -/
def F_GETFD : Nat := 1
/-- `F_SETFD`. -/
def F_SETFD : Nat := 2
/-- `F_GETFL`. -/
def F_GETFL : Nat := 3
/-- `F_SETFL`. -/
def F_SETFL : Nat := 4
/-- `FD_CLOEXEC`, the one descriptor flag. -/
def FD_CLOEXEC : Nat := 1

/-- `FdTable::set_limit`: install a checked limit and return the old one. -/
def setLimit (t : FdTable F) (new : Option RLimit) : SysR (FdTable F × RLimit) :=
  match new with
  | none => .ok (t, t.limit)
  | some new =>
      match new.check with
      | .error e => .error e
      | .ok () => .ok ({ t with limit := new }, t.limit)

/-- The closure `exec_run` hands to `retain`.  Its state is `(search, find)`:
`search` walks up the open descriptors from `0` until the first one that is
missing or about to be closed.  The verdict keeps the descriptors without
close-on-exec. -/
def execRunVisit (acc : Nat × Bool) (fd : Nat) (n : FdNode F) : (Nat × Bool) × Bool :=
  let search := acc.1
  let find := acc.2
  let acc' :=
    if !find then
      if fd ≠ search ∨ n.closeOnExec then (search, true) else (Fd.next fd, find)
    else acc
  (acc', !n.closeOnExec)

/-- `FdTable::exec_run`: close the close-on-exec descriptors.  The search start
the closure computes is dropped: `search_start` keeps its old value. -/
def execRun (t : FdTable F) : FdTable F :=
  { t with map := (t.map.retain execRunVisit (0, false)).1 }

/-- `FdTable::alloc_fd_min`: the least free descriptor from `max min search_start`;
`search_start` follows it when the search began there. -/
def allocFdMin (t : FdTable F) (min : Nat) : SysR (FdTable F × Nat) :=
  if t.limit.rlimMax ≤ t.map.len then .error .EMFILE
  else
    let min := max min t.searchStart
    let fd := t.map.findSpace min
    if min = t.searchStart then .ok ({ t with searchStart := fd }, fd) else .ok (t, fd)

/-- `FdTable::insert_min`; the `expect("FdTable double insert same fd")` is the
`none` of `FastMap::try_insert`. -/
def insertMin (t : FdTable F) (min : Nat) (file : F) (closeOnExec : Bool) (op : Nat) :
    Option (SysR (FdTable F × Nat)) :=
  match t.allocFdMin min with
  | .error e => some (.error e)
  | .ok (t, fd) => (t.map.tryInsert fd ⟨file, closeOnExec, op⟩).map fun map => .ok ({ t with map }, fd)

/-- `FdTable::insert`. -/
def insert (t : FdTable F) (file : F) (closeOnExec : Bool) (op : Nat) :
    Option (SysR (FdTable F × Nat)) :=
  t.insertMin 0 file closeOnExec op

/-- `FdTable::set_insert`: overwrite a descriptor; `search_start` drops to `fd + 1`. -/
def setInsert (t : FdTable F) (fd : Nat) (file : F) (closeOnExec : Bool) (op : Nat) :
    FdTable F :=
  { t with
    map := (t.map.insert fd ⟨file, closeOnExec, op⟩).1
    searchStart := min t.searchStart (Fd.next fd) }

/-- `FdTable::get`. -/
def get (t : FdTable F) (fd : Nat) : Option F := (t.map.get fd).map FdNode.file

/-- `FdTable::get_node`. -/
def getNode (t : FdTable F) (fd : Nat) : Option (FdNode F) := t.map.get fd

/-- `FdTable::fcntl`.  The lock and owner commands, and any other, are `todo!()`. -/
def fcntl (t : FdTable F) (fd cmd arg : Nat) : Option (SysR (FdTable F × Nat)) :=
  match t.map.get fd with
  | none => some (.error .EBADF)
  | some node =>
      if cmd = F_DUPFD ∨ cmd = F_DUPFD_CLOEXEC then
        t.insertMin arg node.file node.closeOnExec node.op
      else if cmd = F_GETFD then
        some (.ok (t, if node.closeOnExec then FD_CLOEXEC else 0))
      else if cmd = F_SETFD then
        some (.ok ({ t with
          map := t.map.modify fd fun n => { n with closeOnExec := decide (arg &&& FD_CLOEXEC ≠ 0) } },
          0))
      else if cmd = F_GETFL then
        some (.ok (t, node.op))
      else if cmd = F_SETFL then
        some (.ok ({ t with
          map := t.map.modify fd fun n =>
            { n with
              op := OpenFlags.fromBitsTruncate (arg % 2 ^ 32)
              closeOnExec := decide (arg &&& FD_CLOEXEC ≠ 0) } },
          0))
      else none

/-- `FdTable::remove`: `search_start` drops to `fd`. -/
def remove (t : FdTable F) (fd : Nat) : FdTable F × Option F :=
  let removed := t.map.remove fd
  ({ t with map := removed.1, searchStart := min t.searchStart fd }, removed.2.map FdNode.file)

/-- `FdTable::dup`: a copy without close-on-exec at the least free descriptor. -/
def dup (t : FdTable F) (fd : Nat) : Option (SysR (FdTable F × Nat)) :=
  match t.getNode fd with
  | none => some (.error .EBADF)
  | some node => t.insert node.file false node.op

/-- `FdTable::replace_dup`: `dup3`, overwriting `new_fd`; `search_start` is left alone. -/
def replaceDup (t : FdTable F) (oldFd newFd flags : Nat) : SysR (FdTable F × Unit) :=
  if oldFd = newFd then .error .EINVAL
  else
    match t.get oldFd with
    | none => .error .EBADF
    | some file =>
        .ok ({ t with
          map := (t.map.insert newFd ⟨file, OpenFlags.contains flags OpenFlags.CLOEXEC, flags⟩).1 },
          ())

/-- `FdTable::new`: the three standard descriptors, each `insert` unwrapped and
checked to land at `0`, `1` and `2`. -/
def new (stdin stdout : F) : Option (FdTable F) := do
  let t : FdTable F := ⟨FastMap.new, 0, USER_FNO_DEFAULT⟩
  let (t, fd) ← (← t.insert stdin false 0).toOption
  guard (fd = 0)
  let (t, fd) ← (← t.insert stdout false 0).toOption
  guard (fd = 1)
  let (t, fd) ← (← t.insert stdout false 0).toOption
  guard (fd = 2)
  pure t

end FdTable

end FtlOs
