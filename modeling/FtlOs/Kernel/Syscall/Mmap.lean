import FtlOs.Kernel.RangeMap.Search
import FtlOs.Library.Bitflags
import FtlOs.Util.Error
import FtlOs.Kernel.Config

/-!
# The memory-mapping system calls

`sys_mmap` and `sys_munmap` as they act on the handler map of an address space,
keyed by user page.  `sys_mmap` decodes its `prot` and `flags` words with
`from_bits(..).unwrap()`, checks the sharing flags and the file, picks the range
(the page-aligned `addr`, or a search of the mmap window when `addr` is null) and
replaces whatever was mapped there by a new handler.  `sys_munmap` removes the
pages of `[addr, addr + len)`.

The page-table and frame work of `unmap` and `force_push`, and the handler's
`init`, which for an mmap or a heap handler only records its id, are left out.
`usize` arithmetic wraps, as in a release build.

A bit of `prot` or `flags` that `MmapProt` or `MmapFlags` does not declare is an
`unwrap` panic, whatever the other arguments.  The page count wraps for a length
near `usize::MAX`, and the search then hands `replace` an empty range, which the
release build inserts as a node of no pages.
-/

namespace FtlOs

namespace PTEFlags

/-! The bits of `PTEFlags` that `into_perm` sets. -/

def R : Nat := 1 <<< 1
def W : Nat := 1 <<< 2
def X : Nat := 1 <<< 3
def U : Nat := 1 <<< 4

end PTEFlags

namespace MmapProt

def READ : Nat := 1 <<< 0
def WRITE : Nat := 1 <<< 1
def EXEC : Nat := 1 <<< 2

/-- The union of the declared flags. -/
def all : Nat := READ ||| WRITE ||| EXEC

/-- `MmapProt::from_bits`. -/
def fromBits (bits : Nat) : Option Nat := Bitflags.fromBits all bits

/-- `MmapProt::from_bits_truncate`. -/
def fromBitsTruncate (bits : Nat) : Nat := Bitflags.fromBitsTruncate all bits

/-- `MmapProt::into_perm`: user pages, readable, writable and executable as asked. -/
def intoPerm (prot : Nat) : Nat :=
  PTEFlags.U ||| (if Bitflags.contains prot READ then PTEFlags.R else 0) |||
    (if Bitflags.contains prot WRITE then PTEFlags.W else 0) |||
    (if Bitflags.contains prot EXEC then PTEFlags.X else 0)

end MmapProt

namespace MmapFlags

def SHARED : Nat := 1 <<< 0
def PRIVATE : Nat := 1 <<< 1
def FIXED : Nat := 1 <<< 4
def ANONYMOUS : Nat := 1 <<< 5

/-- The union of the declared flags. -/
def all : Nat := SHARED ||| PRIVATE ||| FIXED ||| ANONYMOUS

/-- `MmapFlags::from_bits`. -/
def fromBits (bits : Nat) : Option Nat := Bitflags.fromBits all bits

end MmapFlags

/-- `USER_END`, the first byte past user space. -/
def userEnd : Nat := 0x40_0000_0000

/-- `USER_MMAP_RANGE`, `[USER_MMAP_BEGIN, USER_MMAP_END)`, in pages. -/
def userMmapRange : Range Nat := ⟨0x10000 / pageSize, 0x38_0000_0000 / pageSize⟩

/-- `USER_MMAP_SEARCH_RANGE`, `[USER_MMAP_SEARCH, USER_MMAP_END)`, in pages. -/
def userMmapSearchRange : Range Nat := ⟨0x30_0000_0000 / pageSize, 0x38_0000_0000 / pageSize⟩

/-- `PageCount::page_ceil`: `(a + PAGE_SIZE - 1) / PAGE_SIZE`, whose sum wraps. -/
def pageCeil (a : Nat) : Nat := (a + pageSize - 1) % 2 ^ 64 / pageSize

/-- `tools::range::range_check`: `inner` is nonempty and inside `outer`. -/
def rangeCheck (outer inner : Range Nat) : Bool :=
  outer.start ≤ inner.start && inner.start < inner.stop && inner.stop ≤ outer.stop

namespace HandlerManager

variable {H : Type}

/-- `MapSegment::unmap`, on the handlers: `remove` the range. -/
def unmap (hm : HandlerManager H) (r : Range Nat) (splitL splitR : RangeMap.Split Nat H) :
    Option (HandlerManager H) :=
  (hm.map.remove r splitL splitR).map fun removed => ⟨removed.1⟩

/-- `MapSegment::force_push` of a handler whose `init` succeeds:
`try_push(..).ok().unwrap()` panics when the range is taken. -/
def forcePush (hm : HandlerManager H) (r : Range Nat) (h : H) : Option (HandlerManager H) :=
  match hm.map.tryInsert r h with
  | some (.ok m) => some ⟨m⟩
  | _ => none

/-- `MapSegment::replace`: `unmap`, then `force_push`. -/
def replace (hm : HandlerManager H) (r : Range Nat) (h : H) (splitL splitR : RangeMap.Split Nat H) :
    Option (HandlerManager H) := do
  let hm ← hm.unmap r splitL splitR
  hm.forcePush r h

end HandlerManager

namespace Mmap

variable {H : Type}

/-- The sharing of `sys_mmap`: exactly one of `PRIVATE` and `SHARED`. -/
def shared (flags : Nat) : SysR Bool :=
  match Bitflags.contains flags MmapFlags.PRIVATE, Bitflags.contains flags MmapFlags.SHARED with
  | true, false => .ok false
  | false, true => .ok true
  | _, _ => .error .EINVAL

/-- The file of `sys_mmap`: none for an anonymous mapping, else the descriptor,
which must name a file (`EBADF`) that can be mapped (`EPERM`).  `canMmap fd` is
`none` when the descriptor names no file. -/
def file (canMmap : Nat → Option Bool) (flags fd : Nat) : SysR (Option Nat) :=
  if Bitflags.contains flags MmapFlags.ANONYMOUS then .ok none
  else
    match canMmap fd with
    | none => .error .EBADF
    | some false => .error .EPERM
    | some true => .ok (some fd)

/-- The range of `sys_mmap` in pages: from a non-null `addr` the `pages` pages at
its page, which must be valid, inside `USER_MMAP_RANGE` and, without `FIXED`,
free; from a null `addr` the result of `find_free_range` over the search window.
The outer `none` is a panic of the search. -/
def range (hm : HandlerManager H) (flags addr pages : Nat) : Option (SysR (Range Nat)) :=
  if addr ≠ 0 then
    -- `as_uptr`: past `USER_END` is `EFAULT`
    if userEnd < addr then some (.error .EFAULT)
    else
      let start := addr / pageSize
      -- `start.add_page(page_count)` wraps
      let stopByte := (start * pageSize + pages * pageSize) % 2 ^ 64
      let r : Range Nat := ⟨start, stopByte / pageSize⟩
      if userEnd < stopByte then some (.error .EFAULT)
      else if !rangeCheck userMmapRange r then some (.error .EFAULT)
      else if !Bitflags.contains flags MmapFlags.FIXED &&
          (hm.map.rangeIsFree r matches .error _) then some (.error .EFAULT)
      else some (.ok r)
  else if Bitflags.contains flags MmapFlags.FIXED then some (.error .EFAULT)
  else
    (hm.findFreeRange userMmapSearchRange pages).map fun
      | some r => .ok r
      | none => .error .ENOMEM

end Mmap

/-- `Syscall::sys_mmap` on the handlers of the address space: the address of the
mapping, or an error with the handlers as they were.  `newHandler` is
`MmapHandler::box_new` of the file, the first page, the offset, the permission and
the sharing; `splitL` and `splitR` split a handler as `unmap` needs. -/
def sysMmap {H : Type} (hm : HandlerManager H) (canMmap : Nat → Option Bool)
    (newHandler : Option Nat → Nat → Nat → Nat → Bool → H) (splitL splitR : RangeMap.Split Nat H)
    (addr len prot flags fd offset : Nat) : Option (SysR Nat × HandlerManager H) := do
  let len := max len pageSize
  -- `from_bits(..).unwrap()`
  let prot ← MmapProt.fromBits prot
  let flags ← MmapFlags.fromBits flags
  let pages := pageCeil len
  match Mmap.shared flags with
  | .error e => return (.error e, hm)
  | .ok shared =>
      match Mmap.file canMmap flags fd with
      | .error e => return (.error e, hm)
      | .ok file =>
          match ← Mmap.range hm flags addr pages with
          | .error e => return (.error e, hm)
          | .ok r =>
              let hm ← hm.replace r (newHandler file r.start offset (MmapProt.intoPerm prot) shared)
                splitL splitR
              return (.ok (r.start * pageSize), hm)

/-- `Syscall::sys_munmap` on the handlers: remove the pages of
`[addr, addr + len)`; the sum wraps. -/
def sysMunmap {H : Type} (hm : HandlerManager H) (splitL splitR : RangeMap.Split Nat H)
    (addr len : Nat) : Option (SysR Nat × HandlerManager H) :=
  -- `as_uptr_nullable` and `UserAddr::try_from`: past `USER_END` is `EFAULT`
  if userEnd < addr then some (.error .EFAULT, hm)
  else
    let stopByte := (addr + len) % 2 ^ 64
    if userEnd < stopByte then some (.error .EFAULT, hm)
    else
      -- `floor` and `ceil`
      let r : Range Nat := ⟨addr / pageSize, (stopByte + pageSize - 1) / pageSize⟩
      (hm.unmap r splitL splitR).map fun hm => (.ok 0, hm)

/-! ## Panics and errors -/

variable {H : Type} {hm hm' : HandlerManager H} {canMmap : Nat → Option Bool}
  {newHandler : Option Nat → Nat → Nat → Nat → Bool → H} {splitL splitR : RangeMap.Split Nat H}
  {addr len prot flags fd offset : Nat}

/-- A `prot` word with an undeclared bit is an `unwrap` panic. -/
theorem sysMmap_eq_none_of_prot (undeclared : MmapProt.fromBits prot = none) :
    sysMmap hm canMmap newHandler splitL splitR addr len prot flags fd offset = none := by
  simp [sysMmap, undeclared]

/-- A `flags` word with an undeclared bit is an `unwrap` panic. -/
theorem sysMmap_eq_none_of_flags (undeclared : MmapFlags.fromBits flags = none) :
    sysMmap hm canMmap newHandler splitL splitR addr len prot flags fd offset = none := by
  cases declared : MmapProt.fromBits prot with
  | none => exact sysMmap_eq_none_of_prot declared
  | some p => simp [sysMmap, declared, undeclared]

/-! ## `force_push` -/

variable {r : Range Nat} {h : H}

/-- `force_push` of a range that meets a handler is the `unwrap` panic. -/
theorem HandlerManager.forcePush_of_not_vacant (wf : hm.map.WellFormed) (taken : ¬hm.map.Vacant r) :
    hm.forcePush r h = none := by
  simp [HandlerManager.forcePush, RangeMap.tryInsert_eq_error_of_not_vacant wf taken]

/-- Handlers holding nothing, and the splits of a handler that carries no data. -/
def noHandlers : HandlerManager Unit := ⟨RangeMap.new⟩

def splitUnit : RangeMap.Split Nat Unit := fun _ _ _ => ((), ())

/-- An undeclared bit of `prot` or of `flags` makes `sys_mmap` panic, whatever the
other arguments.  And a length of `usize::MAX` wraps the page count to zero: on an
empty address space `sys_mmap` then succeeds and leaves an empty range mapped, so
the handlers are no longer well formed. -/
theorem sysMmap_panics_on_undeclared_bits :
    (∀ (hm : HandlerManager H) canMmap newHandler splitL splitR addr len prot flags fd offset,
      prot &&& MmapProt.all ≠ prot ∨ flags &&& MmapFlags.all ≠ flags →
        sysMmap hm canMmap newHandler splitL splitR addr len prot flags fd offset = none) ∧
    noHandlers.map.WellFormed ∧
    ∃ hm', sysMmap noHandlers (fun _ => none) (fun _ _ _ _ _ => ()) splitUnit splitUnit 0 (2 ^ 64 - 1)
        (MmapProt.READ ||| MmapProt.WRITE) (MmapFlags.PRIVATE ||| MmapFlags.ANONYMOUS) 0 0 =
      some (.ok 0x30_0000_0000, hm') ∧ ¬hm'.map.WellFormed := by
  refine ⟨?_, by decide, _, rfl, by decide⟩
  intro hm canMmap newHandler splitL splitR addr len prot flags fd offset undeclared
  rcases undeclared with badProt | badFlags
  · exact sysMmap_eq_none_of_prot (Bitflags.fromBits_eq_none_iff.mpr badProt)
  · exact sysMmap_eq_none_of_flags (Bitflags.fromBits_eq_none_iff.mpr badFlags)

/-- `prot = 8`, a bit that `MmapProt` does not declare, panics. -/
theorem sysMmap_panics_on_prot_eight :
    sysMmap noHandlers (fun _ => none) (fun _ _ _ _ _ => ()) splitUnit splitUnit 0 4096 8
      (MmapFlags.PRIVATE ||| MmapFlags.ANONYMOUS) 0 0 = none :=
  sysMmap_panics_on_undeclared_bits.1 _ _ _ _ _ 0 4096 8 _ 0 0 (.inl (by decide))

end FtlOs
