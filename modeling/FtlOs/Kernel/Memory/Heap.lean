import FtlOs.Kernel.Syscall.Mmap

/-!
# The heap and `sys_brk`

`HeapManager` keeps the break and the pages of the heap, `[brk_base, brk_end)`.
`set_brk` moves the end to the page of the new break: down, it unmaps the pages
above; up, `reset_brk` pushes a new heap handler over the pages between the old
and the new end with `force_push`, which unwraps `try_push` and so panics when
any of those pages is mapped.  Nothing checks that they are free: not `set_brk`,
which only compares with `brk_base`, and not `sys_brk`, which only checks that
the break is a user address.  The ELF loader puts the heap right after the last
segment, and `MAP_FIXED` may place a mapping anywhere in `USER_MMAP_RANGE`, which
covers that region.
-/

namespace FtlOs

/-- `HeapManager`: the break, a byte address, and the heap's pages
`[brk_base, brk_end)`, which never run backwards. -/
structure HeapManager where
  brk : Nat
  brkEnd : Nat
  brkBase : Nat
  base_le_end : brkBase ≤ brkEnd

namespace HeapManager

/-- `HeapManager::new`. -/
def new : HeapManager := ⟨0, 0, 0, le_rfl⟩

/-- `HeapManager::init`: a heap of `initSize` pages from `base`; also returns its
area. -/
def init (base initSize : Nat) : HeapManager × Range Nat :=
  (⟨(base + initSize) * pageSize, base + initSize, base, Nat.le_add_right _ _⟩,
    ⟨base, base + initSize⟩)

/-- `UserAddr::ceil`, in pages, of a user address: it does not wrap. -/
def ceilPage (brk : Nat) : Nat := (brk + pageSize - 1) / pageSize

/-- `HeapManager::set_brk` with the state `oper` acts on: `oper area grow`
unmaps the area when the heap shrinks and maps it when it grows.  Returns whether
pages were unmapped. -/
def setBrk {S : Type} (heap : HeapManager) (brk : Nat)
    (oper : Range Nat → Bool → S → Option (SysR Unit × S)) (s : S) :
    Option (SysR Bool × HeapManager × S) :=
  let next := ceilPage brk
  let curEnd := heap.brkEnd
  if below : next < heap.brkBase then some (.error .EINVAL, heap, s)
  else
    let moved : HeapManager := ⟨brk, next, heap.brkBase, Nat.le_of_not_lt below⟩
    if next = curEnd then some (.ok false, moved, s)
    else if next < curEnd then do
      match ← oper ⟨max next heap.brkBase, curEnd⟩ false s with
      | (.error e, s) => some (.error e, heap, s)
      | (.ok (), s) => some (.ok true, moved, s)
    else do
      match ← oper ⟨curEnd, next⟩ true s with
      | (.error e, s) => some (.error e, heap, s)
      | (.ok (), s) => some (.ok false, moved, s)

end HeapManager

namespace UserSpace

variable {H : Type}

/-- `UserSpace::heap_init`: the heap's first pages get a `DelayHandler`;
`force_push(..).unwrap()`. -/
def heapInit (hm : HandlerManager H) (delay : H) (base initSize : Nat) :
    Option (HeapManager × HandlerManager H) :=
  let (heap, area) := HeapManager.init base initSize
  (hm.forcePush area delay).map fun hm => (heap, hm)

/-- `UserSpace::reset_brk`: `set_brk` with `force_push` of a new `DelayHandler`
when the heap grows and `unmap` when it shrinks.  Returns whether pages were
unmapped (the source returns the address space's id then, for a fence). -/
def resetBrk (heap : HeapManager) (hm : HandlerManager H) (delay : H)
    (splitL splitR : RangeMap.Split Nat H) (brk : Nat) :
    Option (SysR Bool × HeapManager × HandlerManager H) :=
  heap.setBrk brk (fun r grow hm =>
    if grow then (hm.forcePush r delay).map fun hm => (.ok (), hm)
    else (hm.unmap r splitL splitR).map fun hm => (.ok (), hm)) hm

end UserSpace

/-- `Syscall::sys_brk`: the break for `0`, else the new break once it is set; a
break past user space is `EFAULT`. -/
def sysBrk {H : Type} (heap : HeapManager) (hm : HandlerManager H) (delay : H)
    (splitL splitR : RangeMap.Split Nat H) (b : Nat) :
    Option (SysR Nat × HeapManager × HandlerManager H) :=
  if b = 0 then some (.ok heap.brk, heap, hm)
  else if userEnd < b then some (.error .EFAULT, heap, hm)
  else
    (UserSpace.resetBrk heap hm delay splitL splitR b).map fun (r, heap, hm) =>
      (r.map fun _ => b, heap, hm)

variable {H : Type} {heap : HeapManager} {hm : HandlerManager H} {delay : H}
  {splitL splitR : RangeMap.Split Nat H} {b : Nat}

/-- What `sys_brk` of a user break `b` does past its checks: grow the heap over
`[brk_end, ceil(b))` with `force_push`, shrink it with `unmap`, or leave it. -/
theorem sysBrk_eq (b0 : b ≠ 0) (inUser : b ≤ userEnd) :
    sysBrk heap hm delay splitL splitR b =
      (UserSpace.resetBrk heap hm delay splitL splitR b).map fun (r, heap, hm) =>
        (r.map fun _ => b, heap, hm) := by
  simp [sysBrk, b0, not_lt.mpr inUser]

/-- A break that moves the end of the heap up over a mapped page panics in
`force_push`: nothing checks that the pages are free. -/
theorem sysBrk_panics_on_taken_pages (wf : hm.map.WellFormed) (b0 : b ≠ 0) (inUser : b ≤ userEnd)
    (grows : heap.brkEnd < HeapManager.ceilPage b)
    (taken : ¬hm.map.Vacant ⟨heap.brkEnd, HeapManager.ceilPage b⟩) :
    sysBrk heap hm delay splitL splitR b = none := by
  have notBelow : ¬HeapManager.ceilPage b < heap.brkBase := by
    have := heap.base_le_end
    omega
  have forced : hm.forcePush ⟨heap.brkEnd, HeapManager.ceilPage b⟩ delay = none :=
    HandlerManager.forcePush_of_not_vacant wf taken
  rw [sysBrk_eq b0 inUser]
  simp [UserSpace.resetBrk, HeapManager.setBrk, notBelow, grows.ne', not_lt.mpr grows.le, forced]

/-- The handlers of a program whose segments end at page `0x20`: its heap page,
and an anonymous `MAP_FIXED` mapping of the page after it. -/
def heapThenFixed : HandlerManager Unit :=
  ⟨⟨⟨[(0x20, ⟨0x21, ()⟩), (0x21, ⟨0x22, ()⟩)], by decide⟩⟩⟩

/-- With the heap set up at page `0x20` and page `0x21` mapped, `brk(0x22000)`
panics. -/
theorem sysBrk_panics_after_fixed_mmap :
    ∃ heap hm₀, UserSpace.heapInit noHandlers () 0x20 1 = some (heap, hm₀) ∧
      sysBrk heap heapThenFixed () splitUnit splitUnit 0x22000 = none := by
  refine ⟨_, _, rfl, ?_⟩
  exact sysBrk_panics_on_taken_pages (by decide) (by decide) (by decide) (by decide)
    (by unfold RangeMap.Vacant; decide)

end FtlOs
