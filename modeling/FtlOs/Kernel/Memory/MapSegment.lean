import Mathlib
import FtlOs.Kernel.Memory.ScManager
import FtlOs.Util.Error

/-!
# Forking an address space

`MapSegment::fork` (`map_segment/mod.rs`) builds the child's page table by
walking the parent's handlers in address order and, in each, the parent's
valid pages in address order.  A page becomes shared between the two (its
counter cloned, or made anew at two) unless the copy-on-write predictor
expects a write fault there, in which case the child gets a private copy at
once.  On an allocation failure fork rolls back: first the pages of the
failing handler mapped so far, then, after giving up all of the child's
counter handles, the pages of every handler before it.

The model keeps of a page-table entry its frame and its `shared` and
writable bits; of the page table, its valid leaves and which directory tables
exist, since those are where `get_pte_user` allocates.  Frames come from the
list `free`; the root table of the child is the first frame taken.  Every
handler of the kernel uses copy on write (`using_cow` is never overridden), so
`may_shared` always has a value and the `copy_map` arms of fork are never
taken; they are left out.
-/

namespace FtlOs

namespace Memory

/-- A valid leaf `PageTableEntry`, by what fork reads and writes of it. -/
structure Pte where
  frame : Nat
  shared : Bool
  writable : Bool
  deriving DecidableEq, Repr

namespace Pte

/-- `become_shared`: the shared bit set, and writable only if shared pages may be. -/
def becomeShared (pte : Pte) (sharedWritable : Bool) : Pte :=
  { pte with shared := true, writable := pte.writable && sharedWritable }

/-- `become_unique`: the shared bit cleared, and writable if unique pages are. -/
def becomeUnique (pte : Pte) (uniqueWritable : Bool) : Pte :=
  { pte with shared := false, writable := pte.writable || uniqueWritable }

end Pte

/-- A user page table: its valid leaves by page number, and the pages whose
upper (1 GiB) and lower (2 MiB) directory tables exist. -/
structure PageTable where
  leaf : Nat → Option Pte
  upper : List Nat
  lower : List Nat

namespace PageTable

/-- `PageTable::from_global`: no user mapping yet. -/
def empty : PageTable := ⟨fun _ => none, [], []⟩

/-- Set or clear (`reset`) one leaf. -/
def setLeaf (pt : PageTable) (page : Nat) (pte : Option Pte) : PageTable :=
  { pt with leaf := Function.update pt.leaf page pte }

/-- `valid_pte_iter`: the valid pages of `[start, stop)` in order, with their entries. -/
def validEntries (pt : PageTable) (start stop : Nat) : List (Nat × Pte) :=
  (List.range' start (stop - start)).filterMap fun page => (pt.leaf page).map (page, ·)

/-- One directory on the way to a page: there already, or a new frame for it. -/
def ensureDir (dirs : List Nat) (key : Nat) (free : List Nat) : Except SysError (List Nat × List Nat) :=
  if dirs.contains key then .ok (dirs, free)
  else
    match free with
    | [] => .error .ENOMEM
    | _ :: free => .ok (key :: dirs, free)

/-- `get_pte_user`: make the upper and the lower directory of a page. -/
def getPteUser (pt : PageTable) (page : Nat) (free : List Nat) :
    Except SysError (PageTable × List Nat) := do
  let (upper, free) ← ensureDir pt.upper (page / 2 ^ 18) free
  let (lower, free) ← ensureDir pt.lower (page / 2 ^ 9) free
  pure ({ pt with upper, lower }, free)

end PageTable

/-- The fields of a user area handler that fork reads: its range of pages and
its permission. -/
structure Handler where
  start : Nat
  stop : Nat
  /-- `unique_writable`: the handler's `perm` has `W`. -/
  uniqueWritable : Bool
  /-- `shared_always`: shared mappings (`MAP_SHARED`). -/
  sharedAlways : Bool

/-- `may_shared`: whether a shared page may be writable; `using_cow` holds
for every handler, so there is always an answer. -/
def Handler.mayShared (h : Handler) : Bool := if h.sharedAlways then h.uniqueWritable else false

/-- The parts of a `MapSegment` fork reads and writes. -/
structure MapSegment where
  pageTable : PageTable
  /-- The handlers in address order. -/
  handlers : List Handler
  scManager : ScManager
  /-- The pages the copy-on-write predictor holds. -/
  predict : List Nat

/-- What fork carries through its loops: the parent's page table and
`SCManager`, the child's, the counters, the free frames, and what is left of
the predictor's sorted pages. -/
structure ForkState where
  src : PageTable
  dst : PageTable
  scManager : ScManager
  newSm : ScManager
  counters : Counters
  free : List Nat
  predict : List Nat

/-- The predictor's `peek` loop at a page: skip the pages below it, and take
the page itself if it is next. -/
def cowHit : List Nat → Nat → Bool × List Nat
  | [], _ => (false, [])
  | ua :: rest, addr =>
    if addr < ua then (false, ua :: rest)
    else if ua < addr then cowHit rest addr
    else (true, rest)

/-- The body of fork's inner loop at a valid page of the parent: `none` is a
panic, an error the allocation that failed. -/
def forkPage (h : Handler) (s : ForkState) (addr : Nat) (src : Pte) :
    Option (Except SysError ForkState) :=
  match s.dst.getPteUser addr s.free with
  | .error e => some (.error e)
  | .ok (dst, free) =>
    let (hit, predict) := cowHit s.predict addr
    let s := { s with dst, free, predict }
    if hit && !h.mayShared && h.uniqueWritable then
      -- a private copy for the child, where the predictor expects a write
      match s.free with
      | [] => some (.error .ENOMEM)
      | frame :: free =>
        some (.ok { s with dst := s.dst.setLeaf addr (some ⟨frame, false, h.uniqueWritable⟩), free })
    else do
      let (id, scManager, counters) ←
        if !src.shared then s.scManager.insertClone s.counters addr
        else (s.scManager.cloneUa s.counters addr).map fun (id, counters) => (id, s.scManager, counters)
      let shared := if !src.shared then src.becomeShared h.mayShared else src
      let newSm ← s.newSm.insertBy addr id
      pure (.ok { s with
        src := s.src.setLeaf addr (some shared)
        dst := s.dst.setLeaf addr (some shared)
        scManager
        newSm
        counters })

/-- Where the predictor expects a write, in a writable copy-on-write handler,
the child gets a private page: not shared, and writable. -/
theorem forkPage_private {h : Handler} {s s' : ForkState} {addr : Nat} {src : Pte}
    (forked : forkPage h s addr src = some (.ok s')) (hit : (cowHit s.predict addr).1 = true)
    (cow : h.mayShared = false) (writable : h.uniqueWritable = true) :
    ∃ frame, s'.dst.leaf addr = some ⟨frame, false, true⟩ := by
  unfold forkPage at forked
  split at forked
  case h_1 => cases forked
  case h_2 dst free made =>
    rcases found : cowHit s.predict addr with ⟨hitHere, predict⟩
    rw [found] at forked hit
    dsimp only at forked hit
    subst hit
    simp only [cow, writable, Bool.not_false, Bool.and_self, if_true] at forked
    cases free with
    | nil => cases forked
    | cons frame rest =>
      simp only [Option.some.injEq, Except.ok.injEq] at forked
      subst forked
      exact ⟨frame, by simp [PageTable.setLeaf]⟩

/-- Fork's inner loop over the valid pages of one handler: the state it ends
in, and the page and error it stopped at. -/
def forkPages (h : Handler) : ForkState → List (Nat × Pte) → Option (ForkState × Option (Nat × SysError))
  | s, [] => some (s, none)
  | s, (addr, src) :: rest =>
    match forkPage h s addr src with
    | none => none
    | some (.error e) => some (s, some (addr, e))
    | some (.ok s) => forkPages h s rest

/-- The rollback of one page of the child: clear it, and give the parent its
page back as unique if its counter now has one handle. -/
def undoPage (h : Handler) (s : ForkState) (addr : Nat) : Option ForkState := do
  let (unique, scManager, counters) ← s.scManager.tryRemoveUnique s.counters addr
  let src ← if unique then
      (s.src.leaf addr).map fun pte => s.src.setLeaf addr (some (pte.becomeUnique h.uniqueWritable))
    else some s.src
  pure { s with dst := s.dst.setLeaf addr none, scManager, counters, src }

/-- What rolling back one page can do: clear the child's entry there, and
change only the parent's page table, its `SCManager` and the counters. -/
theorem undoPage_eq_some {h : Handler} {s s' : ForkState} {addr : Nat}
    (undone : undoPage h s addr = some s') :
    ∃ src scManager counters,
      s' = { s with dst := s.dst.setLeaf addr none, scManager, counters, src } := by
  unfold undoPage at undone
  cases removed : s.scManager.tryRemoveUnique s.counters addr with
  | none => simp [removed] at undone
  | some r =>
    obtain ⟨unique, scManager, counters⟩ := r
    simp only [removed] at undone
    simp only [Option.pure_def, Option.bind_eq_bind, Option.bind_some] at undone
    split at undone
    · rw [Option.bind_eq_some_iff] at undone
      obtain ⟨src, -, built⟩ := undone
      cases built
      exact ⟨src, scManager, counters, rfl⟩
    · cases undone
      exact ⟨s.src, scManager, counters, rfl⟩

/-- The rollback of the failing handler, over the child's valid pages before
the one that failed: each must be one of the child's counter handles, and not
the last. -/
def rollbackFailed (h : Handler) (eAddr : Nat) : ForkState → List Nat → Option ForkState
  | s, [] => some s
  | s, addr :: rest =>
    if addr = eAddr then some s
    else do
      let (last, newSm, counters) ← s.newSm.removeUa s.counters addr
      if last then none
      else
        let s ← undoPage h { s with newSm, counters } addr
        rollbackFailed h eAddr s rest

/-- The rollback of a handler before the failing one, over the child's valid
pages: each must be shared (`assert!(pte.shared())`). -/
def rollbackDone (h : Handler) : ForkState → List Nat → Option ForkState
  | s, [] => some s
  | s, addr :: rest => do
    let pte ← s.dst.leaf addr
    if !pte.shared then none
    else
      let s ← undoPage h s addr
      rollbackDone h s rest

/-- The outer rollback asserts that every page of the child it meets is shared:
a private page of the child in the handler's range makes it panic. -/
theorem rollbackDone_eq_none_of_unshared {h : Handler} {pages : List Nat} (distinct : pages.Nodup)
    {s : ForkState} {addr : Nat} {pte : Pte} (member : addr ∈ pages)
    (found : s.dst.leaf addr = some pte) (unshared : pte.shared = false) :
    rollbackDone h s pages = none := by
  induction pages generalizing s with
  | nil => cases member
  | cons a rest ih =>
    obtain ⟨fresh, distinct⟩ := List.nodup_cons.mp distinct
    unfold rollbackDone
    rcases List.mem_cons.mp member with rfl | later
    · simp [found, unshared]
    · -- the pages before `addr` leave the child's entry at `addr` alone
      have other : addr ≠ a := fun same => fresh (same ▸ later)
      cases leafA : s.dst.leaf a with
      | none => rfl
      | some pteA =>
        simp only [Option.bind_eq_bind, Option.bind_some]
        split
        · rfl
        · cases undone : undoPage h s a with
          | none => rfl
          | some s' =>
            have kept : s'.dst.leaf addr = some pte := by
              obtain ⟨src, scManager, counters, rfl⟩ := undoPage_eq_some undone
              simp [PageTable.setLeaf, other, found]
            simp only [Option.bind_some]
            exact ih distinct later kept

/-- Fork's loop over the handlers; a failure rolls back the failing handler at
once and stops the loop there. -/
def forkHandlers : ForkState → List Handler → Option (ForkState × Option (Handler × SysError))
  | s, [] => some (s, none)
  | s, h :: rest => do
    let (s, stop) ← forkPages h s (s.src.validEntries h.start h.stop)
    match stop with
    | none => forkHandlers s rest
    | some (eAddr, e) =>
      let s ← rollbackFailed h eAddr s ((s.dst.validEntries h.start h.stop).map Prod.fst)
      pure (s, some (h, e))

/-- The outer rollback, over the handlers before the failing one. -/
def rollbackHandlers (failed : Handler) : ForkState → List Handler → Option ForkState
  | s, [] => some s
  | s, h :: rest =>
    if h.start = failed.start ∧ h.stop = failed.stop then some s
    else do
      let s ← rollbackDone h s ((s.dst.validEntries h.start h.stop).map Prod.fst)
      rollbackHandlers failed s rest

/-- `MapSegment::fork` with the counters and the free frames it finds: `none`
is a panic; otherwise the state it leaves and its result. -/
def fork (m : MapSegment) (counters : Counters) (free : List Nat) :
    Option (ForkState × Except SysError Unit) :=
  let start : ForkState :=
    ⟨m.pageTable, PageTable.empty, m.scManager, OrdMap.empty, counters, free,
      m.predict.insertionSort (· ≤ ·)⟩
  match free with
  | [] => some (start, .error .ENOMEM)
  | _ :: free => do
    let (s, stop) ← forkHandlers { start with free } m.handlers
    match stop with
    | none => pure (s, .ok ())
    | some (failed, e) =>
      -- `new_sm.check_remove_all()`, then the outer rollback
      let s := { s with counters := s.newSm.checkRemoveAll s.counters, newSm := OrdMap.empty }
      let s ← rollbackHandlers failed s m.handlers
      pure (s, .error e)

/-- Two writable copy-on-write areas of one page each, in different 1 GiB
regions, so the second needs directory tables of its own. -/
def twoAreas : List Handler := [⟨16, 17, true, false⟩, ⟨2 ^ 18, 2 ^ 18 + 1, true, false⟩]

/-- A parent whose two pages are its own, the first expected by the
predictor to take a write fault. -/
def predictedParent : MapSegment :=
  ⟨⟨fun p => if p = 16 then some ⟨100, false, true⟩
      else if p = 2 ^ 18 then some ⟨101, false, true⟩ else none, [], []⟩,
    twoAreas, OrdMap.empty, [16]⟩

/-- A parent whose first page is still shared, but as the last holder of its
counter: the other address space has let it go. -/
def lastHolderParent : MapSegment :=
  ⟨⟨fun p => if p = 16 then some ⟨100, true, false⟩
      else if p = 2 ^ 18 then some ⟨101, false, true⟩ else none, [], []⟩,
    twoAreas, ⟨[(16, 0)], by simp⟩, []⟩

/-- Fork is not all-or-nothing.  With four frames the child's root, the two
directories and the predicted private copy of page 16 are taken and the
directories of the second area fail; the rollback then meets the private
page and its assertion panics, though with six frames fork succeeds.  From the
last holder of a shared page, a fork that fails with three frames returns an
error and leaves the page unique and writable, its counter gone from the
parent's `SCManager`. -/
theorem fork_not_all_or_nothing :
    (fork predictedParent ⟨fun _ => 0, 0⟩ [1, 2, 3, 4]).isNone = true ∧
    (fork predictedParent ⟨fun _ => 0, 0⟩ [1, 2, 3, 4, 5, 6]).map (·.2.toBool) = some true ∧
    (lastHolderParent.pageTable.leaf 16 = some ⟨100, true, false⟩ ∧
      lastHolderParent.scManager.get? 16 = some 0) ∧
    (fork lastHolderParent ⟨fun _ => 1, 1⟩ [1, 2, 3]).map
        (fun r => (r.2.toBool, r.1.src.leaf 16, r.1.scManager.get? 16)) =
      some (false, some ⟨100, false, true⟩, none) := by
  refine ⟨?_, by decide +kernel, by decide +kernel, by decide +kernel⟩
  -- the first area forks page 16 privately for the child, where the predictor expects a
  -- write; the second area runs out of frames and leaves the child's page 16 alone
  obtain ⟨s₁, s, forked, handled, kept, listed⟩ : ∃ s₁ s,
      forkPage ⟨16, 17, true, false⟩
        ⟨predictedParent.pageTable, PageTable.empty, predictedParent.scManager, OrdMap.empty,
          ⟨fun _ => 0, 0⟩, [2, 3, 4], [16]⟩ 16 ⟨100, false, true⟩ = some (.ok s₁) ∧
      forkHandlers
        ⟨predictedParent.pageTable, PageTable.empty, predictedParent.scManager, OrdMap.empty,
          ⟨fun _ => 0, 0⟩, [2, 3, 4], predictedParent.predict.insertionSort (· ≤ ·)⟩
        predictedParent.handlers = some (s, some (⟨2 ^ 18, 2 ^ 18 + 1, true, false⟩, .ENOMEM)) ∧
      s.dst.leaf 16 = s₁.dst.leaf 16 ∧ (s.dst.validEntries 16 17).map Prod.fst = [16] :=
    ⟨_, _, rfl, rfl, rfl, rfl⟩
  obtain ⟨frame, found⟩ := forkPage_private forked rfl rfl rfl
  -- the outer rollback meets that page at the first area, and asserts it is shared
  have panics : rollbackDone ⟨16, 17, true, false⟩
      { s with counters := s.newSm.checkRemoveAll s.counters, newSm := OrdMap.empty } [16] = none :=
    rollbackDone_eq_none_of_unshared (by decide) List.mem_cons_self (kept.trans found) rfl
  have handlers : predictedParent.handlers = twoAreas := rfl
  unfold fork
  dsimp only
  rw [handled]
  simp only [Option.bind_eq_bind, Option.bind_some, handlers, twoAreas, rollbackHandlers]
  simp [listed, panics]

end Memory

end FtlOs
